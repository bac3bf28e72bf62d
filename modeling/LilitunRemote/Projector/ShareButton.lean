import LilitunRemote.Foundation.Transition
import LilitunRemote.Protocol.Wire
import Mathlib.Data.List.Basic

/-! # The share button and the thread behind it

A click turns the light button over and then calls `cb_share_button`, which starts a
projector thread or clears `is_started`; the thread lives until `projector_connect` is
done, and then clears the button. Clicks and the thread's end hold the lock of the user
interface, so they are single steps; the thread's other steps come in between.
-/
namespace LilitunRemote
namespace Projector

inductive Label
  | startRemoteControl | stopRemoteControl
  deriving DecidableEq, Repr

inductive ThreadPhase
  | poll | connect | sleep | finish | clear
  deriving DecidableEq, Repr

structure Worker where
  projector : ℕ
  phase : ThreadPhase
  deriving DecidableEq, Repr

structure App where
  value : Bool
  label : Label
  isStarted : Bool
  /-- The threads, latest first. -/
  workers : List Worker
  /-- The projectors handed to `projector_finish`. -/
  finished : List ℕ
  /-- How many projectors `projector_init` has made. -/
  count : ℕ
  deriving DecidableEq, Repr

/-- What a start runs into: whether `projector_init` gives a projector, and whether the
thread can be created. -/
structure Attempt where
  init : Bool
  created : Bool
  deriving DecidableEq, Repr

def Attempt.succeeds (attempt : Attempt) : Bool := attempt.init && attempt.created

/-- Inside `projector_connect`: it may clear `is_started`, and returns at some time. -/
inductive Connect
  | clearsStarted
  | returns (status : Status)
  deriving DecidableEq, Repr

inductive ButtonEvent
  | click (attempt : Attempt)
  | thread (i : ℕ) (connect : Connect)
  deriving DecidableEq, Repr

namespace App

/-- The calls from `projector_init` on; a failure that ends the process is no step. -/
def projectorStart (s : App) (attempt : Attempt) : App × Bool :=
  if attempt.init then
    let s := { s with count := s.count + 1, isStarted := true, label := .stopRemoteControl }
    if attempt.created then ({ s with workers := ⟨s.count - 1, .poll⟩ :: s.workers }, true)
    else ({ s with isStarted := false, label := .startRemoteControl }, false)
  else (s, false)

def projectorStop (s : App) : App := { s with isStarted := false }

def cbShareButton (s : App) (attempt : Attempt) : App :=
  if s.value then
    let (t, ok) := s.projectorStart attempt
    if ok then t else { t with value := false }
  else { s with value := true }.projectorStop

/-- A light button turns over before its callback runs. -/
def click (s : App) (attempt : Attempt) : App := { s with value := !s.value }.cbShareButton attempt

def setPhase (s : App) (i : ℕ) (w : Worker) (phase : ThreadPhase) : App := { s with workers := s.workers.set i { w with phase := phase } }

def threadStep (s : App) (i : ℕ) (w : Worker) (connect : Connect) : App :=
  match w.phase, connect with
  | .poll, _ => s.setPhase i w (if s.isStarted then .connect else .finish)
  | .connect, .clearsStarted => { s with isStarted := false }
  | .connect, .returns status => s.setPhase i w (if status = .connectionError then .sleep else .finish)
  | .sleep, _ => s.setPhase i w .poll
  | .finish, _ => { s.setPhase i w .clear with finished := w.projector :: s.finished }
  | .clear, _ => { s with workers := s.workers.eraseIdx i, label := .startRemoteControl, value := false }

def step (s : App) : ButtonEvent → Option App
  | .click attempt => some (s.click attempt)
  | .thread i connect => (s.workers[i]?).map (fun w => s.threadStep i w connect)

/-- `main` lights the button itself and ignores what the start returns. -/
def main (attempt : Attempt) : App := (projectorStart ⟨true, .startRemoteControl, false, [], [], 0⟩ attempt).1

/-! ## What holds in every run -/

/-- No thread: the button is dark, or lit for good when the start in `main` failed.
One thread: the button is lit, and its projector is its own until it is finished. -/
inductive Ok (attempt : Attempt) (s : App) : Prop
  | idle (hworkers : s.workers = []) (hvalue : s.value = !attempt.succeeds) (hlabel : s.label = .startRemoteControl)
  | running (w : Worker) (hworkers : s.workers = [w]) (hvalue : s.value = true) (hlabel : s.label = .stopRemoteControl)
      (hsucceeds : attempt.succeeds = true) (hcount : w.projector < s.count)
      (hown : w.projector ∈ s.finished ↔ w.phase = .clear)

structure Counted (s : App) : Prop where
  nodup : s.finished.Nodup
  below : ∀ p ∈ s.finished, p < s.count

variable {s t : App} {attempt first : Attempt} {i : ℕ} {w : Worker} {connect : Connect}

/-- A click on the lit button only clears `is_started`. -/
theorem click_lit (h : s.value = true) : s.click attempt = { s with isStarted := false } := by
  simp [click, cbShareButton, projectorStop, h]

/-- A click on the dark button starts a thread, or leaves the button dark. -/
theorem click_dark (h : s.value = false) (hlabel : s.label = .startRemoteControl) :
    (attempt.succeeds = true ∧ s.click attempt =
      { s with
        value := true, label := .stopRemoteControl, isStarted := true, workers := ⟨s.count, .poll⟩ :: s.workers
        count := s.count + 1 }) ∨
      (attempt.succeeds = false ∧ ∃ started count, s.count ≤ count ∧
        s.click attempt = { s with isStarted := started, count := count }) := by
  obtain ⟨init, created⟩ := attempt
  cases init with
  | false => exact Or.inr ⟨rfl, s.isStarted, s.count, le_rfl, by simp [click, cbShareButton, projectorStart, h]⟩
  | true =>
    cases created with
    | false =>
      refine Or.inr ⟨rfl, false, s.count + 1, by omega, ?_⟩
      simp [click, cbShareButton, projectorStart, h, hlabel]
    | true => exact Or.inl ⟨rfl, by simp [click, cbShareButton, projectorStart, h]⟩

theorem main_ok (first : Attempt) : Ok first (main first) ∧ Counted (main first) := by
  obtain ⟨init, created⟩ := first
  cases init with
  | false => exact ⟨.idle rfl rfl rfl, List.nodup_nil, by simp [main, projectorStart]⟩
  | true =>
    cases created with
    | false => exact ⟨.idle rfl rfl rfl, List.nodup_nil, by simp [main, projectorStart]⟩
    | true =>
      refine ⟨.running ⟨0, .poll⟩ rfl rfl rfl rfl ?_ ?_, List.nodup_nil, ?_⟩ <;> simp [main, projectorStart]

theorem click_ok (h : Ok first s) (hc : Counted s) (attempt : Attempt) : Ok first (s.click attempt) ∧ Counted (s.click attempt) := by
  cases h with
  | running w hworkers hvalue hlabel hsucceeds hcount hown =>
    rw [click_lit hvalue]
    exact ⟨.running w hworkers hvalue hlabel hsucceeds hcount hown, hc.nodup, hc.below⟩
  | idle hworkers hvalue hlabel =>
    cases hfirst : first.succeeds with
    | false =>
      rw [hfirst] at hvalue
      rw [click_lit hvalue]
      exact ⟨.idle hworkers (by rw [hfirst]; exact hvalue) hlabel, hc.nodup, hc.below⟩
    | true =>
      rw [hfirst] at hvalue
      rcases @click_dark s attempt hvalue hlabel with ⟨-, hclick⟩ | ⟨-, started, count, hle, hclick⟩
      · rw [hclick]
        have hnew : s.count ∉ s.finished := fun hmem => Nat.lt_irrefl _ (hc.below _ hmem)
        refine ⟨.running ⟨s.count, .poll⟩ (by rw [hworkers]) rfl rfl hfirst (Nat.lt_succ_self _) ?_, hc.nodup, ?_⟩
        · simp [hnew]
        · intro p hp
          exact Nat.lt_succ_of_lt (hc.below p hp)
      · rw [hclick]
        refine ⟨.idle hworkers (by rw [hfirst]; exact hvalue) hlabel, hc.nodup, fun p hp => ?_⟩
        exact Nat.lt_of_lt_of_le (hc.below p hp) hle

theorem thread_ok (h : Ok first s) (hc : Counted s) (hi : s.workers[i]? = some w) (connect : Connect) :
    Ok first (s.threadStep i w connect) ∧ Counted (s.threadStep i w connect) := by
  cases h with
  | idle hworkers hvalue hlabel => simp [hworkers] at hi
  | running v hworkers hvalue hlabel hsucceeds hcount hown =>
    obtain ⟨rfl, rfl⟩ : i = 0 ∧ v = w := by
      rw [hworkers] at hi
      cases i with
      | zero => exact ⟨rfl, Option.some.inj hi⟩
      | succ i => simp at hi
    have hmove : ∀ phase, v.phase ≠ .clear → phase ≠ .clear → Ok first (s.setPhase 0 v phase) ∧ Counted (s.setPhase 0 v phase) := by
      intro phase hold hnew
      refine ⟨.running { v with phase := phase } (by simp [setPhase, hworkers]) hvalue hlabel hsucceeds hcount ?_, hc.nodup, hc.below⟩
      simpa [hold, hnew, setPhase] using hown
    unfold threadStep
    cases hphase : v.phase with
    | poll => exact hmove _ (by simp [hphase]) (by split <;> simp)
    | sleep => exact hmove _ (by simp [hphase]) (by simp)
    | connect =>
      cases connect with
      | clearsStarted =>
        exact ⟨.running v hworkers hvalue hlabel hsucceeds hcount hown, hc.nodup, hc.below⟩
      | returns status => exact hmove _ (by simp [hphase]) (by split <;> simp)
    | finish =>
      have hnew : v.projector ∉ s.finished := by simp [hown, hphase]
      refine ⟨.running { v with phase := .clear } (by simp [setPhase, hworkers]) hvalue hlabel hsucceeds hcount (by simp),
        List.nodup_cons.mpr ⟨hnew, hc.nodup⟩, ?_⟩
      intro p hp
      rcases List.mem_cons.mp hp with rfl | hp
      · exact hcount
      · exact hc.below p hp
    | clear => exact ⟨.idle (by simp [hworkers]) (by simp [hsucceeds]) rfl, hc.nodup, hc.below⟩

theorem step_ok {e : ButtonEvent} (h : Ok first s ∧ Counted s) (hstep : s.step e = some t) : Ok first t ∧ Counted t := by
  cases e with
  | click attempt =>
    obtain rfl := Option.some.inj hstep
    exact click_ok h.1 h.2 attempt
  | thread i connect =>
    obtain ⟨w, hw, rfl⟩ := Option.map_eq_some_iff.mp hstep
    exact thread_ok h.1 h.2 hw connect

theorem run_ok {events : List ButtonEvent} (hrun : Transition.run step (main first) events = some s) : Ok first s ∧ Counted s :=
  Transition.run_preserves (fun _ _ _ h hstep => step_ok h hstep) (main_ok first) hrun

/-! ## A stop -/

/-- How many of its moves a thread has left at most once `is_started` is cleared. -/
def movesLeft : ThreadPhase → ℕ
  | .connect => 5
  | .sleep => 4
  | .poll => 3
  | .finish => 2
  | .clear => 1

def ButtonEvent.moves : ButtonEvent → Bool
  | .thread _ (.returns _) => true
  | .thread _ .clearsStarted | .click _ => false

structure Stopping (p n : ℕ) (s : App) : Prop where
  known : p < s.count
  stopped : ∀ w ∈ s.workers, w.projector = p → s.isStarted = false ∧ movesLeft w.phase ≤ n

theorem Stopping.click {p n : ℕ} (h : Stopping p n s) (hok : Ok first s) (attempt : Attempt) :
    Stopping p n (s.click attempt) := by
  have hlit : s.value = true → Stopping p n (s.click attempt) := by
    intro hvalue
    rw [click_lit hvalue]
    exact ⟨h.known, fun w hw hp => ⟨rfl, (h.stopped w hw hp).2⟩⟩
  cases hok with
  | running w hworkers hvalue hlabel hsucceeds hcount hown => exact hlit hvalue
  | idle hworkers hvalue hlabel =>
    cases hdark : s.value with
    | true => exact hlit hdark
    | false =>
      rcases @click_dark s attempt hdark hlabel with ⟨-, hclick⟩ | ⟨-, started, count, hle, hclick⟩
      · rw [hclick]
        refine ⟨Nat.lt_succ_of_lt h.known, fun w hw hp => ?_⟩
        obtain rfl : w = ⟨s.count, .poll⟩ := by simpa [hworkers] using hw
        exact absurd hp (Nat.ne_of_gt h.known)
      · rw [hclick]
        exact ⟨Nat.lt_of_lt_of_le h.known hle, by simp [hworkers]⟩

theorem Stopping.thread {p n : ℕ} (h : Stopping p n s) (hok : Ok first s) (hi : s.workers[i]? = some w) (connect : Connect) :
    Stopping p (if connect = .clearsStarted then n else n - 1) (s.threadStep i w connect) := by
  cases hok with
  | idle hworkers hvalue hlabel => simp [hworkers] at hi
  | running v hworkers hvalue hlabel hsucceeds hcount hown =>
    obtain ⟨rfl, rfl⟩ : i = 0 ∧ v = w := by
      rw [hworkers] at hi
      cases i with
      | zero => exact ⟨rfl, Option.some.inj hi⟩
      | succ i => simp at hi
    -- the thread moves on, and is still told to stop
    have hmove : ∀ phase t, t = s.setPhase 0 v phase ∨ t = { s.setPhase 0 v phase with finished := t.finished } →
        (s.isStarted = false → movesLeft phase + 1 ≤ movesLeft v.phase) →
        Stopping p (if connect = .clearsStarted then n else n - 1) t := by
      intro phase t ht hless
      have hworkers' : t.workers = [{ v with phase := phase }] := by
        rcases ht with rfl | ht
        · simp [setPhase, hworkers]
        · rw [ht]
          simp [setPhase, hworkers]
      have hstarted : t.isStarted = s.isStarted := by
        rcases ht with rfl | ht
        · rfl
        · rw [ht]
          rfl
      have hcount' : t.count = s.count := by
        rcases ht with rfl | ht
        · rfl
        · rw [ht]
          rfl
      refine ⟨hcount' ▸ h.known, fun w hw hp => ?_⟩
      obtain rfl : w = { v with phase := phase } := by simpa [hworkers'] using hw
      obtain ⟨hstop, hleft⟩ := h.stopped v (by simp [hworkers]) hp
      refine ⟨hstarted.trans hstop, ?_⟩
      have := hless hstop
      show movesLeft phase ≤ _
      split <;> omega
    unfold threadStep
    cases hphase : v.phase with
    | poll =>
      refine hmove _ _ (Or.inl rfl) (fun hstop => ?_)
      simp [hstop, hphase, movesLeft]
    | sleep => exact hmove _ _ (Or.inl rfl) (by simp [hphase, movesLeft])
    | connect =>
      cases connect with
      | clearsStarted => exact ⟨h.known, fun w hw hp => ⟨rfl, (h.stopped w hw hp).2⟩⟩
      | returns status =>
        refine hmove _ _ (Or.inl rfl) (fun _ => ?_)
        split <;> simp [hphase, movesLeft]
    | finish => exact hmove .clear _ (Or.inr rfl) (by simp [hphase, movesLeft])
    | clear => exact ⟨h.known, by simp [hworkers]⟩

theorem Stopping.run {p n : ℕ} {events : List ButtonEvent} (h : Stopping p n s) (hok : Ok first s ∧ Counted s)
    (hrun : Transition.run step s events = some t) : Stopping p (n - events.countP ButtonEvent.moves) t := by
  induction events generalizing s n with
  | nil =>
    obtain rfl := Option.some.inj hrun
    simpa using h
  | cons e events ih =>
    obtain ⟨u, hu, hrest⟩ := Transition.run_cons.mp hrun
    have hok' := step_ok hok hu
    cases e with
    | click attempt =>
      obtain rfl := Option.some.inj hu
      simpa [ButtonEvent.moves] using ih (h.click hok.1 attempt) hok' hrest
    | thread i connect =>
      obtain ⟨w, hw, rfl⟩ := Option.map_eq_some_iff.mp hu
      have hnext := ih (h.thread hok.1 hw connect) hok' hrest
      cases connect with
      | clearsStarted => simpa [ButtonEvent.moves] using hnext
      | returns status =>
        rw [List.countP_cons_of_pos rfl, Nat.add_comm, ← Nat.sub_sub]
        simpa using hnext

/-- The state in which the first thread is inside `projector_connect`. -/
def connected : App := ⟨true, .stopRemoteControl, true, [⟨0, .connect⟩], [], 1⟩

end App
end Projector
end LilitunRemote

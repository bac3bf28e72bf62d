import LilitunRemote.Foundation.Transition
import LilitunRemote.Projector.Thread
import Mathlib.Data.List.Basic
import Mathlib.Logic.Function.Basic

/-! # The accept loop and the threads it creates

The server branch of `projector_connect`: it accepts clients until `is_started` is
cleared, gives each of them an `http_thread`, and then waits until `threads_list` is
empty. A thread puts itself on the list when it first runs and takes itself off before
it ends; `threads_list_mutex` guards both and the emptiness check.
-/
namespace LilitunRemote
namespace Projector

inductive Stage
  | lockToAdd
  | addData
  | unlockAdded
  | detach
  | session (thread : Thread)
  | lockToRemove
  | removeData
  | unlockRemoved
  | freeVars
  | ended

namespace Stage

def isUnregistered : Stage → Bool
  | lockToAdd | addData => true
  | _ => false

def isLeaving : Stage → Bool
  | unlockRemoved | freeVars => true
  | _ => false

def isEnded : Stage → Bool
  | ended => true
  | _ => false

def isRegistered (stage : Stage) : Bool := !stage.isUnregistered && !stage.isLeaving && !stage.isEnded

end Stage

inductive Point
  | poll
  | select
  | accept
  | recheck
  | create
  | again
  | lockToCheck
  | checkList
  | unlockChecked (active : Bool)
  | closeServer
  | destroyMutex
  | freePath
  | returned
  deriving DecidableEq, Repr

def Point.isPastWait : Point → Bool
  | unlockChecked active => !active
  | closeServer | destroyMutex | freePath | returned => true
  | _ => false

inductive Holder
  | connect
  | thread (i : ℕ)
  deriving DecidableEq, Repr

structure Listener where
  point : Point
  started : Bool
  stages : ℕ → Option Stage
  created : ℕ
  threadsList : List ℕ
  mutex : Option Holder

def Listener.initial : Listener := ⟨.poll, true, fun _ => none, 0, [], none⟩

/-- The actions: another thread clears `is_started`, `projector_connect` moves on with
the outcome of the call it makes, `select` fails, a thread moves on or performs an
effect of its session. -/
inductive ListenerStep
  | clearStarted
  | connect (ok : Bool)
  | selectFails
  | thread (i : ℕ)
  | perform (i : ℕ) (e : Effect) (r : Response e)

namespace Listener

/-- A step of `projector_connect`; `ok` tells whether there is a client waiting,
whether it was accepted, and whether its thread could be created. -/
def connectStep (s : Listener) (ok : Bool) : Option Listener :=
  match s.point with
  | .poll => some { s with point := if s.started then .select else .recheck }
  | .select => some { s with point := if ok then .accept else .poll }
  | .accept => some { s with point := if ok then .recheck else .poll }
  | .recheck => some { s with point := if s.started then .create else .lockToCheck }
  | .create =>
    if ok then
      some { s with
        point := .again
        stages := Function.update s.stages s.created (some .lockToAdd)
        created := s.created + 1 }
    else some { s with point := .lockToCheck, started := false }
  | .again => some { s with point := if s.started then .poll else .lockToCheck }
  | .lockToCheck => if s.mutex = none then some { s with point := .checkList, mutex := some .connect } else none
  | .checkList => some { s with point := .unlockChecked (!s.threadsList.isEmpty) }
  | .unlockChecked active =>
    some { s with point := if active then .lockToCheck else .closeServer, mutex := none }
  | .closeServer => some { s with point := .destroyMutex }
  | .destroyMutex => some { s with point := .freePath }
  | .freePath => some { s with point := .returned }
  | .returned => none

def moveTo (s : Listener) (i : ℕ) (stage : Stage) : Listener :=
  { s with stages := Function.update s.stages i (some stage) }

def threadStep (v : Vars) (s : Listener) (i : ℕ) : Stage → Option Listener
  | .lockToAdd => if s.mutex = none then some { s.moveTo i .addData with mutex := some (.thread i) } else none
  | .addData => some { s.moveTo i .unlockAdded with threadsList := i :: s.threadsList }
  | .unlockAdded => some { s.moveTo i .detach with mutex := none }
  | .detach => some (s.moveTo i (.session (httpThread v)))
  | .session _ => none
  | .lockToRemove => if s.mutex = none then some { s.moveTo i .removeData with mutex := some (.thread i) } else none
  | .removeData => some { s.moveTo i .unlockRemoved with threadsList := s.threadsList.erase i }
  | .unlockRemoved => some { s.moveTo i .freeVars with mutex := none }
  | .freeVars => some (s.moveTo i .ended)
  | .ended => none

def answers (s : Listener) : (e : Effect) → Response e → Bool
  | .isStarted, r => r == s.started
  | .tcpRead len, got => decide (got.length ≤ len)
  | _, _ => true

def startedAfter (s : Listener) : Effect → Bool
  | .stop => false
  | _ => s.started

def afterSession (v : Vars) (next : Thread) : Stage :=
  match next.resume (body v) with
  | .ret (Sum.inr ()) => .lockToRemove
  | p => .session p

def step (v : Vars) (s : Listener) : ListenerStep → Option Listener
  | .clearStarted => some { s with started := false }
  | .connect ok => s.connectStep ok
  | .selectFails => if s.point = .select then some { s with point := .recheck } else none
  | .thread i => (s.stages i).bind (s.threadStep v i)
  | .perform i e r =>
    match s.stages i with
    | some (.session thread) =>
      if s.answers e r then
        (thread.feed e r).map (fun next => { s.moveTo i (afterSession v next) with started := s.startedAfter e })
      else none
    | _ => none

def noThread (s : Listener) (part : Stage → Bool) : Prop := ∀ i < s.created, (s.stages i).any part = false

instance (s : Listener) (part : Stage → Bool) : Decidable (s.noThread part) :=
  inferInstanceAs (Decidable (∀ i < s.created, _))

/-- Every created thread has registered itself when the list is found empty, and no
thread is still on its way out when `projector_connect` returns. -/
def ThreadsSettled (s : Listener) : ListenerStep → Prop
  | .connect _ =>
    (s.point = .checkList → s.threadsList = [] → s.noThread Stage.isUnregistered) ∧
      (s.point = .freePath → s.noThread Stage.isLeaving)
  | _ => True

instance (s : Listener) : (a : ListenerStep) → Decidable (s.ThreadsSettled a)
  | .connect _ => inferInstanceAs (Decidable (_ ∧ _))
  | .clearStarted | .selectFails | .thread _ | .perform .. => isTrue trivial

/-! ## The invariant -/

/-- The list holds exactly the registered threads, and after the wait none of them is
left. -/
structure Tracked (s : Listener) : Prop where
  fresh : ∀ i, s.created ≤ i → s.stages i = none
  nodup : s.threadsList.Nodup
  listed : ∀ i, i ∈ s.threadsList ↔ ∃ stage, s.stages i = some stage ∧ stage.isRegistered = true
  settled : s.point.isPastWait = true → ∀ i stage, s.stages i = some stage → stage.isLeaving = true ∨ stage.isEnded = true
  returned : s.point = .returned → ∀ i stage, s.stages i = some stage → stage.isEnded = true

theorem initial_tracked : initial.Tracked :=
  ⟨fun _ _ => rfl, List.nodup_nil, fun _ => ⟨(fun h => nomatch h), (fun ⟨_, h, _⟩ => nomatch h)⟩,
    (fun h => nomatch h), (fun h => nomatch h)⟩

theorem Tracked.goTo {s : Listener} (h : s.Tracked) {point : Point} (started : Bool) (mutex : Option Holder)
    (hpast : point.isPastWait = true →
      ∀ i stage, s.stages i = some stage → stage.isLeaving = true ∨ stage.isEnded = true)
    (hreturned : point = .returned → ∀ i stage, s.stages i = some stage → stage.isEnded = true) :
    ({ s with point := point, started := started, mutex := mutex } : Listener).Tracked :=
  ⟨h.fresh, h.nodup, h.listed, hpast, hreturned⟩

theorem Tracked.waiting {s : Listener} (h : s.Tracked) {point : Point} (hpoint : point.isPastWait = false)
    (started : Bool) (mutex : Option Holder) :
    ({ s with point := point, started := started, mutex := mutex } : Listener).Tracked := by
  refine h.goTo started mutex (fun hp => ?_) ?_
  · rw [hpoint] at hp
    cases hp
  · rintro rfl
    cases hpoint

theorem Tracked.moveTo {s : Listener} (h : s.Tracked) {i : ℕ} {stage stage' : Stage} (hi : s.stages i = some stage)
    {list : List ℕ} (hnodup : list.Nodup) (hothers : ∀ j, j ≠ i → (j ∈ list ↔ j ∈ s.threadsList))
    (hself : i ∈ list ↔ stage'.isRegistered = true)
    (hout : stage.isLeaving = true ∨ stage.isEnded = true → stage'.isLeaving = true ∨ stage'.isEnded = true)
    (hended : stage.isEnded = true → stage'.isEnded = true) (started : Bool) (mutex : Option Holder) :
    ({ s.moveTo i stage' with threadsList := list, started := started, mutex := mutex } : Listener).Tracked := by
  have hcases : ∀ j st, Function.update s.stages i (some stage') j = some st →
      (j = i ∧ st = stage') ∨ (j ≠ i ∧ s.stages j = some st) := by
    intro j st hj
    by_cases hji : j = i
    · subst hji
      rw [Function.update_self] at hj
      exact Or.inl ⟨rfl, (Option.some.inj hj).symm⟩
    · rw [Function.update_of_ne hji] at hj
      exact Or.inr ⟨hji, hj⟩
  refine ⟨?_, hnodup, ?_, ?_, ?_⟩
  · intro j hj
    have hji : j ≠ i := by
      rintro rfl
      rw [h.fresh j hj] at hi
      cases hi
    exact (Function.update_of_ne hji _ _).trans (h.fresh j hj)
  · intro j
    by_cases hji : j = i
    · subst hji
      rw [hself]
      exact ⟨fun hr => ⟨stage', Function.update_self .., hr⟩, fun ⟨st, hst, hr⟩ => by
        obtain ⟨_, rfl⟩ | ⟨hne, _⟩ := hcases j st hst
        · exact hr
        · exact absurd rfl hne⟩
    · rw [hothers j hji, h.listed j]
      change _ ↔ ∃ st, Function.update s.stages i (some stage') j = some st ∧ _
      rw [Function.update_of_ne hji]
  · intro hp j st hst
    obtain ⟨_, rfl⟩ | ⟨_, hj⟩ := hcases j st hst
    · exact hout (h.settled hp i stage hi)
    · exact h.settled hp j st hj
  · intro hp j st hst
    obtain ⟨_, rfl⟩ | ⟨_, hj⟩ := hcases j st hst
    · exact hended (h.returned hp i stage hi)
    · exact h.returned hp j st hj

theorem Tracked.stay {s : Listener} (h : s.Tracked) {i : ℕ} {stage : Stage} (stage' : Stage) (hi : s.stages i = some stage)
    (hregistered : stage'.isRegistered = stage.isRegistered)
    (hout : stage.isLeaving = true ∨ stage.isEnded = true → stage'.isLeaving = true ∨ stage'.isEnded = true)
    (hended : stage.isEnded = true → stage'.isEnded = true) (started : Bool) (mutex : Option Holder) :
    ({ s.moveTo i stage' with started := started, mutex := mutex } : Listener).Tracked := by
  refine h.moveTo hi h.nodup (fun _ _ => Iff.rfl) ?_ hout hended started mutex
  rw [h.listed i, hregistered]
  exact ⟨fun ⟨st, hst, hr⟩ => by rw [hi] at hst; exact Option.some.inj hst ▸ hr, fun hr => ⟨stage, hi, hr⟩⟩

theorem threadStep_tracked {v : Vars} {s t : Listener} {i : ℕ} {stage : Stage} (h : s.Tracked)
    (hi : s.stages i = some stage) (ht : s.threadStep v i stage = some t) : t.Tracked := by
  cases stage with
  | lockToAdd =>
    simp only [threadStep, Option.ite_none_right_eq_some, Option.some.injEq] at ht
    obtain ⟨_, rfl⟩ := ht
    exact h.stay .addData hi rfl (by decide) (by decide) s.started _
  | addData =>
    obtain rfl := Option.some.inj ht
    have hnot : i ∉ s.threadsList := by
      rw [h.listed i]
      rintro ⟨st, hst, hr⟩
      rw [hi] at hst
      obtain rfl := Option.some.inj hst
      cases hr
    refine h.moveTo hi (List.nodup_cons.mpr ⟨hnot, h.nodup⟩) (fun j hj => ?_) ?_ (by decide) (by decide) s.started s.mutex
    · rw [List.mem_cons]
      exact ⟨fun hm => hm.resolve_left hj, Or.inr⟩
    · exact ⟨fun _ => rfl, fun _ => List.mem_cons_self⟩
  | unlockAdded =>
    obtain rfl := Option.some.inj ht
    exact h.stay .detach hi rfl (by decide) (by decide) s.started _
  | detach =>
    obtain rfl := Option.some.inj ht
    exact h.stay (.session (httpThread v)) hi rfl (fun hout => by simp [Stage.isLeaving, Stage.isEnded] at hout)
      (fun hended => nomatch hended) s.started s.mutex
  | session thread => cases ht
  | lockToRemove =>
    simp only [threadStep, Option.ite_none_right_eq_some, Option.some.injEq] at ht
    obtain ⟨_, rfl⟩ := ht
    exact h.stay .removeData hi rfl (by decide) (by decide) s.started _
  | removeData =>
    obtain rfl := Option.some.inj ht
    refine h.moveTo hi (h.nodup.erase i) (fun j hj => List.mem_erase_of_ne hj) ?_ (by decide) (by decide) s.started s.mutex
    exact ⟨fun hm => absurd hm h.nodup.not_mem_erase, fun hr => nomatch hr⟩
  | unlockRemoved =>
    obtain rfl := Option.some.inj ht
    exact h.stay .freeVars hi rfl (by decide) (by decide) s.started _
  | freeVars =>
    obtain rfl := Option.some.inj ht
    exact h.stay .ended hi rfl (by decide) (by decide) s.started s.mutex
  | ended => cases ht

theorem afterSession_registered (v : Vars) (next : Thread) : (afterSession v next).isRegistered = true := by
  unfold afterSession
  split <;> rfl

theorem create_tracked {s : Listener} (h : s.Tracked) :
    ({ s with point := .again, stages := Function.update s.stages s.created (some .lockToAdd), created := s.created + 1 } :
      Listener).Tracked := by
  have hnew := h.fresh s.created (Nat.le_refl _)
  refine ⟨?_, h.nodup, ?_, (fun hp => nomatch hp), (fun hp => nomatch hp)⟩
  · intro i hi
    have hlt : s.created < i := hi
    exact (Function.update_of_ne (by omega) _ _).trans (h.fresh i (by omega))
  · intro i
    change _ ↔ ∃ st, Function.update s.stages s.created (some .lockToAdd) i = some st ∧ _
    rw [h.listed i]
    by_cases hi : i = s.created
    · subst hi
      rw [Function.update_self, hnew]
      exact ⟨(fun ⟨_, hst, _⟩ => nomatch hst), fun ⟨_, hst, hr⟩ => by
        obtain rfl := Option.some.inj hst
        cases hr⟩
    · rw [Function.update_of_ne hi]

theorem noThread_stage {s : Listener} (h : s.Tracked) {part : Stage → Bool} (hno : s.noThread part) {i : ℕ}
    {stage : Stage} (hi : s.stages i = some stage) : part stage = false := by
  have hlt : i < s.created := by
    by_contra hge
    rw [h.fresh i (by omega)] at hi
    cases hi
  simpa [hi] using hno i hlt

/-- With every thread registered, an empty list means that none of them is in its session. -/
theorem checked_settled {s : Listener} (h : s.Tracked) (hempty : s.threadsList = [])
    (hno : s.noThread Stage.isUnregistered) {i : ℕ} {stage : Stage} (hi : s.stages i = some stage) :
    stage.isLeaving = true ∨ stage.isEnded = true := by
  have hunlisted : stage.isRegistered = false := by
    by_contra hr
    have hmem := (h.listed i).mpr ⟨stage, hi, by simpa using hr⟩
    rw [hempty] at hmem
    cases hmem
  have hunregistered := noThread_stage h hno hi
  rw [Stage.isRegistered, hunregistered] at hunlisted
  revert hunlisted
  cases stage.isLeaving <;> cases stage.isEnded <;> simp

theorem connectStep_tracked {s t : Listener} {ok : Bool} (h : s.Tracked) (hsettled : s.ThreadsSettled (.connect ok))
    (ht : s.connectStep ok = some t) : t.Tracked := by
  obtain ⟨hcheck, hreturn⟩ := hsettled
  have hpast := h.settled
  unfold connectStep at ht
  cases hpoint : s.point with
  | poll | select | accept | recheck | again =>
    simp only [hpoint] at ht
    obtain rfl := Option.some.inj ht
    exact h.waiting (by split <;> rfl) s.started s.mutex
  | create =>
    simp only [hpoint] at ht
    cases ok with
    | true => exact Option.some.inj ht ▸ create_tracked h
    | false => exact Option.some.inj ht ▸ h.waiting rfl false s.mutex
  | lockToCheck =>
    simp only [hpoint, Option.ite_none_right_eq_some, Option.some.injEq] at ht
    obtain ⟨_, rfl⟩ := ht
    exact h.waiting rfl s.started _
  | checkList =>
    simp only [hpoint] at ht
    obtain rfl := Option.some.inj ht
    refine h.goTo s.started s.mutex (fun hp i stage hi => ?_) (fun hp => nomatch hp)
    have hempty : s.threadsList = [] := by simpa [Point.isPastWait] using hp
    exact checked_settled h hempty (hcheck hpoint hempty) hi
  | unlockChecked active =>
    simp only [hpoint] at ht
    obtain rfl := Option.some.inj ht
    cases active with
    | true => exact h.waiting rfl s.started none
    | false => exact h.goTo s.started none (fun _ => hpast (by rw [hpoint]; rfl)) (fun hp => nomatch hp)
  | closeServer | destroyMutex =>
    simp only [hpoint] at ht
    obtain rfl := Option.some.inj ht
    exact h.goTo s.started s.mutex (fun _ => hpast (by rw [hpoint]; rfl)) (fun hp => nomatch hp)
  | freePath =>
    simp only [hpoint] at ht
    obtain rfl := Option.some.inj ht
    have hout := hpast (by rw [hpoint]; rfl)
    refine h.goTo s.started s.mutex (fun _ => hout) (fun _ i stage hi => (hout i stage hi).resolve_left ?_)
    rw [noThread_stage h (hreturn hpoint) hi]
    exact Bool.false_ne_true
  | returned =>
    simp only [hpoint] at ht
    cases ht

theorem step_tracked {v : Vars} {s t : Listener} {a : ListenerStep} (h : s.Tracked) (hsettled : s.ThreadsSettled a)
    (ht : s.step v a = some t) : t.Tracked := by
  cases a with
  | clearStarted =>
    obtain rfl := Option.some.inj ht
    exact h.goTo false s.mutex h.settled h.returned
  | connect ok => exact connectStep_tracked h hsettled ht
  | selectFails =>
    simp only [step, Option.ite_none_right_eq_some, Option.some.injEq] at ht
    obtain ⟨_, rfl⟩ := ht
    exact h.goTo s.started s.mutex (fun hp => nomatch hp) (fun hp => nomatch hp)
  | thread i =>
    obtain ⟨stage, hi, ht⟩ := Option.bind_eq_some_iff.mp ht
    exact threadStep_tracked h hi ht
  | perform i e r =>
    simp only [step] at ht
    split at ht
    · next thread hi =>
      simp only [Option.ite_none_right_eq_some, Option.map_eq_some_iff] at ht
      obtain ⟨_, next, _, rfl⟩ := ht
      refine h.stay _ hi (afterSession_registered v next) ?_ ?_ _ s.mutex
      · rintro (hl | he)
        · cases hl
        · cases he
      · intro he
        cases he
    · cases ht

/-- When `projector_connect` returns, no thread it created is still running, in every
interleaving in which the empty list is only seen with all created threads registered
and the return only happens after the threads on their way out have ended. -/
theorem no_thread_after_return (v : Vars) (acts : List ListenerStep) (s : Listener)
    (hsettled : Transition.Guarded (step v) ThreadsSettled initial acts)
    (hrun : Transition.run (step v) initial acts = some s) (hreturned : s.point = .returned) :
    ∀ i stage, s.stages i = some stage → stage = .ended := by
  have htracked := Transition.run_preserves_guarded (fun _ _ _ h hs ht => step_tracked h hs ht) initial_tracked
    hsettled hrun
  intro i stage hi
  have hended := htracked.returned hreturned i stage hi
  cases stage <;> first | rfl | cases hended

/-- The configuration of a WebSocket server on a small screen. -/
def serverVars : Vars := ⟨true, true, screen16, [], [], []⟩

def onePage : List ListenerStep :=
  [.connect true, .connect true, .connect true, .connect true, .connect true, .clearStarted, .connect true,
    .thread 0, .thread 0, .thread 0, .thread 0, .perform 0 .connectionUpgrade false,
    .connect true, .connect true, .connect true,
    .perform 0 .answerHttp (), .thread 0, .thread 0, .thread 0, .thread 0,
    .connect true, .connect true, .connect true, .connect true, .connect true, .connect true]

theorem onePage_ended : ∃ s, Transition.run (step serverVars) initial onePage = some s ∧ s.point = .returned ∧
    s.created = 1 ∧ ∀ i stage, s.stages i = some stage → stage = .ended := by
  have hrun : (Transition.run (step serverVars) initial onePage).map (fun s => (s.point, s.created)) =
      some (.returned, 1) := by decide +kernel
  obtain ⟨s, hs, hdata⟩ := Option.map_eq_some_iff.mp hrun
  obtain ⟨hpoint, hcreated⟩ := Prod.mk.inj hdata
  exact ⟨s, hs, hpoint, hcreated,
    no_thread_after_return serverVars onePage s (by decide +kernel) hs hpoint⟩

/-- A thread is created and does not run before `is_started` is cleared. -/
def lateThread : List ListenerStep :=
  [.connect true, .connect true, .connect true, .connect true, .connect true, .clearStarted, .connect true,
    .connect true, .connect true, .connect true, .connect true, .connect true, .connect true]

theorem lateThread_runs_after_return : ∃ s, Transition.run (step serverVars) initial lateThread = some s ∧
    s.point = .returned ∧ ∃ stage, s.stages 0 = some stage ∧ stage.isUnregistered = true ∧ stage ≠ .ended := by
  have hrun : (Transition.run (step serverVars) initial lateThread).map
      (fun s => (s.point, (s.stages 0).map Stage.isUnregistered)) = some (.returned, some true) := by
    decide +kernel
  obtain ⟨s, hs, hdata⟩ := Option.map_eq_some_iff.mp hrun
  obtain ⟨hpoint, hstage⟩ := Prod.mk.inj hdata
  obtain ⟨stage, hi, hunregistered⟩ := Option.map_eq_some_iff.mp hstage
  refine ⟨s, hs, hpoint, stage, hi, hunregistered, ?_⟩
  rintro rfl
  cases hunregistered

end Listener
end Projector
end LilitunRemote

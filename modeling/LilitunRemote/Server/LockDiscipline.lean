import LilitunRemote.Foundation.Transition
import LilitunRemote.Server.Connection
import Mathlib.Logic.Function.Basic

/-! # The discipline of `projector_io_mutex`

The connection thread and any number of callers interleave at every access to the
mutex and to the queue. A thread that follows the discipline locks the mutex,
stores or sends whole records, and unlocks it once. The connection thread leaves
the discipline when it goes round its region loop a second time.
-/
namespace LilitunRemote
namespace Connection

def IsRecord (words : List UInt32) : Prop :=
  (∃ down key, words = [Req.keyboard.code, down, key]) ∨
    ∃ buttons x y wheel, words = [Req.pointer.code, buttons, x, y, wheel]

def Whole (words : List UInt32) : Prop := ∃ records : List (List UInt32), (∀ r ∈ records, IsRecord r) ∧ words = records.flatten

theorem Whole.nil : Whole [] := ⟨[], by simp, rfl⟩

theorem Whole.append {a b : List UInt32} (ha : Whole a) (hb : Whole b) : Whole (a ++ b) := by
  obtain ⟨rs, hrs, rfl⟩ := ha
  obtain ⟨qs, hqs, rfl⟩ := hb
  refine ⟨rs ++ qs, ?_, List.flatten_append.symm⟩
  intro r hr
  rcases List.mem_append.mp hr with hr | hr
  · exact hrs r hr
  · exact hqs r hr

theorem IsRecord.whole {words : List UInt32} (h : IsRecord words) : Whole words := ⟨[words], by simpa using h, by simp⟩

/-! ## The discipline of one thread -/

/-- What a thread does with the mutex: nothing, store the words of a record, send
the queue from its start, or finish sending it. -/
inductive Hold
  | free
  | adding (part : List UInt32)
  | sending (i : ℕ)
  | sentAll (i : ℕ)

namespace Hold

def Allows : Hold → Effect → Prop
  | free, .unlock | free, .overflowing | free, .addInputEvent _ | free, .oldButtons | free, .setPointerOld _
  | free, .sendQueued _ | free, .resetQueue => False
  | free, _ => True
  | adding part, .unlock => part = [] ∨ IsRecord part
  | adding part, .sendQueued i => part = [] ∧ i = 0
  | adding _, .lock | adding _, .resetQueue => False
  | adding _, _ => True
  | sending i, .sendQueued j => j = i
  | sending _, _ => False
  | sentAll _, .resetQueue => True
  | sentAll _, _ => False

def next : Hold → (e : Effect) → Response e → Hold
  | free, .lock, _ => adding []
  | _, .unlock, _ => free
  | adding part, .addInputEvent w, _ => adding (part ++ [w])
  | adding _, .sendQueued i, more | sending _, .sendQueued i, more => if more then sending (i + 1) else sentAll i
  | sentAll _, .resetQueue, _ => adding []
  | h, _, _ => h

end Hold

/-- The answers the discipline rests on: the queue holds no more than its array, and
no region is left after the first. -/
def Expected : (e : Effect) → Response e → Prop
  | .sendQueued i, more => more = true → i < 1024
  | .regionsLeft regions first, _ => first = false → regions = 0
  | _, _ => True

def discipline : Monitor Hold Effect Response where
  ok := Hold.Allows
  step h e r h' := h' = h.next e r ∧ Expected e r

def AtLoop : Loop → Hold → Prop
  | .update, h => h = .free
  | .regions regions first, h => if first = true ∧ regions ≠ 0 then h = .adding [] else h = .free

def AtEnd (h : Hold) (_ : Unit) : Prop := h = .free

abbrev AtRest : Hold → Loop ⊕ Unit → Prop := Monitor.LoopPost AtLoop AtEnd

section Discipline
variable {h : Hold} {α β : Type}

def Keeps (h : Hold) (p : Action α) : Prop := discipline.Obeys h p (fun h' _ => h' = h)

theorem Keeps.bind {p : Action α} {f : α → Action β} {Q : Hold → β → Prop} (hp : Keeps h p)
    (hf : ∀ x, discipline.Obeys h (f x) Q) : discipline.Obeys h (p >>= f) Q := by
  rw [Monitor.obeys_bind]
  refine hp.mono (fun t x ht => ?_)
  rw [ht]
  exact hf x

theorem keeps_pure (x : α) : Keeps h (pure x : Action α) := rfl

theorem keeps_act {e : Effect} (hok : h.Allows e) (hstep : ∀ r, h.next e r = h) : Keeps h (act e) :=
  ⟨hok, fun r _ ht => ht.1.trans (hstep r)⟩

def Quiet (h : Hold) : Prop := h = .free ∨ h = .adding []

theorem keeps_of_talks (hq : Quiet h) {p : Action α} (hp : p.Uses Effect.Talks) : Keeps h p := by
  have htalk : ∀ e : Effect, e.Talks → h.Allows e ∧ ∀ r, h.next e r = h := by
    intro e he
    rcases hq with rfl | rfl <;> cases e <;> first | exact he.elim | exact ⟨trivial, fun _ => rfl⟩
  apply Monitor.obeys_of_uses hp
  · exact fun e he => (htalk e he).1
  · exact fun e r t he ht => ht.1.trans ((htalk e he).2 r)

theorem keeps_introduce (v : Vars) : Keeps (.adding []) (introduce v) := by
  have hq : Quiet (.adding []) := Or.inr rfl
  have hstring : ∀ {f : Option Bytes → Action Bool} (req : Req), Keeps (.adding []) (f none) →
      (∀ s, Keeps (.adding []) (f (some s))) → Keeps (.adding []) (doReqString req >>= f) := by
    intro f req hnone hsome
    refine (keeps_of_talks hq (uses_doReqString req)).bind (fun s => ?_)
    cases s with
    | none => exact hnone
    | some s => exact hsome s
  refine hstring _ (keeps_pure _) (fun _ => hstring _ (keeps_pure _) (fun _ => hstring _ (keeps_pure _) (fun _ => ?_)))
  refine (keeps_of_talks hq (uses_sendUserConnection v)).bind (fun ok => ?_)
  split
  · exact keeps_pure _
  · refine (keeps_of_talks hq (uses_sendUserPassword v)).bind (fun ok => ?_)
    split
    · exact keeps_pure _
    · refine (keeps_act (h := .adding []) (e := .translatorInit) trivial (fun _ => rfl)).bind (fun ok => ?_)
      split
      · exact keeps_pure _
      · exact keeps_act (e := .messageSend) trivial (fun _ => rfl)

theorem sendLoop_obeys (fuel : ℕ) {i : ℕ} (hfuel : fuel + i = 1025) (hi : i ≤ 1024) (h : Hold)
    (hh : h = .sending i ∨ (h = .adding [] ∧ i = 0)) :
    discipline.Obeys h (sendLoop fuel i) (fun h' _ => ∃ j, h' = .sentAll j) := by
  induction fuel generalizing i h with
  | zero => omega
  | succ fuel ih =>
    have hok : h.Allows (.sendQueued i) := by
      rcases hh with rfl | ⟨rfl, rfl⟩
      · exact (rfl : i = i)
      · exact ⟨rfl, rfl⟩
    have hnext : ∀ more : Bool, h.next (.sendQueued i) more = if more then .sending (i + 1) else .sentAll i := by
      intro more
      rcases hh with rfl | ⟨rfl, rfl⟩ <;> rfl
    unfold sendLoop
    rw [Monitor.obeys_bind]
    refine ⟨hok, fun more h' hstep => ?_⟩
    obtain ⟨hstep, hexp⟩ := hstep
    rw [hnext more] at hstep
    cases more with
    | true =>
      have hlt : i < 1024 := hexp rfl
      exact ih (by omega) (by omega) h' (Or.inl hstep)
    | false => exact ⟨i, hstep⟩

theorem keeps_sendInputEvents : Keeps (.adding []) sendInputEvents := by
  unfold sendInputEvents
  refine Monitor.obeys_bind.mpr ((sendLoop_obeys 1025 (i := 0) rfl (by omega) _ (Or.inr ⟨rfl, rfl⟩)).mono ?_)
  rintro h' _ ⟨j, rfl⟩
  exact ⟨trivial, fun _ t ht => ht.1⟩

theorem keeps_flushOnOverflow : Keeps (.adding []) flushOnOverflow := by
  refine (keeps_act (h := .adding []) (e := .overflowing) trivial (fun _ => rfl)).bind (fun full => ?_)
  split
  · exact keeps_sendInputEvents
  · exact keeps_pure ()

theorem addAll_obeys (words part : List UInt32) :
    discipline.Obeys (.adding part) (addAll words) (fun h' _ => h' = .adding (part ++ words)) := by
  induction words generalizing part with
  | nil => simp [addAll]
  | cons w words ih =>
    unfold addAll
    refine Monitor.obeys_bind.mpr ⟨trivial, fun _ t ht => ?_⟩
    rw [show t = .adding (part ++ [w]) from ht.1]
    have hrest := ih (part ++ [w])
    rwa [List.append_assoc, List.singleton_append] at hrest

theorem lock_obeys {f : Unit → Action β} {Q : Hold → β → Prop} (hf : discipline.Obeys (.adding []) (f ()) Q) :
    discipline.Obeys .free (lock >>= f) Q :=
  Monitor.obeys_bind.mpr ⟨trivial, fun _ t ht => by rw [show t = .adding [] from ht.1]; exact hf⟩

theorem unlock_obeys {part : List UInt32} (hpart : part = [] ∨ IsRecord part) {f : Unit → Action β}
    {Q : Hold → β → Prop} (hf : discipline.Obeys .free (f ()) Q) : discipline.Obeys (.adding part) (unlock >>= f) Q :=
  Monitor.obeys_bind.mpr ⟨hpart, fun _ t ht => by rw [show t = .free from ht.1]; exact hf⟩

end Discipline

def Call.thread (c : Call) : Thread := do
  c.run
  return Sum.inr ()

theorem isRecord_keyboardWords (down : Int8) (key : UInt32) : IsRecord (InputQueue.keyboardWords down key) :=
  Or.inl ⟨_, _, rfl⟩

theorem isRecord_pointerWords (buttons x y : Int32) : IsRecord (InputQueue.pointerWords buttons x y) :=
  Or.inr ⟨_, _, _, _, rfl⟩

theorem call_obeys (c : Call) : discipline.Obeys .free c.thread AtRest := by
  have hdone : discipline.Obeys .free (pure (Sum.inr ()) : Thread) AtRest := (rfl : (Hold.free) = .free)
  cases c with
  | keyboard down key =>
    simp only [Call.thread, Call.run, keyboardEvent, Proc.bind_assoc]
    refine lock_obeys (keeps_flushOnOverflow.bind (fun _ => Monitor.obeys_bind.mpr ((addAll_obeys _ []).mono ?_)))
    rintro h' _ rfl
    exact unlock_obeys (Or.inr (isRecord_keyboardWords down key)) hdone
  | pointer buttons x y =>
    simp only [Call.thread, Call.run, pointerEvent, Proc.bind_assoc]
    refine lock_obeys (keeps_flushOnOverflow.bind (fun _ =>
      (keeps_act (h := .adding []) (e := .oldButtons) trivial (fun _ => rfl)).bind (fun old => ?_)))
    split
    · simp only [Proc.bind_assoc]
      refine Monitor.obeys_bind.mpr ((addAll_obeys _ []).mono ?_)
      rintro h' _ rfl
      exact (keeps_act (h := .adding (InputQueue.pointerWords buttons x y)) (e := .setPointerOld _) trivial
        (fun _ => rfl)).bind (fun _ => unlock_obeys (Or.inr (isRecord_pointerWords buttons x y)) hdone)
    · exact unlock_obeys (Or.inl rfl) hdone
  | stop =>
    simp only [Call.thread, Call.run, stopSharing, Proc.bind_assoc]
    exact lock_obeys ((keeps_act (h := .adding []) (e := .requestStop) trivial (fun _ => rfl)).bind (fun _ => unlock_obeys (Or.inl rfl) hdone))

/-! ## The connection thread -/

theorem finish_obeys : discipline.Obeys .free finish AtRest := ⟨trivial, fun _ _ ht => ht.1⟩

theorem giveUp_obeys : discipline.Obeys (.adding []) giveUp AtRest := unlock_obeys (Or.inl rfl) finish_obeys

theorem regionRound_obeys (regions : UInt32) : discipline.Obeys (.adding []) (regionRound regions) AtRest := by
  have hq : Quiet (.adding []) := Or.inr rfl
  have hagain : AtLoop (.regions (regions - 1) false) .free := by simp [AtLoop]
  refine (keeps_of_talks hq uses_doReqScreenUpdateRegion).bind (fun header => ?_)
  cases header with
  | none => exact giveUp_obeys
  | some r =>
    dsimp only
    split
    · exact unlock_obeys (Or.inl rfl) hagain
    · refine (keeps_of_talks hq (uses_tcpReadAll _)).bind (fun pixdata => ?_)
      cases pixdata with
      | none => exact giveUp_obeys
      | some pixdata =>
        apply unlock_obeys (Or.inl rfl)
        refine (keeps_act (h := .free) (e := .drawRegion _) trivial (fun _ => rfl)).bind (fun drawn => ?_)
        split
        · exact finish_obeys
        · exact hagain

theorem update_obeys : discipline.Obeys .free (body .update) AtRest := by
  have hq : Quiet (.adding []) := Or.inr rfl
  refine (keeps_act (h := .free) (e := .isNotExit) trivial (fun _ => rfl)).bind (fun running => ?_)
  split
  · exact finish_obeys
  · refine lock_obeys ((keeps_act (h := .adding []) (e := .stopRequested) trivial (fun _ => rfl)).bind (fun stop => ?_))
    split
    · exact (keeps_of_talks hq (uses_sendUint32 _)).bind (fun _ => giveUp_obeys)
    · refine keeps_sendInputEvents.bind (fun _ => (keeps_of_talks hq uses_doReqScreenUpdate).bind (fun regions => ?_))
      cases regions with
      | none => exact giveUp_obeys
      | some regions =>
        dsimp only
        split
        · next hzero =>
          apply unlock_obeys (Or.inl rfl)
          have hfree : AtLoop (.regions regions true) .free := by simp [AtLoop, hzero]
          exact hfree
        · next hsome =>
          have hheld : AtLoop (.regions regions true) (.adding []) := by simp [AtLoop, hsome]
          exact hheld

/-- Every round keeps the discipline, as long as no region is left after the first. -/
theorem body_obeys (loop : Loop) (h : Hold) (hloop : AtLoop loop h) : discipline.Obeys h (body loop) AtRest := by
  cases loop with
  | update =>
    rw [show h = .free from hloop]
    exact update_obeys
  | regions regions first =>
    have hallow : h.Allows (.regionsLeft regions first) ∧ h.next (.regionsLeft regions first) () = h := by
      simp only [AtLoop] at hloop
      split at hloop <;> subst hloop <;> exact ⟨trivial, rfl⟩
    refine Monitor.obeys_bind.mpr ⟨hallow.1, fun _ h' hstep => ?_⟩
    obtain ⟨hstep, hexp⟩ := hstep
    rw [hallow.2] at hstep
    subst hstep
    by_cases hzero : regions = 0
    · have hfree : h' = .free := by simpa [AtLoop, hzero] using hloop
      simp only [hzero, if_true]
      exact hfree
    · have hfirst : first = true := by
        cases first with
        | true => rfl
        | false => exact absurd (hexp rfl) hzero
      have hheld : h' = .adding [] := by simpa [AtLoop, hzero, hfirst] using hloop
      simp only [hzero, if_false]
      rw [hheld]
      exact regionRound_obeys regions

theorem remoteConnectionThread_obeys (v : Vars) : discipline.Obeys .free (remoteConnectionThread v) AtRest := by
  have hq : Quiet .free := Or.inl rfl
  refine (keeps_act (h := .free) (e := .connectionUpgrade) trivial (fun _ => rfl)).bind (fun upgraded => ?_)
  split
  · exact (rfl : Hold.free = .free)
  · refine (keeps_of_talks hq uses_checkRemoteSig).bind (fun known => ?_)
    split
    · exact finish_obeys
    · refine (keeps_of_talks hq uses_doReqScreenInfo).bind (fun info => ?_)
      split
      · exact finish_obeys
      · refine lock_obeys ((keeps_introduce v).bind (fun alive => unlock_obeys (Or.inl rfl) ?_))
        split
        · exact (rfl : Hold.free = .free)
        · exact finish_obeys

end Connection
end LilitunRemote

import LilitunRemote.Foundation.Transition
import LilitunRemote.Protocol.Wire
import Mathlib.Data.Vector.Basic

/-! # The input event queue of a projector connection

`input_events` holds 1024 words. A VNC key event appends three of them and a
pointer event five, and `send_input_events` empties the queue. The guard before
an append compares the element counter with sizes in bytes. A store outside the
array has no defined effect, so it ends the modelled run.
-/
namespace LilitunRemote

structure UpdatePointer where
  buttons : UInt32
  posX : UInt32
  posY : UInt32
  wheel : UInt32
  deriving DecidableEq, Repr

structure InputQueue where
  inputEvents : Vector UInt32 1024
  inputEventsCounter : ℕ
  pointerOld : UpdatePointer
  sent : List UInt32
  deriving DecidableEq

namespace InputQueue

/-- `main` clears the connection and then sets `pointer_old.buttons` to -1. -/
def initial : InputQueue where
  inputEvents := Vector.replicate 1024 0
  inputEventsCounter := 0
  pointerOld := ⟨0xFFFFFFFF, 0, 0, 0⟩
  sent := []

def queued (q : InputQueue) : List UInt32 := q.inputEvents.toList.take q.inputEventsCounter

def sizeofInputEvents : ℕ := 1024 * 4
def sizeofUpdatePointer : ℕ := 16

def sendInputEvents (q : InputQueue) : InputQueue :=
  { q with
    sent := q.sent ++ q.queued
    inputEventsCounter := 0
    pointerOld := { q.pointerOld with buttons := 0xFFFFFFFF } }

def addInputEvent (q : InputQueue) (data : UInt32) : Option InputQueue :=
  if h : q.inputEventsCounter < 1024 then
    some { q with
      inputEvents := q.inputEvents.set q.inputEventsCounter data
      inputEventsCounter := q.inputEventsCounter + 1 }
  else none

def flushOnOverflow (q : InputQueue) : InputQueue :=
  if q.inputEventsCounter ≥ sizeofInputEvents - sizeofUpdatePointer then q.sendInputEvents else q

def keyboardEvent (q : InputQueue) (down : Int8) (key : UInt32) : Option InputQueue := do
  let q := q.flushOnOverflow
  let q ← q.addInputEvent Req.keyboard.code
  let q ← q.addInputEvent down.toInt32.toUInt32
  q.addInputEvent key

def pointerEvent (q : InputQueue) (buttons x y : Int32) : Option InputQueue := do
  let q := q.flushOnOverflow
  if q.pointerOld.buttons ≠ buttons.toUInt32 then
    let q ← q.addInputEvent Req.pointer.code
    let q ← q.addInputEvent buttons.toUInt32
    let q ← q.addInputEvent x.toUInt32
    let q ← q.addInputEvent y.toUInt32
    let q ← q.addInputEvent 0
    return { q with pointerOld := ⟨buttons.toUInt32, x.toUInt32, y.toUInt32, 0⟩ }
  else
    return q

end InputQueue

/-- The calls made on one connection, in the order `projector_io_mutex` admits them. -/
inductive InputCall
  | keyboard (down : Int8) (key : UInt32)
  | pointer (buttons x y : Int32)
  | flush
  deriving DecidableEq

namespace InputQueue

def call (q : InputQueue) : InputCall → Option InputQueue
  | .keyboard down key => q.keyboardEvent down key
  | .pointer buttons x y => q.pointerEvent buttons x y
  | .flush => some q.sendInputEvents

def keyboardWords (down : Int8) (key : UInt32) : List UInt32 :=
  [Req.keyboard.code, down.toInt32.toUInt32, key]

def pointerWords (buttons x y : Int32) : List UInt32 :=
  [Req.pointer.code, buttons.toUInt32, x.toUInt32, y.toUInt32, 0]

/-! ## One append and a whole record -/

theorem addInputEvent_eq_some {q q' : InputQueue} {data : UInt32} (h : q.addInputEvent data = some q') :
    q.inputEventsCounter < 1024 ∧ q'.inputEventsCounter = q.inputEventsCounter + 1 ∧
      q'.queued = q.queued ++ [data] ∧ q'.pointerOld = q.pointerOld ∧ q'.sent = q.sent := by
  unfold addInputEvent at h
  split at h
  · next hlt =>
    cases h
    refine ⟨hlt, rfl, ?_, rfl, rfl⟩
    simp only [queued, Vector.toList_set]
    rw [List.take_add_one, List.take_set_of_le (le_refl _)]
    simp [hlt]
  · cases h

theorem addInputEvent_isSome {q : InputQueue} (h : q.inputEventsCounter < 1024) (data : UInt32) :
    ∃ q', q.addInputEvent data = some q' := by
  simp [addInputEvent, h]

def addAll (q : InputQueue) (words : List UInt32) : Option InputQueue := words.foldlM addInputEvent q

theorem addAll_eq_some {q q' : InputQueue} {words : List UInt32} (h : q.addAll words = some q') :
    q'.inputEventsCounter = q.inputEventsCounter + words.length ∧
      (words ≠ [] → q'.inputEventsCounter ≤ 1024) ∧
      q'.queued = q.queued ++ words ∧ q'.pointerOld = q.pointerOld ∧ q'.sent = q.sent := by
  induction words generalizing q with
  | nil =>
    cases h
    simp
  | cons w words ih =>
    obtain ⟨u, hu, hrest⟩ := Option.bind_eq_some_iff.mp h
    obtain ⟨hlt, hcount, hqueued, hpointer, hsent⟩ := addInputEvent_eq_some hu
    obtain ⟨hcount', hle, hqueued', hpointer', hsent'⟩ := ih hrest
    refine ⟨by simp only [List.length_cons]; omega, ?_, ?_, by rw [hpointer', hpointer], by rw [hsent', hsent]⟩
    · intro _
      cases words with
      | nil => simp only [List.length_nil] at hcount'; omega
      | cons v vs => exact hle (by simp)
    · rw [hqueued', hqueued, List.append_assoc, List.singleton_append]

theorem addAll_isSome (q : InputQueue) (words : List UInt32)
    (h : q.inputEventsCounter + words.length ≤ 1024) : ∃ q', q.addAll words = some q' := by
  induction words generalizing q with
  | nil => exact ⟨q, rfl⟩
  | cons w words ih =>
    simp only [List.length_cons] at h
    obtain ⟨u, hu⟩ := addInputEvent_isSome (q := q) (by omega) w
    obtain ⟨_, hcount, _⟩ := addInputEvent_eq_some hu
    obtain ⟨q', hq'⟩ := ih (q := u) (by omega)
    exact ⟨q', Option.bind_eq_some_iff.mpr ⟨u, hu, hq'⟩⟩

theorem keyboardEvent_eq (q : InputQueue) (down : Int8) (key : UInt32) :
    q.keyboardEvent down key = q.flushOnOverflow.addAll (keyboardWords down key) := by
  simp [keyboardEvent, addAll, keyboardWords]

theorem pointerEvent_eq (q : InputQueue) (buttons x y : Int32) :
    q.pointerEvent buttons x y =
      if q.flushOnOverflow.pointerOld.buttons ≠ buttons.toUInt32 then
        (q.flushOnOverflow.addAll (pointerWords buttons x y)).map
          (fun q => { q with pointerOld := ⟨buttons.toUInt32, x.toUInt32, y.toUInt32, 0⟩ })
      else some q.flushOnOverflow := by
  simp only [pointerEvent, addAll, pointerWords]
  split
  · simp [List.foldlM_cons, Option.map_eq_bind, Option.bind_assoc]
  · rfl

/-- No state the code keeps inside the array takes the overflow branch: the guard
counts bytes. -/
theorem flushOnOverflow_of_le {q : InputQueue} (h : q.inputEventsCounter ≤ 1024) : q.flushOnOverflow = q := by
  have hguard : ¬ q.inputEventsCounter ≥ sizeofInputEvents - sizeofUpdatePointer := by
    simp only [sizeofInputEvents, sizeofUpdatePointer]
    omega
  exact if_neg hguard

/-! ## Words pending between two flushes -/

/-- What the calls alone say about the queue: the words appended since the last
flush, and the button mask of the last pointer event since then (-1 if none). -/
def pendingStep (p : ℕ × UInt32) : InputCall → ℕ × UInt32
  | .keyboard _ _ => (p.1 + 3, p.2)
  | .pointer buttons _ _ => if p.2 ≠ buttons.toUInt32 then (p.1 + 5, buttons.toUInt32) else p
  | .flush => (0, 0xFFFFFFFF)

def pendingWords (calls : List InputCall) : ℕ := (calls.foldl pendingStep (0, 0xFFFFFFFF)).1

def Tracks (q : InputQueue) (p : ℕ × UInt32) : Prop :=
  q.inputEventsCounter = p.1 ∧ q.pointerOld.buttons = p.2

/-- What a call does while the queue is inside the array: it needs room for its
record, and then it appends exactly that record. -/
theorem call_cases {q q' : InputQueue} {c : InputCall} (hle : q.inputEventsCounter ≤ 1024)
    (h : q.call c = some q') :
    (∃ down key, c = .keyboard down key ∧ q'.inputEventsCounter = q.inputEventsCounter + 3 ∧
      q'.inputEventsCounter ≤ 1024 ∧ q'.queued = q.queued ++ keyboardWords down key ∧
      q'.pointerOld = q.pointerOld ∧ q'.sent = q.sent) ∨
    (∃ buttons x y, c = .pointer buttons x y ∧ q.pointerOld.buttons ≠ buttons.toUInt32 ∧
      q'.inputEventsCounter = q.inputEventsCounter + 5 ∧ q'.inputEventsCounter ≤ 1024 ∧
      q'.queued = q.queued ++ pointerWords buttons x y ∧
      q'.pointerOld = ⟨buttons.toUInt32, x.toUInt32, y.toUInt32, 0⟩ ∧ q'.sent = q.sent) ∨
    (∃ buttons x y, c = .pointer buttons x y ∧ q.pointerOld.buttons = buttons.toUInt32 ∧ q' = q) ∨
    (c = .flush ∧ q' = q.sendInputEvents) := by
  cases c with
  | keyboard down key =>
    simp only [call, keyboardEvent_eq, flushOnOverflow_of_le hle] at h
    obtain ⟨hcount, hbound, hqueued, hpointer, hsent⟩ := addAll_eq_some h
    exact Or.inl ⟨down, key, rfl, hcount, hbound (by simp [keyboardWords]), hqueued, hpointer, hsent⟩
  | pointer buttons x y =>
    simp only [call, pointerEvent_eq, flushOnOverflow_of_le hle] at h
    split at h
    · next hne =>
      obtain ⟨u, hu, rfl⟩ := Option.map_eq_some_iff.mp h
      obtain ⟨hcount, hbound, hqueued, _, hsent⟩ := addAll_eq_some hu
      exact Or.inr (Or.inl ⟨buttons, x, y, rfl, hne, hcount, hbound (by simp [pointerWords]), hqueued, rfl, hsent⟩)
    · next heq =>
      cases h
      exact Or.inr (Or.inr (Or.inl ⟨buttons, x, y, rfl, not_not.mp heq, rfl⟩))
  | flush =>
    cases h
    exact Or.inr (Or.inr (Or.inr ⟨rfl, rfl⟩))

theorem call_tracks {q q' : InputQueue} {c : InputCall} {p : ℕ × UInt32} (ht : q.Tracks p) (hle : p.1 ≤ 1024)
    (h : q.call c = some q') : q'.Tracks (pendingStep p c) ∧ (pendingStep p c).1 ≤ 1024 := by
  obtain ⟨hcount, hbuttons⟩ := ht
  rcases call_cases (by omega) h with ⟨down, key, rfl, hc, hb, _, hp, _⟩ |
    ⟨buttons, x, y, rfl, hne, hc, hb, _, hp, _⟩ | ⟨buttons, x, y, rfl, heq, rfl⟩ | ⟨rfl, rfl⟩
  · exact ⟨⟨by simp only [pendingStep]; omega, by rw [hp, hbuttons, pendingStep]⟩, by simp only [pendingStep]; omega⟩
  · rw [hbuttons] at hne
    simp only [pendingStep, if_pos hne]
    exact ⟨⟨by omega, by rw [hp]⟩, by omega⟩
  · rw [hbuttons] at heq
    simp only [pendingStep, heq, ne_eq, not_true_eq_false, if_false]
    exact ⟨⟨hcount, hbuttons⟩, hle⟩
  · exact ⟨⟨rfl, rfl⟩, by simp [pendingStep]⟩

theorem call_isSome {q : InputQueue} {c : InputCall} {p : ℕ × UInt32} (ht : q.Tracks p) (hle : p.1 ≤ 1024)
    (h : (pendingStep p c).1 ≤ 1024) : ∃ q', q.call c = some q' := by
  obtain ⟨hcount, hbuttons⟩ := ht
  have hflush := flushOnOverflow_of_le (q := q) (by omega)
  cases c with
  | keyboard down key =>
    simp only [pendingStep] at h
    simp only [call, keyboardEvent_eq, hflush]
    exact addAll_isSome q _ (by simp only [keyboardWords, List.length_cons, List.length_nil]; omega)
  | pointer buttons x y =>
    simp only [call, pointerEvent_eq, hflush]
    by_cases hne : q.pointerOld.buttons ≠ buttons.toUInt32
    · have hne' := hne
      rw [hbuttons] at hne'
      simp only [pendingStep, if_pos hne'] at h
      obtain ⟨u, hu⟩ := addAll_isSome q (pointerWords buttons x y)
        (by simp only [pointerWords, List.length_cons, List.length_nil]; omega)
      exact ⟨_, by rw [if_pos hne, hu, Option.map_some]⟩
    · exact ⟨q, if_neg hne⟩
  | flush => exact ⟨q.sendInputEvents, rfl⟩

/-- The calls run without a store outside the array and keep the counter in range. -/
def StoresInside (calls : List InputCall) : Prop :=
  ∀ p, p <+: calls → ∃ q, Transition.run call initial p = some q ∧ q.inputEventsCounter ≤ 1024

def FitsBetweenFlushes (calls : List InputCall) : Prop := ∀ p, p <+: calls → pendingWords p ≤ 1024

theorem tracks_initial : initial.Tracks (0, 0xFFFFFFFF) := ⟨rfl, rfl⟩

theorem run_tracks {q q' : InputQueue} {calls : List InputCall} {p : ℕ × UInt32} (ht : q.Tracks p) (hle : p.1 ≤ 1024)
    (h : Transition.run call q calls = some q') :
    q'.Tracks (calls.foldl pendingStep p) ∧ (calls.foldl pendingStep p).1 ≤ 1024 := by
  induction calls generalizing q p with
  | nil => exact Option.some.inj h ▸ ⟨ht, hle⟩
  | cons c calls ih =>
    obtain ⟨u, hu, hrest⟩ := Transition.run_cons.mp h
    obtain ⟨ht', hle'⟩ := call_tracks ht hle hu
    exact ih ht' hle' hrest

theorem run_isSome {q : InputQueue} (calls : List InputCall) {p : ℕ × UInt32} (ht : q.Tracks p) (hle : p.1 ≤ 1024)
    (h : ∀ pre, pre <+: calls → (pre.foldl pendingStep p).1 ≤ 1024) :
    ∃ q', Transition.run call q calls = some q' := by
  induction calls generalizing q p with
  | nil => exact ⟨q, rfl⟩
  | cons c calls ih =>
    have hc : (pendingStep p c).1 ≤ 1024 := h [c] (List.prefix_append [c] calls)
    obtain ⟨u, hu⟩ := call_isSome ht hle hc
    obtain ⟨q', hq'⟩ := ih (call_tracks ht hle hu).1 hc (by
      intro pre hpre
      exact h (c :: pre) ((List.prefix_cons_inj c).mpr hpre))
    exact ⟨q', Transition.run_cons.mpr ⟨u, hu, hq'⟩⟩

theorem storesInside_iff (calls : List InputCall) : StoresInside calls ↔ FitsBetweenFlushes calls := by
  constructor
  · intro h p hp
    obtain ⟨q, hq, _⟩ := h p hp
    exact (run_tracks tracks_initial (by simp) hq).2
  · intro h p hp
    obtain ⟨q, hq⟩ := run_isSome p tracks_initial (by simp) (fun pre hpre => h pre (hpre.trans hp))
    obtain ⟨⟨hcount, _⟩, hle⟩ := run_tracks tracks_initial (by simp) hq
    exact ⟨q, hq, by omega⟩

/-- The stores of every sequence of key, pointer and flush calls stay inside
`input_events` exactly when the events between two flushes fit in it; the guard
of the event handlers adds nothing. -/
theorem input_stores_inside_iff (calls : List InputCall) :
    (∀ p, p <+: calls → ∃ q, Transition.run call initial p = some q ∧ q.inputEventsCounter ≤ 1024) ↔
      ∀ p, p <+: calls → pendingWords p ≤ 1024 := storesInside_iff calls

/-- 342 key presses without a flush run past the array. -/
theorem key_burst_stores_outside :
    ¬ StoresInside (List.replicate 342 (InputCall.keyboard 1 0x61)) := by
  rw [storesInside_iff]
  intro h
  have hall := h _ (List.prefix_rfl)
  revert hall
  decide +kernel

end InputQueue
end LilitunRemote

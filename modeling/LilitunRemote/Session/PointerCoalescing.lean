import LilitunRemote.Foundation.Coalesce
import LilitunRemote.Session.InputDelivery

/-! # The pointer between two flushes

A pointer call is queued if its button mask differs from that of the last queued one, and
a flush forgets that mask. A queued record is not changed any more, so the position that
is sent is the one with which the last stretch of equal masks began.
-/
namespace LilitunRemote
open Projector

namespace InputCall

def pointer? : InputCall → Option UpdatePointer
  | pointer buttons x y => some ⟨buttons.toUInt32, x.toUInt32, y.toUInt32, 0⟩
  | _ => none

def isFlush : InputCall → Bool
  | flush => true
  | _ => false

end InputCall

def InputEvent.pointer? : InputEvent → Option UpdatePointer
  | pointer buttons x y wheel => some ⟨buttons, x, y, wheel⟩
  | keyboard _ _ => none

namespace InputQueue

def pointerCalls (calls : List InputCall) : List UpdatePointer := calls.filterMap InputCall.pointer?

/-- The pointer records without a flush are the calls, coalesced by their masks. -/
theorem delivered_pointers (last : UInt32) {calls : List InputCall} (hflush : ∀ c ∈ calls, c.isFlush = false) :
    (delivered last calls).filterMap InputEvent.pointer? = Coalesce.kept UpdatePointer.buttons last (pointerCalls calls) := by
  induction calls generalizing last with
  | nil => rfl
  | cons c calls ih =>
    obtain ⟨hc, hcalls⟩ := List.forall_mem_cons.mp hflush
    cases c with
    | keyboard down key => exact ih last hcalls
    | pointer buttons x y =>
      have hcons : pointerCalls (.pointer buttons x y :: calls) =
          ⟨buttons.toUInt32, x.toUInt32, y.toUInt32, 0⟩ :: pointerCalls calls := rfl
      unfold delivered
      split
      · next hne =>
        rw [hcons, Coalesce.kept, if_pos hne, ← ih _ hcalls]
        rfl
      · next heq =>
        rw [hcons, Coalesce.kept, if_neg heq]
        exact ih _ hcalls
    | flush => cases hc

theorem mask_of_mem_pointerCalls {calls : List InputCall} (hmask : ∀ c ∈ calls, c.HasMask) :
    ∀ p ∈ pointerCalls calls, p.buttons ≠ 0xFFFFFFFF := by
  intro p hp
  obtain ⟨c, hc, hpc⟩ := List.mem_filterMap.mp hp
  cases c with
  | pointer buttons x y =>
    cases hpc
    exact hmask _ hc
  | keyboard down key => cases hpc
  | flush => cases hpc

/-- Without a flush the queue only grows: the overflow guard never sends it. -/
theorem run_sent {q q' : InputQueue} {calls : List InputCall} {p : ℕ × UInt32} (ht : q.Tracks p) (hle : p.1 ≤ 1024)
    (hflush : ∀ c ∈ calls, c.isFlush = false) (h : Transition.run call q calls = some q') : q'.sent = q.sent := by
  induction calls generalizing q p with
  | nil => exact congrArg InputQueue.sent (Option.some.inj h).symm
  | cons c calls ih =>
    obtain ⟨hc, hcalls⟩ := List.forall_mem_cons.mp hflush
    obtain ⟨u, hu, hrest⟩ := Transition.run_cons.mp h
    obtain ⟨ht', hle'⟩ := call_tracks ht hle hu
    refine (ih ht' hle' hcalls hrest).trans ?_
    rcases call_cases (by rw [ht.1]; exact hle) hu with ⟨_, _, _, _, _, _, _, hsent⟩ |
      ⟨_, _, _, _, _, _, _, _, _, hsent⟩ | ⟨_, _, _, _, _, rfl⟩ | ⟨rfl, _⟩
    · exact hsent
    · exact hsent
    · rfl
    · cases hc

/-- What a flush sends of a queue: the words of these records. -/
def Flushes (q : InputQueue) (records : List InputEvent) : Prop :=
  q.sendInputEvents.sent = q.sent ++ records.flatMap InputEvent.words

theorem flushes_delivered {q q' : InputQueue} {calls : List InputCall} (hflush : ∀ c ∈ calls, c.isFlush = false)
    (hrun : Transition.run call q.sendInputEvents calls = some q') : q'.Flushes (delivered 0xFFFFFFFF calls) := by
  have ht : q.sendInputEvents.Tracks (0, 0xFFFFFFFF) := ⟨rfl, rfl⟩
  have hsends := run_sends ht (Nat.zero_le _) hrun
  have hsent := run_sent ht (Nat.zero_le _) hflush hrun
  have hnone : q.sendInputEvents.queued = [] := List.take_zero
  rw [hsent, hnone, List.append_nil] at hsends
  exact congrArg (q'.sent ++ ·) (List.append_cancel_left hsends)

theorem words_append_inj {e e' : InputEvent} {s s' : List UInt32} (h : e.words ++ s = e'.words ++ s') : e = e' ∧ s = s' := by
  cases e with
  | keyboard down key =>
    cases e' with
    | keyboard down' key' => simpa [InputEvent.words, InputEvent.req, InputEvent.payload, and_assoc] using h
    | pointer buttons x y wheel =>
      have hcode : Req.keyboard.code = Req.pointer.code := (List.cons.inj h).1
      exact absurd hcode (by decide)
  | pointer buttons x y wheel =>
    cases e' with
    | keyboard down key =>
      have hcode : Req.pointer.code = Req.keyboard.code := (List.cons.inj h).1
      exact absurd hcode (by decide)
    | pointer buttons' x' y' wheel' => simpa [InputEvent.words, InputEvent.req, InputEvent.payload, and_assoc] using h

/-- The words of a flush tell its records. -/
theorem flatMap_words_inj {es es' : List InputEvent} (h : es.flatMap InputEvent.words = es'.flatMap InputEvent.words) :
    es = es' := by
  induction es generalizing es' with
  | nil =>
    cases es' with
    | nil => rfl
    | cons e' es' => cases h
  | cons e es ih =>
    cases es' with
    | nil => cases h
    | cons e' es' =>
      obtain ⟨rfl, hrest⟩ := words_append_inj h
      rw [ih hrest]

theorem Flushes.unique {q : InputQueue} {records records' : List InputEvent} (h : q.Flushes records)
    (h' : q.Flushes records') : records = records' := flatMap_words_inj (List.append_cancel_left (h.symm.trans h'))

/-- After a flush, calls that find room in the queue and a second flush: the last pointer
record of the second flush has the mask of the last pointer call, and the position of the
call that began the last stretch with this mask. -/
theorem last_pointer_sent (q q' : InputQueue) (calls : List InputCall) (hflush : ∀ c ∈ calls, c.isFlush = false)
    (hmask : ∀ c ∈ calls, c.HasMask) (hpointer : pointerCalls calls ≠ [])
    (hrun : Transition.run call q.sendInputEvents calls = some q') :
    ∃ records e last, q'.Flushes records ∧ (records.filterMap InputEvent.pointer?).getLast? = some e ∧
      (pointerCalls calls).getLast? = some last ∧ e.buttons = last.buttons ∧
      Coalesce.StartsLast UpdatePointer.buttons (pointerCalls calls) e := by
  refine ⟨delivered 0xFFFFFFFF calls, ?_⟩
  rw [delivered_pointers _ hflush]
  rcases @Coalesce.getLast_kept _ _ UpdatePointer.buttons _ 0xFFFFFFFF (pointerCalls calls) with hall | ⟨e, hlast, hstarts⟩
  · -- no call has the mask of an empty queue
    obtain ⟨p, hp⟩ := List.exists_mem_of_ne_nil _ hpointer
    exact absurd (hall p hp) (mask_of_mem_pointerCalls hmask p hp)
  · obtain ⟨a, ha, hkey⟩ := hstarts.startsLast.key_getLast
    exact ⟨e, a, flushes_delivered hflush hrun, hlast, ha, hkey.symm, hstarts.startsLast⟩

/-- A press at (1, 1) that is held while the pointer moves to (2, 2). -/
def dragCalls : List InputCall := [.pointer 1 1 1, .pointer 1 2 2]

theorem drag_runs : ∃ q', Transition.run call initial.sendInputEvents dragCalls = some q' := by
  have hfits : ∀ p ∈ dragCalls.inits, (p.foldl pendingStep (0, 0xFFFFFFFF)).1 ≤ 1024 := by decide
  exact run_isSome dragCalls (p := (0, 0xFFFFFFFF)) ⟨rfl, rfl⟩ (Nat.zero_le _)
    (fun p hp => hfits p ((List.mem_inits p dragCalls).mpr hp))

theorem drag_last_pointer :
    ∃ q', Transition.run call initial.sendInputEvents dragCalls = some q' ∧
      ∃ records e last, q'.Flushes records ∧ (records.filterMap InputEvent.pointer?).getLast? = some e ∧
        (pointerCalls dragCalls).getLast? = some last ∧ e.buttons = last.buttons ∧
        Coalesce.StartsLast UpdatePointer.buttons (pointerCalls dragCalls) e := by
  obtain ⟨q', hrun⟩ := drag_runs
  exact ⟨q', hrun, last_pointer_sent initial q' dragCalls (by decide) (by simp [dragCalls, InputCall.HasMask]; decide)
    (by decide) hrun⟩

/-- No record of the flush after the move has the position (2, 2). -/
theorem drag_position_lost :
    ∃ q', Transition.run call initial.sendInputEvents dragCalls = some q' ∧
      ∀ records, q'.Flushes records →
        (records.filterMap InputEvent.pointer?).getLast? ≠ (pointerCalls dragCalls).getLast? := by
  obtain ⟨q', hrun⟩ := drag_runs
  refine ⟨q', hrun, fun records hrecords => ?_⟩
  rw [hrecords.unique (flushes_delivered (by decide) hrun)]
  decide

end InputQueue
end LilitunRemote

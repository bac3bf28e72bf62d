import LilitunRemote.Projector.Dialogue
import LilitunRemote.Projector.Line

/-! # The answer to REQ_SCREEN_UPDATE

`update_screen` is a callback of the grabber: it writes the number of the regions, and
for each region its header and its data, and has no result. `send_req_screen_update`
reports success whether it was called or not, and whatever it could write.
-/
namespace LilitunRemote
namespace Projector
open Memory

/-! ## Messages on a line -/

def outcomes (writes : ℕ → Bool) : List Message → List (WriteKind × Bytes × Bool)
  | [] => []
  | m :: ms => (m.1, m.2, writes 0) :: outcomes (fun k => writes (k + 1)) ms

def written (ms : List Message) : List (WriteKind × Bytes × Bool) := ms.map fun m => (m.1, m.2, true)

theorem outcomes_eq_written {writes : ℕ → Bool} {ms : List Message} :
    outcomes writes ms = written ms ↔ ∀ k < ms.length, writes k = true := by
  induction ms generalizing writes with
  | nil => simp [outcomes, written]
  | cons m ms ih =>
    have hcons : outcomes writes (m :: ms) = written (m :: ms) ↔ writes 0 = true ∧ outcomes (fun k => writes (k + 1)) ms = written ms := by
      simp [outcomes, written]
    rw [hcons, ih, List.length_cons]
    constructor
    · rintro ⟨hzero, hrest⟩ k hk
      cases k with
      | zero => exact hzero
      | succ k => exact hrest k (Nat.lt_of_succ_lt_succ hk)
    · intro h
      exact ⟨h 0 (Nat.succ_pos _), fun k hk => h (k + 1) (Nat.succ_lt_succ hk)⟩

namespace Line

def writeMessages (l : Line) (ms : List Message) : Line := ms.foldl (fun l m => l.write m.1 m.2) l

theorem writeMessages_attempts (l : Line) (ms : List Message) :
    (l.writeMessages ms).attempts = l.attempts ++ outcomes l.writes ms := by
  induction ms generalizing l with
  | nil => exact (List.append_nil _).symm
  | cons m ms ih =>
    have hstep : l.writeMessages (m :: ms) = (l.write m.1 m.2).writeMessages ms := rfl
    rw [hstep, ih, write, answer, List.append_assoc]
    rfl

/-- Every write is tried, also after one that failed. -/
theorem sendRegions_exec (l : Line) (regions : List RegionData) :
    (sendRegions regions).exec answer l = ((), l.writeMessages (regionMessages regions)) := by
  induction regions generalizing l with
  | nil => rfl
  | cons r regions ih => exact ih _

theorem updateScreenSend_exec (l : Line) (regions : List RegionData) :
    (updateScreenSend regions).exec answer l =
      ((), if l.writes 0 then l.writeMessages (updateMessages regions)
        else l.write (.answer (.screenUpdate regions.length)) (screenRegionsBytes regions.length)) := by
  rw [updateScreenSend, Proc.exec_bind, exec_tcpWriteAll]
  cases hcount : l.writes 0 with
  | false => rfl
  | true => exact sendRegions_exec _ regions

theorem sendReqScreenUpdate_exec (l : Line) :
    sendReqScreenUpdate.exec answer l =
      (true, match l.grab with
        | none => l
        | some regions => ((updateScreenSend regions).exec answer l).2) := by
  rw [sendReqScreenUpdate, grabScreen, Proc.exec_bind, exec_act]
  cases hgrab : l.grab with
  | none => simp [answer, hgrab]
  | some regions => simp [answer, hgrab, Proc.exec_bind]

end Line

/-! ## Complete answers -/

theorem length_regionMessages (regions : List RegionData) : (regionMessages regions).length = 2 * regions.length := by
  induction regions with
  | nil => rfl
  | cons r regions ih =>
    rw [regionMessages, List.length_cons, List.length_cons, ih, List.length_cons]
    omega

theorem length_updateMessages (regions : List RegionData) :
    (updateMessages regions).length = 1 + 2 * regions.length := by
  rw [updateMessages, List.length_cons, length_regionMessages]
  omega

/-- Between the two lines the count of the grabbed regions and the header and the data of
each of them have been written, in this order, and nothing else. -/
def Answered (l t : Line) : Prop :=
  ∃ regions, l.grab = some regions ∧ t.attempts = l.attempts ++ written (updateMessages regions)

/-- A request for an update is answered completely, or the session ends with a connection error. -/
structure AnsweredOrEnded (v : Vars) (l : Line) : Prop where
  answered : (sendReqScreenUpdate.exec Line.answer l).1 = true → Answered l (sendReqScreenUpdate.exec Line.answer l).2
  ended : ¬ Answered l (sendReqScreenUpdate.exec Line.answer l).2 →
    (sendReqScreenUpdate.exec Line.answer l).1 = false ∧
      ((dispatchRequest v true Req.screenUpdate.code).exec Line.answer l).1 = Sum.inr () ∧
      ((dispatchRequest v true Req.screenUpdate.code).exec Line.answer l).2.status = some .connectionError

def Undisturbed (l : Line) : Prop :=
  ∃ regions, l.grab = some regions ∧ ∀ k < 1 + 2 * regions.length, l.writes k = true

theorem answered_iff (l : Line) : Answered l (sendReqScreenUpdate.exec Line.answer l).2 ↔ Undisturbed l := by
  rw [Line.sendReqScreenUpdate_exec]
  cases hgrab : l.grab with
  | none => simp [Answered, Undisturbed, hgrab]
  | some regions =>
    have hall : ∀ t : Line, Answered l t ↔ t.attempts = l.attempts ++ written (updateMessages regions) := by
      intro t
      simp [Answered, hgrab]
    have hcond : Undisturbed l ↔ ∀ k < (updateMessages regions).length, l.writes k = true := by
      simp [Undisturbed, hgrab, length_updateMessages]
    rw [hall, hcond, ← outcomes_eq_written]
    simp only [Line.updateScreenSend_exec]
    cases hcount : l.writes 0 with
    | true =>
      rw [if_pos rfl, Line.writeMessages_attempts]
      exact List.append_cancel_left_eq _ _ _ |>.to_iff
    | false =>
      -- the count is refused, and the callback returns after it
      have hwrite : (l.write (.answer (.screenUpdate regions.length)) (screenRegionsBytes regions.length)).attempts =
          l.attempts ++ [(.answer (.screenUpdate regions.length), screenRegionsBytes regions.length, false)] := by
        rw [Line.write, Line.answer, hcount]
      have hshort : ¬ outcomes l.writes (updateMessages regions) = written (updateMessages regions) := by
        intro h
        have hhead := congrArg List.head? h
        simp [updateMessages, outcomes, written, hcount] at hhead
      refine iff_of_false ?_ hshort
      rw [if_neg (by simp), hwrite]
      intro h
      have hhead := congrArg List.head? (List.append_cancel_left h)
      simp [updateMessages, written] at hhead

theorem screenUpdate_answered_iff (v : Vars) (l : Line) : AnsweredOrEnded v l ↔ Undisturbed l := by
  have hok : (sendReqScreenUpdate.exec Line.answer l).1 = true := by rw [Line.sendReqScreenUpdate_exec]
  constructor
  · intro h
    exact (answered_iff l).mp (h.answered hok)
  · intro h
    have hanswered := (answered_iff l).mpr h
    exact ⟨fun _ => hanswered, fun hnot => absurd hanswered hnot⟩

/-- The X server refuses the image: the callback is not called. -/
def refusedGrab : Line := ⟨⟨[], fun _ => 0⟩, fun _ => true, none, [], none⟩

theorem refused_grab_unanswered : ¬ AnsweredOrEnded (idVars [115]) refusedGrab := by
  intro h
  have hanswered := h.answered (by rw [Line.sendReqScreenUpdate_exec])
  rw [answered_iff] at hanswered
  simp [Undisturbed, refusedGrab] at hanswered

end Projector
end LilitunRemote

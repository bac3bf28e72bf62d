import LilitunRemote.Foundation.Terminated
import LilitunRemote.Projector.Line

/-! # The authorization on the wire

A REQ_AUTHORIZATION is a length and as many bytes. The projector keeps at most 255 of
them, compares them with its session id up to a zero, and leaves what it did not keep
in the stream, where the next request is read.
-/
namespace LilitunRemote
namespace Projector
open Memory

def authorizationMessage (password : Bytes) : Bytes :=
  htonl Req.authorization.code ++ (htonl (UInt32.ofNat password.length) ++ password)

section Exec
variable {v : Vars} {l : Line}

/-- `recv_word` on a stream that begins with one. -/
theorem recvKnownWord_ends {α : Type} {w : UInt32} {rest : Bytes} {f : Option UInt32 → Action α} {Q : α → Line → Prop}
    (hl : l.input.bytes = htonl w ++ rest)
    (h : ∀ t, l.After 4 t → t.input.bytes = rest → (f (some w)).Ends Line.answer t Q) :
    (recvUint32 >>= f).Ends Line.answer l Q := by
  apply Line.recvWord_ends
  · intro _ t ht
    have hword : ntohl (l.input.bytes.take 4) = w := by
      rw [hl, List.take_left' (htonl_length w), ntohl_htonl]
    rw [hword]
    exact h t ht (by rw [ht.input, hl, List.drop_left' (htonl_length w)])
  · intro hshort
    rw [hl, List.length_append, htonl_length] at hshort
    omega

theorem recvAuthorization_ends {password rest : Bytes} (hlen : password.length < 2 ^ 32)
    (hl : l.input.bytes = htonl (UInt32.ofNat password.length) ++ (password ++ rest)) :
    recvAuthorization.Ends Line.answer l (fun received t =>
      received = some (password.take 255) ∧ l.After (4 + min password.length 255) t) := by
  have hword : (UInt32.ofNat password.length).toNat = password.length := Memory.toNat_ofNat hlen
  refine recvKnownWord_ends hl (fun t ht hrest => ?_)
  apply Line.readAll_ends
  intro u hu
  have htake : t.input.bytes.take (min password.length 255) = password.take 255 := by
    rw [hrest, List.take_append_of_le_length (Nat.min_le_left _ _), Nat.min_comm, ← List.take_eq_take_min]
  have hfull : ¬ (password.take 255).length ≠ min password.length 255 := by
    rw [List.length_take]
    omega
  rw [hword] at hu ⊢
  rw [htake, if_neg hfull]
  exact ⟨rfl, ht.trans hu⟩

/-- The round authorizes the client and answers zero. -/
def Accepted (l : Line) (out : Loop ⊕ Unit) (t : Line) : Prop :=
  out = Sum.inl (.serve true) ∧ t.attempts = l.attempts ++ [(.authorizationStatus true, htonl 0, true)]

theorem authorization_ends {a : Bool} {password rest : Bytes} (hlen : password.length < 2 ^ 32)
    (hl : l.input.bytes = authorizationMessage password ++ rest) :
    (body v (.serve a)).Ends Line.answer l (fun out t =>
      (Accepted l out t ↔ strcmp v.sessionId (password.take 255) = true ∧ l.writes 0 = true) ∧
        (Accepted l out t → t.input.bytes = password.drop 255 ++ rest)) := by
  rw [authorizationMessage, List.append_assoc, List.append_assoc] at hl
  refine Line.isStarted_ends.mpr ?_
  rw [if_neg (by simp)]
  refine recvKnownWord_ends hl (fun t ht hrest => ?_)
  have hgate : ¬ (!a && decide (Req.authorization.code ≠ Req.authorization.code)) = true := by simp
  simp only [dispatchRequest, if_neg hgate, Req.ofCode_code]
  refine Line.dispatch_ends.mpr ?_
  refine Proc.ends_bind.mpr ((recvAuthorization_ends (l := t) hlen hrest).mono ?_)
  rintro _ u ⟨rfl, hu⟩
  have hwrites : u.writes = l.writes := hu.writes.trans ht.writes
  have hattempts : u.attempts = l.attempts := hu.attempts.trans ht.attempts
  have hleft : u.input.bytes = password.drop 255 ++ rest := by
    rw [hu.input, hrest, ← List.drop_drop, List.drop_left' (htonl_length _),
      List.drop_append_of_le_length (Nat.min_le_left _ _)]
    congr 1
    rw [Nat.min_comm, ← List.drop_eq_drop_min]
  dsimp only
  split
  · next hwrong =>
    have hdiffer : ¬ strcmp v.sessionId (password.take 255) = true := by simpa using hwrong
    refine Line.setStatus_ends.mpr (Line.write_ends.mpr ((Line.finish_ends v _).mono ?_))
    rintro out t rfl
    have hnot : ¬ Accepted l (Sum.inr ()) t := fun h => nomatch h.1
    simp [hnot, hdiffer]
  · next hright =>
    have hsame : strcmp v.sessionId (password.take 255) = true := by simpa using hright
    rw [and_iff_right hsame]
    refine Line.write_ends.mpr ?_
    rw [hwrites]
    cases hsent : l.writes 0 with
    | false =>
      apply (Line.leave_ends v _ _).mono
      rintro out t rfl
      have hnot : ¬ Accepted l (Sum.inr ()) t := fun h => nomatch h.1
      simp [hnot]
    | true =>
      have haccepted : Accepted l (Sum.inl (.serve true)) (u.write (.authorizationStatus true) (htonl 0)) :=
        ⟨rfl, by rw [Line.write_attempts, hattempts, hwrites, hsent]⟩
      exact ⟨iff_of_true haccepted rfl, fun _ => hleft⟩

end Exec

/-! ## Exact authorization -/

/-- A wrong password that `strcmp` takes for the session id: what is kept of it goes on
with a zero after the session id, or the session id fills the buffer. -/
def LooksRight (sessionId password : Bytes) : Prop :=
  sessionId ++ [0] <+: password.take 255 ∨ 255 < password.length ∧ sessionId.length = 255 ∧ sessionId <+: password

instance (sessionId password : Bytes) : Decidable (LooksRight sessionId password) := inferInstanceAs (Decidable (_ ∨ _))

theorem lookRight_ne {sessionId password : Bytes} (h : LooksRight sessionId password) : password ≠ sessionId := by
  rintro rfl
  rcases h with hprefix | ⟨hlong, hfull, _⟩
  · have hlen := hprefix.length_le
    rw [List.length_append, List.length_take, List.length_singleton] at hlen
    omega
  · omega

theorem strcmp_iff {sessionId password : Bytes} (hnul : 0 ∉ sessionId) :
    strcmp sessionId (password.take 255) = true ↔
      password = sessionId ∧ password.length ≤ 255 ∨ LooksRight sessionId password := by
  have hid : cString sessionId = sessionId := Terminated.takeWhile_eq_self hnul
  rw [strcmp, decide_eq_true_iff, hid, eq_comm, cString, Terminated.takeWhile_eq_iff, and_iff_right hnul]
  have hkept : password.take 255 = sessionId ↔
      password = sessionId ∧ password.length ≤ 255 ∨ 255 < password.length ∧ sessionId.length = 255 ∧ sessionId <+: password := by
    constructor
    · rintro rfl
      by_cases hshort : password.length ≤ 255
      · exact Or.inl ⟨(List.take_of_length_le hshort).symm, hshort⟩
      · have hlong : 255 < password.length := Nat.lt_of_not_le hshort
        exact Or.inr ⟨hlong, List.length_take_of_le hlong.le, List.take_prefix _ _⟩
    · rintro (⟨rfl, hshort⟩ | ⟨_, hfull, hprefix⟩)
      · exact List.take_of_length_le hshort
      · rw [← hfull]
        exact (List.prefix_iff_eq_take.mp hprefix).symm
  rw [hkept, LooksRight, or_assoc]
  exact or_congr_right or_comm

/-- A client is authorized if and only if it sends the session id, and then the next
request begins after it. -/
structure ExactAuthorization (v : Vars) (l : Line) (a : Bool) (password rest : Bytes) : Prop where
  accepts : (body v (.serve a)).Ends Line.answer l (fun out t => Accepted l out t ↔ password = v.sessionId)
  resumes : (body v (.serve a)).Ends Line.answer l (fun out t => Accepted l out t → t.input.bytes = rest)

theorem authorization_exact_iff (v : Vars) (l : Line) (a : Bool) (password rest : Bytes) (hnul : 0 ∉ v.sessionId)
    (hlen : password.length < 2 ^ 32) (hl : l.input.bytes = authorizationMessage password ++ rest) :
    ExactAuthorization v l a password rest ↔
      (password = v.sessionId → password.length ≤ 255 ∧ l.writes 0 = true) ∧
        ¬ (LooksRight v.sessionId password ∧ l.writes 0 = true) := by
  obtain ⟨hiff, hleft⟩ := authorization_ends (v := v) (a := a) hlen hl
  rw [strcmp_iff hnul] at hiff
  constructor
  · rintro ⟨haccepts, hresumes⟩
    constructor
    · intro heq
      obtain ⟨⟨_, hshort⟩ | hlook, hsent⟩ := hiff.mp (haccepts.mpr heq)
      · exact ⟨hshort, hsent⟩
      · exact absurd heq (lookRight_ne hlook)
    · rintro ⟨hlook, hsent⟩
      exact lookRight_ne hlook (haccepts.mp (hiff.mpr ⟨Or.inr hlook, hsent⟩))
  · rintro ⟨hright, hwrong⟩
    have hsame : (body v (.serve a)).Ends Line.answer l (fun out t => Accepted l out t → password = v.sessionId ∧ password.length ≤ 255) := by
      intro haccepted
      obtain ⟨hright | hlook, hsent⟩ := hiff.mp haccepted
      · exact hright
      · exact absurd ⟨hlook, hsent⟩ hwrong
    refine ⟨⟨fun h => (hsame h).1, fun heq => ?_⟩, fun h => ?_⟩
    · obtain ⟨hshort, hsent⟩ := hright heq
      exact hiff.mpr ⟨Or.inl ⟨heq, hshort⟩, hsent⟩
    · refine (hleft h).trans ?_
      rw [List.drop_of_length_le (hsame h).2, List.nil_append]

/-- A client of a server with a session id of one byte, whose password goes on after a zero. -/
def zeroPassword : Line :=
  ⟨⟨authorizationMessage [97, 0, 98], fun _ => 0⟩, fun _ => true, none, [], none⟩

def rightPassword : Line :=
  ⟨⟨authorizationMessage [97] ++ htonl Req.screenInfo.code, fun _ => 0⟩, fun _ => true, none, [], none⟩

theorem right_password_exact : ExactAuthorization (idVars [97]) rightPassword false [97] (htonl Req.screenInfo.code) :=
  (authorization_exact_iff (idVars [97]) rightPassword false [97] (htonl Req.screenInfo.code) (by decide) (by decide) rfl).mpr
    ⟨fun _ => ⟨by decide, rfl⟩, fun h => absurd h.1 (by decide)⟩

theorem zero_password_accepted : ¬ ExactAuthorization (idVars [97]) zeroPassword false [97, 0, 98] [] := by
  intro h
  have hlook : LooksRight [97] [97, 0, 98] := by decide
  have haccepted := (@authorization_ends (idVars [97]) zeroPassword false [97, 0, 98] [] (by decide) rfl).1.mpr ⟨(strcmp_iff (by decide)).mpr (Or.inr hlook), rfl⟩
  exact absurd (h.accepts.mp haccepted) (by decide)

end Projector
end LilitunRemote

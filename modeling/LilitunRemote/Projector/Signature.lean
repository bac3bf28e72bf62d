import LilitunRemote.Foundation.Terminated
import LilitunRemote.Projector.Line

/-! # The signature exchange

In server mode the client sends the length of CLIENT_ID and CLIENT_ID. The projector
clamps the length to its buffer and compares as many bytes as were announced, and no
byte after a zero: beginnings of CLIENT_ID pass, and CLIENT_ID with a zero and anything
after it.
-/
namespace LilitunRemote
namespace Projector
open Memory

/-- The length `check_remote_sig` reads and compares. -/
def announced (stream : Bytes) : ℕ := min (ntohl (stream.take 4)).toNat 256

def signatureText (stream : Bytes) : Bytes := (stream.drop 4).take (announced stream)

def Compares (stream : Bytes) : Prop :=
  4 ≤ stream.length ∧ (signatureText stream).length = announced stream ∧
    strncmp (signatureText stream) clientId (announced stream) = true

instance (stream : Bytes) : Decidable (Compares stream) := inferInstanceAs (Decidable (_ ∧ _))

section Exec
variable (l : Line)

/-- The reply goes out in two writes. -/
theorem checkRemoteSig_ends :
    (checkRemoteSig true).Ends Line.answer l (fun ok t =>
      (ok = true ↔ Compares l.input.bytes ∧ l.writes 0 = true ∧ l.writes 1 = true) ∧
        (ok = true → t.input.bytes = l.input.bytes.drop (4 + announced l.input.bytes))) := by
  rw [checkRemoteSig, if_pos rfl]
  apply Line.recvWord_ends
  · intro hfour t ht
    apply Line.readAll_ends
    intro u hu
    rw [ht.input, ← announced, ← signatureText]
    split
    · next hpass =>
      rw [Bool.and_eq_true, decide_eq_true_iff] at hpass
      have hcompares : Compares l.input.bytes := ⟨hfour, hpass⟩
      have hrest : u.input.bytes = l.input.bytes.drop (4 + announced l.input.bytes) := by
        rw [hu.input, ht.input, List.drop_drop, announced]
      have hwrites : u.writes = l.writes := hu.writes.trans ht.writes
      rw [sendUint32, Line.write_ends, hwrites]
      cases hzero : l.writes 0 with
      | false => simp
      | true =>
        refine Line.write_ends.mpr ?_
        rw [Line.write_writes, hwrites]
        cases hone : l.writes 1 with
        | false => simp
        | true => simp [hcompares, hrest]
    · next hfail =>
      have hnot : ¬ Compares l.input.bytes := by
        intro h
        rw [Bool.and_eq_true, decide_eq_true_iff] at hfail
        exact hfail h.2
      simp [hnot]
  · intro hshort t _
    have hnot : ¬ Compares l.input.bytes := fun h => hshort h.1
    simp [hnot]

end Exec

/-! ## What passes -/

/-- The stream begins as the browser's does. -/
def Signed (stream : Bytes) : Prop := htonl (UInt32.ofNat clientId.length) ++ clientId <+: stream

/-- The announced bytes are all there; they are too few, and a beginning of CLIENT_ID, or too
many, and CLIENT_ID with a zero after it. -/
def LookAlike (stream : Bytes) : Prop :=
  4 ≤ stream.length ∧ (signatureText stream).length = announced stream ∧
    (announced stream < clientId.length ∧ signatureText stream <+: clientId ∨
      clientId.length < announced stream ∧ clientId ++ [0] <+: signatureText stream)

instance (stream : Bytes) : Decidable (Signed stream) := inferInstanceAs (Decidable (_ <+: _))

instance (stream : Bytes) : Decidable (LookAlike stream) := inferInstanceAs (Decidable (_ ∧ _))

theorem clientId_nul : (0 : UInt8) ∉ clientId := by decide

theorem length_clientId : clientId.length = 32 := by decide

theorem strncmp_clientId (text : Bytes) :
    strncmp text clientId text.length = true ↔
      text = clientId ∨ text.length < clientId.length ∧ text <+: clientId ∨
        clientId.length < text.length ∧ clientId ++ [0] <+: text := by
  have hfull : (cString text).take text.length = cString text :=
    List.take_of_length_le (List.takeWhile_prefix _).length_le
  have hid : cString clientId = clientId := Terminated.takeWhile_eq_self clientId_nul
  have hnul : (0 : UInt8) ∉ clientId.take text.length := fun h => clientId_nul (List.mem_of_mem_take h)
  rw [strncmp, decide_eq_true_iff, hfull, hid, cString, Terminated.takeWhile_eq_iff, and_iff_right hnul]
  constructor
  · rintro (heq | hprefix)
    · have hpre : text <+: clientId := heq ▸ List.take_prefix _ _
      rcases Nat.lt_or_eq_of_le hpre.length_le with hlt | hlen
      · exact Or.inr (Or.inl ⟨hlt, hpre⟩)
      · exact Or.inl (hpre.eq_of_length hlen)
    · have hlen := hprefix.length_le
      rw [List.length_append, List.length_take, List.length_singleton] at hlen
      have hlong : clientId.length < text.length := by omega
      rw [List.take_of_length_le (by omega)] at hprefix
      exact Or.inr (Or.inr ⟨hlong, hprefix⟩)
  · rintro (rfl | ⟨_, hpre⟩ | ⟨hlong, hprefix⟩)
    · exact Or.inl (List.take_length).symm
    · exact Or.inl (List.prefix_iff_eq_take.mp hpre)
    · rw [List.take_of_length_le (Nat.le_of_lt hlong)]
      exact Or.inr hprefix

theorem signed_iff (stream : Bytes) :
    Signed stream ↔ 4 ≤ stream.length ∧ announced stream = clientId.length ∧ signatureText stream = clientId := by
  constructor
  · rintro ⟨rest, rfl⟩
    have hword : ntohl (List.take 4 (htonl (UInt32.ofNat clientId.length) ++ clientId ++ rest)) = UInt32.ofNat clientId.length := by
      rw [List.append_assoc, List.take_left' (htonl_length _), ntohl_htonl]
    have hlen : announced (htonl (UInt32.ofNat clientId.length) ++ clientId ++ rest) = clientId.length := by
      rw [announced, hword, length_clientId]
      rfl
    refine ⟨?_, hlen, ?_⟩
    · rw [List.length_append, List.length_append, htonl_length]
      omega
    · rw [signatureText, hlen, List.append_assoc, List.drop_left' (htonl_length _), List.take_left]
  · rintro ⟨hfour, hlen, htext⟩
    have hword : ntohl (stream.take 4) = UInt32.ofNat clientId.length := by
      rw [announced, length_clientId] at hlen
      rw [← UInt32.toNat_inj, length_clientId]
      change _ = 32
      omega
    have hhead : htonl (UInt32.ofNat clientId.length) = stream.take 4 := by
      rw [← hword]
      exact htonl_ntohl (List.length_take_of_le hfour)
    have hsplit : stream.take 4 ++ signatureText stream ++ stream.drop (4 + announced stream) = stream := by
      rw [signatureText, List.append_assoc, ← List.drop_drop, List.take_append_drop, List.take_append_drop]
    rw [htext] at hsplit
    exact ⟨stream.drop (4 + announced stream), by rw [hhead]; exact hsplit⟩

/-- The comparison is passed by the signature, and by what only looks like it. -/
theorem compares_iff (stream : Bytes) : Compares stream ↔ Signed stream ∨ LookAlike stream := by
  constructor
  · rintro ⟨hfour, hlen, hcmp⟩
    rw [← hlen, strncmp_clientId] at hcmp
    rcases hcmp with heq | hlook
    · exact Or.inl ((signed_iff stream).mpr ⟨hfour, by rw [← hlen, heq], heq⟩)
    · exact Or.inr ⟨hfour, hlen, by rw [← hlen]; exact hlook⟩
  · rintro (hsigned | ⟨hfour, hlen, hlook⟩)
    · obtain ⟨hfour, hlen, htext⟩ := (signed_iff stream).mp hsigned
      have hall : (signatureText stream).length = announced stream := by rw [htext, hlen]
      exact ⟨hfour, hall, by rw [← hall, strncmp_clientId]; exact Or.inl htext⟩
    · exact ⟨hfour, hlen, by rw [← hlen, strncmp_clientId, hlen]; exact Or.inr hlook⟩

theorem not_signed_of_lookAlike {stream : Bytes} (h : LookAlike stream) : ¬ Signed stream := by
  intro hsigned
  obtain ⟨_, hlen, _⟩ := (signed_iff stream).mp hsigned
  obtain ⟨_, _, ⟨hlt, _⟩ | ⟨hlt, _⟩⟩ := h
  · omega
  · omega

/-- `check_remote_sig` succeeds on the signature only, and consumes no more than it. -/
structure ExactSignature (l : Line) : Prop where
  accepts : ((checkRemoteSig true).exec Line.answer l).1 = true ↔ Signed l.input.bytes
  consumes : ((checkRemoteSig true).exec Line.answer l).1 = true →
    ((checkRemoteSig true).exec Line.answer l).2.input.bytes = l.input.bytes.drop (4 + clientId.length)

def Replied (l : Line) : Prop := l.writes 0 = true ∧ l.writes 1 = true

theorem signature_exact_iff (l : Line) :
    ExactSignature l ↔ (Signed l.input.bytes → Replied l) ∧ ¬ (LookAlike l.input.bytes ∧ Replied l) := by
  obtain ⟨hok, hrest⟩ := checkRemoteSig_ends l
  rw [compares_iff] at hok
  constructor
  · rintro ⟨haccepts, _⟩
    refine ⟨fun hsigned => (hok.mp (haccepts.mpr hsigned)).2, ?_⟩
    rintro ⟨hlook, hreplied⟩
    exact not_signed_of_lookAlike hlook (haccepts.mp (hok.mpr ⟨Or.inr hlook, hreplied⟩))
  · rintro ⟨hreplied, hnone⟩
    have hsigned : ((checkRemoteSig true).exec Line.answer l).1 = true → Signed l.input.bytes := by
      intro h
      obtain ⟨hsigned | hlook, hwrites⟩ := hok.mp h
      · exact hsigned
      · exact absurd ⟨hlook, hwrites⟩ hnone
    refine ⟨⟨hsigned, fun h => hok.mpr ⟨Or.inl h, hreplied h⟩⟩, fun h => ?_⟩
    obtain ⟨_, hlen, _⟩ := (signed_iff _).mp (hsigned h)
    rw [hrest h, hlen]

def noSignature : Line := ⟨⟨htonl 0, fun _ => 0⟩, fun _ => true, none, [], none⟩

theorem no_signature_accepted : ¬ ExactSignature noSignature := by
  intro h
  have hcompares : Compares noSignature.input.bytes := by decide
  have hok := (checkRemoteSig_ends noSignature).1.mpr ⟨hcompares, rfl, rfl⟩
  have hnot : ¬ Signed noSignature.input.bytes := by decide
  exact hnot (h.accepts.mp hok)

end Projector
end LilitunRemote

import LilitunRemote.Browser.Client
import LilitunRemote.Foundation.Unicode
import LilitunRemote.Projector.Authorization

/-! # What the password is

`string_to_bytes` stores the code units of the password into a `Uint8Array`, which keeps
the low byte of each; the projector compares bytes with its session id.
-/
namespace LilitunRemote
namespace Password
open Browser Projector Unicode

def stringToBytes (str : List UInt16) : Bytes := str.map fun unit => UInt8.ofNat unit.toNat

def sendPassword (text : Text) : List Bytes := (Send.password (stringToBytes (utf16 text))).frames

def lowBytes (text : Text) : Bytes := ((utf16 text).map fun unit => UInt8.ofNat unit.toNat).takeWhile (· ≠ 0)

theorem sendPassword_bytes (text : Text) : (sendPassword text).flatten = authorizationMessage (stringToBytes (utf16 text)) := by
  rw [sendPassword, Send.frames, List.flatten_cons, List.flatten_singleton, List.append_assoc]
  rfl

theorem length_stringToBytes_le (text : Text) : (stringToBytes (utf16 text)).length ≤ (utf8 text).length := by
  rw [stringToBytes, List.length_map]
  exact length_utf16_le text

/-- The low bytes are the UTF-8 bytes of ASCII texts only: any other text has fewer units. -/
theorem lowBytes_eq_utf8 {text : Text} (hnul : Char.ofNat 0 ∉ text) : lowBytes text = utf8 text ↔ IsAscii text := by
  constructor
  · intro h
    have hle : (lowBytes text).length ≤ (utf16 text).length := by
      have hprefix := (List.takeWhile_prefix (l := stringToBytes (utf16 text)) (· ≠ 0)).length_le
      rwa [stringToBytes, List.length_map] at hprefix
    rw [h] at hle
    exact isAscii_of_length_le hle
  · intro h
    rw [lowBytes, ← utf8_of_ascii h]
    exact Terminated.takeWhile_eq_self (zero_not_mem_utf8_of_ascii h hnul)

section Agreement
variable {v : Vars} {l : Line} {a : Bool} {text : Text} {rest : Bytes}

/-- The connection is authorized if and only if the session id is the text in UTF-8. -/
def Agrees (v : Vars) (l : Line) (a : Bool) (text : Text) : Prop :=
  (body v (.serve a)).Ends Line.answer l (fun out t => Accepted l out t ↔ v.sessionId = utf8 text)

theorem password_ends (hnul : 0 ∉ v.sessionId) (hlen : (utf8 text).length ≤ 255)
    (hl : l.input.bytes = (sendPassword text).flatten ++ rest) :
    (body v (.serve a)).Ends Line.answer l (fun out t =>
      Accepted l out t ↔ v.sessionId = lowBytes text ∧ l.writes 0 = true) := by
  have hshort := (length_stringToBytes_le text).trans hlen
  rw [sendPassword_bytes] at hl
  refine (authorization_ends (by omega) hl).mono ?_
  rintro out t ⟨hiff, _⟩
  rw [hiff, List.take_of_length_le hshort, strcmp, decide_eq_true_iff, cString, cString, Terminated.takeWhile_eq_self hnul]
  rfl

end Agreement

theorem password_agrees_iff (v : Vars) (l : Line) (a : Bool) (text : Text) (rest : Bytes) (hnul : 0 ∉ v.sessionId)
    (htext : Char.ofNat 0 ∉ text) (hlen : (utf8 text).length ≤ 255)
    (hl : l.input.bytes = (sendPassword text).flatten ++ rest) :
    Agrees v l a text ↔
      (v.sessionId = utf8 text → l.writes 0 = true) ∧
        (IsAscii text ∨ v.sessionId ≠ utf8 text ∧ ¬ (v.sessionId = lowBytes text ∧ l.writes 0 = true)) := by
  have hiff := password_ends (v := v) (a := a) hnul hlen hl
  have hagrees : Agrees v l a text ↔ (v.sessionId = lowBytes text ∧ l.writes 0 = true ↔ v.sessionId = utf8 text) :=
    iff_congr hiff Iff.rfl
  rw [hagrees]
  by_cases hascii : IsAscii text
  · rw [(lowBytes_eq_utf8 htext).mpr hascii]
    constructor
    · intro h
      exact ⟨fun heq => (h.mpr heq).2, Or.inl hascii⟩
    · rintro ⟨hsent, _⟩
      exact ⟨fun h => h.1, fun heq => ⟨heq, hsent heq⟩⟩
  · have hdiffer : lowBytes text ≠ utf8 text := fun h => hascii ((lowBytes_eq_utf8 htext).mp h)
    constructor
    · intro h
      have hne : v.sessionId ≠ utf8 text := fun heq => hdiffer ((h.mpr heq).1.symm.trans heq)
      exact ⟨fun heq => absurd heq hne, Or.inr ⟨hne, fun hlow => hne (h.mp hlow)⟩⟩
    · rintro ⟨_, hor⟩
      obtain ⟨hne, hlow⟩ := hor.resolve_left hascii
      exact iff_of_false hlow hne

def passwordLine (text : Text) : Line := ⟨⟨(sendPassword text).flatten, fun _ => 0⟩, fun _ => true, none, [], none⟩

theorem ascii_password_agrees : Agrees (idVars [115, 51]) (passwordLine ['s', '3']) false ['s', '3'] :=
  (password_agrees_iff (idVars [115, 51]) (passwordLine ['s', '3']) false ['s', '3'] [] (by decide) (by decide) (by decide)
    (List.append_nil _).symm).mpr ⟨fun _ => rfl, Or.inl (by decide)⟩

/-- A password with an accent is refused, and another is accepted for what it is not. -/
theorem accented_password_disagrees :
    ¬ Agrees (idVars [0xC3, 0xA9]) (passwordLine ['é']) false ['é'] ∧ ¬ Agrees (idVars [65]) (passwordLine ['Ł']) false ['Ł'] := by
  constructor
  · intro h
    have hiff := @password_ends (idVars [0xC3, 0xA9]) (passwordLine ['é']) false ['é'] [] (by decide) (by decide) (List.append_nil _).symm
    have hlow := hiff.mp (h.mpr (by decide))
    exact absurd hlow.1 (by decide)
  · intro h
    have hiff := @password_ends (idVars [65]) (passwordLine ['Ł']) false ['Ł'] [] (by decide) (by decide) (List.append_nil _).symm
    have hid := h.mp (hiff.mpr ⟨by decide, rfl⟩)
    exact absurd hid (by decide)

end Password
end LilitunRemote

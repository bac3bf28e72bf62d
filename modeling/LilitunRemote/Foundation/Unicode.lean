import Mathlib.Data.List.Basic

/-! # Code units of a text

A text has its UTF-8 bytes and its UTF-16 code units. Every character needs as many bytes
as units, or more, and as many only if it is ASCII.
-/
namespace Unicode

abbrev Text := List Char

def utf8 (text : Text) : List UInt8 := text.flatMap String.utf8EncodeChar

def unitsOf (c : Char) : List UInt16 :=
  if c.toNat < 0x10000 then [UInt16.ofNat c.toNat]
  else [UInt16.ofNat (0xD800 + (c.toNat - 0x10000) / 0x400), UInt16.ofNat (0xDC00 + (c.toNat - 0x10000) % 0x400)]

def utf16 (text : Text) : List UInt16 := text.flatMap unitsOf

def IsAscii (text : Text) : Prop := ∀ c ∈ text, c.toNat < 0x80

instance (text : Text) : Decidable (IsAscii text) := List.decidableBAll (fun c : Char => c.toNat < 0x80) text

@[simp] theorem utf8_nil : utf8 [] = [] := rfl
@[simp] theorem utf8_cons (c : Char) (text : Text) : utf8 (c :: text) = String.utf8EncodeChar c ++ utf8 text := rfl
@[simp] theorem utf16_nil : utf16 [] = [] := rfl
@[simp] theorem utf16_cons (c : Char) (text : Text) : utf16 (c :: text) = unitsOf c ++ utf16 text := rfl

theorem isAscii_cons {c : Char} {text : Text} : IsAscii (c :: text) ↔ c.toNat < 0x80 ∧ IsAscii text :=
  List.forall_mem_cons

theorem utf8EncodeChar_of_ascii {c : Char} (h : c.toNat < 0x80) : String.utf8EncodeChar c = [UInt8.ofNat c.toNat] := by
  have hle : c.val.toNat ≤ 0x7f := Nat.le_of_lt_succ h
  simp only [String.utf8EncodeChar, if_pos hle]
  rfl

theorem unitsOf_of_ascii {c : Char} (h : c.toNat < 0x80) : unitsOf c = [UInt16.ofNat c.toNat] :=
  if_pos (by omega)

/-- A character that is not ASCII has more bytes than units. -/
theorem length_unitsOf_lt {c : Char} (h : ¬ c.toNat < 0x80) : (unitsOf c).length < (String.utf8EncodeChar c).length := by
  have hlarge : ¬ c.val.toNat ≤ 0x7f := fun hle => h (Nat.lt_succ_of_le hle)
  simp only [unitsOf, String.utf8EncodeChar, if_neg hlarge]
  split
  · split
    · simp
    · split <;> simp
  · next hwide =>
    have hseven : ¬ c.val.toNat ≤ 0x7ff := fun hle => hwide (Nat.lt_of_le_of_lt hle (by decide))
    have hfull : ¬ c.val.toNat ≤ 0xffff := fun hle => hwide (Nat.lt_succ_of_le hle)
    rw [if_neg hseven, if_neg hfull]
    exact (by decide : 2 < 4)

theorem length_unitsOf_le (c : Char) : (unitsOf c).length ≤ (String.utf8EncodeChar c).length := by
  by_cases h : c.toNat < 0x80
  · rw [unitsOf_of_ascii h, utf8EncodeChar_of_ascii h]
    exact Nat.le_refl 1
  · exact Nat.le_of_lt (length_unitsOf_lt h)

theorem length_utf16_le (text : Text) : (utf16 text).length ≤ (utf8 text).length := by
  induction text with
  | nil => exact Nat.le_refl 0
  | cons c text ih =>
    rw [utf16_cons, utf8_cons, List.length_append, List.length_append]
    exact Nat.add_le_add (length_unitsOf_le c) ih

theorem isAscii_of_length_le {text : Text} (h : (utf8 text).length ≤ (utf16 text).length) : IsAscii text := by
  induction text with
  | nil => exact List.forall_mem_nil _
  | cons c text ih =>
    rw [utf16_cons, utf8_cons, List.length_append, List.length_append] at h
    have hrest := length_utf16_le text
    have hfirst := length_unitsOf_le c
    refine isAscii_cons.mpr ⟨?_, ih (by omega)⟩
    by_contra hwide
    have hmore := length_unitsOf_lt hwide
    omega

/-- An ASCII text has the same numbers as bytes and as units. -/
theorem utf8_of_ascii {text : Text} (h : IsAscii text) : utf8 text = (utf16 text).map fun u => UInt8.ofNat u.toNat := by
  induction text with
  | nil => rfl
  | cons c text ih =>
    obtain ⟨hc, hrest⟩ := isAscii_cons.mp h
    have hunit : (UInt16.ofNat c.toNat).toNat = c.toNat := by
      rw [UInt16.toNat_ofNat', Nat.mod_eq_of_lt (by omega)]
    rw [utf8_cons, utf16_cons, utf8EncodeChar_of_ascii hc, unitsOf_of_ascii hc, ih hrest, List.map_append, List.map_singleton, hunit]

/-- No byte of a text is zero unless a character is. -/
theorem zero_not_mem_utf8_of_ascii {text : Text} (h : IsAscii text) (hnul : Char.ofNat 0 ∉ text) : (0 : UInt8) ∉ utf8 text := by
  induction text with
  | nil => exact List.not_mem_nil
  | cons c text ih =>
    obtain ⟨hc, hrest⟩ := isAscii_cons.mp h
    rw [List.mem_cons, not_or] at hnul
    rw [utf8_cons, utf8EncodeChar_of_ascii hc, List.mem_append, List.mem_singleton, not_or]
    refine ⟨?_, ih hrest hnul.2⟩
    intro hzero
    have hval := congrArg UInt8.toNat hzero
    rw [UInt8.toNat_ofNat', Nat.mod_eq_of_lt (by omega)] at hval
    exact hnul.1 (Char.toNat_inj.mp hval)

end Unicode

import Mathlib.Data.List.TakeWhile
import Mathlib.Tactic.Ring

/-! # Functions of the C library on texts

The texts are the bytes before the terminator, in ASCII.
-/
namespace CString

abbrev Text := List UInt8

def isSpace (b : UInt8) : Bool := b = 32 || (9 ≤ b && b ≤ 13)

def isDigit (b : UInt8) : Bool := 48 ≤ b && b ≤ 57

/-- What holds of the 256 bytes. -/
theorem forall_byte {p : UInt8 → Prop} (h : ∀ n : Fin 256, p (UInt8.ofNat n)) (b : UInt8) : p b := by
  have hb := h ⟨b.toNat, b.toNat_lt⟩
  rwa [UInt8.ofNat_toNat] at hb

/-- `strstr`: where the first occurrence of a text begins. -/
def strstr (needle : Text) : Text → Option ℕ
  | [] => if needle = [] then some 0 else none
  | b :: s => if needle.isPrefixOf (b :: s) then some 0 else (strstr needle s).map (· + 1)

def strchr (s : Text) (c : UInt8) : Option Text :=
  match s.dropWhile (· ≠ c) with
  | [] => none
  | t => some t

/-- The search passes over a part without the byte. -/
theorem strchr_append_left {s : Text} {c : UInt8} (h : c ∉ s) (t : Text) : strchr (s ++ t) c = strchr t c := by
  have hall : ∀ b ∈ s, decide (b ≠ c) = true := fun b hb => decide_eq_true (fun heq => h (heq ▸ hb))
  rw [strchr, strchr, List.dropWhile_append_of_pos hall]

theorem strchr_of_notMem {s : Text} {c : UInt8} (h : c ∉ s) : strchr s c = none := by
  rw [← List.append_nil s, strchr_append_left h]
  rfl

theorem strchr_append {s : Text} {c : UInt8} (h : c ∉ s) (rest : Text) : strchr (s ++ c :: rest) c = some (c :: rest) := by
  rw [strchr_append_left h, strchr, List.dropWhile_cons, if_neg (by simp)]

theorem strchr_length {s t : Text} {c : UInt8} (h : strchr s c = some t) : 0 < t.length ∧ t.length ≤ s.length := by
  unfold strchr at h
  split at h
  · cases h
  · next hne =>
    obtain rfl := Option.some.inj h
    exact ⟨List.length_pos_iff.mpr hne, (List.dropWhile_sublist _).length_le⟩

/-- A scan does not go beyond a byte that stops it. -/
theorem takeWhile_stop {p : UInt8 → Bool} {c : UInt8} (hc : p c = false) (s rest : Text) :
    (s ++ c :: rest).takeWhile p = s.takeWhile p := by
  induction s with
  | nil => rw [List.nil_append, List.takeWhile_cons, hc]; rfl
  | cons b s ih =>
    rw [List.cons_append, List.takeWhile_cons, List.takeWhile_cons, ih]

/-- A prefix without a byte ends before this byte. -/
theorem prefix_before {c : UInt8} {t s rest : Text} (hc : c ∉ t) : t <+: s ++ c :: rest ↔ t <+: s := by
  constructor
  · intro h
    rcases List.prefix_or_prefix_of_prefix h (List.prefix_append s (c :: rest)) with hle | ⟨u, rfl⟩
    · exact hle
    · cases u with
      | nil => simp
      | cons b u =>
        rw [List.prefix_append_right_inj, List.cons_prefix_cons] at h
        exact absurd (by simp [h.1]) hc
  · exact fun h => h.trans (List.prefix_append s (c :: rest))

/-- A text has no separator, or begins with a piece and a separator. -/
theorem pieces_induction {c : UInt8} {P : Text → Prop} (single : ∀ s, c ∉ s → P s)
    (more : ∀ piece rest, c ∉ piece → P rest → P (piece ++ c :: rest)) (s : Text) : P s := by
  induction hn : s.length using Nat.strong_induction_on generalizing s with
  | h n ih =>
    by_cases hc : c ∈ s
    · obtain ⟨piece, rest, rfl, hpiece⟩ := List.eq_append_cons_of_mem hc
      exact more piece rest hpiece (ih rest.length (by simp at hn; omega) rest rfl)
    · exact single s hc

/-- The number a row of digits denotes. -/
def number (digits : Text) : ℕ := digits.foldl (fun n d => 10 * n + (d.toNat - 48)) 0

structure Strtol where
  value : ℤ
  /-- The text at `endptr`. -/
  rest : Text
  /-- The value is outside the range of a `long`, and `errno` becomes ERANGE. -/
  range : Bool
  deriving DecidableEq, Repr

/-- The end of `strtol` after the spaces and the sign, with a `long` of 64 bits. -/
def strtolDigits (s : Text) (negative : Bool) (digits : Text) : Strtol :=
  let magnitude := number (digits.takeWhile isDigit)
  let value : ℤ := if negative then -magnitude else magnitude
  if digits.takeWhile isDigit = [] then ⟨0, s, false⟩
  else if value > 2 ^ 63 - 1 then ⟨2 ^ 63 - 1, digits.dropWhile isDigit, true⟩
  else if value < -2 ^ 63 then ⟨-2 ^ 63, digits.dropWhile isDigit, true⟩
  else ⟨value, digits.dropWhile isDigit, false⟩

def strtol (s : Text) : Strtol :=
  match s.dropWhile isSpace with
  | 43 :: t => strtolDigits s false t
  | 45 :: t => strtolDigits s true t
  | t => strtolDigits s false t

theorem strstr_append {needle name rest : Text} (hne : needle ≠ [])
    (hfirst : ∀ i < name.length, ¬ needle <+: (name ++ (needle ++ rest)).drop i) :
    strstr needle (name ++ (needle ++ rest)) = some name.length := by
  induction name with
  | nil =>
    obtain ⟨b, s, hs⟩ : ∃ b s, needle ++ rest = b :: s :=
      List.exists_cons_of_ne_nil (List.append_ne_nil_of_left_ne_nil hne rest)
    have hprefix : needle.isPrefixOf (b :: s) = true := by
      rw [List.isPrefixOf_iff_prefix, ← hs]
      exact List.prefix_append needle rest
    rw [List.nil_append, hs, strstr, if_pos hprefix]
    rfl
  | cons c name ih =>
    have hhere : ¬ needle.isPrefixOf (c :: (name ++ (needle ++ rest))) = true := by
      rw [List.isPrefixOf_iff_prefix]
      exact hfirst 0 (Nat.succ_pos _)
    rw [List.cons_append, strstr, if_neg hhere, ih (fun i hi => hfirst (i + 1) (Nat.succ_lt_succ hi))]
    rfl

theorem not_isSpace_of_isDigit {b : UInt8} (h : isDigit b = true) : isSpace b = false := by
  rw [isDigit, Bool.and_eq_true, decide_eq_true_iff, decide_eq_true_iff] at h
  have hlow : 48 ≤ b.toNat := h.1
  rw [isSpace, Bool.or_eq_false_iff, Bool.and_eq_false_iff, decide_eq_false_iff_not, decide_eq_false_iff_not, decide_eq_false_iff_not]
  refine ⟨?_, Or.inr ?_⟩
  · rintro rfl
    exact absurd hlow (by decide)
  · intro hle
    have hhigh : b.toNat ≤ 13 := hle
    omega

/-- A scan that stops behind a part of the text. -/
theorem span_append {p : UInt8 → Bool} {s rest : Text} (hs : ∀ b ∈ s, p b = true) (hrest : ∀ b ∈ rest.head?, p b = false) :
    (s ++ rest).takeWhile p = s ∧ (s ++ rest).dropWhile p = rest := by
  rw [List.takeWhile_append_of_pos hs, List.dropWhile_append_of_pos hs]
  cases rest with
  | nil => exact ⟨List.append_nil s, rfl⟩
  | cons b rest =>
    have hb : p b = false := hrest b rfl
    rw [List.takeWhile_cons, List.dropWhile_cons, hb]
    exact ⟨List.append_nil s, rfl⟩

theorem strtol_of_digit {d : UInt8} (hd : isDigit d = true) (t : Text) : strtol (d :: t) = strtolDigits (d :: t) false (d :: t) := by
  have hspace : (d :: t).dropWhile isSpace = d :: t := by rw [List.dropWhile_cons, not_isSpace_of_isDigit hd]; rfl
  unfold strtol
  rw [hspace]
  split
  · next h =>
    rw [(List.cons.inj h).1] at hd
    exact absurd hd (by decide)
  · next h =>
    rw [(List.cons.inj h).1] at hd
    exact absurd hd (by decide)
  · rfl

/-- A row of digits is read to its end, and saturates. -/
theorem strtol_digits {digits rest : Text} (hne : digits ≠ []) (hdigits : ∀ d ∈ digits, isDigit d = true)
    (hrest : ∀ b ∈ rest.head?, isDigit b = false) :
    (strtol (digits ++ rest)).value = min (number digits : ℤ) (2 ^ 63 - 1) ∧ (strtol (digits ++ rest)).rest = rest := by
  obtain ⟨htake, hdrop⟩ := span_append hdigits hrest
  obtain ⟨d, ds, rfl⟩ := List.exists_cons_of_ne_nil hne
  rw [List.cons_append] at htake hdrop ⊢
  rw [strtol_of_digit (hdigits d List.mem_cons_self), strtolDigits, htake, hdrop, if_neg hne]
  simp only [Bool.false_eq_true, if_false]
  split
  · next hlarge => exact ⟨(min_eq_right hlarge.le).symm, rfl⟩
  · next hsmall =>
    rw [if_neg (by omega)]
    exact ⟨(min_eq_left (le_of_not_gt hsmall)).symm, rfl⟩

end CString

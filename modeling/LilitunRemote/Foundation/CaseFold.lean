import LilitunRemote.Foundation.CString

/-! # Comparisons that ignore case

The functions of the C library, in the C locale: only the ASCII letters have two cases.
-/
namespace CString

def toLower (b : UInt8) : UInt8 := if 65 ≤ b && b ≤ 90 then b + 32 else b

def lower (s : Text) : Text := s.map toLower

def strcasestr (needle s : Text) : Option ℕ := strstr (lower needle) (lower s)

/-- `strcasecmp` and `strncasecmp`, as tests. -/
def strcasecmp (s t : Text) : Bool := lower s = lower t
def strncasecmp (s t : Text) (n : ℕ) : Bool := (lower s).take n = (lower t).take n

section Lower
variable {s t needle : Text}

@[simp] theorem lower_length (s : Text) : (lower s).length = s.length := List.length_map _

@[simp] theorem lower_append (s t : Text) : lower (s ++ t) = lower s ++ lower t := List.map_append

@[simp] theorem lower_cons (b : UInt8) (s : Text) : lower (b :: s) = toLower b :: lower s := rfl

/-- A byte that is no letter is the lower case of itself only. -/
theorem toLower_eq_iff {c : UInt8} (hc : c.toNat < 65) (b : UInt8) : toLower b = c ↔ b = c := by
  unfold toLower
  split
  · next hletter =>
    rw [Bool.and_eq_true, decide_eq_true_iff, decide_eq_true_iff, UInt8.le_iff_toNat_le, UInt8.le_iff_toNat_le] at hletter
    have hlow : 65 ≤ b.toNat := hletter.1
    have hhigh : b.toNat ≤ 90 := hletter.2
    have hmoved : (b + 32).toNat = b.toNat + 32 := by
      rw [UInt8.toNat_add]
      exact Nat.mod_eq_of_lt (by change b.toNat + 32 < 2 ^ 8; omega)
    rw [← UInt8.toNat_inj, ← UInt8.toNat_inj, hmoved]
    omega
  · exact Iff.rfl

theorem mem_lower_iff {c : UInt8} (hc : c.toNat < 65) : c ∈ lower s ↔ c ∈ s := by
  simp [lower, toLower_eq_iff hc]

theorem strstr_eq_zero_iff : strstr needle s = some 0 ↔ needle <+: s := by
  cases s with
  | nil => simp [strstr]
  | cons b s =>
    rw [strstr, ← List.isPrefixOf_iff_prefix]
    split <;> simp [*]

theorem strcasestr_eq_zero_iff : strcasestr needle s = some 0 ↔ lower needle <+: lower s := strstr_eq_zero_iff

theorem strcasecmp_iff : strcasecmp s t = true ↔ lower s = lower t := decide_eq_true_iff

theorem strncasecmp_iff : strncasecmp s t t.length = true ↔ lower t <+: lower s := by
  rw [strncasecmp, decide_eq_true_iff, ← lower_length t, List.take_length, List.prefix_iff_eq_take, eq_comm]

end Lower

end CString

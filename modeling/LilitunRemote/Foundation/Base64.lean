import Mathlib.Data.List.Basic

/-! # The base64 alphabet and its encoder

Three bytes become four letters of six bits; a last group of one or two bytes is filled up
with padding.
-/
namespace Base64

def letter (n : ℕ) : UInt8 :=
  if n < 26 then UInt8.ofNat (65 + n) else if n < 52 then UInt8.ofNat (71 + n) else if n < 62 then UInt8.ofNat (n - 4)
  else if n = 62 then 43 else 47

def pad : UInt8 := 61

def sextets (a b c : UInt8) : List ℕ :=
  [a.toNat / 4, a.toNat % 4 * 16 + b.toNat / 16, b.toNat % 16 * 4 + c.toNat / 64, c.toNat % 64]

def encode : List UInt8 → List UInt8
  | [] => []
  | [a] => ((sextets a 0 0).take 2).map letter ++ [pad, pad]
  | [a, b] => ((sextets a b 0).take 3).map letter ++ [pad]
  | a :: b :: c :: s => (sextets a b c).map letter ++ encode s

theorem sextets_lt (a b c : UInt8) : ∀ n ∈ sextets a b c, n < 64 := by
  have ha := a.toNat_lt
  have hb := b.toNat_lt
  have hc := c.toNat_lt
  simp only [sextets, List.forall_mem_cons, List.not_mem_nil, false_implies, implies_true, and_true]
  omega

theorem letter_ne_pad {n : ℕ} (hn : n < 64) : letter n ≠ pad := by
  have hall : ∀ n : Fin 64, letter n ≠ pad := by decide
  exact hall ⟨n, hn⟩

theorem letter_eq_slash {n : ℕ} (hn : n < 64) : letter n = 47 ↔ n = 63 := by
  have hall : ∀ n : Fin 64, letter n = 47 ↔ n.val = 63 := by decide
  exact hall ⟨n, hn⟩

theorem length_encode (s : List UInt8) : (encode s).length = 4 * ((s.length + 2) / 3) := by
  fun_induction encode s with
  | case1 => rfl
  | case2 a => simp [sextets]
  | case3 a b => simp [sextets]
  | case4 a b c s ih =>
    rw [List.length_append, ih, List.length_map]
    change 4 + 4 * ((s.length + 2) / 3) = 4 * ((s.length + 3 + 2) / 3)
    omega

theorem mem_encode {s : List UInt8} {l : UInt8} (h : l ∈ encode s) : l = pad ∨ ∃ n < 64, l = letter n := by
  have hsextet : ∀ (a b c : UInt8) (m : ℕ), l ∈ ((sextets a b c).take m).map letter → ∃ n < 64, l = letter n := by
    intro a b c m hl
    obtain ⟨n, hn, rfl⟩ := List.mem_map.mp hl
    exact ⟨n, sextets_lt a b c n (List.mem_of_mem_take hn), rfl⟩
  fun_induction encode s with
  | case1 => exact absurd h List.not_mem_nil
  | case2 a =>
    rcases List.mem_append.mp h with h | h
    · exact Or.inr (hsextet a 0 0 2 h)
    · exact Or.inl (by simpa using h)
  | case3 a b =>
    rcases List.mem_append.mp h with h | h
    · exact Or.inr (hsextet a b 0 3 h)
    · exact Or.inl (by simpa using h)
  | case4 a b c s ih =>
    rcases List.mem_append.mp h with h | h
    · exact Or.inr (hsextet a b c 4 h)
    · exact ih h

/-- Of bytes below 127 only a question mark in the third place gives six ones. -/
theorem sextets_ones {a b c : UInt8} (ha : a < 127) (hb : b < 127) (hc : c < 127) :
    ∀ n ∈ (sextets a b c).take 3, n ≠ 63 := by
  rw [UInt8.lt_iff_toNat_lt] at ha hb hc
  have hlimit : (127 : UInt8).toNat = 127 := rfl
  simp only [sextets, List.take_succ_cons, List.take_zero, List.forall_mem_cons, List.not_mem_nil, false_implies, implies_true,
    and_true]
  omega

theorem ones_iff {c : UInt8} (hc : c < 127) : c.toNat % 64 = 63 ↔ c = 63 := by
  rw [UInt8.lt_iff_toNat_lt] at hc
  have hlimit : (127 : UInt8).toNat = 127 := rfl
  have hmark : (63 : UInt8).toNat = 63 := rfl
  rw [← UInt8.toNat_inj, hmark]
  omega

/-- A question mark in the third place of a group. -/
def ThirdMark (s : List UInt8) : Prop := ∃ i, i % 3 = 2 ∧ s[i]? = some 63

theorem thirdMark_cons {a b c : UInt8} {s : List UInt8} : ThirdMark (a :: b :: c :: s) ↔ c = 63 ∨ ThirdMark s := by
  constructor
  · rintro ⟨i, hi, hmark⟩
    by_cases htwo : i = 2
    · subst htwo
      exact Or.inl (Option.some.inj hmark)
    · obtain ⟨j, rfl⟩ : ∃ j, i = j + 3 := ⟨i - 3, by omega⟩
      exact Or.inr ⟨j, by omega, hmark⟩
  · rintro (rfl | ⟨i, hi, hmark⟩)
    · exact ⟨2, rfl, rfl⟩
    · exact ⟨i + 3, by omega, hmark⟩

theorem not_thirdMark_short {s : List UInt8} (h : s.length ≤ 2) : ¬ ThirdMark s := by
  rintro ⟨i, hi, hmark⟩
  have hlt := (List.getElem?_eq_some_iff.mp hmark).1
  omega

def IsPlainLetter (b : UInt8) : Prop := ∃ n < 63, b = letter n

theorem IsPlainLetter.ne_slash {b : UInt8} (h : IsPlainLetter b) : b ≠ 47 := by
  obtain ⟨n, hn, rfl⟩ := h
  rw [Ne, letter_eq_slash (by omega)]
  omega

theorem plain_letters {ns : List ℕ} (hlt : ∀ n ∈ ns, n < 64) (hones : ∀ n ∈ ns, n ≠ 63) : ∀ b ∈ ns.map letter, IsPlainLetter b := by
  intro b hb
  obtain ⟨n, hn, rfl⟩ := List.mem_map.mp hb
  have hlt := hlt n hn
  have hne := hones n hn
  exact ⟨n, by omega, rfl⟩

section Ascii
variable {s : List UInt8}

/-- Of bytes below 127 only the fourth letter of a group can be a slash. -/
theorem plain_letters_take {a b c : UInt8} {m : ℕ} (hm : m ≤ 3) (ha : a < 127) (hb : b < 127) (hc : c < 127) :
    ∀ l ∈ ((sextets a b c).take m).map letter, IsPlainLetter l := by
  refine plain_letters (fun n hn => sextets_lt a b c n (List.mem_of_mem_take hn)) (fun n hn => ?_)
  exact sextets_ones ha hb hc n (List.take_subset_take_left _ hm hn)

/-- Without a question mark in a third place there is no slash. -/
theorem slash_notMem_encode (hs : ∀ b ∈ s, b < 127) (hmark : ¬ ThirdMark s) : 47 ∉ encode s := by
  fun_induction encode s with
  | case1 => exact List.not_mem_nil
  | case2 a =>
    rw [List.mem_append, not_or]
    exact ⟨fun h => (plain_letters_take (by decide) (hs a (by simp)) (by decide) (by decide) _ h).ne_slash rfl, by decide⟩
  | case3 a b =>
    rw [List.mem_append, not_or]
    exact ⟨fun h => (plain_letters_take (by decide) (hs a (by simp)) (hs b (by simp)) (by decide) _ h).ne_slash rfl, by decide⟩
  | case4 a b c s ih =>
    simp only [List.forall_mem_cons] at hs
    obtain ⟨ha, hb, hc, hs⟩ := hs
    rw [thirdMark_cons, not_or] at hmark
    have hsplit : sextets a b c = (sextets a b c).take 3 ++ [c.toNat % 64] := rfl
    rw [hsplit, List.map_append, List.mem_append, List.mem_append, not_or, not_or]
    refine ⟨⟨fun h => (plain_letters_take (Nat.le_refl 3) ha hb hc _ h).ne_slash rfl, ?_⟩, ih hs hmark.2⟩
    rw [List.map_singleton, List.mem_singleton, eq_comm, letter_eq_slash (by omega), ones_iff hc]
    exact hmark.1

/-- Up to the first slash there are letters only, and one less than whole groups of them. -/
theorem encode_eq_cut (hs : ∀ b ∈ s, b < 127) (hmark : ThirdMark s) :
    ∃ cut rest, encode s = cut ++ 47 :: rest ∧ (∀ l ∈ cut, IsPlainLetter l) ∧ cut.length % 4 = 3 := by
  fun_induction encode s with
  | case1 => exact absurd hmark (not_thirdMark_short (by simp))
  | case2 a => exact absurd hmark (not_thirdMark_short (by simp))
  | case3 a b => exact absurd hmark (not_thirdMark_short (by simp))
  | case4 a b c s ih =>
    simp only [List.forall_mem_cons] at hs
    obtain ⟨ha, hb, hc, hs⟩ := hs
    have hsplit : sextets a b c = (sextets a b c).take 3 ++ [c.toNat % 64] := rfl
    have htake := plain_letters_take (Nat.le_refl 3) ha hb hc
    rw [hsplit, List.map_append, List.map_singleton]
    by_cases hone : c = 63
    · exact ⟨_, encode s, by rw [(letter_eq_slash (by omega)).mpr ((ones_iff hc).mpr hone), List.append_assoc]; rfl, htake, rfl⟩
    · obtain ⟨cut, rest, hencode, hplain, hlength⟩ := ih hs ((thirdMark_cons.mp hmark).resolve_left hone)
      have hlast : ∀ l ∈ [letter (c.toNat % 64)], IsPlainLetter l := by
        refine List.forall_mem_singleton.mpr ⟨c.toNat % 64, ?_, rfl⟩
        have hne := mt (ones_iff hc).mp hone
        omega
      refine ⟨((sextets a b c).take 3).map letter ++ [letter (c.toNat % 64)] ++ cut, rest, by rw [hencode]; simp only [List.append_assoc], ?_, ?_⟩
      · exact List.forall_mem_append.mpr ⟨List.forall_mem_append.mpr ⟨htake, hlast⟩, hplain⟩
      · rw [List.length_append, List.length_append, List.length_map]
        change (3 + 1 + cut.length) % 4 = 3
        omega

end Ascii

end Base64

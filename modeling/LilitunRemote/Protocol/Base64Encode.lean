import LilitunRemote.Launch.Base64Decode

/-! # The encoder of base64.c

`base64_encode` puts a line feed behind every 72 letters and reserves room for the feeds
before it starts. `base64_decode` passes over them.
-/
namespace LilitunRemote
namespace Base64Encode
open Base64
open Launch (base64Table base64Decode decodeBlocks dtable)

def tableLetter (i : UInt8) : UInt8 := base64Table.getD i.toNat 0

def blockLetters (a b c : UInt8) : Bytes :=
  [tableLetter (a >>> 2), tableLetter ((a &&& 0x03) <<< 4 ||| b >>> 4), tableLetter ((b &&& 0x0f) <<< 2 ||| c >>> 6),
    tableLetter (c &&& 0x3f)]

def encodeFrom : ℕ → Bytes → Bytes
  | _, [] => []
  | _, [a] => [tableLetter (a >>> 2), tableLetter ((a &&& 0x03) <<< 4), 61, 61]
  | _, [a, b] => [tableLetter (a >>> 2), tableLetter ((a &&& 0x03) <<< 4 ||| b >>> 4), tableLetter ((b &&& 0x0f) <<< 2), 61]
  | lineLen, a :: b :: c :: src =>
    blockLetters a b c ++ if lineLen + 4 ≥ 72 then 10 :: encodeFrom 0 src else encodeFrom (lineLen + 4) src

/-- The size of the buffer, with a `size_t` of 64 bits; only the product can overflow. -/
def outLength (len : ℕ) : ℕ :=
  let olen := len * 4 % 2 ^ 64 / 3 + 4
  olen + olen / 72 + 1

def base64Encode (src : Bytes) : Option Bytes :=
  if outLength src.length < src.length then none else some (encodeFrom 0 src)

/-! ## The letters -/

theorem tableLetter_ofNat {n : ℕ} (hn : n < 64) : tableLetter (UInt8.ofNat n) = letter n := by
  have hall : ∀ n : Fin 64, tableLetter (UInt8.ofNat n) = letter n := by decide +kernel
  exact hall ⟨n, hn⟩

theorem high_bits (b : UInt8) {k : ℕ} (hk : k < 8) : b >>> UInt8.ofNat k = UInt8.ofNat (b.toNat / 2 ^ k) := by
  have hshift := Launch.shift_right b.toNat_lt hk
  rwa [UInt8.ofNat_toNat] at hshift

theorem low_bits (b : UInt8) {k : ℕ} (hk : k ≤ 8) : b &&& UInt8.ofNat (2 ^ k - 1) = UInt8.ofNat (b.toNat % 2 ^ k) := by
  have hpow := Nat.pow_le_pow_right (by decide : 0 < 2) hk
  have hpos := Nat.two_pow_pos k
  have hle := Nat.mod_le b.toNat (2 ^ k)
  have hb := b.toNat_lt
  rw [← UInt8.toNat_inj, UInt8.toNat_and, UInt8.toNat_ofNat', UInt8.toNat_ofNat', Nat.mod_eq_of_lt (a := 2 ^ k - 1) (by omega),
    Nat.and_two_pow_sub_one_eq_mod, Nat.mod_eq_of_lt (a := b.toNat % 2 ^ k) (by omega)]

/-- The low bits of a byte before the high bits of the next one. -/
theorem joined_bits (a b : UInt8) {l k : ℕ} (hl : l ≤ 8) (hk : 0 < k) (hk' : k < 8) :
    (a &&& UInt8.ofNat (2 ^ l - 1)) <<< UInt8.ofNat k ||| b >>> UInt8.ofNat (8 - k) =
      UInt8.ofNat (a.toNat % 2 ^ l * 2 ^ k + b.toNat / 2 ^ (8 - k)) := by
  have hb := b.toNat_lt
  have hpow : 2 ^ (8 - k) * 2 ^ k = 2 ^ 8 := by rw [← Nat.pow_add, Nat.sub_add_cancel hk'.le]
  have hhigh : b.toNat / 2 ^ (8 - k) < 2 ^ k := Nat.div_lt_of_lt_mul (by omega)
  rw [low_bits a hl, high_bits b (by omega), Launch.shift_or hk' hhigh]

theorem first_letter (a : UInt8) : tableLetter (a >>> 2) = letter (a.toNat / 4) := by
  have ha := a.toNat_lt
  have hbits : a >>> 2 = UInt8.ofNat (a.toNat / 4) := @high_bits a 2 (by decide)
  rw [hbits, tableLetter_ofNat (by omega)]

theorem second_letter (a b : UInt8) : tableLetter ((a &&& 0x03) <<< 4 ||| b >>> 4) = letter (a.toNat % 4 * 16 + b.toNat / 16) := by
  have hb := b.toNat_lt
  have hbits : (a &&& 0x03) <<< 4 ||| b >>> 4 = UInt8.ofNat (a.toNat % 4 * 16 + b.toNat / 16) :=
    @joined_bits a b 2 4 (by decide) (by decide) (by decide)
  rw [hbits, tableLetter_ofNat (by omega)]

theorem third_letter (b c : UInt8) : tableLetter ((b &&& 0x0f) <<< 2 ||| c >>> 6) = letter (b.toNat % 16 * 4 + c.toNat / 64) := by
  have hc := c.toNat_lt
  have hbits : (b &&& 0x0f) <<< 2 ||| c >>> 6 = UInt8.ofNat (b.toNat % 16 * 4 + c.toNat / 64) :=
    @joined_bits b c 4 2 (by decide) (by decide) (by decide)
  rw [hbits, tableLetter_ofNat (by omega)]

theorem fourth_letter (c : UInt8) : tableLetter (c &&& 0x3f) = letter (c.toNat % 64) := by
  have hbits : c &&& 0x3f = UInt8.ofNat (c.toNat % 64) := @low_bits c 6 (by decide)
  rw [hbits, tableLetter_ofNat (by omega)]

theorem blockLetters_eq (a b c : UInt8) : blockLetters a b c = (sextets a b c).map letter := by
  simp [blockLetters, sextets, first_letter, second_letter, third_letter, fourth_letter]

/-- A last byte alone: the bits that are missing are zeros. -/
theorem one_letters (a : UInt8) :
    [tableLetter (a >>> 2), tableLetter ((a &&& 0x03) <<< 4), 61, 61] = encode [a] := by
  have hsecond := second_letter a 0
  rw [UInt8.zero_shiftRight, UInt8.or_zero] at hsecond
  simp [encode, sextets, first_letter, hsecond, pad]

theorem two_letters (a b : UInt8) :
    [tableLetter (a >>> 2), tableLetter ((a &&& 0x03) <<< 4 ||| b >>> 4), tableLetter ((b &&& 0x0f) <<< 2), 61] = encode [a, b] := by
  have hthird := third_letter b 0
  rw [UInt8.zero_shiftRight, UInt8.or_zero] at hthird
  simp [encode, sextets, first_letter, second_letter, hthird, pad]

/-! ## The line feeds -/

theorem encode_ne_feed {src : Bytes} : ∀ l ∈ encode src, l ≠ 10 := by
  intro l hl
  have hletter : ∀ n : Fin 64, letter n ≠ 10 := by decide
  rcases mem_encode hl with rfl | ⟨n, hn, rfl⟩
  · decide
  · exact hletter ⟨n, hn⟩

/-- Without the feeds the text is the standard one. -/
theorem encodeFrom_filter (lineLen : ℕ) (src : Bytes) : (encodeFrom lineLen src).filter (· ≠ 10) = encode src := by
  have hself : ∀ src : Bytes, (encode src).filter (· ≠ 10) = encode src := fun src =>
    List.filter_eq_self.mpr (fun l hl => decide_eq_true (encode_ne_feed l hl))
  fun_induction encodeFrom lineLen src with
  | case1 => rfl
  | case2 _ a => rw [one_letters, hself]
  | case3 _ a b => rw [two_letters, hself]
  | case4 lineLen a b c src ih₁ ih₂ =>
    have hblock : ∀ l ∈ (sextets a b c).map letter, l ≠ 10 := by
      intro l hl
      refine @encode_ne_feed (a :: b :: c :: src) l ?_
      simp [encode, List.mem_append, hl]
    rw [blockLetters_eq, encode, List.filter_append, List.filter_eq_self.mpr (fun l hl => decide_eq_true (hblock l hl))]
    split
    · rw [List.filter_cons_of_neg (by decide), ih₁]
    · rw [ih₂]

theorem blockLetters_length (a b c : UInt8) : (blockLetters a b c).length = 4 := rfl

/-- Blocks fill a line before it ends, so the position is a number of blocks. -/
theorem encodeFrom_length {k : ℕ} (hk : k < 18) (src : Bytes) :
    (encodeFrom (4 * k) src).length = 4 * ((src.length + 2) / 3) + (k + src.length / 3) / 18 := by
  induction hn : src.length using Nat.strong_induction_on generalizing src k with
  | h n ih =>
    subst hn
    rcases src with _ | ⟨a, _ | ⟨b, _ | ⟨c, src⟩⟩⟩
    · simp [encodeFrom]
      omega
    · simp [encodeFrom]
      omega
    · simp [encodeFrom]
      omega
    · rw [encodeFrom, List.length_append, blockLetters_length]
      have hless : src.length < (a :: b :: c :: src).length := by simp only [List.length_cons]; omega
      simp only [List.length_cons] at hless ⊢
      split
      · next hfull =>
        have hrest := ih src.length hless (k := 0) (by decide) src rfl
        rw [List.length_cons, hrest]
        omega
      · next hroom =>
        have hrest := ih src.length hless (k := k + 1) (by omega) src rfl
        have hnext : 4 * k + 4 = 4 * (k + 1) := by ring
        rw [hnext, hrest]
        omega

/-- The feeds stand behind 72 letters, and nowhere else. -/
theorem encodeFrom_feeds {k : ℕ} (hk : k < 18) (src : Bytes) (i : ℕ) :
    (encodeFrom (4 * k) src)[i]? = some 10 ↔ (4 * k + i) % 73 = 72 ∧ i < (encodeFrom (4 * k) src).length := by
  induction hn : src.length using Nat.strong_induction_on generalizing src k i with
  | h n ih =>
    subst hn
    have hletters : ∀ s : Bytes, (∀ l ∈ s, l ≠ 10) → s.length ≤ 4 → (s[i]? = some 10 ↔ (4 * k + i) % 73 = 72 ∧ i < s.length) := by
      intro s hs hlength
      refine iff_of_false (fun h => hs 10 (List.mem_of_getElem? h) rfl) (fun ⟨hline, hi⟩ => ?_)
      rw [Nat.mod_eq_of_lt (by omega)] at hline
      omega
    rcases src with _ | ⟨a, _ | ⟨b, _ | ⟨c, src⟩⟩⟩
    · exact hletters [] (by simp) (by simp)
    · rw [encodeFrom, one_letters]
      exact hletters _ encode_ne_feed (by rw [length_encode]; simp)
    · rw [encodeFrom, two_letters]
      exact hletters _ encode_ne_feed (by rw [length_encode]; simp)
    · have hless : src.length < (a :: b :: c :: src).length := by simp only [List.length_cons]; omega
      have hblock : ∀ l ∈ blockLetters a b c, l ≠ 10 := by
        intro l hl
        rw [blockLetters_eq] at hl
        refine @encode_ne_feed (a :: b :: c :: src) l ?_
        simp [encode, List.mem_append, hl]
      rw [encodeFrom, List.length_append, blockLetters_length]
      rcases Nat.lt_or_ge i 4 with hi | hi
      · rw [List.getElem?_append_left (by rw [blockLetters_length]; exact hi)]
        refine iff_of_false (fun h => hblock 10 (List.mem_of_getElem? h) rfl) (fun ⟨hline, _⟩ => ?_)
        rw [Nat.mod_eq_of_lt (by omega)] at hline
        omega
      · obtain ⟨j, rfl⟩ := Nat.exists_eq_add_of_le hi
        rw [List.getElem?_append_right (by rw [blockLetters_length]; omega), blockLetters_length, Nat.add_sub_cancel_left]
        split
        · next hfull =>
          obtain rfl : k = 17 := by omega
          rcases j with _ | j
          · rw [List.getElem?_cons_zero, List.length_cons]
            exact iff_of_true rfl (by omega)
          · have hrest : (encodeFrom 0 src)[j]? = some 10 ↔ (4 * 0 + j) % 73 = 72 ∧ j < (encodeFrom 0 src).length :=
              ih src.length hless (k := 0) (by decide) src j rfl
            rw [List.getElem?_cons_succ, List.length_cons, hrest]
            omega
        · next hroom =>
          have hrest := ih src.length hless (k := k + 1) (by omega) src j rfl
          have hnext : 4 * k + 4 = 4 * (k + 1) := by ring
          rw [hnext, hrest]
          omega

/-- A text of one line has no feed. -/
theorem encodeFrom_short {src : Bytes} (hshort : src.length < 54) : encodeFrom 0 src = encode src := by
  rw [← encodeFrom_filter 0 src, eq_comm, List.filter_eq_self]
  intro l hl
  rw [decide_eq_true_iff]
  rintro rfl
  obtain ⟨i, hi⟩ := List.getElem?_of_mem hl
  have hlength : (encodeFrom 0 src).length = 4 * ((src.length + 2) / 3) + (0 + src.length / 3) / 18 :=
    encodeFrom_length (k := 0) (by decide) src
  have hfeed : (4 * 0 + i) % 73 = 72 ∧ i < (encodeFrom 0 src).length := (encodeFrom_feeds (k := 0) (by decide) src i).mp hi
  omega

/-! ## The buffer -/

theorem outLength_lt_iff {len : ℕ} (hlen : len < 2 ^ 64) : outLength len < len ↔ 2 ^ 62 ≤ len := by
  simp only [outLength]
  omega

theorem encodeFrom_fits {src : Bytes} (hlength : src.length < 2 ^ 62) : (encodeFrom 0 src).length < outLength src.length := by
  have hwritten : (encodeFrom 0 src).length = 4 * ((src.length + 2) / 3) + (0 + src.length / 3) / 18 :=
    encodeFrom_length (k := 0) (by decide) src
  simp only [hwritten, outLength]
  omega

theorem dtable_feed : dtable 10 = 0x80 := by decide +kernel

theorem base64Decode_encodeFrom {src : Bytes} (hne : src ≠ []) : base64Decode (encodeFrom 0 src) = some src := by
  have htable : (encodeFrom 0 src).filter (fun b => dtable b ≠ 0x80) = (encode src).filter (fun b => dtable b ≠ 0x80) := by
    rw [← encodeFrom_filter 0 src, List.filter_filter]
    refine List.filter_congr (fun b _ => ?_)
    by_cases hb : b = 10
    · simp [hb, dtable_feed]
    · simp [hb]
  have hround := Launch.base64Decode_encode hne
  rw [base64Decode] at hround ⊢
  rw [htable]
  exact hround

/-- `base64_encode` refuses exactly the lengths whose size overflows; else it stays in its buffer
with the zero at the end, writes the standard text with a feed after every 72 letters, and
`base64_decode` gives the bytes back. -/
theorem base64_exact {src : Bytes} (hne : src ≠ []) (hsize : src.length < 2 ^ 64) :
    (base64Encode src = none ↔ 2 ^ 62 ≤ src.length) ∧
      ∀ out, base64Encode src = some out →
        out.length < outLength src.length ∧ (∀ i, out[i]? = some 10 ↔ i % 73 = 72 ∧ i < out.length) ∧
          out.filter (· ≠ 10) = encode src ∧ base64Decode out = some src := by
  have hrefused : base64Encode src = none ↔ 2 ^ 62 ≤ src.length := by
    rw [← outLength_lt_iff hsize, base64Encode]
    split <;> simp [*]
  refine ⟨hrefused, fun out hout => ?_⟩
  have hshort : src.length < 2 ^ 62 := by
    by_contra hlong
    rw [hrefused.mpr (by omega)] at hout
    exact absurd hout (by simp)
  obtain rfl : encodeFrom 0 src = out := by
    rw [base64Encode] at hout
    split at hout
    · exact absurd hout (by simp)
    · exact Option.some.inj hout
  have hfeeds : ∀ i, (encodeFrom 0 src)[i]? = some 10 ↔ i % 73 = 72 ∧ i < (encodeFrom 0 src).length := by
    intro i
    have h := encodeFrom_feeds (k := 0) (by decide) src i
    simpa using h
  exact ⟨encodeFrom_fits hshort, hfeeds, encodeFrom_filter 0 src, base64Decode_encodeFrom hne⟩

theorem base64_exact_two :
    base64Encode [77, 97] = some [84, 87, 69, 61] ∧ base64Decode [84, 87, 69, 61] = some [77, 97] :=
  have hout : base64Encode [77, 97] = some [84, 87, 69, 61] := by decide +kernel
  ⟨hout, ((@base64_exact [77, 97] (by simp) (by simp)).2 _ hout).2.2.2⟩

end Base64Encode
end LilitunRemote

import LilitunRemote.Foundation.Base64
import LilitunRemote.Protocol.Wire

/-! # The decoder of the launch link

`base64_decode` passes over all bytes outside its table and stops behind the first group
with padding.
-/
namespace LilitunRemote
namespace Launch
open Base64

def base64Table : Bytes := asciiBytes "ABCDEFGHIJKLMNOPQRSTUVWXYZabcdefghijklmnopqrstuvwxyz0123456789+/"

/-- The table `dtable`, with 0x80 for the bytes that are passed over. -/
def dtable (b : UInt8) : UInt8 := if b = 61 then 0 else ((base64Table.idxOf? b).map UInt8.ofNat).getD 0x80

def blockBytes (b₀ b₁ b₂ b₃ : UInt8) : Bytes := [b₀ <<< 2 ||| b₁ >>> 4, b₁ <<< 4 ||| b₂ >>> 2, b₂ <<< 6 ||| b₃]

def decodeBlocks : Bytes → Option Bytes
  | a :: b :: c :: d :: src =>
    let block := blockBytes (dtable a) (dtable b) (dtable c) (dtable d)
    match [a, b, c, d].count 61 with
    | 0 => (decodeBlocks src).map (block ++ ·)
    | 1 => some (block.take 2)
    | 2 => some (block.take 1)
    | _ => none
  | _ => some []

def base64Decode (src : Bytes) : Option Bytes :=
  let chars := src.filter (fun b => dtable b ≠ 0x80)
  if chars.length = 0 ∨ chars.length % 4 ≠ 0 then none else decodeBlocks chars

/-! ## Decoding what is encoded -/

theorem shift_or {x z k : ℕ} (hk : k < 8) (hz : z < 2 ^ k) :
    UInt8.ofNat x <<< UInt8.ofNat k ||| UInt8.ofNat z = UInt8.ofNat (x * 2 ^ k + z) := by
  have hshift : (x % 2 ^ 8) <<< (k % 2 ^ 8 % 8) % 2 ^ 8 = x <<< k % 2 ^ 8 := by
    rw [Nat.mod_eq_of_lt (by omega : k < 2 ^ 8), Nat.mod_eq_of_lt hk, Nat.shiftLeft_eq, Nat.shiftLeft_eq, Nat.mod_mul_mod]
  rw [← UInt8.toNat_inj, UInt8.toNat_or, UInt8.toNat_shiftLeft]
  simp only [UInt8.toNat_ofNat']
  rw [hshift, ← Nat.or_mod_two_pow, ← Nat.shiftLeft_add_eq_or_of_lt hz, Nat.shiftLeft_eq]

theorem shift_right {x k : ℕ} (hx : x < 256) (hk : k < 8) : UInt8.ofNat x >>> UInt8.ofNat k = UInt8.ofNat (x / 2 ^ k) := by
  have hle := Nat.div_le_self x (2 ^ k)
  rw [← UInt8.toNat_inj, UInt8.toNat_shiftRight]
  simp only [UInt8.toNat_ofNat']
  rw [Nat.mod_eq_of_lt (by omega : k < 2 ^ 8), Nat.mod_eq_of_lt hk, Nat.shiftRight_eq_div_pow, Nat.mod_eq_of_lt hx,
    Nat.mod_eq_of_lt (by omega)]

section Blocks
variable {p q r s : ℕ}

theorem blockBytes_ofNat (hq : q < 64) (hr : r < 64) (hs : s < 64) :
    blockBytes (UInt8.ofNat p) (UInt8.ofNat q) (UInt8.ofNat r) (UInt8.ofNat s) =
      [UInt8.ofNat (p * 4 + q / 16), UInt8.ofNat (q * 16 + r / 4), UInt8.ofNat (r * 64 + s)] := by
  have hq' : UInt8.ofNat q >>> 4 = UInt8.ofNat (q / 16) := @shift_right q 4 (by omega) (by decide)
  have hr' : UInt8.ofNat r >>> 2 = UInt8.ofNat (r / 4) := @shift_right r 2 (by omega) (by decide)
  have hfirst : UInt8.ofNat p <<< 2 ||| UInt8.ofNat (q / 16) = UInt8.ofNat (p * 4 + q / 16) :=
    @shift_or p (q / 16) 2 (by decide) (by omega)
  have hsecond : UInt8.ofNat q <<< 4 ||| UInt8.ofNat (r / 4) = UInt8.ofNat (q * 16 + r / 4) :=
    @shift_or q (r / 4) 4 (by decide) (by omega)
  have hthird : UInt8.ofNat r <<< 6 ||| UInt8.ofNat s = UInt8.ofNat (r * 64 + s) := @shift_or r s 6 (by decide) (by omega)
  rw [blockBytes, hq', hr', hfirst, hsecond, hthird]

theorem dtable_letter {n : ℕ} (hn : n < 64) : dtable (letter n) = UInt8.ofNat n := by
  have hall : ∀ n : Fin 64, dtable (letter n) = UInt8.ofNat n := by decide +kernel
  exact hall ⟨n, hn⟩

theorem dtable_pad : dtable pad = UInt8.ofNat 0 := rfl

theorem decodeBlocks_letters (hp : p < 64) (hq : q < 64) (hr : r < 64) (hs : s < 64) (src : Bytes) :
    decodeBlocks (letter p :: letter q :: letter r :: letter s :: src) =
      (decodeBlocks src).map
        ([UInt8.ofNat (p * 4 + q / 16), UInt8.ofNat (q * 16 + r / 4), UInt8.ofNat (r * 64 + s)] ++ ·) := by
  have hcount : [letter p, letter q, letter r, letter s].count 61 = 0 := by
    refine List.count_eq_zero.mpr ?_
    simp only [List.mem_cons, List.not_mem_nil, or_false, not_or]
    exact ⟨(letter_ne_pad hp).symm, (letter_ne_pad hq).symm, (letter_ne_pad hr).symm, (letter_ne_pad hs).symm⟩
  rw [decodeBlocks, hcount, dtable_letter hp, dtable_letter hq, dtable_letter hr, dtable_letter hs, blockBytes_ofNat hq hr hs]
  rfl

theorem decodeBlocks_pad (hp : p < 64) (hq : q < 64) (hr : r < 64) :
    decodeBlocks [letter p, letter q, letter r, pad] = some [UInt8.ofNat (p * 4 + q / 16), UInt8.ofNat (q * 16 + r / 4)] := by
  have hcount : [letter p, letter q, letter r, pad].count 61 = 1 := by
    have hp' : (letter p == 61) = false := beq_false_of_ne (letter_ne_pad hp)
    have hq' : (letter q == 61) = false := beq_false_of_ne (letter_ne_pad hq)
    have hr' : (letter r == 61) = false := beq_false_of_ne (letter_ne_pad hr)
    simp [List.count_cons, hp', hq', hr', pad]
  rw [decodeBlocks, hcount, dtable_letter hp, dtable_letter hq, dtable_letter hr, dtable_pad, blockBytes_ofNat hq hr (by decide)]
  rfl

theorem decodeBlocks_pads (hp : p < 64) (hq : q < 64) :
    decodeBlocks [letter p, letter q, pad, pad] = some [UInt8.ofNat (p * 4 + q / 16)] := by
  have hcount : [letter p, letter q, pad, pad].count 61 = 2 := by
    have hp' : (letter p == 61) = false := beq_false_of_ne (letter_ne_pad hp)
    have hq' : (letter q == 61) = false := beq_false_of_ne (letter_ne_pad hq)
    simp [List.count_cons, hp', hq', pad]
  rw [decodeBlocks, hcount, dtable_letter hp, dtable_letter hq, dtable_pad, blockBytes_ofNat hq (by decide) (by decide)]
  rfl

end Blocks

theorem first_byte (a b : UInt8) : UInt8.ofNat (a.toNat / 4 * 4 + (a.toNat % 4 * 16 + b.toNat / 16) / 16) = a := by
  have hb := b.toNat_lt
  have harith : a.toNat / 4 * 4 + (a.toNat % 4 * 16 + b.toNat / 16) / 16 = a.toNat := by omega
  rw [harith, UInt8.ofNat_toNat]

theorem second_byte (x : ℕ) (b c : UInt8) :
    UInt8.ofNat ((x * 16 + b.toNat / 16) * 16 + (b.toNat % 16 * 4 + c.toNat / 64) / 4) = b := by
  have hc := c.toNat_lt
  have hb := b.toNat_lt
  rw [← UInt8.toNat_inj, UInt8.toNat_ofNat']
  omega

theorem third_byte (x : ℕ) (c : UInt8) : UInt8.ofNat ((x * 4 + c.toNat / 64) * 64 + c.toNat % 64) = c := by
  have hc := c.toNat_lt
  rw [← UInt8.toNat_inj, UInt8.toNat_ofNat']
  omega

theorem decodeBlocks_encode (s : Bytes) : decodeBlocks (encode s) = some s := by
  fun_induction encode s with
  | case1 => rfl
  | case2 a =>
    have hfirst := first_byte a 0
    have ha := a.toNat_lt
    change decodeBlocks [letter (a.toNat / 4), letter (a.toNat % 4 * 16 + (0 : UInt8).toNat / 16), pad, pad] = _
    rw [decodeBlocks_pads (by omega) (by change _ + 0 / 16 < 64; omega), hfirst]
  | case3 a b =>
    have ha := a.toNat_lt
    have hb := b.toNat_lt
    change decodeBlocks [letter (a.toNat / 4), letter (a.toNat % 4 * 16 + b.toNat / 16),
      letter (b.toNat % 16 * 4 + (0 : UInt8).toNat / 64), pad] = _
    rw [decodeBlocks_pad (by omega) (by omega) (by change _ + 0 / 64 < 64; omega), first_byte, second_byte]
  | case4 a b c s ih =>
    have ha := a.toNat_lt
    have hb := b.toNat_lt
    have hc := c.toNat_lt
    change decodeBlocks (letter (a.toNat / 4) :: letter (a.toNat % 4 * 16 + b.toNat / 16) ::
      letter (b.toNat % 16 * 4 + c.toNat / 64) :: letter (c.toNat % 64) :: encode s) = _
    rw [decodeBlocks_letters (by omega) (by omega) (by omega) (by omega), ih, first_byte, second_byte, third_byte]
    rfl

/-- A byte of the table. -/
theorem dtable_of_lt {b : UInt8} {n : ℕ} (hn : n < 64) (hb : dtable b = UInt8.ofNat n) : dtable b ≠ 0x80 := by
  rw [hb, Ne, ← UInt8.toNat_inj, UInt8.toNat_ofNat']
  change ¬ n % 256 = 128
  omega

theorem dtable_encode {s : Bytes} : ∀ b ∈ encode s, dtable b ≠ 0x80 := by
  intro b hb
  obtain rfl | ⟨n, hn, rfl⟩ := mem_encode hb
  · exact dtable_of_lt (by decide) dtable_pad
  · exact dtable_of_lt hn (dtable_letter hn)

theorem filter_table {src : Bytes} (h : ∀ b ∈ src, dtable b ≠ 0x80) : src.filter (fun b => dtable b ≠ 0x80) = src :=
  List.filter_eq_self.mpr (fun b hb => decide_eq_true (h b hb))

theorem base64Decode_encode {s : Bytes} (hs : s ≠ []) : base64Decode (encode s) = some s := by
  have hpos := List.length_pos_of_ne_nil hs
  have hlength := length_encode s
  rw [base64Decode, filter_table dtable_encode, if_neg (by omega), decodeBlocks_encode]

/-- Three letters are not enough for a block. -/
theorem base64Decode_cut {cut : Bytes} (hplain : ∀ l ∈ cut, IsPlainLetter l) (hlength : cut.length % 4 = 3) :
    base64Decode cut = none := by
  have htable : ∀ b ∈ cut, dtable b ≠ 0x80 := by
    intro b hb
    obtain ⟨n, hn, rfl⟩ := hplain b hb
    exact dtable_of_lt (by omega) (dtable_letter (by omega))
  rw [base64Decode, filter_table htable, if_pos (Or.inr (by omega))]

end Launch
end LilitunRemote

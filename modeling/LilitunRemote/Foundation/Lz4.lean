import Mathlib.Data.List.GetD
import Mathlib.Tactic.NormNum

/-! # The LZ4 block format

A block is a row of sequences: literals, and a match that repeats a part of what has been
decoded so far. A match may reach into what it produces itself. The last sequence has
literals only.
-/
namespace Lz4

/-- A length beyond the nibble of a token: bytes of 255, and one that is smaller. -/
def extension (n : ℕ) : List UInt8 := List.replicate (n / 255) 255 ++ [UInt8.ofNat (n % 255)]

def nibble (n : ℕ) : ℕ := min n 15

def lengthBytes (n : ℕ) : List UInt8 := if n < 15 then [] else extension (n - 15)

def token (literals low : ℕ) : UInt8 := UInt8.ofNat (16 * nibble literals + low)

def offsetBytes (offset : ℕ) : List UInt8 := [UInt8.ofNat (offset % 256), UInt8.ofNat (offset / 256)]

def copyMatch (offset : ℕ) : ℕ → List UInt8 → List UInt8
  | 0, out => out
  | n + 1, out => copyMatch offset n (out ++ [out.getD (out.length - offset) 0])

/-- After the output `out`, a block is decoded to the whole output. Nothing is said of the
low nibble of the last token. -/
inductive Decodes : List UInt8 → List UInt8 → List UInt8 → Prop
  | last (out literals : List UInt8) {low : ℕ} (hlow : low < 16) :
    Decodes out (token literals.length low :: (lengthBytes literals.length ++ literals)) (out ++ literals)
  | sequence {out rest result : List UInt8} (literals : List UInt8) {offset count : ℕ} (hpos : 0 < offset)
    (hsize : offset < 2 ^ 16) (hoffset : offset ≤ (out ++ literals).length)
    (hrest : Decodes (copyMatch offset (count + 4) (out ++ literals)) rest result) :
    Decodes out
      (token literals.length (nibble count) ::
        (lengthBytes literals.length ++ (literals ++ (offsetBytes offset ++ (lengthBytes count ++ rest)))))
      result

/-! ## Copies -/

section Copy
variable {offset : ℕ}

theorem length_copyMatch (n : ℕ) (out : List UInt8) : (copyMatch offset n out).length = out.length + n := by
  induction n generalizing out with
  | zero => rfl
  | succ n ih =>
    rw [copyMatch, ih, List.length_append, List.length_singleton]
    omega

theorem prefix_copyMatch (n : ℕ) (out : List UInt8) : out <+: copyMatch offset n out := by
  induction n generalizing out with
  | zero => exact List.prefix_rfl
  | succ n ih => exact (List.prefix_append out _).trans (ih _)

/-- A match one byte back repeats this byte. -/
theorem copyMatch_one (n : ℕ) (out : List UInt8) (b : UInt8) :
    copyMatch 1 n (out ++ [b]) = out ++ [b] ++ List.replicate n b := by
  induction n generalizing out with
  | zero => exact (List.append_nil _).symm
  | succ n ih =>
    have hlast : (out ++ [b]).getD ((out ++ [b]).length - 1) 0 = b := by simp
    rw [copyMatch, hlast, ih, List.replicate_succ, List.append_assoc, List.singleton_append]

/-- A match that does not reach what it produces copies a part of the output. -/
theorem copyMatch_far (n : ℕ) (out : List UInt8) (hoffset : offset ≤ out.length) (hn : n ≤ offset) :
    copyMatch offset n out = out ++ (out.drop (out.length - offset)).take n := by
  suffices h : ∀ m extra, m + extra.length ≤ offset → copyMatch offset m (out ++ extra) =
      out ++ extra ++ ((out.drop (out.length - offset)).drop extra.length).take m by
    simpa using h n [] (by simpa using hn)
  intro m
  induction m with
  | zero =>
    intro extra _
    simp [copyMatch]
  | succ m ih =>
    intro extra hle
    have hlt : extra.length < (out.drop (out.length - offset)).length := by
      rw [List.length_drop]
      omega
    have hbyte : (out ++ extra).getD ((out ++ extra).length - offset) 0 = (out.drop (out.length - offset))[extra.length] := by
      have hindex : (out ++ extra).length - offset = out.length - offset + extra.length := by
        rw [List.length_append]
        omega
      rw [hindex, List.getD_append _ _ _ _ (by omega), List.getElem_drop, List.getD_eq_getElem _ _ (by omega)]
    rw [copyMatch, hbyte, List.append_assoc, ih (extra ++ [_]) (by rw [List.length_append, List.length_singleton]; omega),
      List.drop_eq_getElem_cons hlt, List.take_succ_cons, List.length_append, List.length_singleton]
    simp

end Copy

theorem Decodes.prefix {out src result : List UInt8} (h : Decodes out src result) : out <+: result := by
  induction h with
  | last out literals _ => exact List.prefix_append out literals
  | sequence literals _ _ _ _ ih => exact ((List.prefix_append _ _).trans (prefix_copyMatch _ _)).trans ih

/-! ## Tokens -/

theorem toNat_token {literals low : ℕ} (hlow : low < 16) : (token literals low).toNat = 16 * nibble literals + low := by
  rw [token, UInt8.toNat_ofNat', nibble]
  omega

theorem nibble_lt (n : ℕ) : nibble n < 16 := by
  rw [nibble]
  omega

end Lz4

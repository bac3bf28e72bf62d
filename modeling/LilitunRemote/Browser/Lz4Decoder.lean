import LilitunRemote.Foundation.Lz4
import LilitunRemote.Protocol.Wire

/-! # The browser's LZ4 decoder

`decompressBlock` of `lz4dec.js` on typed arrays. A read outside an array is undefined,
which counts as 0 in bit operations and makes a sum NaN; a write outside is ignored.
`decompress` passes the length of the output for that of the input, so the loop goes on
after the last sequence with tokens that are not there.
-/
namespace LilitunRemote
namespace Lz4Decoder

/-! ## Typed arrays -/

/-- The element, or 0 for a read outside, as `| 0` makes of it. -/
def readAt (dst : Bytes) (i : ℤ) : UInt8 := if i < 0 then 0 else dst.getD i.toNat 0

/-- An index argument of an array function: from the end if it is negative, and cut to the length. -/
def relativeIndex (dst : Bytes) (i : ℤ) : ℕ := if i < 0 then (dst.length + i).toNat else min i.toNat dst.length

def fill (dst : Bytes) (value : UInt8) (start stop : ℤ) : Bytes :=
  dst.mapIdx fun i x => if relativeIndex dst start ≤ i ∧ i < relativeIndex dst stop then value else x

def copyWithin (dst : Bytes) (target start stop : ℤ) : Bytes :=
  let into := relativeIndex dst target
  let first := relativeIndex dst start
  let count := min (relativeIndex dst stop - first) (dst.length - into)
  dst.mapIdx fun i x => if into ≤ i ∧ i < into + count then dst.getD (first + (i - into)) 0 else x

/-- `dst.slice(0, size)`; NaN counts as 0. -/
def sliceArray (dst : Bytes) (size : Option ℕ) : Bytes := dst.take (size.getD 0)

/-! ## One sequence -/

/-- The indices and the output. `dIndex` is NaN after a length that is NaN has been added to it. -/
structure Indices where
  sIndex : ℕ
  dIndex : Option ℕ
  dst : Bytes
  deriving DecidableEq, Repr

def bits (src : Bytes) (i : ℕ) : ℕ := (src.getD i 0).toNat

/-- The loop that adds the bytes of a length, on the source from there on; with how many
bytes it passed. An undefined byte makes the length NaN and ends the loop. -/
def addLength : ℕ → Bytes → Option ℕ × ℕ
  | _, [] => (none, 1)
  | length, b :: src =>
    if b ≠ 0xff then (some (length + b.toNat), 1)
    else ((addLength (length + b.toNat) src).1, (addLength (length + b.toNat) src).2 + 1)

def parseLength (src : Bytes) (nibble sIndex : ℕ) : Option ℕ × ℕ :=
  if nibble = 0xf then ((addLength nibble (src.drop sIndex)).1, sIndex + (addLength nibble (src.drop sIndex)).2)
  else (some nibble, sIndex)

def copyLiterals (src : Bytes) : ℕ → Indices → Indices
  | 0, st => st
  | n + 1, st =>
    copyLiterals src n
      { sIndex := st.sIndex + 1
        dIndex := st.dIndex.map (· + 1)
        dst := match st.dIndex with
          | some d => st.dst.set d (src.getD st.sIndex 0)
          | none => st.dst }

def copyBytes : ℕ → ℤ → ℕ → Bytes → Bytes
  | 0, _, _, dst => dst
  | n + 1, i, dIndex, dst => copyBytes n (i + 1) (dIndex + 1) (dst.set dIndex (readAt dst i))

/-- The three ways to copy a match. An index that is NaN fills and copies nothing, and stays
NaN; a length that is NaN does so only through `fill`. -/
def copyMatch (hasCopyWithin : Bool) (mOffset : ℕ) (mLength dIndex : Option ℕ) (dst : Bytes) : Bytes × Option ℕ :=
  match dIndex, mLength with
  | some d, some n =>
    if hasCopyWithin && mOffset = 1 then (fill dst (readAt dst (d - 1)) d (d + n), some (d + n))
    else if hasCopyWithin && mOffset > n && n > 31 then
      (copyWithin dst d (d - mOffset) (d - mOffset + n), some (d + n))
    else (copyBytes n (d - mOffset) d dst, some (d + n))
  | some d, none => if hasCopyWithin && mOffset = 1 then (dst, none) else (dst, some d)
  | none, _ => (dst, none)

def literalStep (src : Bytes) (token : ℕ) (st : Indices) : Indices :=
  let (literalCount, sIndex) := parseLength src (token >>> 4) st.sIndex
  copyLiterals src (literalCount.getD 0) { st with sIndex := sIndex }

def matchStep (hasCopyWithin : Bool) (src : Bytes) (token : ℕ) (st : Indices) : Indices :=
  let mOffset := bits src st.sIndex ||| (bits src (st.sIndex + 1) <<< 8)
  let (mLength, sIndex) := parseLength src (token &&& 0xf) (st.sIndex + 2)
  let (dst, dIndex) := copyMatch hasCopyWithin mOffset (mLength.map (· + 4)) st.dIndex st.dst
  ⟨sIndex, dIndex, dst⟩

def round (hasCopyWithin : Bool) (src : Bytes) (sEnd : ℕ) (st : Indices) : Indices × Bool :=
  let token := bits src st.sIndex
  let st := literalStep src token { st with sIndex := st.sIndex + 1 }
  if st.sIndex ≥ sEnd then (st, true) else (matchStep hasCopyWithin src token st, false)

/-- The loop; `none` if it has not ended after `fuel` rounds. -/
def decompressBlock (hasCopyWithin : Bool) (src : Bytes) (sEnd : ℕ) : ℕ → Indices → Option Indices
  | 0, _ => none
  | fuel + 1, st =>
    if st.sIndex < sEnd then
      match round hasCopyWithin src sEnd st with
      | (st, true) => some st
      | (st, false) => decompressBlock hasCopyWithin src sEnd fuel st
    else some st

/-- `decompress`; every round passes a byte of the `maxSize` it is told. -/
def decompress (hasCopyWithin : Bool) (src : Bytes) (maxSize : ℕ) : Option Bytes :=
  (decompressBlock hasCopyWithin src maxSize (maxSize + 1) ⟨0, some 0, List.replicate maxSize 0⟩).map fun st =>
    if st.dIndex ≠ some maxSize then sliceArray st.dst st.dIndex else st.dst

/-! ## Reading the source -/

section Source
variable {src : Bytes} {s : ℕ}

theorem getD_of_drop {b : UInt8} {rest : Bytes} (h : src.drop s = b :: rest) : src.getD s 0 = b := by
  have hget : (src.drop s)[0]? = src[s]? := by rw [List.getElem?_drop, Nat.add_zero]
  rw [h, List.getElem?_cons_zero] at hget
  rw [List.getD_eq_getElem?_getD, ← hget]
  rfl

theorem bits_of_drop {b : UInt8} {rest : Bytes} (h : src.drop s = b :: rest) : bits src s = b.toNat := by
  rw [bits, getD_of_drop h]

theorem bits_of_length_le (h : src.length ≤ s) : bits src s = 0 := by
  rw [bits, List.getD_eq_default _ _ h]
  rfl

theorem drop_after {a rest : Bytes} (h : src.drop s = a ++ rest) : src.drop (s + a.length) = rest := by
  rw [← List.drop_drop, h, List.drop_left]

theorem addLength_replicate (length k : ℕ) {r : ℕ} (hr : r < 255) (rest : Bytes) :
    addLength length (List.replicate k 255 ++ ([UInt8.ofNat r] ++ rest)) = (some (length + 255 * k + r), k + 1) := by
  induction k generalizing length with
  | zero =>
    have hlast : UInt8.ofNat r ≠ 0xff := by
      intro h
      have hval := congrArg UInt8.toNat h
      rw [UInt8.toNat_ofNat', Nat.mod_eq_of_lt (by omega)] at hval
      change r = 255 at hval
      omega
    have hval : (UInt8.ofNat r).toNat = r := by rw [UInt8.toNat_ofNat', Nat.mod_eq_of_lt (by omega)]
    rw [List.replicate_zero, List.nil_append, List.singleton_append, addLength, if_pos hlast, hval]
    rfl
  | succ k ih =>
    have hfull : ((255 : UInt8)).toNat = 255 := rfl
    have hsum : length + 255 + 255 * k + r = length + 255 * (k + 1) + r := by omega
    rw [List.replicate_succ, List.cons_append, addLength, if_neg (by decide), ih, hfull, hsum]

theorem addLength_extension (length n : ℕ) (rest : Bytes) :
    addLength length (Lz4.extension n ++ rest) = (some (length + n), (Lz4.extension n).length) := by
  rw [Lz4.extension, List.append_assoc, addLength_replicate length (n / 255) (Nat.mod_lt _ (by decide)),
    List.length_append, List.length_replicate, List.length_singleton]
  congr 2
  omega

theorem parseLength_lengthBytes {n : ℕ} {rest : Bytes} (h : src.drop s = Lz4.lengthBytes n ++ rest) :
    parseLength src (Lz4.nibble n) s = (some n, s + (Lz4.lengthBytes n).length) := by
  unfold Lz4.lengthBytes at h ⊢
  unfold parseLength Lz4.nibble
  split at h
  · next hshort =>
    rw [if_neg (by omega), if_pos hshort, Nat.min_eq_left (by omega)]
    rfl
  · next hlong =>
    have hsum : 15 + (n - 15) = n := by omega
    rw [if_pos (by omega), if_neg hlong, h, Nat.min_eq_right (by omega), addLength_extension, hsum]

end Source

/-! ## Copies into the output -/

section Output
variable {out pad : Bytes}

theorem copyLiterals_spec {src literals rest : Bytes} {s : ℕ} (h : src.drop s = literals ++ rest)
    (hfit : literals.length ≤ pad.length) :
    copyLiterals src literals.length ⟨s, some out.length, out ++ pad⟩ =
      ⟨s + literals.length, some (out ++ literals).length, out ++ literals ++ pad.drop literals.length⟩ := by
  induction literals generalizing s out pad with
  | nil => simp [copyLiterals]
  | cons b literals ih =>
    cases pad with
    | nil => cases hfit
    | cons p pad =>
      have hset : (out ++ p :: pad).set out.length (src.getD s 0) = out ++ [b] ++ pad := by
        rw [getD_of_drop h, List.set_append_right _ _ (Nat.le_refl _), Nat.sub_self, List.set_cons_zero, List.append_assoc]
        rfl
      have hrest : src.drop (s + 1) = literals ++ rest := drop_after (a := [b]) h
      have hlen : out.length + 1 = (out ++ [b]).length := by rw [List.length_append, List.length_singleton]
      rw [List.length_cons, copyLiterals]
      simp only [Option.map_some]
      rw [hset, hlen, ih hrest (Nat.le_of_succ_le_succ hfit)]
      simp [Nat.add_assoc, Nat.add_comm 1]

theorem readAt_back {offset : ℕ} (hpos : 0 < offset) (hoffset : offset ≤ out.length) :
    readAt (out ++ pad) ((out.length : ℤ) - offset) = out.getD (out.length - offset) 0 := by
  have hindex : ((out.length : ℤ) - offset).toNat = out.length - offset := by omega
  rw [readAt, if_neg (by omega), hindex, List.getD_append _ _ _ _ (by omega)]

theorem copyBytes_spec {offset : ℕ} (hpos : 0 < offset) (n : ℕ) (hoffset : offset ≤ out.length) (hfit : n ≤ pad.length) :
    copyBytes n ((out.length : ℤ) - offset) out.length (out ++ pad) = Lz4.copyMatch offset n out ++ pad.drop n := by
  induction n generalizing out pad with
  | zero => rfl
  | succ n ih =>
    cases pad with
    | nil => cases hfit
    | cons p pad =>
      obtain ⟨b, hb⟩ : ∃ b, out.getD (out.length - offset) 0 = b := ⟨_, rfl⟩
      have hset : (out ++ p :: pad).set out.length b = out ++ [b] ++ pad := by
        rw [List.set_append_right _ _ (Nat.le_refl _), Nat.sub_self, List.set_cons_zero, List.append_assoc]
        rfl
      have hlen : (out ++ [b]).length = out.length + 1 := by rw [List.length_append, List.length_singleton]
      have hindex : (out.length : ℤ) - offset + 1 = ((out ++ [b]).length : ℤ) - offset := by
        rw [hlen]
        omega
      rw [copyBytes, readAt_back hpos hoffset, hb, hset, hindex, ← hlen, ih (by omega) (Nat.le_of_succ_le_succ hfit),
        Lz4.copyMatch, hb]
      rfl

/-- Both array functions write one window and leave the rest. -/
theorem mapIdx_window (window : Bytes) (hfit : window.length ≤ pad.length) (f : ℕ → UInt8)
    (hf : ∀ k (hk : k < window.length), f (out.length + k) = window[k]) :
    (out ++ pad).mapIdx (fun i x => if out.length ≤ i ∧ i < out.length + window.length then f i else x) =
      out ++ window ++ pad.drop window.length := by
  apply List.ext_getElem
  · simp only [List.length_mapIdx, List.length_append, List.length_drop]
    omega
  · intro i hi hi'
    rw [List.getElem_mapIdx]
    by_cases hout : i < out.length
    · rw [if_neg (by omega), List.getElem_append_left hout, List.getElem_append_left (by rw [List.length_append]; omega),
        List.getElem_append_left hout]
    · by_cases hwindow : i < out.length + window.length
      · have hk : f i = window[i - out.length] := by
          have hshift := hf (i - out.length) (by omega)
          rwa [Nat.add_sub_cancel' (by omega)] at hshift
        rw [if_pos ⟨by omega, hwindow⟩, hk, List.getElem_append_left (by rw [List.length_append]; omega),
          List.getElem_append_right (by omega)]
      · have hindex : window.length + (i - (out ++ window).length) = i - out.length := by
          rw [List.length_append]
          omega
        rw [if_neg (by omega), List.getElem_append_right (by omega),
          List.getElem_append_right (by rw [List.length_append]; omega), List.getElem_drop]
        simp only [hindex]

theorem relativeIndex_natCast {k : ℕ} {dst : Bytes} (h : k ≤ dst.length) : relativeIndex dst (k : ℤ) = k := by
  rw [relativeIndex, if_neg (by omega), Int.toNat_natCast, Nat.min_eq_left h]

theorem fill_spec (n : ℕ) (value : UInt8) (hfit : n ≤ pad.length) :
    fill (out ++ pad) value out.length ((out.length : ℤ) + n) = out ++ List.replicate n value ++ pad.drop n := by
  have hlen : (out ++ pad).length = out.length + pad.length := List.length_append
  have hstart : relativeIndex (out ++ pad) (out.length : ℤ) = out.length := relativeIndex_natCast (by omega)
  have hstop : relativeIndex (out ++ pad) ((out.length : ℤ) + n) = out.length + n := by
    rw [← Nat.cast_add]
    exact relativeIndex_natCast (by omega)
  have hwindow := @mapIdx_window out pad (List.replicate n value) (by rwa [List.length_replicate])
    (fun _ => value) (fun k hk => (List.getElem_replicate _).symm)
  rw [List.length_replicate] at hwindow
  rw [fill, hstart, hstop]
  exact hwindow

theorem copyWithin_spec {offset n : ℕ} (hoffset : offset ≤ out.length) (hn : n ≤ offset) (hfit : n ≤ pad.length) :
    copyWithin (out ++ pad) out.length ((out.length : ℤ) - offset) ((out.length : ℤ) - offset + n) =
      Lz4.copyMatch offset n out ++ pad.drop n := by
  have hlen : (out ++ pad).length = out.length + pad.length := List.length_append
  have hinto : relativeIndex (out ++ pad) (out.length : ℤ) = out.length := relativeIndex_natCast (by omega)
  have hfirst : relativeIndex (out ++ pad) ((out.length : ℤ) - offset) = out.length - offset := by
    rw [← Nat.cast_sub hoffset]
    exact relativeIndex_natCast (by omega)
  have hstop : relativeIndex (out ++ pad) ((out.length : ℤ) - offset + n) = out.length - offset + n := by
    rw [← Nat.cast_sub hoffset, ← Nat.cast_add]
    exact relativeIndex_natCast (by omega)
  have hcount : min (out.length - offset + n - (out.length - offset)) ((out ++ pad).length - out.length) = n := by omega
  have hpart : ((out.drop (out.length - offset)).take n).length = n := by
    rw [List.length_take, List.length_drop]
    omega
  have hwindow := @mapIdx_window out pad ((out.drop (out.length - offset)).take n) (by rwa [hpart])
    (fun i => (out ++ pad).getD (out.length - offset + (i - out.length)) 0) (by
      intro k hk
      rw [hpart] at hk
      rw [Nat.add_sub_cancel_left, List.getD_append _ _ _ _ (by omega), List.getElem_take, List.getElem_drop,
        List.getD_eq_getElem _ _ (by omega)])
  rw [hpart] at hwindow
  rw [copyWithin, hinto, hfirst, hstop, Lz4.copyMatch_far n out hoffset hn]
  simp only [hcount]
  exact hwindow

/-- The three ways agree with the copy of the format. -/
theorem copyMatch_spec (hasCopyWithin : Bool) {offset n : ℕ} (hpos : 0 < offset) (hoffset : offset ≤ out.length)
    (hfit : n ≤ pad.length) :
    copyMatch hasCopyWithin offset (some n) (some out.length) (out ++ pad) =
      (Lz4.copyMatch offset n out ++ pad.drop n, some (out.length + n)) := by
  unfold copyMatch
  dsimp only
  split
  · next hone =>
    obtain rfl : offset = 1 := by
      rw [Bool.and_eq_true, decide_eq_true_iff] at hone
      exact hone.2
    obtain ⟨init, b, rfl⟩ : ∃ init b, out = init ++ [b] :=
      ⟨out.dropLast, out.getLast (List.length_pos_iff.mp hoffset), (List.dropLast_append_getLast _).symm⟩
    have hlast : (init ++ [b]).getD ((init ++ [b]).length - 1) 0 = b := by simp
    have hread := @readAt_back _ pad _ hpos hoffset
    rw [hlast, Nat.cast_one] at hread
    rw [hread, fill_spec n b hfit, Lz4.copyMatch_one]
  · split
    · next hfar =>
      have hn : n ≤ offset := by
        rw [Bool.and_eq_true, Bool.and_eq_true, decide_eq_true_iff, decide_eq_true_iff] at hfar
        exact Nat.le_of_lt hfar.1.2
      rw [copyWithin_spec hoffset hn hfit]
    · rw [copyBytes_spec hpos n hoffset hfit]

end Output

/-! ## The sequences of a block -/

/-- The decoder stands before `rest`, and has written `out` so far. -/
structure Decoding (src : Bytes) (maxSize : ℕ) (out rest : Bytes) (st : Indices) : Prop where
  source : src.drop st.sIndex = rest
  dIndex : st.dIndex = some out.length
  output : out <+: st.dst
  length : st.dst.length = maxSize

section Sequences
variable {src out rest : Bytes} {maxSize : ℕ} {st : Indices}

theorem high_nibble (a : ℕ) {low : ℕ} (hlow : low < 16) : (16 * a + low) >>> 4 = a := by
  rw [Nat.shiftRight_eq_div_pow]
  omega

theorem low_nibble (a : ℕ) {low : ℕ} (hlow : low < 16) : (16 * a + low) &&& 0xf = low := by
  rw [show 0xf = 2 ^ 4 - 1 by rfl, Nat.and_two_pow_sub_one_eq_mod]
  omega

theorem Decoding.literals {literals tail : Bytes} {low : ℕ} (hlow : low < 16)
    (h : Decoding src maxSize out (Lz4.token literals.length low :: (Lz4.lengthBytes literals.length ++ (literals ++ tail))) st)
    (hfit : (out ++ literals).length ≤ maxSize) :
    bits src st.sIndex = 16 * Lz4.nibble literals.length + low ∧
      Decoding src maxSize (out ++ literals) tail (literalStep src (bits src st.sIndex) { st with sIndex := st.sIndex + 1 }) ∧
      st.sIndex < (literalStep src (bits src st.sIndex) { st with sIndex := st.sIndex + 1 }).sIndex := by
  obtain ⟨s, d, dst⟩ := st
  obtain ⟨hsource, hd, ⟨pad, hpad⟩, hlength⟩ := h
  dsimp only at hsource hd hpad hlength ⊢
  have htoken : bits src s = 16 * Lz4.nibble literals.length + low := by
    rw [bits_of_drop hsource, Lz4.toNat_token hlow]
  have hafter : src.drop (s + 1) = Lz4.lengthBytes literals.length ++ (literals ++ tail) :=
    drop_after (a := [Lz4.token literals.length low]) hsource
  have hroom : literals.length ≤ pad.length := by
    rw [← hpad, List.length_append] at hlength
    rw [List.length_append] at hfit
    omega
  have hcopy := @copyLiterals_spec out _ _ _ _ _ (drop_after hafter) hroom
  subst hd hpad
  rw [htoken, literalStep, high_nibble _ hlow, parseLength_lengthBytes hafter]
  simp only [Option.getD_some]
  rw [hcopy]
  refine ⟨trivial, ⟨drop_after (drop_after hafter), rfl, List.prefix_append _ _, ?_⟩, ?_⟩
  · rw [List.length_append] at hlength
    rw [List.length_append, List.length_append, List.length_drop]
    omega
  · dsimp only
    omega

theorem Decoding.copied {offset count : ℕ} (hasCopyWithin : Bool) (hpos : 0 < offset) (hsize : offset < 2 ^ 16)
    (hoffset : offset ≤ out.length) (a : ℕ)
    (h : Decoding src maxSize out (Lz4.offsetBytes offset ++ (Lz4.lengthBytes count ++ rest)) st)
    (hfit : out.length + (count + 4) ≤ maxSize) :
    Decoding src maxSize (Lz4.copyMatch offset (count + 4) out) rest
        (matchStep hasCopyWithin src (16 * a + Lz4.nibble count) st) ∧
      st.sIndex < (matchStep hasCopyWithin src (16 * a + Lz4.nibble count) st).sIndex := by
  obtain ⟨s, d, dst⟩ := st
  obtain ⟨hsource, hd, ⟨pad, hpad⟩, hlength⟩ := h
  dsimp only at hsource hd hpad hlength ⊢
  have hlow : bits src s = offset % 256 := by
    rw [bits_of_drop hsource, UInt8.toNat_ofNat']
    omega
  have hhigh : bits src (s + 1) = offset / 256 := by
    have hsecond : src.drop (s + 1) = UInt8.ofNat (offset / 256) :: (Lz4.lengthBytes count ++ rest) :=
      drop_after (a := [UInt8.ofNat (offset % 256)]) hsource
    rw [bits_of_drop hsecond, UInt8.toNat_ofNat']
    omega
  have hvalue : bits src s ||| (bits src (s + 1) <<< 8) = offset := by
    rw [hlow, hhigh, Nat.or_comm, ← Nat.shiftLeft_add_eq_or_of_lt (by omega), Nat.shiftLeft_eq]
    omega
  have hafter : src.drop (s + 2) = Lz4.lengthBytes count ++ rest := drop_after (a := Lz4.offsetBytes offset) hsource
  have hroom : count + 4 ≤ pad.length := by
    rw [← hpad, List.length_append] at hlength
    omega
  subst hd hpad
  rw [matchStep, hvalue, low_nibble _ (Lz4.nibble_lt count), parseLength_lengthBytes hafter]
  simp only [Option.map_some]
  rw [copyMatch_spec hasCopyWithin hpos hoffset hroom]
  refine ⟨⟨drop_after hafter, congrArg some (Lz4.length_copyMatch _ _).symm, List.prefix_append _ _, ?_⟩, ?_⟩
  · rw [List.length_append] at hlength
    rw [List.length_append, Lz4.length_copyMatch, List.length_drop]
    omega
  · omega

end Sequences

/-! ## Past the end of the block -/

/-- The block has been read and the output is full; both indices only grow. -/
structure Overrun (src result : Bytes) (st : Indices) : Prop where
  source : src.length ≤ st.sIndex
  output : st.dst = result
  full : ∃ d, st.dIndex = some d ∧ result.length ≤ d

section Overrun
variable {src result : Bytes} {st : Indices}

theorem copyBytes_outside (n : ℕ) (i : ℤ) {d : ℕ} {dst : Bytes} (hd : dst.length ≤ d) : copyBytes n i d dst = dst := by
  induction n generalizing i d dst with
  | zero => rfl
  | succ n ih =>
    rw [copyBytes, List.set_eq_of_length_le hd]
    exact ih (i + 1) (by omega)

/-- An offset that is not there takes the byte loop, whatever the length is. -/
theorem copyMatch_outside (hasCopyWithin : Bool) (mLength : Option ℕ) {d : ℕ} {dst : Bytes} (hd : dst.length ≤ d) :
    ∃ d', copyMatch hasCopyWithin 0 mLength (some d) dst = (dst, some d') ∧ d ≤ d' := by
  cases mLength with
  | none => exact ⟨d, by simp [copyMatch], le_refl d⟩
  | some n => exact ⟨d + n, by simp [copyMatch, copyBytes_outside n _ hd], by omega⟩

theorem sIndex_le_parseLength (nibble s : ℕ) : s ≤ (parseLength src nibble s).2 := by
  unfold parseLength
  split
  · exact Nat.le_add_right _ _
  · exact le_refl s

theorem Overrun.copied (hasCopyWithin : Bool) (token : ℕ) (h : Overrun src result st) :
    Overrun src result (matchStep hasCopyWithin src token st) ∧ st.sIndex < (matchStep hasCopyWithin src token st).sIndex := by
  obtain ⟨s, d, dst⟩ := st
  obtain ⟨hsource, rfl, d, rfl, hfull⟩ := h
  dsimp only at hsource hfull ⊢
  have hoffset : bits src s ||| (bits src (s + 1) <<< 8) = 0 := by
    rw [bits_of_length_le hsource, bits_of_length_le (by omega)]
    rfl
  have hpast := @sIndex_le_parseLength src (token &&& 0xf) (s + 2)
  obtain ⟨d', hcopy, hd'⟩ :=
    copyMatch_outside hasCopyWithin ((parseLength src (token &&& 0xf) (s + 2)).1.map (· + 4)) hfull
  rw [matchStep, hoffset]
  simp only [hcopy]
  exact ⟨⟨by dsimp only; omega, rfl, d', rfl, by omega⟩, by omega⟩

theorem Overrun.round {sEnd : ℕ} (hasCopyWithin : Bool) (h : Overrun src result st) :
    Overrun src result (round hasCopyWithin src sEnd st).1 ∧ st.sIndex < (round hasCopyWithin src sEnd st).1.sIndex := by
  have htoken : bits src st.sIndex = 0 := bits_of_length_le h.source
  have hliteral : literalStep src 0 { st with sIndex := st.sIndex + 1 } = { st with sIndex := st.sIndex + 1 } := rfl
  have hnext : Overrun src result { st with sIndex := st.sIndex + 1 } := ⟨Nat.le_succ_of_le h.source, h.output, h.full⟩
  unfold Lz4Decoder.round
  rw [htoken]
  dsimp only
  rw [hliteral]
  split
  · exact ⟨hnext, Nat.lt_succ_self _⟩
  · obtain ⟨hover, hlt⟩ := hnext.copied hasCopyWithin 0
    exact ⟨hover, Nat.lt_of_succ_lt hlt⟩

/-- The loop ends, whatever is left of the length it was told. -/
theorem Overrun.loop (hasCopyWithin : Bool) {sEnd fuel : ℕ} (h : Overrun src result st) (hfuel : sEnd - st.sIndex < fuel) :
    ∃ st', decompressBlock hasCopyWithin src sEnd fuel st = some st' ∧ Overrun src result st' := by
  induction fuel generalizing st with
  | zero => omega
  | succ fuel ih =>
    unfold decompressBlock
    split
    · obtain ⟨hover, hlt⟩ := @Overrun.round _ _ _ sEnd hasCopyWithin h
      obtain ⟨st', broke, hround⟩ : ∃ st' broke, Lz4Decoder.round hasCopyWithin src sEnd st = (st', broke) := ⟨_, _, rfl⟩
      rw [hround] at hover hlt ⊢
      cases broke with
      | true => exact ⟨st', rfl, hover⟩
      | false => exact ih hover (by dsimp only at hlt; omega)
    · exact ⟨st, rfl, h⟩

end Overrun

/-! ## Whole blocks -/

section Blocks
variable {src out rest result : Bytes} {st : Indices} {sEnd fuel : ℕ} {hasCopyWithin : Bool}

theorem decompressBlock_continue {st' : Indices} (hlt : st.sIndex < sEnd)
    (hround : round hasCopyWithin src sEnd st = (st', false)) :
    decompressBlock hasCopyWithin src sEnd (fuel + 1) st = decompressBlock hasCopyWithin src sEnd fuel st' := by
  rw [decompressBlock, if_pos hlt, hround]

theorem decompressBlock_break {st' : Indices} (hlt : st.sIndex < sEnd)
    (hround : round hasCopyWithin src sEnd st = (st', true)) :
    decompressBlock hasCopyWithin src sEnd (fuel + 1) st = some st' := by
  rw [decompressBlock, if_pos hlt, hround]

theorem Decoding.sIndex_lt {maxSize : ℕ} (h : Decoding src maxSize out rest st) (hrest : rest ≠ []) :
    st.sIndex < src.length := by
  by_contra hge
  exact hrest (h.source.symm.trans (List.drop_eq_nil_of_le (Nat.le_of_not_lt hge)))

theorem Decoding.overrun (h : Decoding src out.length out [] st) : Overrun src out st where
  source := List.drop_eq_nil_iff.mp h.source
  output := (h.output.eq_of_length h.length.symm).symm
  full := ⟨out.length, h.dIndex, le_refl _⟩

/-- The decoder follows the sequences, and from the last of them on runs over the end. -/
theorem decodes_loop (h : Lz4.Decodes out rest result) (hshort : src.length < result.length)
    (hst : Decoding src result.length out rest st) (hfuel : result.length - st.sIndex < fuel) :
    ∃ st', decompressBlock hasCopyWithin src result.length fuel st = some st' ∧ Overrun src result st' := by
  induction h generalizing st fuel with
  | @last out literals low hlow =>
    have hlt := (hst.sIndex_lt (List.cons_ne_nil _ _)).trans hshort
    obtain ⟨fuel, rfl⟩ : ∃ n, fuel = n + 1 := ⟨fuel - 1, by omega⟩
    have hend : Decoding src (out ++ literals).length out
        (Lz4.token literals.length low :: (Lz4.lengthBytes literals.length ++ (literals ++ []))) st := by
      rw [List.append_nil]
      exact hst
    obtain ⟨_, hliterals, hmore⟩ := hend.literals hlow (le_refl _)
    have hover := hliterals.overrun
    obtain ⟨st', hst'⟩ : ∃ st', literalStep src (bits src st.sIndex) { st with sIndex := st.sIndex + 1 } = st' := ⟨_, rfl⟩
    rw [hst'] at hover hmore
    by_cases hbreak : st'.sIndex ≥ (out ++ literals).length
    · have hround : round hasCopyWithin src (out ++ literals).length st = (st', true) := by
        rw [round, hst']
        exact if_pos hbreak
      exact ⟨st', decompressBlock_break hlt hround, hover⟩
    · have hround : round hasCopyWithin src (out ++ literals).length st =
          (matchStep hasCopyWithin src (bits src st.sIndex) st', false) := by
        rw [round, hst']
        exact if_neg hbreak
      obtain ⟨hcopied, hmore'⟩ := hover.copied hasCopyWithin (bits src st.sIndex)
      rw [decompressBlock_continue hlt hround]
      exact hcopied.loop hasCopyWithin (by omega)
  | sequence literals hpos hsize hoffset hrest ih =>
    have hlt := (hst.sIndex_lt (List.cons_ne_nil _ _)).trans hshort
    obtain ⟨fuel, rfl⟩ : ∃ n, fuel = n + 1 := ⟨fuel - 1, by omega⟩
    have hfit := hrest.prefix.length_le
    rw [Lz4.length_copyMatch] at hfit
    obtain ⟨htoken, hliterals, hmore⟩ := hst.literals (Lz4.nibble_lt _) (by omega)
    have hinside := (hliterals.sIndex_lt (by simp [Lz4.offsetBytes])).trans hshort
    obtain ⟨hcopied, hmore'⟩ := hliterals.copied hasCopyWithin hpos hsize hoffset _ hfit
    rw [← htoken] at hcopied hmore'
    have hround : round hasCopyWithin src _ st = (_, false) := if_neg (Nat.not_le_of_lt hinside)
    rw [decompressBlock_continue hlt hround]
    exact ih hshort hcopied (by omega)

end Blocks

/-- Every block that is shorter than what it decodes to is decoded to that. -/
theorem decompress_decodes (hasCopyWithin : Bool) (src result : Bytes) (h : Lz4.Decodes [] src result)
    (hshort : src.length < result.length) : decompress hasCopyWithin src result.length = some result := by
  have hstart : Decoding src result.length [] src ⟨0, some 0, List.replicate result.length 0⟩ :=
    ⟨rfl, rfl, List.nil_prefix, List.length_replicate⟩
  obtain ⟨st, hloop, hover⟩ := @decodes_loop _ _ _ _ _ _ hasCopyWithin h hshort hstart
    (Nat.lt_succ_of_le (Nat.sub_le _ _))
  obtain ⟨d, hd, hfull⟩ := hover.full
  rw [decompress, hloop, Option.map_some, hover.output, hd]
  split
  · rw [sliceArray, Option.getD_some, List.take_of_length_le hfull]
  · rfl

/-- One byte, repeated twenty times, and five literals. -/
theorem repeated_byte_decodes :
    Lz4.Decodes [] [0x1F, 97, 1, 0, 1, 0x50, 1, 2, 3, 4, 5] (List.replicate 21 97 ++ [1, 2, 3, 4, 5]) :=
  @Lz4.Decodes.sequence [] _ _ [97] 1 16 (by decide) (by decide) (by decide)
    (@Lz4.Decodes.last _ [1, 2, 3, 4, 5] 0 (by decide))

theorem repeated_byte_decompressed :
    decompress true [0x1F, 97, 1, 0, 1, 0x50, 1, 2, 3, 4, 5] 26 = some (List.replicate 21 97 ++ [1, 2, 3, 4, 5]) :=
  decompress_decodes true _ _ repeated_byte_decodes (by decide)

end Lz4Decoder
end LilitunRemote

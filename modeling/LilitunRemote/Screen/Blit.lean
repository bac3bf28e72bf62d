import LilitunRemote.Foundation.Memory
import LilitunRemote.Foundation.Mirror
import Mathlib.Tactic.Linarith

/-! # `fbops_bitblit`

The blitter of the control server, with the 32-bit arithmetic of its `int`
parameters. The two nested loops are a list of byte copies; the list is inside
both buffers exactly when its first and its last row are.
-/
namespace LilitunRemote
open Memory

structure BlitArgs where
  dstW : ℤ
  dstH : ℤ
  dstDepth : ℤ
  srcX : ℤ
  srcY : ℤ
  srcW : ℤ
  srcH : ℤ
  srcDepth : ℤ

namespace BlitArgs

def bytesppDst (a : BlitArgs) : ℤ := wrapChar (a.dstDepth.tdiv 8)
def bytesppSrc (a : BlitArgs) : ℤ := wrapChar (a.srcDepth.tdiv 8)

def ptrD (a : BlitArgs) : ℤ :=
  wrapInt (wrapInt (a.dstW * a.srcY) * a.bytesppDst) + wrapInt (a.srcX * a.bytesppDst)

def w (a : BlitArgs) : ℤ :=
  if wrapInt (a.dstW - a.srcX) < a.srcW then wrapInt (a.dstW - a.srcX) else a.srcW

def strideDst (a : BlitArgs) : ℤ := wrapInt (a.dstW * a.bytesppDst)
def strideSrc (a : BlitArgs) : ℤ := wrapInt (a.srcW * a.bytesppSrc)

end BlitArgs

def blitPixel (a : BlitArgs) (src : Buffer) (ptrD ptrS : ℤ) (dst : Buffer) (i : ℕ) : Option Buffer :=
  if (a.bytesppDst = 3 ∨ a.bytesppDst = 4) ∧ (a.bytesppSrc = 3 ∨ a.bytesppSrc = 4) then do
    let at' := fun (k : ℤ) => ptrD + wrapInt (i * a.bytesppDst + k)
    let from' := fun (k : ℤ) => ptrS + wrapInt (i * a.bytesppSrc + k)
    let dst ← copyByte src dst (at' 0, some (from' 0))
    let dst ← copyByte src dst (at' 1, some (from' 1))
    let dst ← copyByte src dst (at' 2, some (from' 2))
    if a.bytesppDst = 4 then
      if a.bytesppSrc = 3 then copyByte src dst (at' 3, none)
      else copyByte src dst (at' 3, some (from' 3))
    else some dst
  else some dst

/-- The outer loop. Each round increments `y`, so `dst_h - y` rounds are enough fuel. -/
def blitRows (a : BlitArgs) (src : Buffer) : ℕ → (ptrD ptrS srcH y : ℤ) → Buffer → Option Buffer
  | 0, _, _, _, _, dst => some dst
  | fuel + 1, ptrD, ptrS, srcH, y, dst =>
    if srcH ≠ 0 ∧ y < a.dstH then do
      let dst ← (List.range a.w.toNat).foldlM (blitPixel a src ptrD ptrS) dst
      blitRows a src fuel (ptrD + a.strideDst) (ptrS + a.strideSrc) (wrapInt (srcH - 1)) (y + 1) dst
    else some dst

/-- `none` is an access outside one of the two buffers. -/
def fbopsBitblit (a : BlitArgs) (src dst : Buffer) : Option Buffer :=
  blitRows a src (a.dstH - a.srcY).toNat a.ptrD 0 a.srcH a.srcY dst

/-! ## The list of copies -/

namespace BlitArgs

def pixelCopies (a : BlitArgs) (ptrD ptrS : ℤ) (i : ℕ) : List Copy :=
  if (a.bytesppDst = 3 ∨ a.bytesppDst = 4) ∧ (a.bytesppSrc = 3 ∨ a.bytesppSrc = 4) then
    [(ptrD + wrapInt (i * a.bytesppDst + 0), some (ptrS + wrapInt (i * a.bytesppSrc + 0))),
      (ptrD + wrapInt (i * a.bytesppDst + 1), some (ptrS + wrapInt (i * a.bytesppSrc + 1))),
      (ptrD + wrapInt (i * a.bytesppDst + 2), some (ptrS + wrapInt (i * a.bytesppSrc + 2)))] ++
    (if a.bytesppDst = 4 then
      [(ptrD + wrapInt (i * a.bytesppDst + 3),
        if a.bytesppSrc = 3 then none else some (ptrS + wrapInt (i * a.bytesppSrc + 3)))]
    else [])
  else []

def rowCopies (a : BlitArgs) (ptrD ptrS : ℤ) : List Copy :=
  (List.range a.w.toNat).flatMap (a.pixelCopies ptrD ptrS)

/-- The number of rounds of the outer loop: `src_h` counts down as an unsigned word. -/
def rows (a : BlitArgs) : ℕ := min (a.srcH % 2 ^ 32).toNat (a.dstH - a.srcY).toNat

def copies (a : BlitArgs) : List Copy :=
  (List.range a.rows).flatMap (fun r : ℕ => a.rowCopies (a.ptrD + r * a.strideDst) (r * a.strideSrc))

end BlitArgs

theorem blitPixel_eq (a : BlitArgs) (src : Buffer) (ptrD ptrS : ℤ) (dst : Buffer) (i : ℕ) :
    blitPixel a src ptrD ptrS dst i = (a.pixelCopies ptrD ptrS i).foldlM (copyByte src) dst := by
  unfold blitPixel BlitArgs.pixelCopies
  by_cases hb : (a.bytesppDst = 3 ∨ a.bytesppDst = 4) ∧ (a.bytesppSrc = 3 ∨ a.bytesppSrc = 4)
  · simp only [if_pos hb]
    by_cases h4 : a.bytesppDst = 4
    · by_cases h3 : a.bytesppSrc = 3 <;> simp [h4, h3]
    · simp [h4]
  · simp [if_neg hb]

theorem blitRow_eq (a : BlitArgs) (src : Buffer) (ptrD ptrS : ℤ) (dst : Buffer) :
    (List.range a.w.toNat).foldlM (blitPixel a src ptrD ptrS) dst =
      (a.rowCopies ptrD ptrS).foldlM (copyByte src) dst := by
  rw [BlitArgs.rowCopies, foldlM_flatMap_option]
  congr 1
  funext d i
  exact blitPixel_eq a src ptrD ptrS d i

theorem blitRows_eq (a : BlitArgs) (src : Buffer) (fuel : ℕ) (ptrD ptrS srcH y : ℤ) (dst : Buffer)
    (hfuel : fuel = (a.dstH - y).toNat) (hlo : -2 ^ 31 ≤ srcH) (hhi : srcH < 2 ^ 31) :
    blitRows a src fuel ptrD ptrS srcH y dst =
      ((List.range (min (srcH % 2 ^ 32).toNat fuel)).flatMap
        (fun r : ℕ => a.rowCopies (ptrD + r * a.strideDst) (ptrS + r * a.strideSrc))).foldlM (copyByte src) dst := by
  induction fuel generalizing ptrD ptrS srcH y dst with
  | zero => simp [blitRows]
  | succ fuel ih =>
    have hy : y < a.dstH := by omega
    by_cases hz : srcH = 0
    · simp [blitRows, hz]
    · have hcount : min (srcH % 2 ^ 32).toNat (fuel + 1) = min (wrapInt (srcH - 1) % 2 ^ 32).toNat fuel + 1 := by
        unfold wrapInt
        omega
      rw [blitRows, if_pos ⟨hz, hy⟩, hcount, List.range_succ_eq_map, List.flatMap_cons, List.foldlM_append, blitRow_eq]
      simp only [Nat.cast_zero, zero_mul, add_zero]
      congr 1
      funext d
      rw [ih (ptrD + a.strideDst) (ptrS + a.strideSrc) (wrapInt (srcH - 1)) (y + 1) d (by omega)
        (wrapInt_bounds _).1 (wrapInt_bounds _).2, List.flatMap_map]
      congr 2
      funext r
      congr 1 <;> push_cast <;> ring

theorem fbopsBitblit_eq (a : BlitArgs) (src dst : Buffer) (hlo : -2 ^ 31 ≤ a.srcH) (hhi : a.srcH < 2 ^ 31) :
    fbopsBitblit a src dst = a.copies.foldlM (copyByte src) dst := by
  rw [fbopsBitblit, blitRows_eq a src _ a.ptrD 0 a.srcH a.srcY dst rfl hlo hhi]
  simp only [zero_add]
  rfl

/-! ## Bounds -/

namespace BlitArgs

def RowInside (a : BlitArgs) (srcSize dstSize : ℕ) (r : ℤ) : Prop :=
  0 ≤ a.ptrD + r * a.strideDst ∧ a.ptrD + r * a.strideDst + 4 * a.w ≤ dstSize ∧
    0 ≤ r * a.strideSrc ∧ r * a.strideSrc + a.bytesppSrc * a.w ≤ srcSize

/-- The region copies nothing, or its first and its last row are inside and its
width does not overflow the byte index of a row. -/
def Fits (a : BlitArgs) (srcSize dstSize : ℕ) : Prop :=
  a.rows = 0 ∨ a.w ≤ 0 ∨
    (a.w ≤ 2 ^ 29 ∧ a.RowInside srcSize dstSize 0 ∧ a.RowInside srcSize dstSize (a.rows - 1 : ℕ))

instance (a : BlitArgs) (srcSize dstSize : ℕ) (r : ℤ) : Decidable (a.RowInside srcSize dstSize r) :=
  inferInstanceAs (Decidable (_ ∧ _ ∧ _ ∧ _))

instance (a : BlitArgs) (srcSize dstSize : ℕ) : Decidable (a.Fits srcSize dstSize) :=
  inferInstanceAs (Decidable (_ ∨ _ ∨ _))

theorem mem_copies {a : BlitArgs} {c : Copy} :
    c ∈ a.copies ↔ ∃ r < a.rows, ∃ i < a.w.toNat,
      c ∈ a.pixelCopies (a.ptrD + r * a.strideDst) (r * a.strideSrc) i := by
  simp only [copies, rowCopies, List.mem_flatMap, List.mem_range]

def byteCopy (a : BlitArgs) (ptrD ptrS : ℤ) (i : ℕ) (k : ℕ) : Copy :=
  (ptrD + wrapInt (i * 4 + k),
    if a.bytesppSrc = 3 ∧ k = 3 then none else some (ptrS + wrapInt (i * a.bytesppSrc + k)))

theorem pixelCopies_eq_map {a : BlitArgs} (hd : a.bytesppDst = 3 ∨ a.bytesppDst = 4)
    (hs : a.bytesppSrc = 3 ∨ a.bytesppSrc = 4) (ptrD ptrS : ℤ) (i : ℕ) :
    a.pixelCopies ptrD ptrS i = (List.range a.bytesppDst.toNat).map (fun k : ℕ =>
      (ptrD + wrapInt (i * a.bytesppDst + k),
        if a.bytesppSrc = 3 ∧ k = 3 then none else some (ptrS + wrapInt (i * a.bytesppSrc + k)))) := by
  rcases hd with hd | hd <;> rcases hs with hs | hs <;> simp [pixelCopies, hd, hs, List.range_succ]

theorem pixelCopies_eq {a : BlitArgs} (hd : a.bytesppDst = 4) (hs : a.bytesppSrc = 3 ∨ a.bytesppSrc = 4)
    (ptrD ptrS : ℤ) (i : ℕ) : a.pixelCopies ptrD ptrS i = (List.range 4).map (a.byteCopy ptrD ptrS i) := by
  rw [pixelCopies_eq_map (Or.inr hd) hs, hd]
  rfl

theorem mem_pixelCopies {a : BlitArgs} (hd : a.bytesppDst = 4) (hs : a.bytesppSrc = 3 ∨ a.bytesppSrc = 4)
    {ptrD ptrS : ℤ} {i : ℕ} {c : Copy} :
    c ∈ a.pixelCopies ptrD ptrS i ↔ ∃ k < 4, c = a.byteCopy ptrD ptrS i k := by
  rw [pixelCopies_eq hd hs, List.mem_map]
  constructor
  · rintro ⟨k, hk, rfl⟩
    exact ⟨k, List.mem_range.mp hk, rfl⟩
  · rintro ⟨k, hk, rfl⟩
    exact ⟨k, List.mem_range.mpr hk, rfl⟩

/-- A row index between two others has its product with the stride between theirs. -/
theorem mul_between {r n s : ℤ} (hr : 0 ≤ r) (hn : r ≤ n) :
    (0 ≤ r * s ∧ r * s ≤ n * s) ∨ (n * s ≤ r * s ∧ r * s ≤ 0) := by
  rcases le_total 0 s with hs | hs
  · exact Or.inl ⟨mul_nonneg hr hs, mul_le_mul_of_nonneg_right hn hs⟩
  · exact Or.inr ⟨mul_le_mul_of_nonpos_right hn hs, mul_nonpos_of_nonneg_of_nonpos hr hs⟩

theorem RowInside.between {a : BlitArgs} {srcSize dstSize : ℕ} {r n : ℤ} (h0 : a.RowInside srcSize dstSize 0)
    (hn : a.RowInside srcSize dstSize n) (hr : 0 ≤ r) (hrn : r ≤ n) : a.RowInside srcSize dstSize r := by
  obtain ⟨h1, h2, h3, h4⟩ := h0
  obtain ⟨n1, n2, n3, n4⟩ := hn
  have hd := mul_between (s := a.strideDst) hr hrn
  have hs := mul_between (s := a.strideSrc) hr hrn
  simp only [zero_mul, add_zero, zero_add] at h1 h2 h3 h4
  refine ⟨?_, ?_, ?_, ?_⟩ <;> omega

theorem wrapInt_index {i k : ℕ} {b w : ℤ} (hb : b = 3 ∨ b = 4) (hw : w ≤ 2 ^ 29) (hi : i < w.toNat) (hk : k < 4) :
    wrapInt (i * b + k) = i * b + k := by
  have hi' : (i : ℤ) < 2 ^ 29 := by omega
  rcases hb with rfl | rfl <;> exact wrapInt_of_range (by omega) (by omega)

theorem byteCopy_inside {a : BlitArgs} {srcSize dstSize : ℕ} {r : ℤ} {i k : ℕ}
    (hs : a.bytesppSrc = 3 ∨ a.bytesppSrc = 4) (hrow : a.RowInside srcSize dstSize r) (hw : a.w ≤ 2 ^ 29)
    (hi : i < a.w.toNat) (hk : k < 4) :
    CopyInside srcSize dstSize (a.byteCopy (a.ptrD + r * a.strideDst) (r * a.strideSrc) i k) := by
  have hdst := wrapInt_index (Or.inr rfl) hw hi hk
  have hsrc := wrapInt_index hs hw hi hk
  have hi' : (i : ℤ) + 1 ≤ a.w := by omega
  clear hw hi
  obtain ⟨h1, h2, h3, h4⟩ := hrow
  refine ⟨?_, ?_⟩
  · simp only [byteCopy, hdst, Inside]
    omega
  · intro j hj
    simp only [byteCopy, hsrc] at hj
    split at hj
    · cases hj
    · next hlast =>
      cases hj
      rcases hs with hs | hs
      · have hk3 : k ≠ 3 := fun h => hlast ⟨hs, h⟩
        simp only [hs, Inside] at h4 ⊢
        omega
      · simp only [hs, Inside] at h4 ⊢
        omega

/-- In a row wider than `2^29` pixels the byte index wraps and leaves the buffer. -/
theorem width_of_inside {a : BlitArgs} {srcSize dstSize : ℕ} (hd : a.bytesppDst = 4)
    (hs : a.bytesppSrc = 3 ∨ a.bytesppSrc = 4) (hsize : dstSize < 2 ^ 32) (hrows : a.rows ≠ 0)
    (h : ∀ c ∈ a.copies, CopyInside srcSize dstSize c) : a.w ≤ 2 ^ 29 := by
  by_contra hw
  have hmem : ∀ i < a.w.toNat, ∀ k < 4, a.byteCopy (a.ptrD + (0 : ℕ) * a.strideDst) ((0 : ℕ) * a.strideSrc) i k ∈ a.copies :=
    fun i hi k hk => mem_copies.mpr ⟨0, by omega, i, hi, (mem_pixelCopies hd hs).mpr ⟨k, hk, rfl⟩⟩
  have hlast := (h _ (hmem (2 ^ 29 - 1) (by omega) 3 (by omega))).1
  have hwrap := (h _ (hmem (2 ^ 29) (by omega) 0 (by omega))).1
  simp only [byteCopy, Inside, wrapInt] at hlast hwrap
  omega

theorem rowInside_of_inside {a : BlitArgs} {srcSize dstSize : ℕ} {r : ℕ} (hd : a.bytesppDst = 4)
    (hs : a.bytesppSrc = 3 ∨ a.bytesppSrc = 4) (hw : 0 < a.w) (hw' : a.w ≤ 2 ^ 29) (hr : r < a.rows)
    (h : ∀ c ∈ a.copies, CopyInside srcSize dstSize c) : a.RowInside srcSize dstSize r := by
  have hmem : ∀ i < a.w.toNat, ∀ k < 4, a.byteCopy (a.ptrD + r * a.strideDst) (r * a.strideSrc) i k ∈ a.copies :=
    fun i hi k hk => mem_copies.mpr ⟨r, hr, i, hi, (mem_pixelCopies hd hs).mpr ⟨k, hk, rfl⟩⟩
  have hfirst := h _ (hmem 0 (by omega) 0 (by omega))
  have hlastD := (h _ (hmem (a.w.toNat - 1) (by omega) 3 (by omega))).1
  have hfirstS := hfirst.2 _ (by simp [byteCopy]; rfl)
  have hfirstD := hfirst.1
  have hcast : ((a.w.toNat - 1 : ℕ) : ℤ) = a.w - 1 := by omega
  have hwrapD : wrapInt ((a.w - 1) * 4 + 3) = (a.w - 1) * 4 + 3 := wrapInt_of_range (by omega) (by omega)
  have hzero : wrapInt 0 = 0 := wrapInt_of_range (by omega) (by omega)
  simp only [byteCopy, Inside, hcast, Nat.cast_zero, zero_mul, add_zero, hzero, Nat.cast_ofNat, hwrapD] at hfirstD hlastD hfirstS
  rcases hs with hs | hs
  · have hlastS := (h _ (hmem (a.w.toNat - 1) (by omega) 2 (by omega))).2 _ (by simp [byteCopy]; rfl)
    have hwrapS : wrapInt ((a.w - 1) * 3 + 2) = (a.w - 1) * 3 + 2 := wrapInt_of_range (by omega) (by omega)
    simp only [Inside, hcast, hs, hwrapS] at hlastS
    refine ⟨?_, ?_, ?_, ?_⟩ <;> first | omega | (rw [hs]; omega)
  · have hlastS := (h _ (hmem (a.w.toNat - 1) (by omega) 3 (by omega))).2 _ (by simp [byteCopy, hs]; rfl)
    simp only [Inside, hcast, hwrapD] at hlastS
    refine ⟨?_, ?_, ?_, ?_⟩ <;> first | omega | (rw [hs]; omega)

theorem copies_inside_iff {a : BlitArgs} {srcSize dstSize : ℕ} (hd : a.bytesppDst = 4)
    (hs : a.bytesppSrc = 3 ∨ a.bytesppSrc = 4) (hsize : dstSize < 2 ^ 32) :
    (∀ c ∈ a.copies, CopyInside srcSize dstSize c) ↔ a.Fits srcSize dstSize := by
  constructor
  · intro h
    by_cases hrows : a.rows = 0
    · exact Or.inl hrows
    · by_cases hw : a.w ≤ 0
      · exact Or.inr (Or.inl hw)
      · have hw' := width_of_inside hd hs hsize hrows h
        have h0 := rowInside_of_inside (r := 0) hd hs (by omega) hw' (by omega) h
        exact Or.inr (Or.inr ⟨hw', by simpa using h0, rowInside_of_inside hd hs (by omega) hw' (by omega) h⟩)
  · rintro h c hc
    obtain ⟨r, hr, i, hi, hc⟩ := mem_copies.mp hc
    obtain ⟨k, hk, rfl⟩ := (mem_pixelCopies hd hs).mp hc
    rcases h with h | h | ⟨hw, h0, hn⟩
    · omega
    · omega
    · exact byteCopy_inside hs (h0.between hn (by omega) (by omega)) hw hi hk

/-! ## The picture after a blit -/

/-- Blitting a source of `sw × sh` pixels of depth `sd` at `(sx, sy)` into a
destination of `dw × dh` pixels of depth `dd`. -/
def clip (dw dh : ℕ) (dd : ℤ) (sx sy sw sh : ℕ) (sd : ℤ) : BlitArgs := ⟨dw, dh, dd, sx, sy, sw, sh, sd⟩

def plain (dw dh sx sy sw sh b : ℕ) : BlitArgs := ⟨dw, dh, 32, sx, sy, sw, sh, b * 8⟩

def Covered (dw dh sx sy sw sh px py : ℕ) : Prop :=
  sx ≤ px ∧ px < min (sx + sw) dw ∧ sy ≤ py ∧ py < min (sy + sh) dh

instance (dw dh sx sy sw sh px py : ℕ) : Decidable (Covered dw dh sx sy sw sh px py) :=
  inferInstanceAs (Decidable (_ ∧ _ ∧ _ ∧ _))

structure NoOverflow (dw dh sx sy sw sh bd bs : ℕ) : Prop where
  row_offset : dw * sy * bd < 2 ^ 31
  column_offset : sx * bd < 2 ^ 31
  stride_dst : dw * bd < 2 ^ 31
  stride_src : sw * bs < 2 ^ 31
  dst_h : dh < 2 ^ 31
  src_y : sy < 2 ^ 31
  src_h : sh < 2 ^ 31

section Clip
variable {dw dh sx sy sw sh bd bs : ℕ} {dd sd : ℤ}

def clipCopy (dw sx sy sw bd bs r i k : ℕ) : Copy :=
  ((bd * ((sy + r) * dw + (sx + i)) + k : ℕ), if bs = 3 ∧ k = 3 then none else some (bs * (r * sw + i) + k : ℕ))

theorem NoOverflow.sides (hno : NoOverflow dw dh sx sy sw sh bd bs) (hbd : bd = 3 ∨ bd = 4) (hbs : bs = 3 ∨ bs = 4) :
    dw < 2 ^ 31 ∧ sx < 2 ^ 31 ∧ sw < 2 ^ 31 := by
  obtain ⟨_, h2, h3, h4, _, _, _⟩ := hno
  rcases hbd with rfl | rfl <;> rcases hbs with rfl | rfl <;> omega

theorem clip_w (hdw : dw < 2 ^ 31) (hsx : sx < 2 ^ 31) :
    (clip dw dh dd sx sy sw sh sd).w = min ((dw : ℤ) - sx) sw := by
  have hsub : wrapInt ((dw : ℤ) - sx) = dw - sx := wrapInt_of_range (by omega) (by omega)
  simp only [w, clip, hsub]
  split <;> omega

theorem clip_rows (hsh : sh < 2 ^ 31) : (clip dw dh dd sx sy sw sh sd).rows = min sh (dh - sy) := by
  simp only [rows, clip]
  omega

theorem clip_ptrD (hno : NoOverflow dw dh sx sy sw sh bd bs) (hbd : bd = 3 ∨ bd = 4)
    (hdd : (clip dw dh dd sx sy sw sh sd).bytesppDst = bd) :
    (clip dw dh dd sx sy sw sh sd).ptrD = bd * (sy * dw + sx : ℕ) := by
  have hrow := hno.row_offset
  have hcol := hno.column_offset
  have h0 : dw * sy < 2 ^ 31 := by rcases hbd with rfl | rfl <;> omega
  have h1 : wrapInt (dw * sy : ℕ) = (dw * sy : ℕ) := wrapInt_of_range (by omega) (by omega)
  have h2 : wrapInt (dw * sy * bd : ℕ) = (dw * sy * bd : ℕ) := wrapInt_of_range (by omega) (by omega)
  have h3 : wrapInt (sx * bd : ℕ) = (sx * bd : ℕ) := wrapInt_of_range (by omega) (by omega)
  push_cast at h1 h2 h3
  rw [ptrD, hdd]
  simp only [clip]
  rw [h1, h2, h3]
  push_cast
  ring

theorem clip_strideDst (hno : NoOverflow dw dh sx sy sw sh bd bs)
    (hdd : (clip dw dh dd sx sy sw sh sd).bytesppDst = bd) : (clip dw dh dd sx sy sw sh sd).strideDst = bd * dw := by
  have hstride := hno.stride_dst
  have h1 : wrapInt (dw * bd : ℕ) = (dw * bd : ℕ) := wrapInt_of_range (by omega) (by omega)
  push_cast at h1
  rw [strideDst, hdd]
  simp only [clip]
  rw [h1, mul_comm]

theorem clip_strideSrc (hno : NoOverflow dw dh sx sy sw sh bd bs)
    (hsd : (clip dw dh dd sx sy sw sh sd).bytesppSrc = bs) : (clip dw dh dd sx sy sw sh sd).strideSrc = bs * sw := by
  have hstride := hno.stride_src
  have h1 : wrapInt (sw * bs : ℕ) = (sw * bs : ℕ) := wrapInt_of_range (by omega) (by omega)
  push_cast at h1
  rw [strideSrc, hsd]
  simp only [clip]
  rw [h1, mul_comm]

/-- The byte index of a pixel in its row does not wrap. -/
theorem wrapInt_rowIndex {n b i k : ℕ} (hn : n * b < 2 ^ 31) (hi : i < n) (hk : k < b) :
    wrapInt (i * b + k) = i * b + k := by
  have hle : (i + 1) * b ≤ n * b := Nat.mul_le_mul_right b hi
  rw [Nat.add_mul, Nat.one_mul] at hle
  have hwrap : wrapInt (i * b + k : ℕ) = (i * b + k : ℕ) := wrapInt_of_range (by omega) (by omega)
  push_cast at hwrap
  exact hwrap

theorem pixelCopies_clip (hno : NoOverflow dw dh sx sy sw sh bd bs) (hbd : bd = 3 ∨ bd = 4) (hbs : bs = 3 ∨ bs = 4)
    (hdd : (clip dw dh dd sx sy sw sh sd).bytesppDst = bd) (hsd : (clip dw dh dd sx sy sw sh sd).bytesppSrc = bs)
    {r i : ℕ} (hi : i < sw) (hi' : sx + i < dw) :
    (clip dw dh dd sx sy sw sh sd).pixelCopies
        ((clip dw dh dd sx sy sw sh sd).ptrD + r * (clip dw dh dd sx sy sw sh sd).strideDst)
        (r * (clip dw dh dd sx sy sw sh sd).strideSrc) i =
      (List.range bd).map (clipCopy dw sx sy sw bd bs r i) := by
  have hdst : ∀ k : ℕ, k < bd → wrapInt (i * bd + k) = i * bd + k :=
    fun k hk => wrapInt_rowIndex hno.stride_dst (by omega) hk
  have hsrc : ∀ k : ℕ, k < bs → wrapInt (i * bs + k) = i * bs + k :=
    fun k hk => wrapInt_rowIndex hno.stride_src hi hk
  have hcond : ((bs : ℤ) = 3) = (bs = 3) := propext ⟨fun h => by omega, fun h => by omega⟩
  rw [pixelCopies_eq_map (by omega) (by omega), clip_ptrD hno hbd hdd, clip_strideDst hno hdd, clip_strideSrc hno hsd,
    hdd, hsd, Int.toNat_natCast]
  apply List.map_congr_left
  intro k hk
  have hkb := List.mem_range.mp hk
  simp only [clipCopy, hcond, Prod.mk.injEq]
  constructor
  · rw [hdst k hkb]
    push_cast
    ring
  · split
    · rfl
    · rw [hsrc k (by omega)]
      apply congrArg some
      push_cast
      ring

theorem mem_copies_clip (hno : NoOverflow dw dh sx sy sw sh bd bs) (hbd : bd = 3 ∨ bd = 4) (hbs : bs = 3 ∨ bs = 4)
    (hdd : (clip dw dh dd sx sy sw sh sd).bytesppDst = bd) (hsd : (clip dw dh dd sx sy sw sh sd).bytesppSrc = bs)
    {c : Copy} :
    c ∈ (clip dw dh dd sx sy sw sh sd).copies ↔
      ∃ r, r < sh ∧ sy + r < dh ∧ ∃ i, i < sw ∧ sx + i < dw ∧ ∃ k < bd, c = clipCopy dw sx sy sw bd bs r i k := by
  obtain ⟨hdw, hsx, _⟩ := hno.sides hbd hbs
  rw [mem_copies, clip_rows hno.src_h, clip_w hdw hsx]
  constructor
  · rintro ⟨r, hr, i, hi, hc⟩
    rw [pixelCopies_clip hno hbd hbs hdd hsd (by omega) (by omega), List.mem_map] at hc
    obtain ⟨k, hk, rfl⟩ := hc
    exact ⟨r, by omega, by omega, i, by omega, by omega, k, List.mem_range.mp hk, rfl⟩
  · rintro ⟨r, hr, hr', i, hi, hi', k, hk, rfl⟩
    refine ⟨r, by omega, i, by omega, ?_⟩
    rw [pixelCopies_clip hno hbd hbs hdd hsd hi hi', List.mem_map]
    exact ⟨k, List.mem_range.mpr hk, rfl⟩

/-- A byte of a pixel of the grid lies in its buffer. -/
theorem pixelByte_lt {w h b x y k : ℕ} (hx : x < w) (hy : y < h) (hk : k < b) : b * (y * w + x) + k < b * (w * h) := by
  have hle := Nat.mul_le_mul_left b (Nat.succ_le_of_lt (Grid.index_lt hx hy))
  rw [Nat.mul_succ] at hle
  omega

theorem clipCopy_inside (hbd : bd = 3 ∨ bd = 4) (hbs : bs = 3 ∨ bs = 4) {r i k srcSize : ℕ} (hr : sy + r < dh)
    (hi : sx + i < dw) (hr' : r < sh) (hi' : i < sw) (hk : k < bd) (hsrc : bs * (sw * sh) ≤ srcSize) :
    CopyInside srcSize (bd * (dw * dh)) (clipCopy dw sx sy sw bd bs r i k) := by
  constructor
  · have hdst := pixelByte_lt hi hr hk
    simp only [clipCopy, Inside]
    omega
  · intro j hj
    simp only [clipCopy] at hj
    split at hj
    · cases hj
    · next hlast =>
      cases hj
      have hks : k < bs := by omega
      have hidx := pixelByte_lt hi' hr' hks
      simp only [Inside]
      omega

theorem copyValue_clip {src : Buffer} (hbd : bd = 3 ∨ bd = 4) (hbs : bs = 3 ∨ bs = 4) {r i k : ℕ} (hr' : r < sh)
    (hi' : i < sw) (hk : k < bd) (hsrc : bs * (sw * sh) ≤ src.size) :
    some (copyValue src (clipCopy dw sx sy sw bd bs r i k)) =
      if bs = 3 ∧ k = 3 then some 0 else src[bs * (r * sw + i) + k]? := by
  simp only [clipCopy, copyValue]
  by_cases hlast : bs = 3 ∧ k = 3
  · simp [hlast]
  · have hks : k < bs := by omega
    have hlt : bs * (r * sw + i) + k < src.size := lt_of_lt_of_le (pixelByte_lt hi' hr' hks) hsrc
    simp only [hlast, if_false, Int.toNat_natCast]
    rw [Array.getD_eq_getD_getElem?, getElem?_pos src _ hlt, Option.getD_some]

/-- A byte offset of a grid of pixels determines the pixel and the byte. -/
theorem pixelByte_inj {w b x y k x' y' k' : ℕ} (hx : x < w) (hx' : x' < w) (hk : k < b) (hk' : k' < b)
    (h : b * (y * w + x) + k = b * (y' * w + x') + k') : y = y' ∧ x = x' ∧ k = k' := by
  rw [Nat.mul_comm b, Nat.mul_comm b] at h
  obtain ⟨hcell, rfl⟩ := Grid.index_inj hk hk' h
  obtain ⟨hy, hx⟩ := Grid.index_inj hx hx' hcell
  exact ⟨hy, hx, rfl⟩

end Clip

/-- Exact clipping: a covered destination pixel takes the bytes of its source
pixel, with a zero fourth byte for a three-byte source, and nothing else changes. -/
theorem fbopsBitblit_clip {dw dh sx sy sw sh bd bs : ℕ} {dd sd : ℤ} {src dst : Buffer} (hbd : bd = 3 ∨ bd = 4)
    (hbs : bs = 3 ∨ bs = 4) (hdd : (clip dw dh dd sx sy sw sh sd).bytesppDst = bd)
    (hsd : (clip dw dh dd sx sy sw sh sd).bytesppSrc = bs) (hno : NoOverflow dw dh sx sy sw sh bd bs)
    (hdst : dst.size = bd * (dw * dh)) (hsrc : bs * (sw * sh) ≤ src.size) :
    ∃ d, fbopsBitblit (clip dw dh dd sx sy sw sh sd) src dst = some d ∧ d.size = dst.size ∧
      ∀ py < dh, ∀ px < dw, ∀ k < bd, d[bd * (py * dw + px) + k]? =
        if Covered dw dh sx sy sw sh px py then
          if bs = 3 ∧ k = 3 then some 0 else src[bs * ((py - sy) * sw + (px - sx)) + k]?
        else dst[bd * (py * dw + px) + k]? := by
  have hmem := @mem_copies_clip dw dh sx sy sw sh bd bs dd sd hno hbd hbs hdd hsd
  have hinside : ∀ c ∈ (clip dw dh dd sx sy sw sh sd).copies, CopyInside src.size dst.size c := by
    intro c hc
    obtain ⟨r, hr', hr, i, hi', hi, k, hk, rfl⟩ := hmem.mp hc
    rw [hdst]
    exact clipCopy_inside hbd hbs hr hi hr' hi' hk hsrc
  refine ⟨(clip dw dh dd sx sy sw sh sd).copies.foldl (copyPure src) dst, ?_, size_copies _ _ _, ?_⟩
  · have hsh := hno.src_h
    rw [fbopsBitblit_eq _ _ _ (by simp only [clip]; omega) (by simp only [clip]; omega)]
    exact copies_eq_some.mpr ⟨hinside, rfl⟩
  · intro py hpy px hpx k hk
    have hlt : bd * (py * dw + px) + k < dst.size := by
      rw [hdst]
      exact pixelByte_lt hpx hpy hk
    -- a copy to this byte can only come from the source pixel that covers it
    have hunique : ∀ r i j, sx + i < dw → j < bd →
        (clipCopy dw sx sy sw bd bs r i j).1.toNat = bd * (py * dw + px) + k → sy + r = py ∧ sx + i = px ∧ j = k := by
      intro r i j hi hj he
      simp only [clipCopy, Int.toNat_natCast] at he
      exact pixelByte_inj hi hpx hj hk he
    by_cases hcov : Covered dw dh sx sy sw sh px py
    · obtain ⟨hc1, hc2, hc3, hc4⟩ := hcov
      have hval := @copyValue_clip dw sx sy sw sh bd bs src hbd hbs (py - sy) (px - sx) k (by omega) (by omega) hk hsrc
      rw [getElem?_copies hlt (copyValue src (clipCopy dw sx sy sw bd bs (py - sy) (px - sx) k)), if_pos, if_pos, hval]
      · exact ⟨hc1, hc2, hc3, hc4⟩
      · refine ⟨clipCopy dw sx sy sw bd bs (py - sy) (px - sx) k,
          hmem.mpr ⟨py - sy, by omega, by omega, px - sx, by omega, by omega, k, hk, rfl⟩, ?_⟩
        simp only [clipCopy, Int.toNat_natCast]
        rw [Nat.add_sub_cancel' hc3, Nat.add_sub_cancel' hc1]
      · intro c hc he
        obtain ⟨r, _, hr, i, _, hi, j, hj, rfl⟩ := hmem.mp hc
        obtain ⟨h1, h2, rfl⟩ := hunique r i j hi hj he
        rw [show r = py - sy by omega, show i = px - sx by omega]
    · rw [if_neg hcov, getElem?_copies hlt 0, if_neg]
      · rintro ⟨c, hc, he⟩
        obtain ⟨r, hr', hr, i, hi', hi, j, hj, rfl⟩ := hmem.mp hc
        obtain ⟨h1, h2, _⟩ := hunique r i j hi hj he
        exact hcov ⟨by omega, by omega, by omega, by omega⟩
      · intro c hc he
        obtain ⟨r, hr', hr, i, hi', hi, j, hj, rfl⟩ := hmem.mp hc
        obtain ⟨h1, h2, _⟩ := hunique r i j hi hj he
        exact absurd ⟨by omega, by omega, by omega, by omega⟩ hcov

/-- `fbops_bitblit` clips exactly: the pixels under the source take its bytes, with a zero
fourth byte for a three-byte source, every other byte stays, and no access leaves a buffer. -/
theorem fbopsBitblit_exact {dw dh sx sy sw sh bd bs : ℕ} {dd sd : ℤ} {src dst : Buffer} (hbd : bd = 3 ∨ bd = 4)
    (hbs : bs = 3 ∨ bs = 4) (hdd : (clip dw dh dd sx sy sw sh sd).bytesppDst = bd)
    (hsd : (clip dw dh dd sx sy sw sh sd).bytesppSrc = bs) (hno : NoOverflow dw dh sx sy sw sh bd bs)
    (hdst : dst.size = bd * (dw * dh)) (hsrc : src.size = bs * (sw * sh)) :
    ∃ d, fbopsBitblit (clip dw dh dd sx sy sw sh sd) src dst = some d ∧ d.size = dst.size ∧
      (∀ px py, Covered dw dh sx sy sw sh px py →
        (∀ k < 3, d[bd * (py * dw + px) + k]? = src[bs * ((py - sy) * sw + (px - sx)) + k]?) ∧
          (bd = 4 → d[bd * (py * dw + px) + 3]? =
            if bs = 3 then some 0 else src[bs * ((py - sy) * sw + (px - sx)) + 3]?)) ∧
      ∀ j, (∀ px py k, Covered dw dh sx sy sw sh px py → k < bd → j ≠ bd * (py * dw + px) + k) → d[j]? = dst[j]? := by
  obtain ⟨d, hd, hsize, hpix⟩ := fbopsBitblit_clip hbd hbs hdd hsd hno hdst hsrc.ge
  refine ⟨d, hd, hsize, ?_, ?_⟩
  · intro px py hcov
    have hpx : px < dw := by
      have := hcov.2.1
      omega
    have hpy : py < dh := by
      have := hcov.2.2.2
      omega
    constructor
    · intro k hk
      rw [hpix py hpy px hpx k (by omega), if_pos hcov, if_neg (by omega)]
    · intro h4
      rw [hpix py hpy px hpx 3 (by omega), if_pos hcov]
      simp
  · intro j hj
    by_cases hlt : j < bd * (dw * dh)
    · have hb : 0 < bd := by omega
      obtain ⟨py, hpy, px, hpx, hcell⟩ := Grid.exists_coords (Nat.div_lt_of_lt_mul hlt)
      have hsplit : j = bd * (py * dw + px) + j % bd := by
        rw [← hcell]
        exact (Nat.div_add_mod j bd).symm
      have hmod := Nat.mod_lt j hb
      have hcov : ¬ Covered dw dh sx sy sw sh px py := fun hcov => hj px py _ hcov hmod hsplit
      have hbyte := hpix py hpy px hpx _ hmod
      rwa [if_neg hcov, ← hsplit] at hbyte
    · rw [Array.getElem?_eq_none (by omega), Array.getElem?_eq_none (by omega)]

/-- A 2 × 2 source of three-byte pixels hanging over the corner of a 2 × 2 destination. -/
theorem corner_pixel_clipped :
    ∃ d, fbopsBitblit (clip 2 2 32 1 1 2 2 24) (Array.replicate 12 7) (Array.replicate 16 9) = some d ∧
      d.size = (Array.replicate 16 9 : Buffer).size ∧
      (∀ px py, Covered 2 2 1 1 2 2 px py →
        (∀ k < 3, d[4 * (py * 2 + px) + k]? = (Array.replicate 12 7 : Buffer)[3 * ((py - 1) * 2 + (px - 1)) + k]?) ∧
          (4 = 4 → d[4 * (py * 2 + px) + 3]? =
            if 3 = 3 then some 0 else (Array.replicate 12 7 : Buffer)[3 * ((py - 1) * 2 + (px - 1)) + 3]?)) ∧
      ∀ j, (∀ px py k, Covered 2 2 1 1 2 2 px py → k < 4 → j ≠ 4 * (py * 2 + px) + k) →
        d[j]? = (Array.replicate 16 9 : Buffer)[j]? :=
  fbopsBitblit_exact (Or.inr rfl) (Or.inl rfl) rfl rfl ⟨by omega, by omega, by omega, by omega, by omega, by omega, by omega⟩
    Array.size_replicate Array.size_replicate

theorem plain_noOverflow {dw dh sx sy sw sh b : ℕ} (hsize : 4 * (dw * dh) < 2 ^ 31) (hstride : b * sw < 2 ^ 31)
    (hx : sx < dw) (hy : sy < dh) (hdh : dh < 2 ^ 31) (hsh : sh < 2 ^ 31) : NoOverflow dw dh sx sy sw sh 4 b := by
  have hrow : dw * sy ≤ dw * dh := Nat.mul_le_mul_left dw hy.le
  have hcol : dw * 1 ≤ dw * dh := Nat.mul_le_mul_left dw (by omega)
  rw [Nat.mul_comm b] at hstride
  exact ⟨by omega, by omega, by omega, hstride, hdh, by omega, hsh⟩

end BlitArgs

end LilitunRemote

import LilitunRemote.Screen.Capture

/-! # `screen_diff` on memory and on pixel numbers

On a screen of four bytes a pixel with 16 to 9999 pixels a side no offset wraps, and
`screen_diff` on the two blocks of memory gives the region, and leaves the `compare_buf`, that it gives
on pixels addressed by their number.
-/
namespace LilitunRemote
open Memory

def Geometry.Scannable.capture {g : Geometry} (hg : g.Scannable) : Capture where
  scrWidth := g.scrWidth
  scrHeight := g.scrHeight
  scrDepth := 4
  width_pos := g.width_pos
  width_le := Nat.le_trans hg.width_le (by decide)
  height_pos := g.height_pos
  height_le := Nat.le_trans hg.height_le (by decide)

namespace Capture

def Holds (m : Words) (f : Frame) : Prop := ∀ i : ℕ, m.cell i = f i

section Scan
variable {g : Geometry} (hg : g.Scannable) {framebuffer compareBuf : Words} {fb old : Frame}
include hg

theorem area_lt_int : hg.capture.scrWidth * hg.capture.scrHeight < 2 ^ 31 := by
  have harea : g.scrWidth * g.scrHeight < 2 ^ 31 := by
    have hlt := g.size_lt
    omega
  exact harea

theorem place_block {regX regY : ℕ} {p : ℕ × ℕ} (hp : p ∈ hg.capture.blockPixels regX regY) :
    hg.capture.place regX p = (p.2 * g.scrWidth + p.1 : ℕ) := by
  obtain ⟨hx, hy⟩ := mem_blockPixels.mp hp
  obtain ⟨hreg, _, hx⟩ := mem_blockRange.mp hx
  obtain ⟨_, _, hy⟩ := mem_blockRange.mp hy
  exact place_eq (area_lt_int hg) hreg ⟨hx, hy⟩

theorem differing_eq_changed (hfb : Holds framebuffer fb) (hcmp : Holds compareBuf old) (regX regY : ℕ) :
    hg.capture.differing framebuffer compareBuf regX regY =
      changed g fb old (blockRange regX g.scrWidth) (blockRange regY g.scrHeight) := by
  have hpixel : hg.capture.differing framebuffer compareBuf regX regY =
      (hg.capture.blockPixels regX regY).filter
        (fun p => fb (p.2 * g.scrWidth + p.1) ≠ old (p.2 * g.scrWidth + p.1)) := by
    apply List.filter_congr
    intro p hp
    rw [place_block hg hp, hfb, hcmp]
  rw [hpixel, blockPixels, List.filter_flatMap]
  apply List.flatMap_congr
  intro y _
  exact List.filter_map

theorem holds_committed (hfb : Holds framebuffer fb) (hcmp : Holds compareBuf old) (regX regY : ℕ) :
    Holds (hg.capture.diffBlock framebuffer compareBuf regX regY).compareBuf
      (Mirror.patch (blockCells g (regX, regY)) fb old) := by
  intro i
  rw [(hg.capture.diffBlock_spec framebuffer compareBuf regX regY).2.1]
  have hmem : (i : ℤ) ∈ ChangeScan.cells (hg.capture.place regX) (hg.capture.blockPixels regX regY) ↔
      i ∈ blockCells g (regX, regY) := by
    constructor
    · rintro ⟨p, hp, he⟩
      obtain ⟨hx, hy⟩ := mem_blockPixels.mp hp
      rw [place_block hg hp] at he
      exact ⟨p.2, hy, p.1, hx, by exact_mod_cast he⟩
    · rintro ⟨y, hy, x, hx, rfl⟩
      have hp : (x, y) ∈ hg.capture.blockPixels regX regY := mem_blockPixels.mpr ⟨hx, hy⟩
      exact ⟨(x, y), hp, (place_block hg hp).symm⟩
  by_cases hi : i ∈ blockCells g (regX, regY)
  · rw [Mirror.patch_apply_of_mem (hmem.mpr hi), Mirror.patch_apply_of_mem hi]
    exact hfb i
  · rw [Mirror.patch_apply_of_notMem (fun h => hi (hmem.mp h)), Mirror.patch_apply_of_notMem hi]
    exact hcmp i

omit hg in
theorem padAxis_eq (size : ℕ) (lo hi : ℤ) :
    padAxis size lo hi =
      (if hi - lo < 8 ∧ ¬ hi < size - 8 then lo - (8 - (hi - lo)) else lo,
        if hi - lo < 8 ∧ hi < size - 8 then hi + (8 - (hi - lo)) else hi) := by
  unfold padAxis
  by_cases hnarrow : hi - lo < 8
  · by_cases hroom : hi < size - 8
    · simp [hnarrow, hroom]
    · simp [hnarrow, hroom]
  · simp [hnarrow]

theorem padVarblock_eq (v : Varblock) : hg.capture.padVarblock v = LilitunRemote.padVarblock g v := by
  rw [padVarblock, padAxis_eq, padAxis_eq]
  rfl

end Scan

/-! ## The bytes of a rectangle -/

/-- The bytes of consecutive words, one after another. -/
theorem bytes_eq_flatMap (f : ℕ → UInt32) (n : ℕ) :
    (List.range (4 * n)).map (fun k => (pixelBytes (f (k / 4))).getD (k % 4) 0) =
      (List.range n).flatMap (fun c => pixelBytes (f c)) := by
  induction n with
  | zero => rfl
  | succ n ih =>
    have hword : ∀ k < 4, (pixelBytes (f ((4 * n + k) / 4))).getD ((4 * n + k) % 4) 0 = (pixelBytes (f n)).getD k 0 := by
      intro k hk
      rw [show (4 * n + k) / 4 = n by omega, show (4 * n + k) % 4 = k by omega]
    have hbytes : (List.range 4).map (fun k => (pixelBytes (f n)).getD k 0) = pixelBytes (f n) := rfl
    have hrange : List.range (n + 1) = List.range n ++ [n] := List.range_succ
    rw [Nat.mul_succ, List.range_add, List.map_append, ih, List.map_map, hrange, List.flatMap_append, List.flatMap_singleton,
      ← hbytes]
    congr 1
    apply List.map_congr_left
    intro k hk
    exact hword k (List.mem_range.mp hk)

section Rect
variable {g : Geometry} {m : Words} {f : Frame} {x y w h : ℕ}

/-- A pixel of a rectangle on the screen has an `int` number. -/
theorem rectIndex_lt (hrect : g.OnScreen x y w h) {r c : ℕ} (hr : r < h) (hc : c < w) :
    4 * ((r + y) * g.scrWidth + (c + x)) + 3 < 2 ^ 31 := by
  have hright := hrect.right
  have hbottom := hrect.bottom
  have hidx := Grid.index_lt (show c + x < g.scrWidth by omega) (show r + y < g.scrHeight by omega)
  have hlt := g.size_lt
  omega

variable (hg : g.Scannable)
include hg

theorem scanline_eq (hm : Holds m f) (hrect : g.OnScreen x y w h) {r : ℕ} (hr : r < h) :
    hg.capture.scanline m x w ((y : ℤ) + r) =
      (List.range w).flatMap (fun c => pixelBytes (f ((r + y) * g.scrWidth + (c + x)))) := by
  have hlen : w * (hg.capture.scrDepth * 8) / 8 = 4 * w := by
    rw [show hg.capture.scrDepth = 4 from rfl]
    omega
  have hfirst := rectIndex_lt hrect hr hrect.width_pos
  have hstart : wrapInt (((y : ℤ) + r) * (hg.capture.scrWidth * hg.capture.scrDepth) + x * hg.capture.scrDepth) =
      (4 * ((r + y) * g.scrWidth + x) : ℕ) := by
    have hnum : ((y : ℤ) + r) * (hg.capture.scrWidth * hg.capture.scrDepth) + x * hg.capture.scrDepth =
        (4 * ((r + y) * g.scrWidth + x) : ℕ) := by
      rw [show hg.capture.scrDepth = 4 from rfl, show hg.capture.scrWidth = g.scrWidth from rfl]
      push_cast
      ring
    rw [hnum]
    exact wrapInt_of_range (by omega) (by omega)
  rw [scanline, hlen, ← bytes_eq_flatMap (fun c => f ((r + y) * g.scrWidth + (c + x)))]
  apply List.map_congr_left
  intro k hk
  have hcell : ((4 * ((r + y) * g.scrWidth + x) : ℕ) + (k : ℤ)) / 4 = ((r + y) * g.scrWidth + (k / 4 + x) : ℕ) := by
    omega
  have hbyte : (((4 * ((r + y) * g.scrWidth + x) : ℕ) + (k : ℤ)) % 4).toNat = k % 4 := by
    omega
  rw [hstart, imageByte, hcell, hbyte, hm]

theorem compressRgbToJpeg_eq (c : Codec) (hm : Holds m f) (hrect : g.OnScreen x y w h) :
    (hg.capture.compressRgbToJpeg c m x y w h).1 = LilitunRemote.compressRgbToJpeg c g f x y w h := by
  have hlines : ((List.range h).map (fun r : ℕ => hg.capture.scanline m x w ((y : ℤ) + r))).flatMap
      (fun line => line.take (handed w)) = rectBytes g f x y w h := by
    rw [List.flatMap_map]
    apply List.flatMap_congr
    intro r hr
    rw [scanline_eq hg hm hrect (List.mem_range.mp hr)]
    apply List.take_of_length_le
    rw [rectRow_length pixelBytes_length, handed, Nat.mul_comm]
  exact congrArg (c.jpegCompress w h) hlines

/-- Reading the rectangle leaves the memory as it is. -/
theorem foldl_rawPixel (regX regY : ℤ) (r : ℕ) (cs : List ℕ) (s : Bytes × Words) :
    let t := cs.foldl (hg.capture.rawPixel regX regY r) s
    t.1 = s.1 ++ cs.flatMap (fun c => pixelBytes (s.2.cell (hg.capture.rawIndex regX regY r c))) ∧ t.2.cell = s.2.cell := by
  induction cs generalizing s with
  | nil => exact ⟨(List.append_nil _).symm, rfl⟩
  | cons c cs ih =>
    obtain ⟨hbytes, hcell⟩ := ih (hg.capture.rawPixel regX regY r s c)
    refine ⟨?_, hcell⟩
    rw [List.foldl_cons, hbytes, List.flatMap_cons, ← List.append_assoc]
    rfl

theorem foldl_rawRow (regX regY : ℤ) (cs rs : List ℕ) (s : Bytes × Words) :
    let t := rs.foldl (fun s r => cs.foldl (hg.capture.rawPixel regX regY r) s) s
    t.1 = s.1 ++ rs.flatMap (fun r => cs.flatMap (fun c => pixelBytes (s.2.cell (hg.capture.rawIndex regX regY r c)))) ∧
      t.2.cell = s.2.cell := by
  induction rs generalizing s with
  | nil => exact ⟨(List.append_nil _).symm, rfl⟩
  | cons r rs ih =>
    obtain ⟨hrow, hcell⟩ := foldl_rawPixel hg regX regY r cs s
    obtain ⟨hbytes, hrest⟩ := ih (cs.foldl (hg.capture.rawPixel regX regY r) s)
    refine ⟨?_, hrest.trans hcell⟩
    rw [List.foldl_cons, hbytes, hrow, hcell, List.flatMap_cons, ← List.append_assoc]

theorem getRawScreenData_eq (hm : Holds m f) (hrect : g.OnScreen x y w h) :
    (hg.capture.getRawScreenData m x y w h).1 = LilitunRemote.getRawScreenData g f x y w h ∧
      Holds (hg.capture.getRawScreenData m x y w h).2 f := by
  obtain ⟨hbytes, hcell⟩ := foldl_rawRow hg x y (List.range w) (List.range h) ([], m)
  constructor
  · rw [getRawScreenData, hbytes]
    apply List.flatMap_congr
    intro r hr
    apply List.flatMap_congr
    intro c hc
    have hlt := rectIndex_lt hrect (List.mem_range.mp hr) (List.mem_range.mp hc)
    have hindex : hg.capture.rawIndex x y r c = ((r + y) * g.scrWidth + (c + x) : ℕ) := by
      have hnum : ((r : ℤ) + y) * g.scrWidth + (c + x) = ((r + y) * g.scrWidth + (c + x) : ℕ) := by
        push_cast
        ring
      rw [rawIndex, show hg.capture.scrWidth = g.scrWidth from rfl, hnum]
      exact wrapInt_of_range (by omega) (by omega)
    rw [hindex, hm]
  · intro i
    rw [getRawScreenData, hcell]
    exact hm i

end Rect

/-! ## One call -/

section Call
variable {g : Geometry} (hg : g.Scannable) {framebuffer compareBuf : Words} {fb old : Frame}
include hg

theorem encode_eq (c : Codec) {s : Grab} (hfb : Holds s.framebuffer fb) (hcmp : Holds s.compareBuf old) {p : Varblock}
    (hx : 0 ≤ p.minX ∧ p.minX ≤ p.maxX ∧ p.maxX < g.scrWidth)
    (hy : 0 ≤ p.minY ∧ p.minY ≤ p.maxY ∧ p.maxY < g.scrHeight) :
    let r := hg.capture.encode c s p
    let w := p.maxX - p.minX + 1
    let h := p.maxY - p.minY + 1
    let encoded := encodeRect c g fb old p.minX.toNat p.minY.toNat w.toNat h.toNat
    Holds r.framebuffer fb ∧ Holds r.compareBuf old ∧
      r.region = some ⟨wordOfInt p.minX, wordOfInt p.minY, wordOfInt w, wordOfInt h, encoded.1.code,
        UInt32.ofNat encoded.2.length, encoded.2⟩ := by
  obtain ⟨x, hx0⟩ := Int.eq_ofNat_of_zero_le hx.1
  obtain ⟨y, hy0⟩ := Int.eq_ofNat_of_zero_le hy.1
  intro r w h encoded
  have hrect : g.OnScreen x y w.toNat h.toNat := by
    constructor <;> omega
  have hjpeg := compressRgbToJpeg_eq hg c hfb hrect
  obtain ⟨hraw, hheld⟩ := getRawScreenData_eq hg hcmp hrect
  have hxn : p.minX.toNat = x := by omega
  have hyn : p.minY.toNat = y := by omega
  rw [show (x : ℤ) = p.minX from hx0.symm, show (y : ℤ) = p.minY from hy0.symm] at hjpeg hraw hheld
  simp only [r, encoded, encode, encodeRect, hxn, hyn, ← hjpeg, ← hraw]
  split
  · split
    · exact ⟨hfb, hheld, rfl⟩
    · exact ⟨hfb, hheld, rfl⟩
  · exact ⟨hfb, hcmp, rfl⟩

/-- On a scannable screen of four bytes a pixel the call on memory produces the region
that the call on pixel numbers produces, and leaves the same `compare_buf`. -/
theorem screenDiff_eq (c : Codec) (hfb : Holds framebuffer fb) (hcmp : Holds compareBuf old) (regX regY : ℕ) :
    let r := hg.capture.screenDiff c framebuffer compareBuf regX regY
    let s := LilitunRemote.screenDiff c g fb old regX regY
    Holds r.framebuffer fb ∧ Holds r.compareBuf s.1 ∧ r.region = s.2 := by
  intro r s
  have hread : Holds (hg.capture.diffBlock framebuffer compareBuf regX regY).framebuffer fb := by
    intro i
    rw [(hg.capture.diffBlock_spec framebuffer compareBuf regX regY).1]
    exact hfb i
  have hcommit := holds_committed hg hfb hcmp regX regY
  -- the two scans leave the same varblock
  have hscan : LilitunRemote.diffBlock g fb old regX regY = (Mirror.patch (blockCells g (regX, regY)) fb old,
      (hg.capture.diffBlock framebuffer compareBuf regX regY).varblock) := by
    rw [diffBlock_varblock, differing_eq_changed hg hfb hcmp]
    exact diffBlock_eq g fb old (regX, regY)
  have hbounds : (hg.capture.diffBlock framebuffer compareBuf regX regY).varblock.minX < 9999 →
      let v := (hg.capture.diffBlock framebuffer compareBuf regX regY).varblock
      0 ≤ v.minX ∧ v.minX ≤ v.maxX ∧ v.maxX < g.scrWidth ∧
        0 ≤ v.minY ∧ v.minY ≤ v.maxY ∧ v.maxY < g.scrHeight := by
    intro hmin
    rw [diffBlock_varblock] at hmin ⊢
    obtain ⟨q, hq, _⟩ := extend_minX_lt.mp hmin
    exact (extend_bounds (List.ne_nil_of_mem hq) (fun p hp => differing_bounds hp)).2
  obtain ⟨grab, hgrab⟩ : ∃ grab, grab = hg.capture.diffBlock framebuffer compareBuf regX regY := ⟨_, rfl⟩
  rw [← hgrab] at hread hcommit hscan hbounds
  simp only [r, s, screenDiff, LilitunRemote.screenDiff, hscan, ← hgrab]
  by_cases hmin : grab.varblock.minX < 9999
  · obtain ⟨x0, x1, x2, y0, y1, y2⟩ := hbounds hmin
    obtain ⟨⟨u0, u1, u2, u3, _⟩, w0, w1, w2, w3, _⟩ := padVarblock_bounds hg.width_ge hg.height_ge x0 x1 x2 y0 y1 y2
    rw [← padVarblock_eq hg] at u0 u1 u2 u3 w0 w1 w2 w3
    obtain ⟨h1, h2, h3⟩ := encode_eq hg c hread hcommit ⟨u0, by omega, u3⟩ ⟨w0, by omega, w3⟩
    rw [if_pos hmin, if_pos hmin, ← padVarblock_eq hg]
    exact ⟨h1, h2, h3⟩
  · rw [if_neg hmin, if_neg hmin]
    exact ⟨hread, hcommit, rfl⟩

end Call
end Capture
end LilitunRemote

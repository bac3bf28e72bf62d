import LilitunRemote.Screen.ScreenDiff
import LilitunRemote.Foundation.Words

/-! # `screen_diff` on every screen the capture layer reports

`GrabberInit` takes the size of the screen from the X server, up to 65535 pixels a side
and of any depth. Here `screen_diff` works on the two blocks of memory themselves: rows
are found by an `int` offset, every pixel access is recorded, and so is every scanline
handed to the JPEG encoder.
-/
namespace LilitunRemote
open Memory

structure XcbScreen where
  widthInPixels : UInt16
  heightInPixels : UInt16
  rootDepth : UInt8

structure Capture where
  scrWidth : ℕ
  scrHeight : ℕ
  scrDepth : ℕ
  width_pos : 0 < scrWidth
  width_le : scrWidth ≤ 65535
  height_pos : 0 < scrHeight
  height_le : scrHeight ≤ 65535

/-- `scrWidth * scrHeight * scrDepth`, an `int`: the size of the shared memory and of
`compare_buf`. -/
def bufferSize (w h d : ℕ) : ℤ := wrapInt (wrapInt (w * h) * d)

theorem bufferSize_eq (w h d : ℕ) : bufferSize w h d = wrapInt (w * h * d) := by
  have hmod : wrapInt (w * h) % 2 ^ 32 = (w * h : ℤ) % 2 ^ 32 := by unfold wrapInt; omega
  have hmul : (wrapInt (w * h) * d) % 2 ^ 32 = (w * h * d : ℤ) % 2 ^ 32 := by
    rw [Int.mul_emod, hmod, ← Int.mul_emod]
  unfold bufferSize
  generalize wrapInt (w * h) * d = a at hmul
  generalize (w * h * d : ℤ) = b at hmul
  unfold wrapInt
  omega

theorem sides_pos_of_bufferSize {w h d : ℕ} (hsize : 0 < bufferSize w h d) : 0 < w ∧ 0 < h := by
  constructor
  · rcases Nat.eq_zero_or_pos w with rfl | hw
    · simp [bufferSize, wrapInt] at hsize
    · exact hw
  · rcases Nat.eq_zero_or_pos h with rfl | hh
    · simp [bufferSize, wrapInt] at hsize
    · exact hh

def pixelDepth (rootDepth : UInt8) : ℕ := if rootDepth.toNat / 8 = 3 then 4 else rootDepth.toNat / 8

/-- `GrabberInit`; `shmget` refuses a segment whose size is not positive. -/
def grabberInit (s : XcbScreen) : Option Capture :=
  if hsize : 0 < bufferSize s.widthInPixels.toNat s.heightInPixels.toNat (pixelDepth s.rootDepth) then
    some {
      scrWidth := s.widthInPixels.toNat
      scrHeight := s.heightInPixels.toNat
      scrDepth := pixelDepth s.rootDepth
      width_pos := (sides_pos_of_bufferSize hsize).1
      width_le := Nat.le_of_lt_succ s.widthInPixels.toNat_lt
      height_pos := (sides_pos_of_bufferSize hsize).2
      height_le := Nat.le_of_lt_succ s.heightInPixels.toNat_lt }
  else none

namespace Capture
variable (g : Capture)

structure Grab where
  framebuffer : Words
  compareBuf : Words
  varblock : Varblock
  pixChanged : Bool

def offset (regX y : ℕ) : ℤ := wrapInt (wrapInt (y * g.scrWidth) + regX)

/-- The cell of pixel `(x, y)`: `f` and `c` advance from the offset of its row. -/
def place (regX : ℕ) (p : ℕ × ℕ) : ℤ := g.offset regX p.2 + (p.1 - regX)

def diffPixel (regX y : ℕ) (s : Grab) (x : ℕ) : Grab :=
  let (f, framebuffer) := s.framebuffer.load (g.place regX (x, y))
  let (c, compareBuf) := s.compareBuf.load (g.place regX (x, y))
  if f ≠ c then
    let (varblock, pixChanged) := countColumn (s.varblock, s.pixChanged) x
    ⟨framebuffer, compareBuf.store (g.place regX (x, y)) f, varblock, pixChanged⟩
  else ⟨framebuffer, compareBuf, s.varblock, s.pixChanged⟩

def diffRow (regX : ℕ) (xs : List ℕ) (s : Grab) (y : ℕ) : Grab :=
  let s := xs.foldl (g.diffPixel regX y) { s with pixChanged := false }
  { s with varblock := closeRow y (s.varblock, s.pixChanged) }

def diffBlock (framebuffer compareBuf : Words) (regX regY : ℕ) : Grab :=
  (blockRange regY g.scrHeight).foldl (g.diffRow regX (blockRange regX g.scrWidth))
    ⟨framebuffer, compareBuf, ⟨9999, 9999, -1, -1⟩, false⟩

def padAxis (size : ℕ) (lo hi : ℤ) : ℤ × ℤ :=
  if hi - lo < 8 then
    let need := 8 - (hi - lo)
    if hi < size - 8 then (lo, hi + need) else (lo - need, hi)
  else (lo, hi)

def padVarblock (v : Varblock) : Varblock :=
  let (minX, maxX) := padAxis g.scrWidth v.minX (if v.maxX < 0 then v.minX else v.maxX)
  let (minY, maxY) := padAxis g.scrHeight v.minY (if v.maxY < 0 then v.minY else v.maxY)
  ⟨minX, minY, maxX, if maxY ≥ g.scrHeight then g.scrHeight - 1 else maxY⟩

def rawIndex (regX regY : ℤ) (y x : ℕ) : ℤ := wrapInt ((y + regY) * g.scrWidth + (x + regX))

def rawPixel (regX regY : ℤ) (y : ℕ) (s : Bytes × Words) (x : ℕ) : Bytes × Words :=
  let (pixel, compareBuf) := s.2.load (g.rawIndex regX regY y x)
  (s.1 ++ pixelBytes pixel, compareBuf)

def getRawScreenData (compareBuf : Words) (regX regY : ℤ) (regW regH : ℕ) : Bytes × Words :=
  (List.range regH).foldl (fun s y => (List.range regW).foldl (g.rawPixel regX regY y) s) ([], compareBuf)

def imageByte (framebuffer : Words) (j : ℤ) : UInt8 :=
  (pixelBytes (framebuffer.cell (j / 4))).getD (j % 4).toNat 0

def scanline (framebuffer : Words) (x : ℤ) (width : ℕ) (z : ℤ) : Bytes :=
  (List.range (width * (g.scrDepth * 8) / 8)).map (fun k : ℕ =>
    imageByte framebuffer (wrapInt (z * (g.scrWidth * g.scrDepth) + x * g.scrDepth) + k))

/-- The bytes of a scanline libjpeg reads: `image_width` pixels of four components. -/
def handed (width : ℕ) : ℕ := width * 4

/-- `compress_rgb_to_jpeg`: the JPEG, and for each scanline its size and what libjpeg reads of it. -/
def compressRgbToJpeg (c : Codec) (framebuffer : Words) (x y : ℤ) (width height : ℕ) : Bytes × List (ℕ × ℕ) :=
  let scanlines := (List.range height).map (fun r : ℕ => g.scanline framebuffer x width (y + r))
  (c.jpegCompress width height (scanlines.flatMap (fun line => line.take (handed width))),
    scanlines.map (fun line => (line.length, handed width)))

structure Result where
  framebuffer : Words
  compareBuf : Words
  scanlines : List (ℕ × ℕ)
  region : Option RegionData

/-- The region of a padded rectangle. The rectangle of a block is small enough for its
number of bytes to be an `int`. -/
def encode (c : Codec) (s : Grab) (p : Varblock) : Result :=
  let rectWidth := p.maxX - p.minX + 1
  let rectHeight := p.maxY - p.minY + 1
  let (jpeg, scanlines) := g.compressRgbToJpeg c s.framebuffer p.minX p.minY rectWidth.toNat rectHeight.toNat
  let region := fun (pix : Pix) (data : Bytes) => some
    (⟨wordOfInt p.minX, wordOfInt p.minY, wordOfInt rectWidth, wordOfInt rectHeight, pix.code, UInt32.ofNat data.length,
      data⟩ : RegionData)
  if jpeg.length > rectWidth.toNat * rectHeight.toNat * 4 then
    let (raw, compareBuf) := g.getRawScreenData s.compareBuf p.minX p.minY rectWidth.toNat rectHeight.toNat
    let packed := c.lz4Compress raw raw.length
    if 0 < packed.length ∧ packed.length < raw.length then ⟨s.framebuffer, compareBuf, scanlines, region .lz4Bgra packed⟩
    else ⟨s.framebuffer, compareBuf, scanlines, region .rawBgra raw⟩
  else ⟨s.framebuffer, s.compareBuf, scanlines, region .jpegBgra jpeg⟩

def screenDiff (c : Codec) (framebuffer compareBuf : Words) (regX regY : ℕ) : Result :=
  let s := g.diffBlock framebuffer compareBuf regX regY
  if s.varblock.minX < 9999 then g.encode c s (g.padVarblock s.varblock)
  else ⟨s.framebuffer, s.compareBuf, [], none⟩

/-! ## The cells of a block -/

def blockPixels (regX regY : ℕ) : List (ℕ × ℕ) :=
  (blockRange regY g.scrHeight).flatMap (fun y => (blockRange regX g.scrWidth).map (fun x => (x, y)))

variable {g}

theorem mem_blockPixels {regX regY : ℕ} {p : ℕ × ℕ} :
    p ∈ g.blockPixels regX regY ↔ p.1 ∈ blockRange regX g.scrWidth ∧ p.2 ∈ blockRange regY g.scrHeight := by
  obtain ⟨x, y⟩ := p
  simp only [blockPixels, List.mem_flatMap, List.mem_map, Prod.mk.injEq]
  constructor
  · rintro ⟨y', hy, x', hx, rfl, rfl⟩
    exact ⟨hx, hy⟩
  · rintro ⟨hx, hy⟩
    exact ⟨y, hy, x, hx, rfl, rfl⟩

/-- Up to multiples of `2^32` the cell of a pixel is its number in the screen. -/
theorem place_emod (regX : ℕ) (p : ℕ × ℕ) : g.place regX p % 2 ^ 32 = ((p.2 * g.scrWidth + p.1 : ℕ) : ℤ) % 2 ^ 32 := by
  simp only [place, offset]
  push_cast
  generalize (p.2 : ℤ) * g.scrWidth = a
  unfold wrapInt
  omega

theorem area_lt : g.scrWidth * g.scrHeight < 2 ^ 32 := by
  have hle := Nat.mul_le_mul g.width_le g.height_le
  omega

/-- Wrapped offsets included, two pixels never share a cell. -/
theorem place_inj {regX : ℕ} {p q : ℕ × ℕ} (hp : p.1 < g.scrWidth ∧ p.2 < g.scrHeight)
    (hq : q.1 < g.scrWidth ∧ q.2 < g.scrHeight) (h : g.place regX p = g.place regX q) : p = q := by
  have hpi := lt_trans (Grid.index_lt hp.1 hp.2) area_lt
  have hqi := lt_trans (Grid.index_lt hq.1 hq.2) area_lt
  have hmod := (g.place_emod regX p).symm.trans ((congrArg (· % 2 ^ 32) h).trans (g.place_emod regX q))

  rw [Int.emod_eq_of_lt (Int.natCast_nonneg _) (by exact_mod_cast hpi),
    Int.emod_eq_of_lt (Int.natCast_nonneg _) (by exact_mod_cast hqi)] at hmod
  obtain ⟨hy, hx⟩ := Grid.index_inj hp.1 hq.1 (Int.natCast_inj.mp hmod)
  exact Prod.ext hx hy

/-- Where the pixels of the screen have `int` numbers, the cell is the number. -/
theorem place_eq (harea : g.scrWidth * g.scrHeight < 2 ^ 31) {regX : ℕ} {p : ℕ × ℕ} (hx : regX ≤ p.1)
    (hp : p.1 < g.scrWidth ∧ p.2 < g.scrHeight) : g.place regX p = (p.2 * g.scrWidth + p.1 : ℕ) := by
  have hidx := lt_trans (Grid.index_lt hp.1 hp.2) harea
  have hrow : wrapInt (p.2 * g.scrWidth : ℕ) = (p.2 * g.scrWidth : ℕ) := wrapInt_of_range (by omega) (by omega)
  have hoff : wrapInt ((p.2 * g.scrWidth : ℕ) + (regX : ℤ)) = (p.2 * g.scrWidth : ℕ) + regX :=
    wrapInt_of_range (by omega) (by omega)
  rw [place, offset, ← Nat.cast_mul, hrow, hoff]
  push_cast
  ring

/-! ## What a scan does -/

theorem diffPixel_eq (regX y : ℕ) (s : Grab) (x : ℕ) :
    g.diffPixel regX y s x =
      if s.framebuffer.cell (g.place regX (x, y)) ≠ s.compareBuf.cell (g.place regX (x, y)) then
        ⟨(s.framebuffer.load (g.place regX (x, y))).2,
          (s.compareBuf.load (g.place regX (x, y))).2.store (g.place regX (x, y)) (s.framebuffer.cell (g.place regX (x, y))),
          (countColumn (s.varblock, s.pixChanged) x).1, (countColumn (s.varblock, s.pixChanged) x).2⟩
      else
        ⟨(s.framebuffer.load (g.place regX (x, y))).2, (s.compareBuf.load (g.place regX (x, y))).2, s.varblock,
          s.pixChanged⟩ := rfl

/-- One visit of the scan; the grabbed screen is only read. -/
theorem diffPixel_visit (regX y : ℕ) (s : Grab) (x : ℕ) :
    let t := g.diffPixel regX y s x
    t.framebuffer.cell = s.framebuffer.cell ∧
      (t.compareBuf.cell, t.varblock, t.pixChanged) =
        ChangeScan.visit (fun x => g.place regX (x, y)) s.framebuffer.cell countColumn
          (s.compareBuf.cell, s.varblock, s.pixChanged) x := by
  intro t
  simp only [t, diffPixel_eq, ChangeScan.visit]
  split <;> exact ⟨rfl, rfl⟩

theorem foldl_diffPixel (regX y : ℕ) (xs : List ℕ) (s : Grab) :
    let t := xs.foldl (g.diffPixel regX y) s
    t.framebuffer.cell = s.framebuffer.cell ∧
      (t.compareBuf.cell, t.varblock, t.pixChanged) =
        xs.foldl (ChangeScan.visit (fun x => g.place regX (x, y)) s.framebuffer.cell countColumn)
          (s.compareBuf.cell, s.varblock, s.pixChanged) := by
  induction xs generalizing s with
  | nil => exact ⟨rfl, rfl⟩
  | cons x xs ih =>
    obtain ⟨hfb, hvisit⟩ := g.diffPixel_visit regX y s x
    obtain ⟨hfb', hrest⟩ := ih (g.diffPixel regX y s x)
    rw [hfb, hvisit] at hrest
    exact ⟨hfb'.trans hfb, hrest⟩

theorem diffRow_spec {regX y : ℕ} {xs : List ℕ} (hxs : xs.Nodup) (hx : ∀ x ∈ xs, x < g.scrWidth) (hy : y < g.scrHeight)
    (s : Grab) :
    let t := g.diffRow regX xs s y
    let ps := xs.map (fun x => (x, y))
    t.framebuffer.cell = s.framebuffer.cell ∧
      t.compareBuf.cell = Mirror.patch (ChangeScan.cells (g.place regX) ps) s.framebuffer.cell s.compareBuf.cell ∧
      t.varblock = s.varblock.extend (ChangeScan.differing (g.place regX) s.framebuffer.cell s.compareBuf.cell ps) := by
  obtain ⟨hfb, hscan⟩ := g.foldl_diffPixel regX y xs { s with pixChanged := false }
  have hnd : (xs.map (fun x => g.place regX (x, y))).Nodup := by
    apply hxs.map_on
    intro a ha b hb hab
    exact (Prod.mk.inj (place_inj ⟨hx a ha, hy⟩ ⟨hx b hb, hy⟩ hab)).1
  rw [ChangeScan.foldl_visit _ _ hnd] at hscan
  obtain ⟨hcells, hcount⟩ := Prod.mk.inj hscan
  refine ⟨hfb, ?_, ?_⟩
  · rw [ChangeScan.cells_map]
    exact hcells
  · rw [ChangeScan.differing_map, ← closeRow_countColumn]
    exact congrArg (closeRow y) hcount

theorem foldl_diffRow_spec {regX : ℕ} {xs ys : List ℕ} (hxs : xs.Nodup) (hx : ∀ x ∈ xs, x < g.scrWidth) (hys : ys.Nodup)
    (hy : ∀ y ∈ ys, y < g.scrHeight) (s : Grab) :
    let t := ys.foldl (g.diffRow regX xs) s
    let ps := ys.flatMap (fun y => xs.map (fun x => (x, y)))
    t.framebuffer.cell = s.framebuffer.cell ∧
      t.compareBuf.cell = Mirror.patch (ChangeScan.cells (g.place regX) ps) s.framebuffer.cell s.compareBuf.cell ∧
      t.varblock = s.varblock.extend (ChangeScan.differing (g.place regX) s.framebuffer.cell s.compareBuf.cell ps) := by
  induction ys generalizing s with
  | nil => exact ⟨rfl, ChangeScan.patch_nil.symm, rfl⟩
  | cons y ys ih =>
    obtain ⟨hnot, hys⟩ := List.nodup_cons.mp hys
    obtain ⟨hy, hrest⟩ := List.forall_mem_cons.mp hy
    obtain ⟨hfb, hcmp, hv⟩ := diffRow_spec hxs hx hy s
    obtain ⟨hfb', hcmp', hv'⟩ := ih hys hrest (g.diffRow regX xs s y)
    -- the pixels of the later rows have cells outside this one
    have houtside : ∀ p ∈ ys.flatMap (fun y => xs.map (fun x => (x, y))),
        g.place regX p ∉ ChangeScan.cells (g.place regX) (xs.map (fun x => (x, y))) := by
      rintro p hp ⟨q, hq, he⟩
      obtain ⟨z, hz, hp⟩ := List.mem_flatMap.mp hp
      obtain ⟨a, ha, rfl⟩ := List.mem_map.mp hp
      obtain ⟨b, hb, rfl⟩ := List.mem_map.mp hq
      have heq := (Prod.mk.inj (place_inj ⟨hx a ha, hrest z hz⟩ ⟨hx b hb, hy⟩ he)).2
      exact hnot (heq ▸ hz)
    rw [hfb, hcmp, ChangeScan.patch_append] at hcmp'
    rw [hfb, hcmp, ChangeScan.differing_patch houtside, hv, ← Varblock.extend_append, ← ChangeScan.differing_append] at hv'
    exact ⟨hfb'.trans hfb, hcmp', hv'⟩

theorem diffBlock_spec (framebuffer compareBuf : Words) (regX regY : ℕ) :
    let t := g.diffBlock framebuffer compareBuf regX regY
    let ps := g.blockPixels regX regY
    t.framebuffer.cell = framebuffer.cell ∧
      t.compareBuf.cell = Mirror.patch (ChangeScan.cells (g.place regX) ps) framebuffer.cell compareBuf.cell ∧
      t.varblock = (⟨9999, 9999, -1, -1⟩ : Varblock).extend
        (ChangeScan.differing (g.place regX) framebuffer.cell compareBuf.cell ps) :=
  foldl_diffRow_spec (blockRange_nodup _ _) (fun _ hx => (mem_blockRange.mp hx).2.2) (blockRange_nodup _ _)
    (fun _ hy => (mem_blockRange.mp hy).2.2) _

/-- The pixels of a block that differ from `compare_buf`. -/
def differing (g : Capture) (framebuffer compareBuf : Words) (regX regY : ℕ) : List (ℕ × ℕ) :=
  ChangeScan.differing (g.place regX) framebuffer.cell compareBuf.cell (g.blockPixels regX regY)

theorem diffBlock_varblock (framebuffer compareBuf : Words) (regX regY : ℕ) :
    (g.diffBlock framebuffer compareBuf regX regY).varblock =
      (⟨9999, 9999, -1, -1⟩ : Varblock).extend (g.differing framebuffer compareBuf regX regY) :=
  (g.diffBlock_spec framebuffer compareBuf regX regY).2.2

theorem differing_bounds {framebuffer compareBuf : Words} {regX regY : ℕ} {p : ℕ × ℕ}
    (hp : p ∈ g.differing framebuffer compareBuf regX regY) : p.1 < g.scrWidth ∧ p.2 < g.scrHeight := by
  obtain ⟨hx, hy⟩ := mem_blockPixels.mp (ChangeScan.mem_differing.mp hp).1
  exact ⟨(mem_blockRange.mp hx).2.2, (mem_blockRange.mp hy).2.2⟩

/-! ## A change of one pixel -/

def onePixel (i : ℤ) : ℤ → UInt32 := Function.update (fun _ => 0) i 1

theorem onePixel_ne {i j : ℤ} : onePixel i j ≠ 0 ↔ j = i := by
  by_cases hj : j = i
  · simp [onePixel, hj]
  · simp [onePixel, hj]

theorem mem_differing_onePixel {regX regY : ℕ} {i : ℤ} {p : ℕ × ℕ} :
    p ∈ g.differing (.fresh (onePixel i)) (.fresh (fun _ => 0)) regX regY ↔
      p ∈ g.blockPixels regX regY ∧ g.place regX p = i := by
  simp only [differing, ChangeScan.mem_differing, Words.fresh, onePixel_ne]

theorem onePixel_varblock {regX regY : ℕ} {q : ℕ × ℕ} (hq : q ∈ g.blockPixels regX regY) (hx : q.1 < 9999) (hy : q.2 < 9999) :
    (g.diffBlock (.fresh (onePixel (g.place regX q))) (.fresh (fun _ => 0)) regX regY).varblock =
      ⟨q.1, q.2, q.1, q.2⟩ := by
  have hmem := mem_differing_onePixel.mpr ⟨hq, rfl⟩
  rw [diffBlock_varblock]
  apply extend_single hmem _ hx hy
  intro p hp
  exact place_inj (differing_bounds hp) (differing_bounds hmem) (mem_differing_onePixel.mp hp).2

end Capture
end LilitunRemote

import LilitunRemote.Screen.Capture

/-! # Which accesses of `screen_diff` stay in their buffers

The shared memory and `compare_buf` are allocated with `scrDepth` bytes a pixel, but
compared, copied and compressed with four; and the padding of a rectangle needs 16 pixels
a side to stay on the screen.
-/
namespace LilitunRemote
open Memory

namespace Capture
variable {g : Capture}

/-! ## The accesses of a scan -/

theorem mem_accessed_diffPixel (regX y : ℕ) (s : Grab) (x : ℕ) (i : ℤ) :
    let t := g.diffPixel regX y s x
    (i ∈ t.framebuffer.accessed ↔ i ∈ s.framebuffer.accessed ∨ i = g.place regX (x, y)) ∧
      (i ∈ t.compareBuf.accessed ↔ i ∈ s.compareBuf.accessed ∨ i = g.place regX (x, y)) := by
  intro t
  simp only [t, diffPixel_eq]
  split
  · simp only [Words.load_accessed, Words.store_accessed, List.mem_cons, or_self_left]
    exact ⟨or_comm, or_comm⟩
  · simp only [Words.load_accessed, List.mem_cons]
    exact ⟨or_comm, or_comm⟩

theorem mem_accessed_diffRow (regX : ℕ) (xs : List ℕ) (s : Grab) (y : ℕ) (i : ℤ) :
    let t := g.diffRow regX xs s y
    (i ∈ t.framebuffer.accessed ↔ i ∈ s.framebuffer.accessed ∨ ∃ x ∈ xs, i = g.place regX (x, y)) ∧
      (i ∈ t.compareBuf.accessed ↔ i ∈ s.compareBuf.accessed ∨ ∃ x ∈ xs, i = g.place regX (x, y)) := by
  have hstep := g.mem_accessed_diffPixel regX y
  constructor
  · exact Words.mem_foldl_log (fun s : Grab => s.framebuffer.accessed) (fun s x i => (hstep s x i).1) xs _ i
  · exact Words.mem_foldl_log (fun s : Grab => s.compareBuf.accessed) (fun s x i => (hstep s x i).2) xs _ i

/-- A scan accesses the cells of its block in both buffers, and no others. -/
theorem mem_accessed_diffBlock (framebuffer compareBuf : Words) (regX regY : ℕ) (i : ℤ) :
    let t := g.diffBlock framebuffer compareBuf regX regY
    let touched := ∃ p ∈ g.blockPixels regX regY, i = g.place regX p
    (i ∈ t.framebuffer.accessed ↔ i ∈ framebuffer.accessed ∨ touched) ∧
      (i ∈ t.compareBuf.accessed ↔ i ∈ compareBuf.accessed ∨ touched) := by
  intro t touched
  have htouched : touched ↔ ∃ y ∈ blockRange regY g.scrHeight, ∃ x ∈ blockRange regX g.scrWidth, i = g.place regX (x, y) := by
    constructor
    · rintro ⟨p, hp, he⟩
      obtain ⟨hx, hy⟩ := mem_blockPixels.mp hp
      exact ⟨p.2, hy, p.1, hx, he⟩
    · rintro ⟨y, hy, x, hx, he⟩
      exact ⟨(x, y), mem_blockPixels.mpr ⟨hx, hy⟩, he⟩
  have hstep := g.mem_accessed_diffRow regX (blockRange regX g.scrWidth)
  rw [htouched]
  constructor
  · exact Words.mem_foldl_log (fun s : Grab => s.framebuffer.accessed) (fun s y i => (hstep s y i).1) _ _ i
  · exact Words.mem_foldl_log (fun s : Grab => s.compareBuf.accessed) (fun s y i => (hstep s y i).2) _ _ i

theorem mem_accessed_getRawScreenData (compareBuf : Words) (regX regY : ℤ) (regW regH : ℕ) (i : ℤ) :
    i ∈ (g.getRawScreenData compareBuf regX regY regW regH).2.accessed ↔
      i ∈ compareBuf.accessed ∨ ∃ y ∈ List.range regH, ∃ x ∈ List.range regW, i = g.rawIndex regX regY y x := by
  apply Words.mem_foldl_log (fun s : Bytes × Words => s.2.accessed)
  intro s y i
  apply Words.mem_foldl_log (fun s : Bytes × Words => s.2.accessed)
  intro s x i
  simp only [rawPixel, Words.load_accessed, List.mem_cons]
  exact or_comm

theorem mem_scanlines (c : Codec) (framebuffer : Words) (x y : ℤ) (width height : ℕ) (l : ℕ × ℕ) :
    l ∈ (g.compressRgbToJpeg c framebuffer x y width height).2 ↔ 0 < height ∧ l = (width * g.scrDepth, width * 4) := by
  have hsize : width * (g.scrDepth * 8) / 8 = width * g.scrDepth := by
    rw [← Nat.mul_assoc, Nat.mul_div_cancel _ (by decide)]
  simp only [compressRgbToJpeg, List.map_map, List.mem_map, List.mem_range, Function.comp_apply, scanline, List.length_map,
    List.length_range, hsize, handed]
  constructor
  · rintro ⟨r, hr, rfl⟩
    exact ⟨by omega, rfl⟩
  · rintro ⟨hpos, rfl⟩
    exact ⟨0, hpos, rfl⟩

/-- Every encoding hands the scanlines of the rectangle to libjpeg; the raw pixels are
read only where the JPEG is too long. -/
theorem encode_accesses (c : Codec) (s : Grab) (p : Varblock) :
    let r := g.encode c s p
    let w := (p.maxX - p.minX + 1).toNat
    let h := (p.maxY - p.minY + 1).toNat
    let jpeg := g.compressRgbToJpeg c s.framebuffer p.minX p.minY w h
    let raw := g.getRawScreenData s.compareBuf p.minX p.minY w h
    r.framebuffer = s.framebuffer ∧ r.scanlines = jpeg.2 ∧
      r.compareBuf = if jpeg.1.length > w * h * 4 then raw.2 else s.compareBuf := by
  intro r w h jpeg raw
  simp only [r, encode]
  split
  · split
    · exact ⟨rfl, rfl, rfl⟩
    · exact ⟨rfl, rfl, rfl⟩
  · exact ⟨rfl, rfl, rfl⟩

/-! ## When all of them are inside -/

/-- The accesses of every call of `screen_diff` stay inside two buffers of so many bytes,
and libjpeg stays inside its scanlines. -/
def AccessesInside (g : Capture) (bytes : ℕ) : Prop :=
  ∀ c framebuffer compareBuf, ∀ bx < blockCount g.scrWidth, ∀ by' < blockCount g.scrHeight,
    let r := g.screenDiff c (.fresh framebuffer) (.fresh compareBuf) (bx * blockSize) (by' * blockSize)
    r.framebuffer.Within bytes ∧ r.compareBuf.Within bytes ∧ ∀ l ∈ r.scanlines, l.2 ≤ l.1

def HoldsPixels (g : Capture) (bytes : ℕ) : Prop :=
  16 ≤ g.scrWidth ∧ 16 ≤ g.scrHeight ∧ 4 ≤ g.scrDepth ∧ 4 * (g.scrWidth * g.scrHeight) ≤ bytes

theorem padAxis_inside {size : ℕ} {lo hi : ℤ} (hsize : 16 ≤ size) (h0 : 0 ≤ lo) (hle : lo ≤ hi) (hlt : hi < size) :
    let r := padAxis size lo hi
    0 ≤ r.1 ∧ r.1 ≤ r.2 ∧ r.2 < size := by
  intro r
  simp only [r, padAxis]
  split_ifs <;> simp only <;> omega

theorem padVarblock_inside (hW : 16 ≤ g.scrWidth) (hH : 16 ≤ g.scrHeight) {v : Varblock}
    (hx : 0 ≤ v.minX ∧ v.minX ≤ v.maxX ∧ v.maxX < g.scrWidth) (hy : 0 ≤ v.minY ∧ v.minY ≤ v.maxY ∧ v.maxY < g.scrHeight) :
    let p := g.padVarblock v
    (0 ≤ p.minX ∧ p.minX ≤ p.maxX ∧ p.maxX < g.scrWidth) ∧ 0 ≤ p.minY ∧ p.minY ≤ p.maxY ∧ p.maxY < g.scrHeight := by
  obtain ⟨x0, x1, x2⟩ := hx
  obtain ⟨y0, y1, y2⟩ := hy
  have hmaxX : ¬ v.maxX < 0 := by omega
  have hmaxY : ¬ v.maxY < 0 := by omega
  obtain ⟨a0, a1, a2⟩ := padAxis_inside hW x0 x1 x2
  obtain ⟨b0, b1, b2⟩ := padAxis_inside hH y0 y1 y2
  have hclamp : ¬ (padAxis g.scrHeight v.minY v.maxY).2 ≥ g.scrHeight := by omega
  simp only [padVarblock, if_neg hmaxX, if_neg hmaxY, if_neg hclamp]
  exact ⟨⟨a0, a1, a2⟩, b0, b1, b2⟩

theorem rawIndex_inside {bytes : ℕ} (hlt : bytes < 2 ^ 31) (hbytes : 4 * (g.scrWidth * g.scrHeight) ≤ bytes)
    {regX regY : ℤ} {x y : ℕ} (hx : 0 ≤ x + regX) (hx' : x + regX < g.scrWidth) (hy : 0 ≤ y + regY)
    (hy' : y + regY < g.scrHeight) : Words.Inside bytes (g.rawIndex regX regY y x) := by
  obtain ⟨px, hpx⟩ := Int.eq_ofNat_of_zero_le hx
  obtain ⟨py, hpy⟩ := Int.eq_ofNat_of_zero_le hy
  rw [hpx] at hx'
  rw [hpy] at hy'
  have hidx := Grid.index_lt (show px < g.scrWidth by omega) (show py < g.scrHeight by omega)
  have hnum : (py : ℤ) * g.scrWidth + px = (py * g.scrWidth + px : ℕ) := by push_cast; rfl
  rw [rawIndex, hpx, hpy, hnum, wrapInt_of_range (by omega) (by omega)]
  constructor <;> omega

theorem accessesInside_of_holdsPixels {bytes : ℕ} (hlt : bytes < 2 ^ 31) (h : HoldsPixels g bytes) :
    AccessesInside g bytes := by
  obtain ⟨hW, hH, hdepth, hbytes⟩ := h
  intro c framebuffer compareBuf bx _ by' _
  obtain ⟨regX, hregX⟩ : ∃ regX, regX = bx * blockSize := ⟨_, rfl⟩
  obtain ⟨regY, hregY⟩ : ∃ regY, regY = by' * blockSize := ⟨_, rfl⟩
  rw [← hregX, ← hregY]
  intro r
  have hscan := mem_accessed_diffBlock (g := g) (.fresh framebuffer) (.fresh compareBuf) regX regY
  have hpixel : ∀ i, (∃ p ∈ g.blockPixels regX regY, i = g.place regX p) → Words.Inside bytes i := by
    rintro i ⟨p, hp, he⟩
    obtain ⟨hx, hy⟩ := mem_blockPixels.mp hp
    obtain ⟨hx0, _, hx⟩ := mem_blockRange.mp hx
    obtain ⟨_, _, hy⟩ := mem_blockRange.mp hy
    have hidx := Grid.index_lt hx hy
    rw [he, place_eq (by omega) hx0 ⟨hx, hy⟩]
    constructor <;> omega
  have hfb : (g.diffBlock (.fresh framebuffer) (.fresh compareBuf) regX regY).framebuffer.Within bytes :=
    fun i hi => hpixel i (((hscan i).1.mp hi).resolve_left List.not_mem_nil)
  have hcmp : (g.diffBlock (.fresh framebuffer) (.fresh compareBuf) regX regY).compareBuf.Within bytes :=
    fun i hi => hpixel i (((hscan i).2.mp hi).resolve_left List.not_mem_nil)
  simp only [r, screenDiff]
  split
  · next hmin =>
    rw [diffBlock_varblock] at hmin
    obtain ⟨q, hq, _⟩ := extend_minX_lt.mp hmin
    obtain ⟨_, x0, x1, x2, y0, y1, y2⟩ := extend_bounds (List.ne_nil_of_mem hq) (fun p hp => differing_bounds hp)
    rw [← diffBlock_varblock] at x0 x1 x2 y0 y1 y2
    obtain ⟨⟨u0, u1, u2⟩, w0, w1, w2⟩ := padVarblock_inside hW hH ⟨x0, x1, x2⟩ ⟨y0, y1, y2⟩
    obtain ⟨hfb', hlines, hcmp'⟩ := encode_accesses c (g.diffBlock (.fresh framebuffer) (.fresh compareBuf) regX regY)
      (g.padVarblock (g.diffBlock (.fresh framebuffer) (.fresh compareBuf) regX regY).varblock)
    rw [hfb', hlines, hcmp']
    refine ⟨hfb, ?_, ?_⟩
    · split
      · intro i hi
        rcases (mem_accessed_getRawScreenData _ _ _ _ _ i).mp hi with hi | ⟨y, hy, x, hx, he⟩
        · exact hcmp i hi
        · rw [List.mem_range] at hx hy
          rw [he]
          exact rawIndex_inside hlt hbytes (by omega) (by omega) (by omega) (by omega)
      · exact hcmp
    · intro l hl
      rw [((mem_scanlines _ _ _ _ _ _ l).mp hl).2]
      exact Nat.mul_le_mul_left _ hdepth
  · exact ⟨hfb, hcmp, fun l hl => absurd hl List.not_mem_nil⟩

/-! ## When one of them is not -/

theorem padAxis_single {size x : ℕ} (hx : x < size) :
    let r := padAxis size x x
    r.2 = r.1 + 8 ∧ r.2 < size ∧ (x : ℤ) - 8 ≤ r.1 ∧ r.1 ≤ x := by
  intro r
  simp only [r, padAxis]
  split_ifs <;> simp only <;> omega

theorem padAxis_edge {size x : ℕ} (h : size ≤ x + 8) : (padAxis size x x).1 = x - 8 := by
  have hnot : ¬ (x : ℤ) < size - 8 := by omega
  simp only [padAxis, sub_self, if_neg hnot]
  simp

/-- A rectangle that starts left of or above the screen has its first pixel before the
buffer. -/
theorem rawIndex_neg {regX regY : ℤ} (hx : -8 ≤ regX ∧ regX ≤ 0) (hy : -8 ≤ regY ∧ regY ≤ 0) (hneg : regX < 0 ∨ regY < 0) :
    g.rawIndex regX regY 0 0 < 0 := by
  have hW := g.width_pos
  have hWle := g.width_le
  have hlo : -8 * (g.scrWidth : ℤ) ≤ regY * g.scrWidth := Int.mul_le_mul_of_nonneg_right hy.1 (by omega)
  have hhi : regY * g.scrWidth ≤ 0 * (g.scrWidth : ℤ) := Int.mul_le_mul_of_nonneg_right hy.2 (by omega)
  have hstrict : regY < 0 → regY * g.scrWidth ≤ -1 * (g.scrWidth : ℤ) :=
    fun h => Int.mul_le_mul_of_nonneg_right (by omega) (by omega)
  rw [rawIndex, Nat.cast_zero, zero_add, zero_add, wrapInt_of_range (by omega) (by omega)]
  rcases hneg with hneg | hneg
  · omega
  · have := hstrict hneg
    omega

theorem padVarblock_single {q : ℕ × ℕ} (hx : q.1 < g.scrWidth) (hy : q.2 < g.scrHeight) :
    g.padVarblock ⟨q.1, q.2, q.1, q.2⟩ =
      ⟨(padAxis g.scrWidth q.1 q.1).1, (padAxis g.scrHeight q.2 q.2).1, (padAxis g.scrWidth q.1 q.1).1 + 8,
        (padAxis g.scrHeight q.2 q.2).1 + 8⟩ := by
  obtain ⟨hx8, _⟩ := padAxis_single hx
  obtain ⟨hy8, hylt, _⟩ := padAxis_single hy
  have hnx : ¬ (q.1 : ℤ) < 0 := by omega
  have hny : ¬ (q.2 : ℤ) < 0 := by omega
  have hclamp : ¬ (padAxis g.scrHeight q.2 q.2).1 + 8 ≥ g.scrHeight := by omega
  simp only [padVarblock, if_neg hnx, if_neg hny, hx8, hy8, if_neg hclamp]

/-- A change of one pixel in the first block, as noise. Its rectangle of nine by nine
pixels is handed to libjpeg and then copied. -/
theorem inside_of_onePixel {bytes : ℕ} (h : AccessesInside g bytes) {q : ℕ × ℕ} (hq : q ∈ g.blockPixels 0 0) :
    9 * 4 ≤ 9 * g.scrDepth ∧
      Words.Inside bytes (g.rawIndex (padAxis g.scrWidth q.1 q.1).1 (padAxis g.scrHeight q.2 q.2).1 0 0) := by
  obtain ⟨hx, hy⟩ := mem_blockPixels.mp hq
  obtain ⟨_, hx128, hx⟩ := mem_blockRange.mp hx
  obtain ⟨_, hy128, hy⟩ := mem_blockRange.mp hy
  unfold blockSize at hx128 hy128
  have hbx : 0 < blockCount g.scrWidth := lt_of_le_of_lt (Nat.zero_le _) (div_lt_blockCount g.width_pos)
  have hby : 0 < blockCount g.scrHeight := lt_of_le_of_lt (Nat.zero_le _) (div_lt_blockCount g.height_pos)
  obtain ⟨_, hcmp, hlines⟩ := h noiseCodec (onePixel (g.place 0 q)) (fun _ => 0) 0 hbx 0 hby
  have hv := onePixel_varblock hq (by omega) (by omega)
  have hmin : (⟨q.1, q.2, q.1, q.2⟩ : Varblock).minX < 9999 := by
    simp only
    omega
  rw [Nat.zero_mul, screenDiff, hv, if_pos hmin, padVarblock_single hx hy] at hcmp hlines
  obtain ⟨_, hlines', hcmp'⟩ := encode_accesses noiseCodec
    (g.diffBlock (.fresh (onePixel (g.place 0 q))) (.fresh (fun _ => 0)) 0 0)
    ⟨(padAxis g.scrWidth q.1 q.1).1, (padAxis g.scrHeight q.2 q.2).1, (padAxis g.scrWidth q.1 q.1).1 + 8,
      (padAxis g.scrHeight q.2 q.2).1 + 8⟩
  have hside : ∀ z : ℤ, (z + 8 - z + 1).toNat = 9 := fun z => by omega
  simp only [hside] at hlines' hcmp'
  constructor
  · rw [hlines'] at hlines
    exact hlines _ ((mem_scanlines _ _ _ _ _ _ _).mpr ⟨by omega, rfl⟩)
  · have hlong : (g.compressRgbToJpeg noiseCodec (g.diffBlock (.fresh (onePixel (g.place 0 q))) (.fresh (fun _ => 0)) 0 0).framebuffer
        (padAxis g.scrWidth q.1 q.1).1 (padAxis g.scrHeight q.2 q.2).1 9 9).1.length > 9 * 9 * 4 := by
      simp only [compressRgbToJpeg, noiseCodec, List.length_append, List.length_replicate]
      omega
    rw [hcmp', if_pos hlong] at hcmp
    apply hcmp
    rw [mem_accessed_getRawScreenData]
    exact Or.inr ⟨0, List.mem_range.mpr (by omega), 0, List.mem_range.mpr (by omega), rfl⟩

/-- The last pixel of the screen is read, at its number if that is an `int`. -/
theorem size_of_accessesInside {bytes : ℕ} (hlt : bytes < 2 ^ 31) (h : AccessesInside g bytes) :
    4 * (g.scrWidth * g.scrHeight) ≤ bytes := by
  have hW := g.width_pos
  have hH := g.height_pos
  obtain ⟨hfb, _, _⟩ := h noiseCodec (fun _ => 0) (fun _ => 0) ((g.scrWidth - 1) / blockSize) (div_lt_blockCount (by omega))
    ((g.scrHeight - 1) / blockSize) (div_lt_blockCount (by omega))
  have hlast : (g.scrWidth - 1, g.scrHeight - 1) ∈
      g.blockPixels ((g.scrWidth - 1) / blockSize * blockSize) ((g.scrHeight - 1) / blockSize * blockSize) := by
    rw [mem_blockPixels, mem_blockRange, mem_blockRange]
    unfold blockSize
    simp only
    omega
  have hread : g.place ((g.scrWidth - 1) / blockSize * blockSize) (g.scrWidth - 1, g.scrHeight - 1) ∈
      (g.screenDiff noiseCodec (.fresh (fun _ => 0)) (.fresh (fun _ => 0)) ((g.scrWidth - 1) / blockSize * blockSize)
        ((g.scrHeight - 1) / blockSize * blockSize)).framebuffer.accessed := by
    have hscan := ((g.mem_accessed_diffBlock (.fresh (fun _ => 0)) (.fresh (fun _ => 0)) _ _ _).1.mpr (Or.inr ⟨_, hlast, rfl⟩))
    simp only [screenDiff]
    split
    · rw [(encode_accesses _ _ _).1]
      exact hscan
    · exact hscan
  obtain ⟨hge, hle⟩ := hfb _ hread
  have hmod := g.place_emod ((g.scrWidth - 1) / blockSize * blockSize) (g.scrWidth - 1, g.scrHeight - 1)
  have hnum : (g.scrHeight - 1) * g.scrWidth + (g.scrWidth - 1) + 1 = g.scrWidth * g.scrHeight := by
    obtain ⟨k, hk⟩ : ∃ k, g.scrHeight = k + 1 := ⟨g.scrHeight - 1, by omega⟩
    rw [hk, Nat.add_sub_cancel, Nat.mul_succ, Nat.mul_comm]
    omega
  have harea := g.area_lt
  simp only at hmod
  omega

theorem holdsPixels_of_accessesInside {bytes : ℕ} (hlt : bytes < 2 ^ 31) (h : AccessesInside g bytes) :
    HoldsPixels g bytes := by
  have hW := g.width_pos
  have hH := g.height_pos
  have hfirst : ∀ x y, x < 16 → y < 16 → x < g.scrWidth → y < g.scrHeight → (x, y) ∈ g.blockPixels 0 0 := by
    intro x y hx16 hy16 hx hy
    rw [mem_blockPixels, mem_blockRange, mem_blockRange]
    unfold blockSize
    omega
  have hdepth : 4 ≤ g.scrDepth := by
    have := (inside_of_onePixel h (hfirst 0 0 (by omega) (by omega) hW hH)).1
    omega
  obtain ⟨_, _, hx8, hx0⟩ := padAxis_single hW
  obtain ⟨_, _, hy8, hy0⟩ := padAxis_single hH
  -- on a narrow screen the rectangle of a pixel near the right edge starts left of it
  have hwidth : 16 ≤ g.scrWidth := by
    by_contra hsmall
    have hraw := (inside_of_onePixel h (hfirst (g.scrWidth - 8) 0 (by omega) (by omega) (by omega) hH)).2.1
    simp only [padAxis_edge (show g.scrWidth ≤ g.scrWidth - 8 + 8 by omega)] at hraw
    have hneg := @rawIndex_neg g (((g.scrWidth - 8 : ℕ) : ℤ) - 8) (padAxis g.scrHeight (0 : ℕ) (0 : ℕ)).1
      (by omega) (by omega) (Or.inl (by omega))
    omega
  have hheight : 16 ≤ g.scrHeight := by
    by_contra hsmall
    have hraw := (inside_of_onePixel h (hfirst 0 (g.scrHeight - 8) (by omega) (by omega) hW (by omega))).2.1
    simp only [padAxis_edge (show g.scrHeight ≤ g.scrHeight - 8 + 8 by omega)] at hraw
    have hneg := @rawIndex_neg g (padAxis g.scrWidth (0 : ℕ) (0 : ℕ)).1 (((g.scrHeight - 8 : ℕ) : ℤ) - 8)
      (by omega) (by omega) (Or.inr (by omega))
    omega
  exact ⟨hwidth, hheight, hdepth, size_of_accessesInside hlt h⟩

end Capture

/-! ## What `GrabberInit` reports -/

/-- Where `GrabberInit` succeeds, no call of `screen_diff` leaves its buffers. -/
def GrabSafe (s : XcbScreen) : Prop :=
  ∀ g, grabberInit s = some g → g.AccessesInside (bufferSize g.scrWidth g.scrHeight g.scrDepth).toNat

/-- The fields of a successful `GrabberInit`. -/
theorem grabberInit_eq_some {s : XcbScreen} {g : Capture} (h : grabberInit s = some g) :
    g.scrWidth = s.widthInPixels.toNat ∧ g.scrHeight = s.heightInPixels.toNat ∧ g.scrDepth = pixelDepth s.rootDepth := by
  unfold grabberInit at h
  split at h
  · cases h
    exact ⟨rfl, rfl, rfl⟩
  · cases h

theorem grabberInit_isSome {s : XcbScreen}
    (hsize : 0 < bufferSize s.widthInPixels.toNat s.heightInPixels.toNat (pixelDepth s.rootDepth)) :
    ∃ g, grabberInit s = some g := by
  unfold grabberInit
  rw [dif_pos hsize]
  exact ⟨_, rfl⟩

theorem pixelDepth_ge (d : UInt8) : 4 ≤ pixelDepth d ↔ 24 ≤ d.toNat := by
  unfold pixelDepth
  split <;> omega

theorem grabSafe_iff_of_init {s : XcbScreen} {g : Capture} (hg : grabberInit s = some g) :
    GrabSafe s ↔ g.HoldsPixels (bufferSize g.scrWidth g.scrHeight g.scrDepth).toNat := by
  have hlt : (bufferSize g.scrWidth g.scrHeight g.scrDepth).toNat < 2 ^ 31 := by
    have hbounds := wrapInt_bounds (wrapInt (g.scrWidth * g.scrHeight) * g.scrDepth)
    rw [bufferSize]
    omega
  constructor
  · exact fun h => Capture.holdsPixels_of_accessesInside hlt (h g hg)
  · intro h g' hg'
    rw [hg] at hg'
    cases hg'
    exact Capture.accessesInside_of_holdsPixels hlt h

/-- `screen_diff` is safe exactly on the screens for which `GrabberInit` fails, and on those
of at least 16 × 16 pixels and depth 24 whose buffer of `int` size holds four bytes a pixel. -/
theorem grabSafe_iff (s : XcbScreen) :
    GrabSafe s ↔
      bufferSize s.widthInPixels.toNat s.heightInPixels.toNat (pixelDepth s.rootDepth) ≤ 0 ∨
        (16 ≤ s.widthInPixels.toNat ∧ 16 ≤ s.heightInPixels.toNat ∧ 24 ≤ s.rootDepth.toNat ∧
          4 * (s.widthInPixels.toNat * s.heightInPixels.toNat) ≤
            (bufferSize s.widthInPixels.toNat s.heightInPixels.toNat (pixelDepth s.rootDepth)).toNat) := by
  by_cases hsize : 0 < bufferSize s.widthInPixels.toNat s.heightInPixels.toNat (pixelDepth s.rootDepth)
  · obtain ⟨g, hg⟩ := grabberInit_isSome hsize
    obtain ⟨hw, hh, hd⟩ := grabberInit_eq_some hg
    rw [grabSafe_iff_of_init hg, ← pixelDepth_ge, ← hw, ← hh, ← hd]
    rw [← hw, ← hh, ← hd] at hsize
    constructor
    · exact Or.inr
    · rintro (hle | h)
      · omega
      · exact h
  · apply iff_of_true
    · intro g hg
      unfold grabberInit at hg
      rw [dif_neg hsize] at hg
      cases hg
    · exact Or.inl (by omega)

/-- On a 16-bit X screen every buffer is half as large as its pixels. -/
theorem sixteen_bit_screen_unsafe : ¬ GrabSafe ⟨1024, 768, 16⟩ := by
  intro h
  have hval : bufferSize 1024 768 2 = 1572864 := by
    rw [bufferSize_eq]
    exact wrapInt_of_range (by omega) (by omega)
  have hsize : 0 < bufferSize (1024 : UInt16).toNat (768 : UInt16).toNat (pixelDepth 16) := by
    have heq : bufferSize (1024 : UInt16).toNat (768 : UInt16).toNat (pixelDepth 16) = bufferSize 1024 768 2 := rfl
    omega
  obtain ⟨g, hg⟩ := @grabberInit_isSome ⟨1024, 768, 16⟩ hsize
  obtain ⟨_, _, hdepth, _⟩ := (grabSafe_iff_of_init hg).mp h
  have htwo : g.scrDepth = 2 := (grabberInit_eq_some hg).2.2
  omega

end LilitunRemote

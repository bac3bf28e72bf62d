import LilitunRemote.Screen.Encoding
import LilitunRemote.Foundation.Mirror
import LilitunRemote.Foundation.ChangeScan
import Mathlib.Data.List.Nodup
import Mathlib.Data.List.Range
import Mathlib.Logic.Function.Basic
import Mathlib.Order.Lattice

/-! # `screen_diff` and `update_screen`

The projector compares each grabbed screen with `compare_buf` in blocks of
128 × 128 pixels. A changed block is committed to `compare_buf`, its changed
rectangle is padded to at least nine pixels a side, and the rectangle is
encoded.
-/
namespace LilitunRemote
open Memory

def blockSize : ℕ := 128

/-- Blocks needed to cover `n` pixels, as `init_fb` computes them. -/
def blockCount (n : ℕ) : ℕ := n / blockSize + if n > n / blockSize * blockSize then 1 else 0

structure Varblock where
  minX : ℤ
  minY : ℤ
  maxX : ℤ
  maxY : ℤ

structure Scan where
  compareBuf : Frame
  varblock : Varblock
  pixChanged : Bool

section Diff
variable (g : Geometry) (fb : Frame)

def diffPixel (y : ℕ) (s : Scan) (x : ℕ) : Scan :=
  let i := y * g.scrWidth + x
  if fb i ≠ s.compareBuf i then
    { compareBuf := Function.update s.compareBuf i (fb i)
      varblock := { s.varblock with
        minX := if (x : ℤ) < s.varblock.minX then x else s.varblock.minX
        maxX := if (x : ℤ) > s.varblock.maxX then x else s.varblock.maxX }
      pixChanged := true }
  else s

def diffRow (xs : List ℕ) (s : Frame × Varblock) (y : ℕ) : Frame × Varblock :=
  let r := xs.foldl (diffPixel g fb y) ⟨s.1, s.2, false⟩
  if r.pixChanged then
    (r.compareBuf, { r.varblock with
      minY := if (y : ℤ) < r.varblock.minY then y else r.varblock.minY
      maxY := if (y : ℤ) > r.varblock.maxY then y else r.varblock.maxY })
  else (r.compareBuf, r.varblock)

def blockRange (reg screen : ℕ) : List ℕ :=
  List.range' reg (if reg + blockSize > screen then screen - reg else blockSize)

def diffBlock (compareBuf : Frame) (regX regY : ℕ) : Frame × Varblock :=
  (blockRange regY g.scrHeight).foldl (diffRow g fb (blockRange regX g.scrWidth)) (compareBuf, ⟨9999, 9999, -1, -1⟩)

end Diff

def padVarblock (g : Geometry) (v : Varblock) : Varblock :=
  let maxX := if v.maxX < 0 then v.minX else v.maxX
  let maxY := if v.maxY < 0 then v.minY else v.maxY
  let needX := 8 - (maxX - v.minX)
  let needY := 8 - (maxY - v.minY)
  let minX' := if maxX - v.minX < 8 ∧ ¬ maxX < g.scrWidth - 8 then v.minX - needX else v.minX
  let maxX' := if maxX - v.minX < 8 ∧ maxX < g.scrWidth - 8 then maxX + needX else maxX
  let minY' := if maxY - v.minY < 8 ∧ ¬ maxY < g.scrHeight - 8 then v.minY - needY else v.minY
  let maxY' := if maxY - v.minY < 8 ∧ maxY < g.scrHeight - 8 then maxY + needY else maxY
  ⟨minX', minY', maxX', if maxY' ≥ g.scrHeight then g.scrHeight - 1 else maxY'⟩

/-- `screen_diff` on one block: the committed `compare_buf` and the region, if any. -/
def screenDiff (c : Codec) (g : Geometry) (fb compareBuf : Frame) (regX regY : ℕ) : Frame × Option RegionData :=
  let (compareBuf, v) := diffBlock g fb compareBuf regX regY
  if v.minX < 9999 then
    let p := padVarblock g v
    let rectWidth := p.maxX - p.minX + 1
    let rectHeight := p.maxY - p.minY + 1
    let (pixfmt, data) := encodeRect c g fb compareBuf p.minX.toNat p.minY.toNat rectWidth.toNat rectHeight.toNat
    (compareBuf, some ⟨wordOfInt p.minX, wordOfInt p.minY, wordOfInt rectWidth, wordOfInt rectHeight, pixfmt.code,
      UInt32.ofNat data.length, data⟩)
  else (compareBuf, none)

def blockOrigins (g : Geometry) : List (ℕ × ℕ) :=
  (List.range (blockCount g.scrHeight)).flatMap (fun y =>
    (List.range (blockCount g.scrWidth)).map (fun x => (x * blockSize, y * blockSize)))

def updateBlock (c : Codec) (g : Geometry) (fb : Frame) (s : Frame × List RegionData) (o : ℕ × ℕ) :
    Frame × List RegionData :=
  let (compareBuf, region) := screenDiff c g fb s.1 o.1 o.2
  (compareBuf, s.2 ++ region.toList)

/-- The comparing half of `update_screen`: an unallocated `compare_buf` is
allocated as zeros, and the regions are collected in transmission order. -/
def updateScreen (c : Codec) (g : Geometry) (compareBuf : Option Frame) (fb : Frame) : Frame × List RegionData :=
  (blockOrigins g).foldl (updateBlock c g fb) (compareBuf.getD (fun _ => 0), [])

/-! ## What the scan of a block records -/

section Scan
variable (g : Geometry) (fb : Frame)

def changedRow (compareBuf : Frame) (xs : List ℕ) (y : ℕ) : List ℕ :=
  xs.filter (fun x => fb (y * g.scrWidth + x) ≠ compareBuf (y * g.scrWidth + x))

def changed (compareBuf : Frame) (xs ys : List ℕ) : List (ℕ × ℕ) :=
  ys.flatMap (fun y => (changedRow g fb compareBuf xs y).map (fun x => (x, y)))

def Varblock.extend (v : Varblock) (ps : List (ℕ × ℕ)) : Varblock where
  minX := ps.foldl (fun m p => min m (p.1 : ℤ)) v.minX
  minY := ps.foldl (fun m p => min m (p.2 : ℤ)) v.minY
  maxX := ps.foldl (fun m p => max m (p.1 : ℤ)) v.maxX
  maxY := ps.foldl (fun m p => max m (p.2 : ℤ)) v.maxY

theorem Varblock.extend_append (v : Varblock) (ps qs : List (ℕ × ℕ)) :
    v.extend (ps ++ qs) = (v.extend ps).extend qs := by
  simp [Varblock.extend]

def countColumn (s : Varblock × Bool) (x : ℕ) : Varblock × Bool :=
  ({ s.1 with
      minX := if (x : ℤ) < s.1.minX then x else s.1.minX
      maxX := if (x : ℤ) > s.1.maxX then x else s.1.maxX }, true)

def closeRow (y : ℕ) (s : Varblock × Bool) : Varblock :=
  if s.2 then
    { s.1 with
      minY := if (y : ℤ) < s.1.minY then y else s.1.minY
      maxY := if (y : ℤ) > s.1.maxY then y else s.1.maxY }
  else s.1

def commitRow (compareBuf : Frame) (xs : List ℕ) (y : ℕ) : Frame :=
  fun i => if ∃ x ∈ xs, i = y * g.scrWidth + x then fb i else compareBuf i

variable {g fb}

theorem commitRow_other {compareBuf : Frame} {xs : List ℕ} {y i : ℕ} (h : ∀ x ∈ xs, i ≠ y * g.scrWidth + x) :
    commitRow g fb compareBuf xs y i = compareBuf i :=
  if_neg (fun ⟨x, hx, he⟩ => h x hx he)

theorem patch_row (compareBuf : Frame) (xs : List ℕ) (y : ℕ) :
    Mirror.patch (ChangeScan.cells (fun x => y * g.scrWidth + x) xs) fb compareBuf = commitRow g fb compareBuf xs y := by
  funext i
  by_cases hi : i ∈ ChangeScan.cells (fun x => y * g.scrWidth + x) xs
  · exact (Mirror.patch_apply_of_mem hi).trans (if_pos hi).symm
  · exact (Mirror.patch_apply_of_notMem hi).trans (if_neg hi).symm

/-- A pixel of a row is one visit of a scan. -/
theorem diffPixel_visit (y : ℕ) (s : Scan) (x : ℕ) :
    ChangeScan.visit (fun x => y * g.scrWidth + x) fb countColumn (s.compareBuf, s.varblock, s.pixChanged) x =
      ((diffPixel g fb y s x).compareBuf, (diffPixel g fb y s x).varblock, (diffPixel g fb y s x).pixChanged) := by
  simp only [ChangeScan.visit, diffPixel]
  split <;> rfl

theorem foldl_diffPixel (y : ℕ) (xs : List ℕ) (s : Scan) (hxs : xs.Nodup) :
    ((xs.foldl (diffPixel g fb y) s).compareBuf, (xs.foldl (diffPixel g fb y) s).varblock,
        (xs.foldl (diffPixel g fb y) s).pixChanged) =
      (commitRow g fb s.compareBuf xs y, (changedRow g fb s.compareBuf xs y).foldl countColumn (s.varblock, s.pixChanged)) := by
  have hnd : (xs.map (fun x => y * g.scrWidth + x)).Nodup := hxs.map (fun _ _ h => Nat.add_left_cancel h)
  have hscan := ChangeScan.foldl_visit fb countColumn hnd (s.compareBuf, s.varblock, s.pixChanged)
  rw [patch_row] at hscan
  have hhom := @List.foldl_hom _ _ _ (fun s : Scan => (s.compareBuf, s.varblock, s.pixChanged)) (diffPixel g fb y)
    (ChangeScan.visit (fun x => y * g.scrWidth + x) fb countColumn) xs s (diffPixel_visit y)
  exact hhom.symm.trans hscan

/-- Folding with a constant is a single comparison, if there is anything to fold. -/
theorem foldl_const_min {α : Type*} (l : List α) (m c : ℤ) :
    l.foldl (fun m _ => min m c) m = if l = [] then m else min m c := by
  induction l generalizing m with
  | nil => rfl
  | cons a l ih =>
    rw [List.foldl_cons, ih, if_neg (List.cons_ne_nil a l)]
    split <;> omega

theorem foldl_const_max {α : Type*} (l : List α) (m c : ℤ) :
    l.foldl (fun m _ => max m c) m = if l = [] then m else max m c := by
  induction l generalizing m with
  | nil => rfl
  | cons a l ih =>
    rw [List.foldl_cons, ih, if_neg (List.cons_ne_nil a l)]
    split <;> omega

theorem foldl_countColumn (ds : List ℕ) (v : Varblock) (b : Bool) :
    ds.foldl countColumn (v, b) =
      ({ v with
          minX := ds.foldl (fun m (x : ℕ) => min m (x : ℤ)) v.minX
          maxX := ds.foldl (fun m (x : ℕ) => max m (x : ℤ)) v.maxX }, b || !ds.isEmpty) := by
  induction ds generalizing v b with
  | nil => simp
  | cons x ds ih =>
    have hmin : (if (x : ℤ) < v.minX then (x : ℤ) else v.minX) = min v.minX x := by split <;> omega
    have hmax : (if (x : ℤ) > v.maxX then (x : ℤ) else v.maxX) = max v.maxX x := by split <;> omega
    rw [List.foldl_cons, countColumn, ih, hmin, hmax]
    simp

/-- The changed columns of a row extend the varblock by the pixels of that row. -/
theorem closeRow_countColumn (y : ℕ) (ds : List ℕ) (v : Varblock) :
    closeRow y (ds.foldl countColumn (v, false)) = v.extend (ds.map (fun x => (x, y))) := by
  rw [foldl_countColumn]
  simp only [closeRow, Varblock.extend, List.foldl_map, foldl_const_min, foldl_const_max, Bool.false_or]
  cases ds with
  | nil => simp
  | cons x ds =>
    have hmin : (if (y : ℤ) < v.minY then (y : ℤ) else v.minY) = min v.minY y := by split <;> omega
    have hmax : (if (y : ℤ) > v.maxY then (y : ℤ) else v.maxY) = max v.maxY y := by split <;> omega
    simp [hmin, hmax]

theorem diffRow_eq (xs : List ℕ) (hxs : xs.Nodup) (s : Frame × Varblock) (y : ℕ) :
    diffRow g fb xs s y =
      (commitRow g fb s.1 xs y, s.2.extend ((changedRow g fb s.1 xs y).map (fun x => (x, y)))) := by
  have hrow := @foldl_diffPixel g fb y xs ⟨s.1, s.2, false⟩ hxs
  have hclose : diffRow g fb xs s y =
      ((xs.foldl (diffPixel g fb y) ⟨s.1, s.2, false⟩).compareBuf,
        closeRow y ((xs.foldl (diffPixel g fb y) ⟨s.1, s.2, false⟩).varblock,
          (xs.foldl (diffPixel g fb y) ⟨s.1, s.2, false⟩).pixChanged)) := by
    simp only [diffRow, closeRow]
    split <;> rfl
  rw [hclose, (Prod.mk.inj hrow).1, (Prod.mk.inj hrow).2, closeRow_countColumn]

theorem changed_commitRow {compareBuf : Frame} {xs ys : List ℕ} {y : ℕ} (hx : ∀ x ∈ xs, x < g.scrWidth)
    (hy : y ∉ ys) : changed g fb (commitRow g fb compareBuf xs y) xs ys = changed g fb compareBuf xs ys := by
  apply List.flatMap_congr
  intro z hz
  have hrow : changedRow g fb (commitRow g fb compareBuf xs y) xs z = changedRow g fb compareBuf xs z := by
    apply List.filter_congr
    intro x hxs
    rw [commitRow_other]
    intro x' hx' he
    have hzy := (Grid.index_inj (hx x hxs) (hx x' hx') he).1
    exact hy (hzy ▸ hz)
  rw [hrow]

theorem foldl_diffRow (xs ys : List ℕ) (hxs : xs.Nodup) (hx : ∀ x ∈ xs, x < g.scrWidth) (hys : ys.Nodup)
    (s : Frame × Varblock) :
    ys.foldl (diffRow g fb xs) s =
      (fun i => if ∃ y ∈ ys, ∃ x ∈ xs, i = y * g.scrWidth + x then fb i else s.1 i,
        s.2.extend (changed g fb s.1 xs ys)) := by
  induction ys generalizing s with
  | nil => simp [changed, Varblock.extend]
  | cons y ys ih =>
    obtain ⟨hy, hys⟩ := List.nodup_cons.mp hys
    rw [List.foldl_cons, ih hys, diffRow_eq xs hxs, changed_commitRow hx hy, ← Varblock.extend_append]
    refine Prod.ext ?_ rfl
    funext i
    by_cases hrest : ∃ y' ∈ ys, ∃ x ∈ xs, i = y' * g.scrWidth + x
    · simp [hrest]
    · simp [hrest, commitRow]

end Scan

/-! ## The committed pixels -/

theorem mem_blockRange {reg screen x : ℕ} : x ∈ blockRange reg screen ↔ reg ≤ x ∧ x < reg + blockSize ∧ x < screen := by
  unfold blockRange blockSize
  rw [List.mem_range'_1]
  split <;> omega

theorem blockRange_nodup (reg screen : ℕ) : (blockRange reg screen).Nodup := List.nodup_range'

def blockCells (g : Geometry) (o : ℕ × ℕ) : Set ℕ :=
  {i | ∃ y ∈ blockRange o.2 g.scrHeight, ∃ x ∈ blockRange o.1 g.scrWidth, i = y * g.scrWidth + x}

theorem diffBlock_eq (g : Geometry) (fb compareBuf : Frame) (o : ℕ × ℕ) :
    diffBlock g fb compareBuf o.1 o.2 =
      (Mirror.patch (blockCells g o) fb compareBuf,
        (⟨9999, 9999, -1, -1⟩ : Varblock).extend
          (changed g fb compareBuf (blockRange o.1 g.scrWidth) (blockRange o.2 g.scrHeight))) := by
  rw [diffBlock, foldl_diffRow _ _ (blockRange_nodup _ _) (fun x hx => (mem_blockRange.mp hx).2.2) (blockRange_nodup _ _)]
  refine Prod.ext (funext fun i => ?_) rfl
  by_cases hi : i ∈ blockCells g o
  · exact (if_pos hi).trans (Mirror.patch_apply_of_mem hi).symm
  · exact (if_neg hi).trans (Mirror.patch_apply_of_notMem hi).symm

theorem screenDiff_fst (c : Codec) (g : Geometry) (fb compareBuf : Frame) (o : ℕ × ℕ) :
    (screenDiff c g fb compareBuf o.1 o.2).1 = Mirror.patch (blockCells g o) fb compareBuf := by
  simp only [screenDiff, diffBlock_eq]
  split <;> rfl

theorem foldl_updateBlock_fst (c : Codec) (g : Geometry) (fb : Frame) (os : List (ℕ × ℕ)) (s : Frame × List RegionData) :
    (os.foldl (updateBlock c g fb) s).1 = Mirror.commit fb (os.map (blockCells g)) s.1 := by
  induction os generalizing s with
  | nil => rfl
  | cons o os ih =>
    rw [List.foldl_cons, ih, List.map_cons]
    exact congrArg (Mirror.commit fb (os.map (blockCells g))) (screenDiff_fst c g fb s.1 o)

theorem div_lt_blockCount {n x : ℕ} (h : x < n) : x / blockSize < blockCount n := by
  unfold blockCount blockSize
  split <;> omega

theorem exists_block {g : Geometry} {i : ℕ} (hi : i < g.scrWidth * g.scrHeight) :
    ∃ o ∈ blockOrigins g, i ∈ blockCells g o := by
  obtain ⟨y, hy, x, hx, rfl⟩ := Grid.exists_coords hi
  refine ⟨(x / blockSize * blockSize, y / blockSize * blockSize), ?_, y, ?_, x, ?_, rfl⟩
  · exact List.mem_flatMap.mpr ⟨y / blockSize, List.mem_range.mpr (div_lt_blockCount hy),
      List.mem_map.mpr ⟨x / blockSize, List.mem_range.mpr (div_lt_blockCount hx), rfl⟩⟩
  · rw [mem_blockRange]
    unfold blockSize
    omega
  · rw [mem_blockRange]
    unfold blockSize
    omega

/-- After an update `compare_buf` is the grabbed screen, whatever it was before. -/
theorem updateScreen_fst (c : Codec) (g : Geometry) (compareBuf : Option Frame) (fb : Frame) {i : ℕ}
    (hi : i < g.scrWidth * g.scrHeight) : (updateScreen c g compareBuf fb).1 i = fb i := by
  obtain ⟨o, ho, hio⟩ := exists_block hi
  rw [updateScreen, foldl_updateBlock_fst]
  exact Mirror.commit_eq_of_cover ⟨blockCells g o, List.mem_map.mpr ⟨o, ho, rfl⟩, hio⟩

/-! ## The rectangle of a changed block -/

theorem foldl_min_spec {α : Type*} (f : α → ℤ) (ps : List α) (m : ℤ) :
    (∀ p ∈ ps, ps.foldl (fun m p => min m (f p)) m ≤ f p) ∧ ps.foldl (fun m p => min m (f p)) m ≤ m ∧
      (ps.foldl (fun m p => min m (f p)) m = m ∨ ∃ p ∈ ps, ps.foldl (fun m p => min m (f p)) m = f p) := by
  induction ps generalizing m with
  | nil => simp
  | cons a ps ih =>
    obtain ⟨hall, hle, hex⟩ := ih (min m (f a))
    rw [List.foldl_cons]
    refine ⟨?_, by omega, ?_⟩
    · intro p hp
      rcases List.mem_cons.mp hp with rfl | hp
      · omega
      · exact hall p hp
    · rcases hex with hex | ⟨p, hp, hex⟩
      · rcases le_total m (f a) with h | h
        · exact Or.inl (by omega)
        · exact Or.inr ⟨a, List.mem_cons_self, by omega⟩
      · exact Or.inr ⟨p, List.mem_cons_of_mem _ hp, hex⟩

theorem foldl_max_spec {α : Type*} (f : α → ℤ) (ps : List α) (m : ℤ) :
    (∀ p ∈ ps, f p ≤ ps.foldl (fun m p => max m (f p)) m) ∧ m ≤ ps.foldl (fun m p => max m (f p)) m ∧
      (ps.foldl (fun m p => max m (f p)) m = m ∨ ∃ p ∈ ps, ps.foldl (fun m p => max m (f p)) m = f p) := by
  induction ps generalizing m with
  | nil => simp
  | cons a ps ih =>
    obtain ⟨hall, hle, hex⟩ := ih (max m (f a))
    rw [List.foldl_cons]
    refine ⟨?_, by omega, ?_⟩
    · intro p hp
      rcases List.mem_cons.mp hp with rfl | hp
      · omega
      · exact hall p hp
    · rcases hex with hex | ⟨p, hp, hex⟩
      · rcases le_total (f a) m with h | h
        · exact Or.inl (by omega)
        · exact Or.inr ⟨a, List.mem_cons_self, by omega⟩
      · exact Or.inr ⟨p, List.mem_cons_of_mem _ hp, hex⟩

theorem mem_changed {g : Geometry} {fb compareBuf : Frame} {xs ys : List ℕ} {p : ℕ × ℕ} :
    p ∈ changed g fb compareBuf xs ys ↔
      p.1 ∈ xs ∧ p.2 ∈ ys ∧ fb (p.2 * g.scrWidth + p.1) ≠ compareBuf (p.2 * g.scrWidth + p.1) := by
  obtain ⟨x, y⟩ := p
  simp only [changed, changedRow, List.mem_flatMap, List.mem_map, List.mem_filter, Prod.mk.injEq, decide_eq_true_eq]
  constructor
  · rintro ⟨y', hy', x', ⟨hx', hne⟩, rfl, rfl⟩
    exact ⟨hx', hy', hne⟩
  · rintro ⟨hx, hy, hne⟩
    exact ⟨y, hy, x, ⟨hx, hne⟩, rfl, rfl⟩

/-- The varblock of a scan bounds the pixels it counted. -/
theorem extend_covers (v : Varblock) {ps : List (ℕ × ℕ)} {p : ℕ × ℕ} (hp : p ∈ ps) :
    (v.extend ps).minX ≤ p.1 ∧ (p.1 : ℤ) ≤ (v.extend ps).maxX ∧ (v.extend ps).minY ≤ p.2 ∧
      (p.2 : ℤ) ≤ (v.extend ps).maxY :=
  ⟨(foldl_min_spec (fun p : ℕ × ℕ => (p.1 : ℤ)) ps v.minX).1 p hp,
    (foldl_max_spec (fun p : ℕ × ℕ => (p.1 : ℤ)) ps v.maxX).1 p hp,
    (foldl_min_spec (fun p : ℕ × ℕ => (p.2 : ℤ)) ps v.minY).1 p hp,
    (foldl_max_spec (fun p : ℕ × ℕ => (p.2 : ℤ)) ps v.maxY).1 p hp⟩

/-- `min_x` falls below its sentinel only for a pixel left of it. -/
theorem extend_minX_lt {ps : List (ℕ × ℕ)} :
    ((⟨9999, 9999, -1, -1⟩ : Varblock).extend ps).minX < 9999 ↔ ∃ p ∈ ps, p.1 < 9999 := by
  obtain ⟨hall, _, hex⟩ := foldl_min_spec (fun p : ℕ × ℕ => (p.1 : ℤ)) ps 9999
  simp only [Varblock.extend]
  constructor
  · intro hlt
    rcases hex with hex | ⟨p, hp, hex⟩
    · omega
    · exact ⟨p, hp, by omega⟩
  · rintro ⟨p, hp, hlt⟩
    have := hall p hp
    omega

theorem extend_single {ps : List (ℕ × ℕ)} {q : ℕ × ℕ} (hq : q ∈ ps) (hall : ∀ p ∈ ps, p = q) (hx : q.1 < 9999)
    (hy : q.2 < 9999) : (⟨9999, 9999, -1, -1⟩ : Varblock).extend ps = ⟨q.1, q.2, q.1, q.2⟩ := by
  obtain ⟨c1, c2, c3, c4⟩ := extend_covers ⟨9999, 9999, -1, -1⟩ hq
  obtain ⟨_, _, a⟩ := foldl_min_spec (fun p : ℕ × ℕ => (p.1 : ℤ)) ps 9999
  obtain ⟨_, _, b⟩ := foldl_min_spec (fun p : ℕ × ℕ => (p.2 : ℤ)) ps 9999
  obtain ⟨_, _, c⟩ := foldl_max_spec (fun p : ℕ × ℕ => (p.1 : ℤ)) ps (-1)
  obtain ⟨_, _, d⟩ := foldl_max_spec (fun p : ℕ × ℕ => (p.2 : ℤ)) ps (-1)
  simp only [Varblock.extend, Varblock.mk.injEq] at c1 c2 c3 c4 ⊢
  constructor
  · rcases a with a | ⟨p, hp, a⟩
    · omega
    · rw [a, hall p hp]
  constructor
  · rcases b with b | ⟨p, hp, b⟩
    · omega
    · rw [b, hall p hp]
  constructor
  · rcases c with c | ⟨p, hp, c⟩
    · omega
    · rw [c, hall p hp]
  · rcases d with d | ⟨p, hp, d⟩
    · omega
    · rw [d, hall p hp]

/-- The varblock of a changed block bounds its changed pixels and stays on the screen. -/
theorem extend_bounds {W H : ℕ} {ps : List (ℕ × ℕ)} (hne : ps ≠ [])
    (hps : ∀ p ∈ ps, p.1 < W ∧ p.2 < H) :
    let v := (⟨9999, 9999, -1, -1⟩ : Varblock).extend ps
    (∀ p ∈ ps, v.minX ≤ p.1 ∧ (p.1 : ℤ) ≤ v.maxX ∧ v.minY ≤ p.2 ∧ (p.2 : ℤ) ≤ v.maxY) ∧
      0 ≤ v.minX ∧ v.minX ≤ v.maxX ∧ v.maxX < W ∧ 0 ≤ v.minY ∧ v.minY ≤ v.maxY ∧ v.maxY < H := by
  intro v
  obtain ⟨a1, a2, a3⟩ := foldl_min_spec (fun p : ℕ × ℕ => (p.1 : ℤ)) ps 9999
  obtain ⟨b1, b2, b3⟩ := foldl_min_spec (fun p : ℕ × ℕ => (p.2 : ℤ)) ps 9999
  obtain ⟨c1, c2, c3⟩ := foldl_max_spec (fun p : ℕ × ℕ => (p.1 : ℤ)) ps (-1)
  obtain ⟨d1, d2, d3⟩ := foldl_max_spec (fun p : ℕ × ℕ => (p.2 : ℤ)) ps (-1)
  obtain ⟨q, hq⟩ := List.exists_mem_of_ne_nil ps hne
  have hqs := hps q hq
  have hqa := a1 q hq
  have hqb := b1 q hq
  have hqc := c1 q hq
  have hqd := d1 q hq
  have hminX : 0 ≤ v.minX := by
    rcases a3 with h | ⟨p, _, h⟩ <;> simp only [v, Varblock.extend] <;> omega
  have hminY : 0 ≤ v.minY := by
    rcases b3 with h | ⟨p, _, h⟩ <;> simp only [v, Varblock.extend] <;> omega
  have hmaxX : v.maxX < W := by
    rcases c3 with h | ⟨p, hp, h⟩
    · simp only [v, Varblock.extend]
      omega
    · have := (hps p hp).1
      simp only [v, Varblock.extend]
      omega
  have hmaxY : v.maxY < H := by
    rcases d3 with h | ⟨p, hp, h⟩
    · simp only [v, Varblock.extend]
      omega
    · have := (hps p hp).2
      simp only [v, Varblock.extend]
      omega
  refine ⟨fun p hp => ⟨a1 p hp, c1 p hp, b1 p hp, d1 p hp⟩, hminX, le_trans hqa hqc, hmaxX, hminY, le_trans hqb hqd, hmaxY⟩

/-- Padding keeps the rectangle, makes it at least nine pixels a side and leaves
it on a screen of at least 16 pixels a side. -/
theorem padVarblock_bounds {g : Geometry} (hW : 16 ≤ g.scrWidth) (hH : 16 ≤ g.scrHeight) {v : Varblock}
    (h1 : 0 ≤ v.minX) (h2 : v.minX ≤ v.maxX) (h3 : v.maxX < g.scrWidth)
    (h4 : 0 ≤ v.minY) (h5 : v.minY ≤ v.maxY) (h6 : v.maxY < g.scrHeight) :
    let p := padVarblock g v
    (0 ≤ p.minX ∧ p.minX ≤ v.minX ∧ v.maxX ≤ p.maxX ∧ p.maxX < g.scrWidth ∧ 8 ≤ p.maxX - p.minX) ∧
      0 ≤ p.minY ∧ p.minY ≤ v.minY ∧ v.maxY ≤ p.maxY ∧ p.maxY < g.scrHeight ∧ 8 ≤ p.maxY - p.minY := by
  intro p
  have hx : ¬ v.maxX < 0 := by omega
  have hy : ¬ v.maxY < 0 := by omega
  simp only [p, padVarblock, hx, hy, if_false]
  refine ⟨?_, ?_⟩
  · clear h4 h5 h6 hH hy
    split_ifs <;> omega
  · clear h1 h2 h3 hW hx
    split_ifs <;> omega

/-- The screens on which `screen_diff` can work: the padding needs 16 pixels a side
and the sentinel 9999 must not be a coordinate. -/
structure Geometry.Scannable (g : Geometry) : Prop where
  width_ge : 16 ≤ g.scrWidth
  width_le : g.scrWidth ≤ 9999
  height_ge : 16 ≤ g.scrHeight
  height_le : g.scrHeight ≤ 9999

def rectCells (g : Geometry) (x y w h : ℕ) : Set ℕ :=
  {i | ∃ py, y ≤ py ∧ py < y + h ∧ ∃ px, x ≤ px ∧ px < x + w ∧ i = py * g.scrWidth + px}

def encodedRegion (c : Codec) (g : Geometry) (fb compareBuf : Frame) (x y w h : ℕ) : RegionData :=
  let encoded := encodeRect c g fb compareBuf x y w h
  regionAs encoded.1 x y w h encoded.2

/-- What `screen_diff` can do with a block: nothing, if nothing changed in it, or
send a rectangle of the screen, nine pixels a side at least, that covers every change. -/
theorem screenDiff_cases (c : Codec) {g : Geometry} (hg : g.Scannable) (fb compareBuf : Frame) (o : ℕ × ℕ) :
    let committed := Mirror.patch (blockCells g o) fb compareBuf
    (screenDiff c g fb compareBuf o.1 o.2 = (committed, none) ∧ committed = compareBuf) ∨
    ∃ x y w h, g.OnScreen x y w h ∧ 9 ≤ w ∧ 9 ≤ h ∧
      screenDiff c g fb compareBuf o.1 o.2 = (committed, some (encodedRegion c g fb committed x y w h)) ∧
      ∀ i, i ∉ rectCells g x y w h → committed i = compareBuf i := by
  intro committed
  have hdiff := diffBlock_eq g fb compareBuf o
  have hW := hg.width_le
  have hH := hg.height_le
  -- a cell that the block changes is one of the recorded pixels
  have hcell : ∀ i, committed i ≠ compareBuf i →
      ∃ p ∈ changed g fb compareBuf (blockRange o.1 g.scrWidth) (blockRange o.2 g.scrHeight),
        i = p.2 * g.scrWidth + p.1 := by
    intro i hi
    by_cases hmem : i ∈ blockCells g o
    · rw [show committed i = fb i from Mirror.patch_apply_of_mem hmem] at hi
      obtain ⟨y, hy, x, hx, rfl⟩ := hmem
      exact ⟨(x, y), mem_changed.mpr ⟨hx, hy, hi⟩, rfl⟩
    · exact absurd (Mirror.patch_apply_of_notMem hmem) hi
  by_cases hempty : changed g fb compareBuf (blockRange o.1 g.scrWidth) (blockRange o.2 g.scrHeight) = []
  · refine Or.inl ⟨?_, ?_⟩
    · rw [hempty] at hdiff
      simp [screenDiff, hdiff, Varblock.extend, committed]
    · funext i
      by_contra hi
      obtain ⟨p, hp, _⟩ := hcell i hi
      rw [hempty] at hp
      cases hp
  · have hin : ∀ p ∈ changed g fb compareBuf (blockRange o.1 g.scrWidth) (blockRange o.2 g.scrHeight),
        p.1 < g.scrWidth ∧ p.2 < g.scrHeight := by
      intro p hp
      obtain ⟨hx, hy, _⟩ := mem_changed.mp hp
      exact ⟨(mem_blockRange.mp hx).2.2, (mem_blockRange.mp hy).2.2⟩
    obtain ⟨v, hv⟩ : ∃ v, v = (⟨9999, 9999, -1, -1⟩ : Varblock).extend
      (changed g fb compareBuf (blockRange o.1 g.scrWidth) (blockRange o.2 g.scrHeight)) := ⟨_, rfl⟩
    obtain ⟨hbound, h1, h2, h3, h4, h5, h6⟩ := extend_bounds hempty hin
    rw [← hv] at hbound h1 h2 h3 h4 h5 h6 hdiff
    obtain ⟨⟨p1, p2, p3, p4, p5⟩, q1, q2, q3, q4, q5⟩ :=
      padVarblock_bounds hg.width_ge hg.height_ge h1 h2 h3 h4 h5 h6
    have hlt : v.minX < 9999 := by omega
    obtain ⟨x, hx⟩ := Int.eq_ofNat_of_zero_le p1
    obtain ⟨y, hy⟩ := Int.eq_ofNat_of_zero_le q1
    obtain ⟨w, hw⟩ := Int.eq_ofNat_of_zero_le (show 0 ≤ (padVarblock g v).maxX - (padVarblock g v).minX + 1 by omega)
    obtain ⟨h, hh⟩ := Int.eq_ofNat_of_zero_le (show 0 ≤ (padVarblock g v).maxY - (padVarblock g v).minY + 1 by omega)
    rw [hx] at hw
    rw [hy] at hh
    refine Or.inr ⟨x, y, w, h, ⟨by omega, by omega, by omega, by omega⟩, by omega, by omega, ?_, ?_⟩
    · simp only [screenDiff, hdiff, hlt, if_true, hx, hy, hw, hh, Int.toNat_natCast]
      rw [wordOfInt_natCast (by omega), wordOfInt_natCast (by omega), wordOfInt_natCast (by omega),
        wordOfInt_natCast (by omega)]
      rfl
    · intro i hi
      by_contra hne
      obtain ⟨p, hp, rfl⟩ := hcell i hne
      obtain ⟨b1, b2, b3, b4⟩ := hbound p hp
      exact hi ⟨p.2, by omega, by omega, p.1, by omega, by omega, rfl⟩

end LilitunRemote

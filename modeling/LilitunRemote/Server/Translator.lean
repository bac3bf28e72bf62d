import LilitunRemote.Screen.ScreenDiff
import LilitunRemote.Foundation.Words
import LilitunRemote.Server.Regions

/-! # The translator's `update_screen`

The VNC side compares `conn->framebuffer` with `framebuffer_cmp` pixel by pixel, copies
what changed to `framebuffer_cmp` and to `framebuffer_vnc`, and marks the bounding
rectangle of the changes as modified. All three blocks have the size of the allocation,
and every access to them is recorded.
-/
namespace LilitunRemote
open Memory

/-- `width * height * (depth / 8)`, the bytes allocated for each of the three blocks. -/
def ScreenInfo.allocSize (info : ScreenInfo) : ℕ := (info.width * info.height * (info.depth / 8)).toNat

structure Translator where
  framebuffer : Words
  framebufferCmp : Words
  framebufferVnc : Words
  varblock : Varblock

/-- The arguments of `rfbMarkRectAsModified`; the end coordinates are exclusive. -/
structure MarkedRect where
  x1 : ℤ
  y1 : ℤ
  x2 : ℤ
  y2 : ℤ
  deriving DecidableEq, Repr

def Varblock.count (v : Varblock) (p : ℕ × ℕ) : Varblock where
  minX := if wrapInt p.1 < v.minX then wrapInt p.1 else v.minX
  minY := if wrapInt p.2 < v.minY then wrapInt p.2 else v.minY
  maxX := if wrapInt p.1 > v.maxX then wrapInt p.1 else v.maxX
  maxY := if wrapInt p.2 > v.maxY then wrapInt p.2 else v.maxY

namespace Translator

/-- `f`, `c` and `r` advance by one word a pixel. -/
def place (width : ℕ) (p : ℕ × ℕ) : ℤ := (p.2 * width + p.1 : ℕ)

def comparePixel (width y : ℕ) (t : Translator) (x : ℕ) : Translator :=
  let (pixel, framebuffer) := t.framebuffer.load (place width (x, y))
  let (c, framebufferCmp) := t.framebufferCmp.load (place width (x, y))
  if pixel ≠ c then
    { framebuffer
      framebufferCmp := framebufferCmp.store (place width (x, y)) pixel
      framebufferVnc := t.framebufferVnc.store (place width (x, y)) pixel
      varblock := t.varblock.count (x, y) }
  else { t with framebuffer, framebufferCmp }

def compareScreen (info : ScreenInfo) (t : Translator) : Translator :=
  (List.range info.height.toNat).foldl
    (fun t y => (List.range info.width.toNat).foldl (comparePixel info.width.toNat y) t)
    { t with varblock := ⟨9999, 9999, -1, -1⟩ }

/-- `update_screen`, with the rectangle it marks; `none` is the division by zero in
`4 / (depth / 8)`. -/
def updateScreen (info : ScreenInfo) (t : Translator) : Option (Translator × Option MarkedRect) :=
  if info.depth / 8 = 0 then none
  else
    let t := compareScreen info t
    let v := t.varblock
    if v.minX < 9999 then
      let maxX := if v.maxX < 0 then v.minX else v.maxX
      let maxY := if v.maxY < 0 then v.minY else v.maxY
      some ({ t with varblock := ⟨v.minX, v.minY, maxX, maxY⟩ }, some ⟨v.minX, v.minY, maxX + 2, maxY + 1⟩)
    else some (t, none)

/-! ## What a comparison does -/

def pixels (info : ScreenInfo) : List (ℕ × ℕ) :=
  (List.range info.height.toNat).flatMap (fun y => (List.range info.width.toNat).map (fun x => (x, y)))

section
variable {info : ScreenInfo}

theorem mem_pixels {p : ℕ × ℕ} : p ∈ pixels info ↔ p.1 < info.width.toNat ∧ p.2 < info.height.toNat := by
  obtain ⟨x, y⟩ := p
  simp only [pixels, List.mem_flatMap, List.mem_map, List.mem_range, Prod.mk.injEq]
  constructor
  · rintro ⟨y', hy, x', hx, rfl, rfl⟩
    exact ⟨hx, hy⟩
  · rintro ⟨hx, hy⟩
    exact ⟨y, hy, x, hx, rfl, rfl⟩

theorem compareScreen_eq (t : Translator) :
    compareScreen info t =
      (pixels info).foldl (fun t p => comparePixel info.width.toNat p.2 t p.1) { t with varblock := ⟨9999, 9999, -1, -1⟩ } := by
  rw [compareScreen, pixels, List.foldl_flatMap]
  simp only [List.foldl_map]

theorem place_inj {p q : ℕ × ℕ} (hp : p ∈ pixels info) (hq : q ∈ pixels info)
    (h : place info.width.toNat p = place info.width.toNat q) : p = q := by
  obtain ⟨hy, hx⟩ := Grid.index_inj (mem_pixels.mp hp).1 (mem_pixels.mp hq).1 (Int.natCast_inj.mp h)
  exact Prod.ext hx hy

theorem pixels_nodup (info : ScreenInfo) : (pixels info).Nodup := by
  rw [pixels, List.nodup_flatMap]
  constructor
  · intro y _
    exact List.nodup_range.map (fun _ _ h => (Prod.mk.inj h).1)
  · apply List.nodup_range.imp
    intro y z hne p hp hq
    obtain ⟨_, _, rfl⟩ := List.mem_map.mp hp
    obtain ⟨_, _, he⟩ := List.mem_map.mp hq
    exact hne (Prod.mk.inj he).2.symm

def countPixel (width : ℕ) (framebuffer : ℤ → UInt32) (s : (ℤ → UInt32) × Varblock) (p : ℕ × ℕ) : (ℤ → UInt32) × Varblock :=
  (Function.update s.1 (place width p) (framebuffer (place width p)), s.2.count p)

theorem comparePixel_eq (width : ℕ) (t : Translator) (p : ℕ × ℕ) :
    comparePixel width p.2 t p.1 =
      if t.framebuffer.cell (place width p) ≠ t.framebufferCmp.cell (place width p) then
        ⟨(t.framebuffer.load (place width p)).2,
          (t.framebufferCmp.load (place width p)).2.store (place width p) (t.framebuffer.cell (place width p)),
          t.framebufferVnc.store (place width p) (t.framebuffer.cell (place width p)), t.varblock.count p⟩
      else
        ⟨(t.framebuffer.load (place width p)).2, (t.framebufferCmp.load (place width p)).2, t.framebufferVnc,
          t.varblock⟩ := rfl

theorem comparePixel_visit (width : ℕ) (t : Translator) (p : ℕ × ℕ) :
    let t' := comparePixel width p.2 t p.1
    t'.framebuffer.cell = t.framebuffer.cell ∧
      (t'.framebufferCmp.cell, t'.framebufferVnc.cell, t'.varblock) =
        ChangeScan.visit (place width) t.framebuffer.cell (countPixel width t.framebuffer.cell)
          (t.framebufferCmp.cell, t.framebufferVnc.cell, t.varblock) p := by
  intro t'
  simp only [t', comparePixel_eq, ChangeScan.visit]
  split <;> exact ⟨rfl, rfl⟩

theorem foldl_comparePixel (width : ℕ) (ps : List (ℕ × ℕ)) (t : Translator) :
    let t' := ps.foldl (fun t p => comparePixel width p.2 t p.1) t
    t'.framebuffer.cell = t.framebuffer.cell ∧
      (t'.framebufferCmp.cell, t'.framebufferVnc.cell, t'.varblock) =
        ps.foldl (ChangeScan.visit (place width) t.framebuffer.cell (countPixel width t.framebuffer.cell))
          (t.framebufferCmp.cell, t.framebufferVnc.cell, t.varblock) := by
  induction ps generalizing t with
  | nil => exact ⟨rfl, rfl⟩
  | cons p ps ih =>
    obtain ⟨hfb, hvisit⟩ := comparePixel_visit width t p
    obtain ⟨hfb', hrest⟩ := ih (comparePixel width p.2 t p.1)
    rw [hfb, hvisit] at hrest
    exact ⟨hfb'.trans hfb, hrest⟩

theorem foldl_countPixel (width : ℕ) (framebuffer : ℤ → UInt32) (ps : List (ℕ × ℕ)) (vnc : ℤ → UInt32) (v : Varblock) :
    ps.foldl (countPixel width framebuffer) (vnc, v) =
      (Mirror.patch (ChangeScan.cells (place width) ps) framebuffer vnc, ps.foldl Varblock.count v) := by
  rw [← ChangeScan.foldl_update]
  induction ps generalizing vnc v with
  | nil => rfl
  | cons p ps ih => exact ih _ _

def differing (info : ScreenInfo) (t : Translator) : List (ℕ × ℕ) :=
  ChangeScan.differing (place info.width.toNat) t.framebuffer.cell t.framebufferCmp.cell (pixels info)

theorem compareScreen_spec (info : ScreenInfo) (t : Translator) :
    let t' := compareScreen info t
    let place := place info.width.toNat
    t'.framebuffer.cell = t.framebuffer.cell ∧
      t'.framebufferCmp.cell = Mirror.patch (ChangeScan.cells place (pixels info)) t.framebuffer.cell t.framebufferCmp.cell ∧
      t'.framebufferVnc.cell =
        Mirror.patch (ChangeScan.cells place (differing info t)) t.framebuffer.cell t.framebufferVnc.cell ∧
      t'.varblock = (differing info t).foldl Varblock.count ⟨9999, 9999, -1, -1⟩ := by
  have hnd : ((pixels info).map (place info.width.toNat)).Nodup :=
    (pixels_nodup info).map_on (fun _ hp _ hq h => place_inj hp hq h)
  obtain ⟨hfb, hscan⟩ := foldl_comparePixel info.width.toNat (pixels info) { t with varblock := ⟨9999, 9999, -1, -1⟩ }
  rw [ChangeScan.foldl_visit _ _ hnd, foldl_countPixel] at hscan
  intro t' place
  simp only [t', compareScreen_eq]
  obtain ⟨hcmp, hrest⟩ := Prod.mk.inj hscan
  obtain ⟨hvnc, hv⟩ := Prod.mk.inj hrest
  exact ⟨hfb, hcmp, hvnc, hv⟩

/-! ## The rectangle it marks -/

theorem foldl_count {ps : List (ℕ × ℕ)} (h : ∀ p ∈ ps, p.1 < 2 ^ 31 ∧ p.2 < 2 ^ 31) (v : Varblock) :
    ps.foldl Varblock.count v = v.extend ps := by
  induction ps generalizing v with
  | nil => rfl
  | cons p ps ih =>
    obtain ⟨⟨hx, hy⟩, hrest⟩ := List.forall_mem_cons.mp h
    have hone : v.count p = v.extend [p] := by
      have hx' : wrapInt p.1 = p.1 := wrapInt_of_range (by omega) (by omega)
      have hy' : wrapInt p.2 = p.2 := wrapInt_of_range (by omega) (by omega)
      simp only [Varblock.count, Varblock.extend, List.foldl_cons, List.foldl_nil, hx', hy', Varblock.mk.injEq]
      constructor
      · split <;> omega
      constructor
      · split <;> omega
      constructor
      · split <;> omega
      · split <;> omega
    rw [List.foldl_cons, ih hrest, hone, ← Varblock.extend_append, List.singleton_append]

theorem mem_differing {t : Translator} {p : ℕ × ℕ} :
    p ∈ differing info t ↔ p ∈ pixels info ∧
      t.framebuffer.cell (place info.width.toNat p) ≠ t.framebufferCmp.cell (place info.width.toNat p) :=
  ChangeScan.mem_differing

/-- The varblock of the differing pixels of a screen whose coordinates are `int`s. -/
theorem compareScreen_varblock (hw : info.width.toNat < 2 ^ 31) (hh : info.height.toNat < 2 ^ 31) (t : Translator) :
    (compareScreen info t).varblock = (⟨9999, 9999, -1, -1⟩ : Varblock).extend (differing info t) := by
  rw [(compareScreen_spec info t).2.2.2, foldl_count]
  intro p hp
  have := mem_pixels.mp (mem_differing.mp hp).1
  omega

def MarkedRect.Contains (r : MarkedRect) (p : ℕ × ℕ) : Prop :=
  r.x1 ≤ p.1 ∧ (p.1 : ℤ) < r.x2 ∧ r.y1 ≤ p.2 ∧ (p.2 : ℤ) < r.y2

/-- What an update marks: nothing, if no change lies left of column 9999, and otherwise a
rectangle that contains every change. -/
theorem updateScreen_mark (hdiv : ¬ info.depth / 8 = 0) (hw : info.width.toNat < 2 ^ 31) (hh : info.height.toNat < 2 ^ 31)
    (t : Translator) :
    ∃ v mark, updateScreen info t = some ({ compareScreen info t with varblock := v }, mark) ∧
      ((mark = none ∧ ∀ p ∈ differing info t, ¬ p.1 < 9999) ∨
        ∃ r, mark = some r ∧ (∃ p ∈ differing info t, p.1 < 9999) ∧ ∀ p ∈ differing info t, MarkedRect.Contains r p) := by
  have hv := compareScreen_varblock hw hh t
  by_cases hleft : ∃ p ∈ differing info t, p.1 < 9999
  · have hlt : (compareScreen info t).varblock.minX < 9999 := by
      rw [hv]
      exact extend_minX_lt.mpr hleft
    simp only [updateScreen, if_neg hdiv, if_pos hlt]
    refine ⟨_, _, rfl, Or.inr ⟨_, rfl, hleft, ?_⟩⟩
    intro p hp
    obtain ⟨c1, c2, c3, c4⟩ := @extend_covers ⟨9999, 9999, -1, -1⟩ _ p hp
    rw [← hv] at c1 c2 c3 c4
    have hmaxX : ¬ (compareScreen info t).varblock.maxX < 0 := by omega
    have hmaxY : ¬ (compareScreen info t).varblock.maxY < 0 := by omega
    simp only [MarkedRect.Contains, if_neg hmaxX, if_neg hmaxY]
    omega
  · have hnot : ¬ (compareScreen info t).varblock.minX < 9999 := by
      rw [hv, extend_minX_lt]
      exact hleft
    simp only [updateScreen, if_neg hdiv, if_neg hnot]
    exact ⟨_, none, rfl, Or.inl ⟨rfl, fun p hp hlt => hleft ⟨p, hp, hlt⟩⟩⟩

/-! ## Which words it accesses -/

theorem mem_accessed_comparePixel (width : ℕ) (t : Translator) (p : ℕ × ℕ) (i : ℤ) :
    let t' := comparePixel width p.2 t p.1
    (i ∈ t'.framebuffer.accessed ↔ i ∈ t.framebuffer.accessed ∨ i = place width p) ∧
      (i ∈ t'.framebufferCmp.accessed → i ∈ t.framebufferCmp.accessed ∨ i = place width p) ∧
      (i ∈ t'.framebufferVnc.accessed → i ∈ t.framebufferVnc.accessed ∨ i = place width p) := by
  intro t'
  simp only [t', comparePixel_eq]
  split
  · simp only [Words.load_accessed, Words.store_accessed, List.mem_cons]
    tauto
  · simp only [Words.load_accessed, List.mem_cons]
    tauto

/-- A comparison reads the framebuffer at every pixel, and nothing beyond the pixels in
any of the blocks. -/
theorem mem_accessed_compareScreen (t : Translator) (i : ℤ) :
    let t' := compareScreen info t
    let touched := ∃ p ∈ pixels info, i = place info.width.toNat p
    (i ∈ t'.framebuffer.accessed ↔ i ∈ t.framebuffer.accessed ∨ touched) ∧
      (i ∈ t'.framebufferCmp.accessed → i ∈ t.framebufferCmp.accessed ∨ touched) ∧
      (i ∈ t'.framebufferVnc.accessed → i ∈ t.framebufferVnc.accessed ∨ touched) := by
  intro t' touched
  simp only [t', compareScreen_eq]
  have hstep := mem_accessed_comparePixel info.width.toNat
  constructor
  · exact Words.mem_foldl_log (fun t : Translator => t.framebuffer.accessed) (fun t p i => (hstep t p i).1) _ _ i
  constructor
  · exact Words.of_mem_foldl_log (fun t : Translator => t.framebufferCmp.accessed) (fun t p i => (hstep t p i).2.1) _ _ i
  · exact Words.of_mem_foldl_log (fun t : Translator => t.framebufferVnc.accessed) (fun t p i => (hstep t p i).2.2) _ _ i

/-- The translator in front of an update, with any contents of the three blocks. -/
def start (framebuffer framebufferCmp framebufferVnc : ℤ → UInt32) (v : Varblock) : Translator :=
  ⟨.fresh framebuffer, .fresh framebufferCmp, .fresh framebufferVnc, v⟩

def UpdateSafe (info : ScreenInfo) : Prop :=
  ∀ framebuffer framebufferCmp framebufferVnc v, ∃ t mark,
    updateScreen info (start framebuffer framebufferCmp framebufferVnc v) = some (t, mark) ∧
      t.framebuffer.Within info.allocSize ∧ t.framebufferCmp.Within info.allocSize ∧
      t.framebufferVnc.Within info.allocSize

def HoldsWords (info : ScreenInfo) : Prop :=
  8 ≤ info.depth.toNat ∧
    (info.width.toNat * info.height.toNat = 0 ∨ 4 * (info.width.toNat * info.height.toNat) ≤ info.allocSize)

instance (info : ScreenInfo) : Decidable (HoldsWords info) := inferInstanceAs (Decidable (_ ∧ _))

theorem depth_div_eq_zero : info.depth / 8 = 0 ↔ info.depth.toNat < 8 := by
  rw [← UInt32.toNat_inj, UInt32.toNat_div]
  exact Nat.div_eq_zero_iff_lt (by decide)

/-- The blocks an update leaves are those of the comparison. -/
theorem updateScreen_blocks (hdepth : 8 ≤ info.depth.toNat) (t : Translator) :
    ∃ v mark, updateScreen info t = some ({ compareScreen info t with varblock := v }, mark) := by
  have hdiv : ¬ info.depth / 8 = 0 := fun h => by
    have := depth_div_eq_zero.mp h
    omega
  simp only [updateScreen, if_neg hdiv]
  split
  · exact ⟨_, _, rfl⟩
  · exact ⟨(compareScreen info t).varblock, none, rfl⟩

theorem place_inside (hholds : 4 * (info.width.toNat * info.height.toNat) ≤ info.allocSize) {p : ℕ × ℕ}
    (hp : p ∈ pixels info) : Words.Inside info.allocSize (place info.width.toNat p) := by
  have hidx := Grid.index_lt (mem_pixels.mp hp).1 (mem_pixels.mp hp).2
  simp only [Words.Inside, place]
  omega

theorem updateSafe_of_holdsWords (h : HoldsWords info) : UpdateSafe info := by
  obtain ⟨hdepth, harea⟩ := h
  intro framebuffer framebufferCmp framebufferVnc v
  obtain ⟨v', mark, hupdate⟩ := updateScreen_blocks hdepth (start framebuffer framebufferCmp framebufferVnc v)
  have hinside : ∀ i, (∃ p ∈ pixels info, i = place info.width.toNat p) → Words.Inside info.allocSize i := by
    rintro i ⟨p, hp, rfl⟩
    rcases harea with harea | harea
    · have hidx := Grid.index_lt (mem_pixels.mp hp).1 (mem_pixels.mp hp).2
      omega
    · exact place_inside harea hp
  have hacc := fun i => @mem_accessed_compareScreen info (start framebuffer framebufferCmp framebufferVnc v) i
  refine ⟨_, mark, hupdate, ?_, ?_, ?_⟩
  · exact fun i hi => (((hacc i).1.mp hi).resolve_left List.not_mem_nil) |> hinside i
  · exact fun i hi => (((hacc i).2.1 hi).resolve_left List.not_mem_nil) |> hinside i
  · exact fun i hi => (((hacc i).2.2 hi).resolve_left List.not_mem_nil) |> hinside i

theorem holdsWords_of_updateSafe (h : UpdateSafe info) : HoldsWords info := by
  obtain ⟨t, mark, hupdate, hfb, _, _⟩ := h (fun _ => 0) (fun _ => 0) (fun _ => 0) ⟨0, 0, 0, 0⟩
  have hdepth : 8 ≤ info.depth.toNat := by
    by_contra hlt
    have hzero := depth_div_eq_zero.mpr (Nat.lt_of_not_le hlt)
    simp [updateScreen, hzero] at hupdate
  refine ⟨hdepth, ?_⟩
  by_cases harea : info.width.toNat * info.height.toNat = 0
  · exact Or.inl harea
  · -- the last pixel of the screen is read
    obtain ⟨y, hy, x, hx, hlast⟩ :=
      Grid.exists_coords (show info.width.toNat * info.height.toNat - 1 < info.width.toNat * info.height.toNat by omega)
    obtain ⟨v', mark', hblocks⟩ := updateScreen_blocks hdepth (start (fun _ => 0) (fun _ => 0) (fun _ => 0) ⟨0, 0, 0, 0⟩)
    rw [hblocks] at hupdate
    cases hupdate
    have hmem : (x, y) ∈ pixels info := mem_pixels.mpr ⟨hx, hy⟩
    have hread := (mem_accessed_compareScreen (start (fun _ => 0) (fun _ => 0) (fun _ => 0) ⟨0, 0, 0, 0⟩) _).1.mpr
      (Or.inr ⟨(x, y), hmem, rfl⟩)
    have hinside := (hfb _ hread).2
    simp only [place, ← hlast] at hinside
    exact Or.inr (by omega)

/-- For a screen a projector announces, the updates are safe exactly when its depth is at
least 8 and the allocated bytes hold a word for each pixel. -/
theorem updateSafe_iff (info : ScreenInfo) : UpdateSafe info ↔ HoldsWords info :=
  ⟨holdsWords_of_updateSafe, updateSafe_of_holdsWords⟩

/-- With 16 bits a pixel the second half of the screen lies outside its allocation; with
fewer than 8 bits the first update divides by zero. -/
theorem shallow_screens_unsafe : ¬ UpdateSafe ⟨16, 16, 16⟩ ∧ ¬ UpdateSafe ⟨16, 16, 4⟩ := by
  constructor
  · intro h
    exact absurd (holdsWords_of_updateSafe h) (by decide)
  · intro h
    exact absurd (holdsWords_of_updateSafe h) (by decide)

end
end Translator
end LilitunRemote

import LilitunRemote.Screen.Capture
import LilitunRemote.Server.Translator

/-! # Which changes are detected

Both `update_screen` functions start the left edge of the varblock at 9999 and take an
edge that has not moved for an unchanged screen. A change is therefore reported only if
one of its pixels lies left of column 9999, and then the rectangle covers all of it.
-/
namespace LilitunRemote
open Memory

/-! ## The projector -/

def RegionData.Contains (r : RegionData) (p : ℕ × ℕ) : Prop :=
  asInt r.x ≤ p.1 ∧ (p.1 : ℤ) < asInt r.x + asInt r.width ∧ asInt r.y ≤ p.2 ∧ (p.2 : ℤ) < asInt r.y + asInt r.height

def ChangesReported (g : Capture) (c : Codec) (framebuffer compareBuf : Words) (regX regY : ℕ) : Prop :=
  g.differing framebuffer compareBuf regX regY ≠ [] →
    ∃ r, (g.screenDiff c framebuffer compareBuf regX regY).region = some r ∧
      ∀ p ∈ g.differing framebuffer compareBuf regX regY, r.Contains p

theorem padAxis_covers (size : ℕ) {lo hi : ℤ} (h : lo ≤ hi) :
    let r := Capture.padAxis size lo hi
    r.1 ≤ lo ∧ hi ≤ r.2 ∧ lo - 8 ≤ r.1 ∧ r.2 ≤ hi + 8 := by
  intro r
  simp only [r, Capture.padAxis]
  split_ifs <;> simp only <;> omega

/-- The region of a padded rectangle has its corners, whatever the encoding. -/
theorem encode_region (g : Capture) (c : Codec) (s : Capture.Grab) (p : Varblock) :
    ∃ r, (g.encode c s p).region = some r ∧ r.x = wordOfInt p.minX ∧ r.y = wordOfInt p.minY ∧
      r.width = wordOfInt (p.maxX - p.minX + 1) ∧ r.height = wordOfInt (p.maxY - p.minY + 1) := by
  simp only [Capture.encode]
  split
  · split
    · exact ⟨_, rfl, rfl, rfl, rfl, rfl⟩
    · exact ⟨_, rfl, rfl, rfl, rfl, rfl⟩
  · exact ⟨_, rfl, rfl, rfl, rfl, rfl⟩

section Projector
variable {g : Capture} {c : Codec} {framebuffer compareBuf : Words} {regX regY : ℕ}

theorem screenDiff_region_none (h : ∀ p ∈ g.differing framebuffer compareBuf regX regY, ¬ p.1 < 9999) :
    (g.screenDiff c framebuffer compareBuf regX regY).region = none := by
  have hnot : ¬ (g.diffBlock framebuffer compareBuf regX regY).varblock.minX < 9999 := by
    rw [Capture.diffBlock_varblock, extend_minX_lt]
    rintro ⟨p, hp, hlt⟩
    exact h p hp hlt
  simp only [Capture.screenDiff, if_neg hnot]

theorem screenDiff_region_contains (h : ∃ p ∈ g.differing framebuffer compareBuf regX regY, p.1 < 9999) :
    ∃ r, (g.screenDiff c framebuffer compareBuf regX regY).region = some r ∧
      ∀ p ∈ g.differing framebuffer compareBuf regX regY, r.Contains p := by
  have hv := g.diffBlock_varblock framebuffer compareBuf regX regY
  have hlt := extend_minX_lt.mpr h
  obtain ⟨q, hq, _⟩ := h
  have hbounds := extend_bounds (List.ne_nil_of_mem hq) (fun p hp => Capture.differing_bounds hp)
  have hcovers := fun p hp => @extend_covers ⟨9999, 9999, -1, -1⟩ (g.differing framebuffer compareBuf regX regY) p hp
  generalize (⟨9999, 9999, -1, -1⟩ : Varblock).extend (g.differing framebuffer compareBuf regX regY) = v at *
  obtain ⟨_, b1, b2, b3, b4, b5, b6⟩ := hbounds
  obtain ⟨x1, x2, x3, x4⟩ := padAxis_covers g.scrWidth b2
  obtain ⟨y1, y2, y3, y4⟩ := padAxis_covers g.scrHeight b5
  obtain ⟨r, hr, hx, hy, hw, hh⟩ := encode_region g c (g.diffBlock framebuffer compareBuf regX regY) (g.padVarblock v)
  refine ⟨r, ?_, ?_⟩
  · simp only [Capture.screenDiff, hv, if_pos hlt]
    exact hr
  · intro p hp
    obtain ⟨c1, c2, c3, c4⟩ := hcovers p hp
    obtain ⟨_, hpy⟩ := Capture.differing_bounds hp
    have hW := g.width_le
    have hH := g.height_le
    have hmaxX : ¬ v.maxX < 0 := by omega
    have hmaxY : ¬ v.maxY < 0 := by omega
    simp only [Capture.padVarblock, if_neg hmaxX, if_neg hmaxY] at hx hy hw hh
    rw [RegionData.Contains, hx, hy, hw, hh, asInt_wordOfInt (by omega) (by omega), asInt_wordOfInt (by omega) (by omega),
      asInt_wordOfInt (by omega) (by omega), asInt_wordOfInt (by split_ifs <;> omega) (by split_ifs <;> omega)]
    split_ifs <;> omega

theorem changesReported_iff (g : Capture) (c : Codec) (framebuffer compareBuf : Words) (regX regY : ℕ) :
    ChangesReported g c framebuffer compareBuf regX regY ↔
      g.differing framebuffer compareBuf regX regY = [] ∨
        ∃ p ∈ g.differing framebuffer compareBuf regX regY, p.1 < 9999 := by
  constructor
  · intro h
    by_cases hne : g.differing framebuffer compareBuf regX regY = []
    · exact Or.inl hne
    · right
      by_contra hnone
      obtain ⟨r, hr, _⟩ := h hne
      rw [screenDiff_region_none (fun p hp hlt => hnone ⟨p, hp, hlt⟩)] at hr
      cases hr
  · rintro (hnil | hleft) hne
    · exact absurd hnil hne
    · exact screenDiff_region_contains hleft

end Projector

/-! ## The control server -/

/-- The screen information of a captured screen, announced with some depth. -/
def Capture.announced (g : Capture) (depth : UInt32) : ScreenInfo :=
  ⟨UInt32.ofNat g.scrWidth, UInt32.ofNat g.scrHeight, depth⟩

def ChangesMarked (info : ScreenInfo) (t : Translator) : Prop :=
  Translator.differing info t ≠ [] →
    ∃ t' r, Translator.updateScreen info t = some (t', some r) ∧
      ∀ p ∈ Translator.differing info t, Translator.MarkedRect.Contains r p

theorem changesMarked_iff (g : Capture) (depth : UInt32) (t : Translator) :
    ChangesMarked (g.announced depth) t ↔
      Translator.differing (g.announced depth) t = [] ∨
        (8 ≤ depth.toNat ∧ ∃ p ∈ Translator.differing (g.announced depth) t, p.1 < 9999) := by
  have hW := g.width_le
  have hH := g.height_le
  have hw : (g.announced depth).width.toNat < 2 ^ 31 := by
    rw [Capture.announced, toNat_ofNat (by omega)]
    omega
  have hh : (g.announced depth).height.toNat < 2 ^ 31 := by
    rw [Capture.announced, toNat_ofNat (by omega)]
    omega
  by_cases hdepth : 8 ≤ depth.toNat
  · have hdiv : ¬ (g.announced depth).depth / 8 = 0 := fun h => by
      have : depth.toNat < 8 := Translator.depth_div_eq_zero.mp h
      omega
    obtain ⟨v, mark, hupdate, hmark⟩ := Translator.updateScreen_mark hdiv hw hh t
    simp only [ChangesMarked, hupdate, hdepth, true_and, Option.some.injEq, Prod.mk.injEq]
    rcases hmark with ⟨rfl, hright⟩ | ⟨r, rfl, hleft, hall⟩
    · constructor
      · intro h
        by_contra hnone
        obtain ⟨_, _, ⟨_, hr⟩, _⟩ := h (fun hnil => hnone (Or.inl hnil))
        cases hr
      · rintro (hnil | ⟨p, hp, hlt⟩) hne
        · exact absurd hnil hne
        · exact absurd hlt (hright p hp)
    · exact iff_of_true (fun _ => ⟨_, r, ⟨rfl, rfl⟩, hall⟩) (Or.inr hleft)
  · have hdiv : (g.announced depth).depth / 8 = 0 := Translator.depth_div_eq_zero.mpr (Nat.lt_of_not_le hdepth)
    have hnone : Translator.updateScreen (g.announced depth) t = none := if_pos hdiv
    simp only [ChangesMarked, hnone, hdepth, false_and, or_false, reduceCtorEq, exists_false, imp_false, not_not]

/-- Detection is complete exactly for changes that reach to the left of column 9999, and,
in the control server, for depths it does not divide by zero for. -/
theorem change_detection_iff (g : Capture) :
    (∀ c framebuffer compareBuf regX regY, ChangesReported g c framebuffer compareBuf regX regY ↔
      g.differing framebuffer compareBuf regX regY = [] ∨
        ∃ p ∈ g.differing framebuffer compareBuf regX regY, p.1 < 9999) ∧
    ∀ depth t, ChangesMarked (g.announced depth) t ↔
      Translator.differing (g.announced depth) t = [] ∨
        (8 ≤ depth.toNat ∧ ∃ p ∈ Translator.differing (g.announced depth) t, p.1 < 9999) :=
  ⟨changesReported_iff g, changesMarked_iff g⟩

/-- A desktop of three monitors side by side, wider than the sentinel. -/
def wideDesktop : Capture := ⟨11520, 2160, 4, by decide, by decide, by decide, by decide⟩

theorem mem_translator_onePixel {info : ScreenInfo} {vnc : ℤ → UInt32} {v : Varblock} {i : ℤ} {p : ℕ × ℕ} :
    p ∈ Translator.differing info (Translator.start (Capture.onePixel i) (fun _ => 0) vnc v) ↔
      p ∈ Translator.pixels info ∧ Translator.place info.width.toNat p = i := by
  simp only [Translator.mem_differing, Translator.start, Words.fresh, Capture.onePixel_ne]

theorem wideDesktop_place : wideDesktop.place 9984 (10000, 0) = 10000 := by
  have harea : wideDesktop.scrWidth * wideDesktop.scrHeight < 2 ^ 31 := by
    simp only [wideDesktop]
    omega
  rw [Capture.place_eq harea (by decide) ⟨by decide, by decide⟩, Nat.zero_mul, Nat.zero_add]
  rfl

/-- A pixel that changes in column 10000 is reported by neither side. -/
theorem far_change_unreported :
    ¬ ChangesReported wideDesktop noiseCodec (.fresh (Capture.onePixel 10000)) (.fresh (fun _ => 0)) 9984 0 ∧
      ¬ ChangesMarked (wideDesktop.announced 32)
        (Translator.start (Capture.onePixel 10000) (fun _ => 0) (fun _ => 0) ⟨0, 0, 0, 0⟩) := by
  constructor
  · rw [changesReported_iff]
    have hblock : (10000, 0) ∈ wideDesktop.blockPixels 9984 0 :=
      Capture.mem_blockPixels.mpr ⟨mem_blockRange.mpr ⟨by decide, by decide, by decide⟩, mem_blockRange.mpr ⟨by decide, by decide, by decide⟩⟩
    rintro (hnil | ⟨p, hp, hlt⟩)
    · exact List.ne_nil_of_mem (Capture.mem_differing_onePixel.mpr ⟨hblock, wideDesktop_place⟩) hnil
    · have hsame := Capture.place_inj (Capture.differing_bounds hp) ⟨by decide, by decide⟩
        ((Capture.mem_differing_onePixel.mp hp).2.trans wideDesktop_place.symm)
      rw [hsame] at hlt
      omega
  · rw [changesMarked_iff]
    have hplace : Translator.place (wideDesktop.announced 32).width.toNat (10000, 0) = 10000 := by
      rw [Translator.place, Nat.zero_mul, Nat.zero_add]
      rfl
    have hpix : (10000, 0) ∈ Translator.pixels (wideDesktop.announced 32) :=
      Translator.mem_pixels.mpr ⟨by decide, by decide⟩
    rintro (hnil | ⟨_, p, hp, hlt⟩)
    · exact List.ne_nil_of_mem (mem_translator_onePixel.mpr ⟨hpix, hplace⟩) hnil
    · obtain ⟨hp, hi⟩ := mem_translator_onePixel.mp hp
      have hsame := Translator.place_inj hp hpix (hi.trans hplace.symm)
      rw [hsame] at hlt
      omega

end LilitunRemote

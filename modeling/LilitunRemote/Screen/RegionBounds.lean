import LilitunRemote.Screen.ScreenDiff

/-! # The regions that `screen_diff` produces

A region lies on the screen, is at least nine pixels a side, and never carries more
bytes than its pixels have.
-/
namespace LilitunRemote
open Memory

structure RegionData.WithinScreen (r : RegionData) (g : Geometry) : Prop where
  right : r.x.toNat + r.width.toNat ≤ g.scrWidth
  bottom : r.y.toNat + r.height.toNat ≤ g.scrHeight
  width_ge : 9 ≤ r.width.toNat
  height_ge : 9 ≤ r.height.toNat
  pixfmt_mem : r.pixfmt = Pix.jpegBgra.code ∨ r.pixfmt = Pix.lz4Bgra.code ∨ r.pixfmt = Pix.rawBgra.code
  length_eq : r.length.toNat = r.data.length
  length_le : r.length.toNat ≤ r.width.toNat * r.height.toNat * 4
  raw_length : r.pixfmt = Pix.rawBgra.code → r.length.toNat = r.width.toNat * r.height.toNat * 4
  lz4_length : r.pixfmt = Pix.lz4Bgra.code → r.length.toNat < r.width.toNat * r.height.toNat * 4

def Geometry.ofSides (w h : ℕ) (hw : 16 ≤ w ∧ w ≤ 9999) (hh : 16 ≤ h ∧ h ≤ 9999) : Geometry where
  scrWidth := w
  scrHeight := h
  width_pos := by omega
  height_pos := by omega
  size_lt := by
    have hle := Nat.mul_le_mul hw.2 hh.2
    omega

theorem Geometry.scannable_ofSides {w h : ℕ} (hw : 16 ≤ w ∧ w ≤ 9999) (hh : 16 ≤ h ∧ h ≤ 9999) :
    (Geometry.ofSides w h hw hh).Scannable :=
  ⟨hw.1, hw.2, hh.1, hh.2⟩

/-- The encoders never enlarge a rectangle, and LZ4 is kept only where it is smaller. -/
theorem encodeRect_length (c : Codec) (g : Geometry) (fb compareBuf : Frame) (x y w h : ℕ) :
    let encoded := encodeRect c g fb compareBuf x y w h
    encoded.2.length ≤ w * h * 4 ∧ (encoded.1 = .jpegBgra ∨
      (encoded.1 = .lz4Bgra ∧ encoded.2.length < w * h * 4) ∨ (encoded.1 = .rawBgra ∧ encoded.2.length = w * h * 4)) := by
  intro encoded
  have hraw : (rectBytes g compareBuf x y w h).length = w * h * 4 := by
    rw [rectBytes, rectOf_length pixelBytes_length, Nat.mul_comm]
  rcases encodeRect_cases c g fb compareBuf x y w h with ⟨henc, hle⟩ | henc | ⟨packed, _, _, hlt, henc⟩
  · simp only [encoded, henc]
    exact ⟨hle, Or.inl trivial⟩
  · simp only [encoded, henc]
    exact ⟨hraw.le, Or.inr (Or.inr ⟨trivial, hraw⟩)⟩
  · simp only [encoded, henc]
    rw [hraw] at hlt
    exact ⟨hlt.le, Or.inr (Or.inl ⟨trivial, hlt⟩)⟩

theorem encodedRegion_within (c : Codec) {g : Geometry} (fb compareBuf : Frame) {x y w h : ℕ} (hrect : g.OnScreen x y w h)
    (hw : 9 ≤ w) (hh : 9 ≤ h) : (encodedRegion c g fb compareBuf x y w h).WithinScreen g := by
  obtain ⟨hlen, hfmt⟩ := encodeRect_length c g fb compareBuf x y w h
  have harea := hrect.area_lt
  have hwidth := g.width_lt
  have hheight := g.height_lt
  obtain ⟨_, _, hright, hbottom⟩ := hrect
  have hx : (UInt32.ofNat x).toNat = x := toNat_ofNat (by omega)
  have hy : (UInt32.ofNat y).toNat = y := toNat_ofNat (by omega)
  have hw' : (UInt32.ofNat w).toNat = w := toNat_ofNat (by omega)
  have hh' : (UInt32.ofNat h).toNat = h := toNat_ofNat (by omega)
  have hl : (UInt32.ofNat (encodeRect c g fb compareBuf x y w h).2.length).toNat =
      (encodeRect c g fb compareBuf x y w h).2.length := toNat_ofNat (by omega)
  constructor <;> simp only [encodedRegion, regionAs, hx, hy, hw', hh', hl]
  · exact hright
  · exact hbottom
  · exact hw
  · exact hh
  · rcases hfmt with hfmt | ⟨hfmt, _⟩ | ⟨hfmt, _⟩ <;> simp [hfmt]
  · exact hlen
  · rcases hfmt with hfmt | ⟨hfmt, _⟩ | ⟨hfmt, heq⟩
    · simp [hfmt, Pix.code]
    · simp [hfmt, Pix.code]
    · exact fun _ => heq
  · rcases hfmt with hfmt | ⟨hfmt, hlt⟩ | ⟨hfmt, _⟩
    · simp [hfmt, Pix.code]
    · exact fun _ => hlt
    · simp [hfmt, Pix.code]

/-- Whatever the encoders return, a produced region lies on the screen and its length
fits its rectangle and its format. -/
theorem screenDiff_within {w h : ℕ} (hw : 16 ≤ w ∧ w ≤ 9999) (hh : 16 ≤ h ∧ h ≤ 9999) (c : Codec)
    (fb compareBuf : Frame) (o : ℕ × ℕ) {r : RegionData}
    (hr : (screenDiff c (Geometry.ofSides w h hw hh) fb compareBuf o.1 o.2).2 = some r) :
    r.WithinScreen (Geometry.ofSides w h hw hh) := by
  rcases screenDiff_cases c (Geometry.scannable_ofSides hw hh) fb compareBuf o with
    ⟨hnone, _⟩ | ⟨x, y, rw, rh, hrect, hrw, hrh, hsome, _⟩
  · rw [hnone] at hr
    cases hr
  · rw [hsome] at hr
    cases hr
    exact encodedRegion_within c fb _ hrect hrw hrh

/-- A change anywhere in a block is sent. -/
theorem exists_region {g : Geometry} (hg : g.Scannable) (c : Codec) (fb compareBuf : Frame) {o : ℕ × ℕ} {i : ℕ}
    (hi : i ∈ blockCells g o) (hne : fb i ≠ compareBuf i) :
    ∃ r, (screenDiff c g fb compareBuf o.1 o.2).2 = some r := by
  rcases screenDiff_cases c hg fb compareBuf o with ⟨_, hsame⟩ | ⟨x, y, w, h, _, _, _, hsome, _⟩
  · have hcommit := congrFun hsame i
    rw [Mirror.patch_apply_of_mem hi] at hcommit
    exact absurd hcommit hne
  · exact ⟨_, congrArg Prod.snd hsome⟩

theorem corner_region_within :
    ∃ r, (screenDiff noiseCodec (Geometry.ofSides 16 16 (by decide) (by decide)) (fun _ => 1) (fun _ => 0) 0 0).2 = some r ∧
      r.WithinScreen (Geometry.ofSides 16 16 (by decide) (by decide)) := by
  have hcell : 0 ∈ blockCells (Geometry.ofSides 16 16 (by decide) (by decide)) (0, 0) :=
    ⟨0, by decide, 0, by decide, rfl⟩
  obtain ⟨r, hr⟩ := exists_region (Geometry.scannable_ofSides (by decide) (by decide)) noiseCodec (fun _ => 1)
    (fun _ => 0) hcell (by decide)
  exact ⟨r, hr, screenDiff_within _ _ noiseCodec _ _ (0, 0) hr⟩

end LilitunRemote

import LilitunRemote.Server.Regions

/-! # What a region of the screen shows on the control server

A rectangle of the grabbed screen drawn through each of the three encodings. The
projector announces its screen with 32 bits a pixel.
-/
namespace LilitunRemote
open Memory

def Geometry.announced (g : Geometry) : ScreenInfo := ⟨UInt32.ofNat g.scrWidth, UInt32.ofNat g.scrHeight, 32⟩

section Draw
variable {g : Geometry} {x y w h : ℕ}

/-- The blitter's arguments for a rectangle of the screen have no wrapped value. -/
theorem blitArgs_regionAs (hrect : g.OnScreen x y w h) (pix : Pix) (data : Bytes) (bytes : Buffer) (b : ℕ) :
    blitArgs g.announced (regionAs pix x y w h data) ⟨bytes, UInt32.ofNat w, UInt32.ofNat h, b⟩ =
      BlitArgs.plain g.scrWidth g.scrHeight x y w h b := by
  have hW := g.width_lt
  have hH := g.height_lt
  have hx := hrect.right
  have hy := hrect.bottom
  have hdepth : asInt 32 = 32 := asInt_ofNat (n := 32) (by omega)
  simp only [blitArgs, Geometry.announced, regionAs, BlitArgs.plain, hdepth]
  rw [asInt_ofNat (by omega), asInt_ofNat (by omega), asInt_ofNat (by omega), asInt_ofNat (by omega),
    asInt_ofNat (by omega), asInt_ofNat (by omega)]

/-- The framebuffer shows the bytes of an image in the rectangle and the old
bytes elsewhere. -/
def Drawn (g : Geometry) (x y w h b : ℕ) (image old new : Buffer) : Prop :=
  new.size = old.size ∧ ∀ py < g.scrHeight, ∀ px < g.scrWidth, ∀ k < 4, new[4 * (py * g.scrWidth + px) + k]? =
    if BlitArgs.Covered g.scrWidth g.scrHeight x y w h px py then
      if b = 3 ∧ k = 3 then some 0 else image[b * ((py - y) * w + (px - x)) + k]?
    else old[4 * (py * g.scrWidth + px) + k]?

/-- A region whose image has been decoded is blitted at its rectangle, whatever
its format was. -/
theorem handleRegion_image {c : Codec} (hrect : g.OnScreen x y w h) {pix : Pix} {data : Bytes} (hpos : 0 < data.length)
    (hlt : data.length < 2 ^ 32) {bytes fb : Buffer} {b : ℕ}
    (hdec : decodeRegion c (regionAs pix x y w h data) = .image ⟨bytes, UInt32.ofNat w, UInt32.ofNat h, b⟩) :
    handleRegion c g.announced fb (regionAs pix x y w h data) =
      (fbopsBitblit (BlitArgs.plain g.scrWidth g.scrHeight x y w h b) bytes fb).map (fun fb => (true, fb)) := by
  have hlen : 0 < (regionAs pix x y w h data).length := by
    rw [regionAs, UInt32.lt_iff_toNat_lt, toNat_ofNat hlt]
    exact hpos
  simp only [handleRegion, hlen, if_true, hdec, blitArgs_regionAs hrect]

theorem blit_drawn (hrect : g.OnScreen x y w h) (bytes : Buffer) {fb : Buffer} {b : ℕ} (hb : b = 3 ∨ b = 4)
    (hfb : fb.size = 4 * (g.scrWidth * g.scrHeight)) (hbytes : bytes.size = b * (w * h)) :
    ∃ d, fbopsBitblit (BlitArgs.plain g.scrWidth g.scrHeight x y w h b) bytes fb = some d ∧
      Drawn g x y w h b bytes fb d := by
  have hW := g.width_lt
  have hH := g.height_lt
  obtain ⟨hw, hh, hx, hy⟩ := hrect
  have hdst : (BlitArgs.plain g.scrWidth g.scrHeight x y w h b).bytesppDst = 4 := rfl
  have hsrc : (BlitArgs.plain g.scrWidth g.scrHeight x y w h b).bytesppSrc = b := by rcases hb with rfl | rfl <;> rfl
  exact BlitArgs.fbopsBitblit_clip (Or.inr rfl) hb hdst hsrc
    (BlitArgs.plain_noOverflow g.size_lt (by rcases hb with rfl | rfl <;> omega) (by omega) (by omega) (by omega) (by omega))
    hfb hbytes.ge

end Draw

/-! ## The plain encodings -/

/-- LZ4 decompression inverts compression. -/
def LosslessLz4 (c : Codec) : Prop :=
  ∀ raw capacity, raw ≠ [] → c.lz4Compress raw capacity ≠ [] →
    c.lz4Decompress (c.lz4Compress raw capacity) raw.length = raw

section Plain
variable {g : Geometry} {x y w h : ℕ} (hrect : g.OnScreen x y w h) (f : Frame)
include hrect

theorem handleRegion_raw (c : Codec) (fb : Buffer) :
    handleRegion c g.announced fb (regionAs .rawBgra x y w h (rectBytes g f x y w h)) =
      (fbopsBitblit (BlitArgs.plain g.scrWidth g.scrHeight x y w h 4) (rectBytes g f x y w h).toArray fb).map
        (fun fb => (true, fb)) := by
  have hlen : (rectBytes g f x y w h).length = 4 * (w * h) := rectOf_length pixelBytes_length g f x y w h
  have hpos := hrect.area_pos
  have hlt := hrect.area_lt
  exact handleRegion_image hrect (by omega) (by omega) (by simp [decodeRegion, regionAs])

theorem handleRegion_lz4 {c : Codec} (hlz4 : LosslessLz4 c) {fb : Buffer} {capacity : ℕ}
    (hpos : 0 < (c.lz4Compress (rectBytes g f x y w h) capacity).length)
    (hlt : (c.lz4Compress (rectBytes g f x y w h) capacity).length < (rectBytes g f x y w h).length) :
    handleRegion c g.announced fb (regionAs .lz4Bgra x y w h (c.lz4Compress (rectBytes g f x y w h) capacity)) =
      handleRegion c g.announced fb (regionAs .rawBgra x y w h (rectBytes g f x y w h)) := by
  have hlen : (rectBytes g f x y w h).length = 4 * (w * h) := rectOf_length pixelBytes_length g f x y w h
  have harea := hrect.area_lt
  have hareaPos := hrect.area_pos
  have hraw : rectBytes g f x y w h ≠ [] := List.ne_nil_of_length_pos (by omega)
  have hback := hlz4 _ capacity hraw (List.ne_nil_of_length_pos hpos)
  -- the capacity is the size of the rectangle, without a wrapped product
  have hprod : asInt (UInt32.ofNat w * UInt32.ofNat h * 4) = (rectBytes g f x y w h).length := by
    have heq : UInt32.ofNat w * UInt32.ofNat h * 4 = UInt32.ofNat (4 * (w * h)) := by
      apply UInt32.toNat_inj.mp
      simp only [UInt32.toNat_mul, UInt32.toNat_ofNat', UInt32.reduceToNat]
      rw [← Nat.mul_mod, Nat.mod_mul_mod, Nat.mul_comm 4]
    rw [heq, hlen, asInt_ofNat harea]
  rw [handleRegion_raw hrect f]
  exact handleRegion_image hrect hpos (by omega) (by simp [decodeRegion, regionAs, hprod, hback, hraw])

end Plain

theorem Drawn.plain_pixel {g : Geometry} {x y w h : ℕ} {f : Frame} {fb d : Buffer}
    (hd : Drawn g x y w h 4 (rectBytes g f x y w h).toArray fb d) {px py k : ℕ} (hpy : py < g.scrHeight)
    (hpx : px < g.scrWidth) (hk : k < 4) :
    d[4 * (py * g.scrWidth + px) + k]? =
      if BlitArgs.Covered g.scrWidth g.scrHeight x y w h px py then (pixelBytes (f (py * g.scrWidth + px)))[k]?
      else fb[4 * (py * g.scrWidth + px) + k]? := by
  rw [hd.2 py hpy px hpx k hk]
  split
  · next hc =>
    obtain ⟨h1, h2, h3, h4⟩ := hc
    have hget := getElem?_rectOf pixelBytes_length g f x y (w := w) (h := h) (r := py - y) (c := px - x) (by omega)
      (by omega) hk
    rw [if_neg (by omega), List.getElem?_toArray, rectBytes, hget, Nat.sub_add_cancel h3, Nat.sub_add_cancel h1]
  · rfl

/-! ## The colours of the JPEG encoding -/

/-- A lossless JPEG of the rectangle: the decoder returns three bytes a pixel,
red first. -/
structure LosslessJpeg (c : Codec) (g : Geometry) (f : Frame) (x y w h : ℕ) (img : JpegImage) : Prop where
  length_pos : 0 < (compressRgbToJpeg c g f x y w h).length
  length_lt : (compressRgbToJpeg c g f x y w h).length < 2 ^ 32
  decompress : c.jpegDecompress (compressRgbToJpeg c g f x y w h) = some img
  width : img.outputWidth = w
  height : img.outputHeight = h
  components : img.outputComponents = 3
  scanlines : img.scanlines = rectRgb g f x y w h

def SameColours (g : Geometry) (a b : Buffer) : Prop :=
  ∀ py < g.scrHeight, ∀ px < g.scrWidth, ∀ k < 3,
    a[4 * (py * g.scrWidth + px) + k]? = b[4 * (py * g.scrWidth + px) + k]?

theorem handleRegion_jpeg {c : Codec} {g : Geometry} {f : Frame} {x y w h : ℕ} (hrect : g.OnScreen x y w h)
    {img : JpegImage} (hjpeg : LosslessJpeg c g f x y w h img) (fb : Buffer) :
    handleRegion c g.announced fb (regionAs .jpegBgra x y w h (compressRgbToJpeg c g f x y w h)) =
      (fbopsBitblit (BlitArgs.plain g.scrWidth g.scrHeight x y w h 3) (rectRgb g f x y w h).toArray fb).map
        (fun fb => (true, fb)) := by
  have harea := hrect.area_lt
  have hfits : img.outputWidth * img.outputHeight * img.outputComponents < 2 ^ 32 := by
    rw [hjpeg.width, hjpeg.height, hjpeg.components]
    omega
  apply handleRegion_image hrect hjpeg.length_pos hjpeg.length_lt
  rw [decodeRegion_jpeg (Or.inl (by simp [regionAs])) hjpeg.decompress, if_pos hfits, hjpeg.width, hjpeg.height,
    hjpeg.components, hjpeg.scanlines]

theorem Drawn.jpeg_pixel {g : Geometry} {x y w h : ℕ} {f : Frame} {fb d : Buffer}
    (hd : Drawn g x y w h 3 (rectRgb g f x y w h).toArray fb d) {px py k : ℕ} (hpy : py < g.scrHeight)
    (hpx : px < g.scrWidth) (hk : k < 3) :
    d[4 * (py * g.scrWidth + px) + k]? =
      if BlitArgs.Covered g.scrWidth g.scrHeight x y w h px py then (rgbBytes (f (py * g.scrWidth + px)))[k]?
      else fb[4 * (py * g.scrWidth + px) + k]? := by
  rw [hd.2 py hpy px hpx k (by omega)]
  split
  · next hc =>
    obtain ⟨h1, h2, h3, h4⟩ := hc
    have hget := getElem?_rectOf rgbBytes_length g f x y (w := w) (h := h) (r := py - y) (c := px - x) (by omega)
      (by omega) hk
    rw [if_neg (by omega), List.getElem?_toArray, rectRgb, hget, Nat.sub_add_cancel h3, Nat.sub_add_cancel h1]
  · rfl

def blue (p : UInt32) : UInt8 := UInt8.ofNat p.toNat
def red (p : UInt32) : UInt8 := UInt8.ofNat (p.toNat / 2 ^ 16)

/-- Red-first and blue-first bytes of a pixel agree exactly when its red is its blue. -/
theorem rgbBytes_eq_pixelBytes_iff (p : UInt32) :
    (∀ k < 3, (rgbBytes p)[k]? = (pixelBytes p)[k]?) ↔ blue p = red p := by
  constructor
  · intro h
    have h0 := h 0 (by omega)
    simp only [rgbBytes, pixelBytes, List.getElem?_cons_zero, Option.some.injEq] at h0
    exact h0.symm
  · intro h k hk
    have hr : UInt8.ofNat (p.toNat / 2 ^ 16) = UInt8.ofNat p.toNat := h.symm
    simp only [rgbBytes, pixelBytes, hr]
    match k, hk with
    | 0, _ => rfl
    | 1, _ => rfl
    | 2, _ => rfl

/-- The framebuffers after the encodings of one rectangle: LZ4 shows what the plain
pixels show, and JPEG has the same colours exactly on pixels whose red is their blue. -/
theorem draw_encodings {c : Codec} {g : Geometry} {f : Frame} {x y w h : ℕ} (hrect : g.OnScreen x y w h)
    {img : JpegImage} (hjpeg : LosslessJpeg c g f x y w h img) (hlz4 : LosslessLz4 c) {fb : Buffer}
    (hfb : fb.size = 4 * (g.scrWidth * g.scrHeight)) :
    ∃ jpeg raw,
      handleRegion c g.announced fb (regionAs .jpegBgra x y w h (compressRgbToJpeg c g f x y w h)) = some (true, jpeg) ∧
      handleRegion c g.announced fb (regionAs .rawBgra x y w h (getRawScreenData g f x y w h)) = some (true, raw) ∧
      (∀ packed, packed = c.lz4Compress (getRawScreenData g f x y w h) (getRawScreenData g f x y w h).length →
        0 < packed.length ∧ packed.length < (getRawScreenData g f x y w h).length →
        handleRegion c g.announced fb (regionAs .lz4Bgra x y w h packed) = some (true, raw)) ∧
      (SameColours g jpeg raw ↔
        ∀ r < h, ∀ i < w, blue (f ((y + r) * g.scrWidth + (x + i))) = red (f ((y + r) * g.scrWidth + (x + i)))) := by
  have hright := hrect.right
  have hbottom := hrect.bottom
  obtain ⟨jpeg, hj, hjd⟩ := blit_drawn hrect (rectRgb g f x y w h).toArray (Or.inl rfl) hfb
    (by rw [List.size_toArray]; exact rectOf_length rgbBytes_length g f x y w h)
  obtain ⟨raw, hr, hrd⟩ := blit_drawn hrect (rectBytes g f x y w h).toArray (Or.inr rfl) hfb
    (by rw [List.size_toArray]; exact rectOf_length pixelBytes_length g f x y w h)
  have hjpegRegion := handleRegion_jpeg hrect hjpeg fb
  have hrawRegion := handleRegion_raw hrect f c fb
  rw [hj, Option.map_some] at hjpegRegion
  rw [hr, Option.map_some] at hrawRegion
  refine ⟨jpeg, raw, hjpegRegion, hrawRegion, ?_, ?_⟩
  · rintro packed rfl ⟨hpos, hlt⟩
    exact (handleRegion_lz4 hrect f hlz4 hpos hlt).trans hrawRegion
  have hpixel : ∀ py < g.scrHeight, ∀ px < g.scrWidth, ∀ k < 3,
      (jpeg[4 * (py * g.scrWidth + px) + k]? = raw[4 * (py * g.scrWidth + px) + k]? ↔
        (BlitArgs.Covered g.scrWidth g.scrHeight x y w h px py →
          (rgbBytes (f (py * g.scrWidth + px)))[k]? = (pixelBytes (f (py * g.scrWidth + px)))[k]?)) := by
    intro py hpy px hpx k hk
    rw [hjd.jpeg_pixel hpy hpx hk, hrd.plain_pixel hpy hpx (by omega)]
    split
    · next hc => simp [hc]
    · next hc => simp [hc]
  constructor
  · intro hsame r hrh i hiw
    refine (rgbBytes_eq_pixelBytes_iff _).mp (fun k hk => ?_)
    exact (hpixel (y + r) (by omega) (x + i) (by omega) k hk).mp (hsame _ (by omega) _ (by omega) k hk)
      ⟨by omega, by omega, by omega, by omega⟩
  · intro hgrey py hpy px hpx k hk
    refine (hpixel py hpy px hpx k hk).mpr (fun hc => ?_)
    obtain ⟨h1, h2, h3, h4⟩ := hc
    have hpix := hgrey (py - y) (by omega) (px - x) (by omega)
    rw [Nat.add_sub_cancel' h3, Nat.add_sub_cancel' h1] at hpix
    exact (rgbBytes_eq_pixelBytes_iff _).mpr hpix k hk

/-- All three encodings of the rectangle are drawn, and their colours agree. -/
def ColoursIndependent (c : Codec) (g : Geometry) (f : Frame) (x y w h : ℕ) (fb : Buffer) : Prop :=
  ∃ jpeg raw,
    handleRegion c g.announced fb (regionAs .jpegBgra x y w h (compressRgbToJpeg c g f x y w h)) = some (true, jpeg) ∧
    handleRegion c g.announced fb (regionAs .rawBgra x y w h (getRawScreenData g f x y w h)) = some (true, raw) ∧
    (∀ packed, packed = c.lz4Compress (getRawScreenData g f x y w h) (getRawScreenData g f x y w h).length →
      0 < packed.length ∧ packed.length < (getRawScreenData g f x y w h).length →
      handleRegion c g.announced fb (regionAs .lz4Bgra x y w h packed) = some (true, raw)) ∧
    SameColours g jpeg raw

/-- A rectangle keeps its colours across the encodings exactly when the red of
each of its pixels is the blue. -/
theorem encodings_same_colours_iff (c : Codec) (g : Geometry) (f : Frame) {x y w h : ℕ} (hrect : g.OnScreen x y w h)
    {img : JpegImage} (hjpeg : LosslessJpeg c g f x y w h img) (hlz4 : LosslessLz4 c) {fb : Buffer}
    (hfb : fb.size = 4 * (g.scrWidth * g.scrHeight)) :
    ColoursIndependent c g f x y w h fb ↔
      ∀ r < h, ∀ i < w, blue (f ((y + r) * g.scrWidth + (x + i))) = red (f ((y + r) * g.scrWidth + (x + i))) := by
  obtain ⟨jpeg, raw, hj, hr, hl, hiff⟩ := draw_encodings hrect hjpeg hlz4 hfb
  rw [← hiff]
  constructor
  · rintro ⟨jpeg', raw', hj', hr', _, hsame⟩
    obtain ⟨_, rfl⟩ := Prod.mk.inj (Option.some.inj (hj.symm.trans hj'))
    obtain ⟨_, rfl⟩ := Prod.mk.inj (Option.some.inj (hr.symm.trans hr'))
    exact hsame
  · exact fun hsame => ⟨jpeg, raw, hj, hr, hl, hsame⟩

def toRgb : Bytes → Bytes
  | b :: g :: r :: _ :: rest => r :: g :: b :: toRgb rest
  | _ => []

/-- The decoder of an ideal JPEG container: the sizes and then the pixels. -/
def idealDecompress (data : Bytes) : Option JpegImage :=
  let w := (ntohl (data.take 4)).toNat
  let h := (ntohl ((data.drop 4).take 4)).toNat
  if hok : w ≤ 65500 ∧ h ≤ 65500 ∧ (toRgb (data.drop 8)).length = w * h * 3 then
    some ⟨w, h, 3, toRgb (data.drop 8), hok.1, hok.2.1, by omega, hok.2.2⟩
  else none

def idealCodec : Codec where
  jpegCompress w h pixels := htonl (UInt32.ofNat w) ++ htonl (UInt32.ofNat h) ++ pixels
  jpegDecompress := idealDecompress
  lz4Compress _ _ := []
  lz4Decompress _ _ := []

theorem idealCodec_jpegDecompress (data : Bytes) : idealCodec.jpegDecompress data = idealDecompress data := rfl

theorem idealDecompress_eq {data : Bytes} {img : JpegImage} (hw : (ntohl (data.take 4)).toNat = img.outputWidth)
    (hh : (ntohl ((data.drop 4).take 4)).toNat = img.outputHeight) (hc : img.outputComponents = 3)
    (hs : toRgb (data.drop 8) = img.scanlines) : idealDecompress data = some img := by
  obtain ⟨w, h, c, rows, hwle, hhle, hcle, hlen⟩ := img
  subst hw hh hc hs
  exact dif_pos ⟨hwle, hhle, hlen⟩

theorem toRgb_pixels (ps : List UInt32) : toRgb (ps.flatMap pixelBytes) = ps.flatMap rgbBytes := by
  induction ps with
  | nil => rfl
  | cons p ps ih => exact congrArg (rgbBytes p ++ ·) ih

theorem toRgb_rectBytes (g : Geometry) (f : Frame) (x y w h : ℕ) :
    toRgb (rectBytes g f x y w h) = rectRgb g f x y w h := by
  have hflat : ∀ bytesOf : UInt32 → Bytes, rectOf bytesOf g f x y w h =
      ((List.range h).flatMap (fun r => (List.range w).map (fun c => f ((r + y) * g.scrWidth + (c + x))))).flatMap
        bytesOf := by
    intro bytesOf
    simp [rectOf, List.flatMap_assoc, List.flatMap_map]
  rw [rectBytes, rectRgb, hflat, hflat, toRgb_pixels]

def cornerImage (f : Frame) : JpegImage :=
  ⟨9, 9, 3, rectRgb screen16 f 0 0 9 9, by omega, by omega, by omega, rectOf_length rgbBytes_length _ _ _ _ _ _⟩

theorem corner_onScreen : screen16.OnScreen 0 0 9 9 := ⟨by omega, by omega, by decide, by decide⟩

theorem corner_lossless (f : Frame) : LosslessJpeg idealCodec screen16 f 0 0 9 9 (cornerImage f) where
  length_pos := by simp [compressRgbToJpeg, idealCodec]
  length_lt := by
    simp only [compressRgbToJpeg, idealCodec, List.length_append, htonl_length, rectBytes,
      rectOf_length pixelBytes_length]
    omega
  decompress := by
    have hdata : compressRgbToJpeg idealCodec screen16 f 0 0 9 9 = htonl 9 ++ htonl 9 ++ rectBytes screen16 f 0 0 9 9 := rfl
    have hw : (htonl 9 ++ htonl 9 ++ rectBytes screen16 f 0 0 9 9).take 4 = htonl 9 := rfl
    have hh : ((htonl 9 ++ htonl 9 ++ rectBytes screen16 f 0 0 9 9).drop 4).take 4 = htonl 9 := rfl
    have hrest : (htonl 9 ++ htonl 9 ++ rectBytes screen16 f 0 0 9 9).drop 8 = rectBytes screen16 f 0 0 9 9 := rfl
    rw [hdata, idealCodec_jpegDecompress]
    refine idealDecompress_eq ?_ ?_ rfl ?_
    · rw [hw, ntohl_htonl]
      rfl
    · rw [hh, ntohl_htonl]
      rfl
    · rw [hrest, toRgb_rectBytes]
      rfl
  width := rfl
  height := rfl
  components := rfl
  scanlines := rfl

theorem idealCodec_lz4 : LosslessLz4 idealCodec := fun _ _ _ hne => absurd rfl hne

/-- A grey corner keeps its colours. -/
theorem grey_corner_same_colours :
    screen16.OnScreen 0 0 9 9 ∧
      ColoursIndependent idealCodec screen16 (fun _ => 0x808080) 0 0 9 9 (Array.replicate 1024 0) := by
  refine ⟨corner_onScreen, (encodings_same_colours_iff idealCodec screen16 (fun _ => 0x808080) corner_onScreen
    (corner_lossless _) idealCodec_lz4 Array.size_replicate).mpr ?_⟩
  intro r _ i _
  rfl

/-- A blue corner turns red when it is sent as JPEG. -/
theorem blue_corner_other_colours :
    ¬ ColoursIndependent idealCodec screen16 (fun _ => 0x0000FF) 0 0 9 9 (Array.replicate 1024 0) := by
  have hsize : (Array.replicate 1024 (0 : UInt8)).size = 1024 := Array.size_replicate
  obtain ⟨jpeg, raw, hj, hr, _, hiff⟩ :=
    draw_encodings corner_onScreen (corner_lossless (fun _ => 0x0000FF)) idealCodec_lz4 hsize
  rintro ⟨jpeg', raw', hj', hr', _, hsame⟩
  obtain ⟨_, rfl⟩ := Prod.mk.inj (Option.some.inj (hj.symm.trans hj'))
  obtain ⟨_, rfl⟩ := Prod.mk.inj (Option.some.inj (hr.symm.trans hr'))
  have hgrey := hiff.mp hsame 0 (by omega) 0 (by omega)
  revert hgrey
  decide

end LilitunRemote

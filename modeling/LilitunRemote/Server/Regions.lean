import LilitunRemote.Protocol.StringRead
import LilitunRemote.Screen.Blit
import LilitunRemote.Screen.Encoding

/-! # The region loop of the control server

A region arrives as six words and a payload, which is read into an array of the
announced length. Its format decides how the payload becomes an image, and the image
is blitted into the framebuffer. The sizes come from the sender.
-/
namespace LilitunRemote
open Memory

structure ScreenInfo where
  width : UInt32
  height : UInt32
  depth : UInt32

/-- The framebuffer allocated for an announced screen: a 32-bit product of bytes. -/
structure Screen where
  info : ScreenInfo
  framebuffer : Buffer
  size_eq : framebuffer.size = (info.width * info.height * (info.depth / 8)).toNat

structure RawImage where
  bytes : Buffer
  width : UInt32
  height : UInt32
  pixelSize : ℕ

inductive Decoded
  | outside
  | rejected
  | image (raw : RawImage)

/-- The format dispatch of the region loop. `rejected` is the branch that clears
`thread_alive`; an unknown format leaves `rawImage` at `NULL`. -/
def decodeRegion (c : Codec) (r : RegionData) : Decoded :=
  match Pix.ofCode r.pixfmt with
  | some .jpegBgra | some .jpegRgba =>
    match c.jpegDecompress r.data with
    | none => .rejected
    | some img =>
      match img.decompressJpegToRaw with
      | none => .outside
      | some bytes => .image ⟨bytes, UInt32.ofNat img.outputWidth, UInt32.ofNat img.outputHeight, img.outputComponents⟩
  | some .lz4Bgra | some .lz4Rgba =>
    let raw := c.lz4Decompress r.data (asInt (r.width * r.height * 4))
    if raw.length ≤ 0 then .rejected else .image ⟨raw.toArray, r.width, r.height, 4⟩
  | some .rawBgra | some .rawRgba => .image ⟨r.data.toArray, r.width, r.height, 4⟩
  | none => .image ⟨#[], r.width, r.height, 4⟩

def blitArgs (info : ScreenInfo) (r : RegionData) (raw : RawImage) : BlitArgs :=
  ⟨asInt info.width, asInt info.height, asInt info.depth, asInt r.x, asInt r.y, asInt raw.width, asInt raw.height,
    raw.pixelSize * 8⟩

theorem blitArgs_srcH (info : ScreenInfo) (r : RegionData) (raw : RawImage) :
    -2 ^ 31 ≤ (blitArgs info r raw).srcH ∧ (blitArgs info r raw).srcH < 2 ^ 31 := by
  simp only [blitArgs]
  exact asInt_bounds raw.height

/-- A region behind the read of its payload: `thread_alive` and the framebuffer
afterwards. `none` is an access outside the payload, the decoded image or the
framebuffer. -/
def handleRegion (c : Codec) (info : ScreenInfo) (framebuffer : Buffer) (r : RegionData) : Option (Bool × Buffer) :=
  if 0 < r.length then
    match decodeRegion c r with
    | .outside => none
    | .rejected => some (false, framebuffer)
    | .image raw => (fbopsBitblit (blitArgs info r raw) raw.bytes framebuffer).map (fun fb => (true, fb))
  else some (true, framebuffer)

structure RegionHeader where
  x : UInt32
  y : UInt32
  width : UInt32
  height : UInt32
  pixfmt : UInt32
  length : UInt32

def RegionHeader.region (header : RegionHeader) (data : Bytes) : RegionData :=
  ⟨header.x, header.y, header.width, header.height, header.pixfmt, header.length, data⟩

/-- One region of the loop, with the answers of the transport to the calls for its payload.
`none` is also a byte of it stored outside `pixdata`. -/
def receiveRegion (c : Codec) (info : ScreenInfo) (framebuffer : Buffer) (header : RegionHeader) (answers : List Bytes) :
    Option (Bool × Buffer) :=
  if 0 < header.length then
    let read := tcpReadAll (asInt header.length) answers
    if read.Stores header.length.toNat then
      match read.total with
      -- the thread waits in `tcp_read`
      | none => some (true, framebuffer)
      | some rlen =>
        if wordOfInt rlen ≠ header.length then some (false, framebuffer)
        else handleRegion c info framebuffer (header.region read.received)
    else none
  else handleRegion c info framebuffer (header.region [])

/-! ## When a region stays inside its buffers -/

/-- No access left its buffer, a drawn region keeps the size of the framebuffer and a
rejected one leaves it unchanged. -/
def Screen.Keeps (s : Screen) (out : Option (Bool × Buffer)) : Prop :=
  ∃ alive fb, out = some (alive, fb) ∧ fb.size = s.framebuffer.size ∧ (alive = false → fb = s.framebuffer)

/-- The region is drawn or rejected, in whatever pieces its payload comes. -/
def RegionInside (c : Codec) (s : Screen) (header : RegionHeader) (stream : Bytes) : Prop :=
  ∀ answers, InPieces stream answers → s.Keeps (receiveRegion c s.info s.framebuffer header answers)

abbrev HandledInside (c : Codec) (s : Screen) (r : RegionData) : Prop :=
  s.Keeps (handleRegion c s.info s.framebuffer r)

def imageFits (s : Screen) (r : RegionData) (srcSize : ℕ) (width height : UInt32) (pixelSize : ℕ) : Prop :=
  (⟨asInt s.info.width, asInt s.info.height, 32, asInt r.x, asInt r.y, asInt width, asInt height, pixelSize * 8⟩ :
    BlitArgs).Fits srcSize s.framebuffer.size

instance (s : Screen) (r : RegionData) (srcSize : ℕ) (width height : UInt32) (pixelSize : ℕ) :
    Decidable (imageFits s r srcSize width height pixelSize) := inferInstanceAs (Decidable (BlitArgs.Fits _ _ _))

def RegionFits (c : Codec) (s : Screen) (r : RegionData) : Prop :=
  r.length = 0 ∨
    match Pix.ofCode r.pixfmt with
    | some .jpegBgra | some .jpegRgba =>
      ∀ img, c.jpegDecompress r.data = some img →
        img.outputWidth * img.outputHeight * img.outputComponents < 2 ^ 32 ∧
          (img.outputComponents = 3 ∨ img.outputComponents = 4 →
            imageFits s r img.scanlines.length (UInt32.ofNat img.outputWidth) (UInt32.ofNat img.outputHeight)
              img.outputComponents)
    | some .lz4Bgra | some .lz4Rgba =>
      c.lz4Decompress r.data (asInt (r.width * r.height * 4)) = [] ∨
        imageFits s r (c.lz4Decompress r.data (asInt (r.width * r.height * 4))).length r.width r.height 4
    | some .rawBgra | some .rawRgba => imageFits s r r.data.length r.width r.height 4
    | none => imageFits s r 0 r.width r.height 4

/-- The blitter runs to its end exactly when the image fits; other pixel sizes
than three and four bytes copy nothing. -/
theorem fbopsBitblit_isSome_iff {a : BlitArgs} (hd : a.bytesppDst = 4) (hlo : -2 ^ 31 ≤ a.srcH) (hhi : a.srcH < 2 ^ 31)
    (src : Buffer) {dst : Buffer} (hsize : dst.size < 2 ^ 32) :
    (∃ d, fbopsBitblit a src dst = some d) ↔
      (a.bytesppSrc = 3 ∨ a.bytesppSrc = 4 → a.Fits src.size dst.size) := by
  simp only [fbopsBitblit_eq a src dst hlo hhi, copies_eq_some]
  by_cases hs : a.bytesppSrc = 3 ∨ a.bytesppSrc = 4
  · rw [← BlitArgs.copies_inside_iff hd hs hsize]
    simp only [exists_and_left, exists_eq, and_true, hs, true_imp_iff]
  · have hnone : ∀ p q i, a.pixelCopies p q i = [] := fun p q i => if_neg (fun hc => hs hc.2)
    have hcopies : a.copies = [] := by simp [BlitArgs.copies, BlitArgs.rowCopies, hnone]
    simp [hcopies, hs]

theorem fbopsBitblit_size {a : BlitArgs} (hlo : -2 ^ 31 ≤ a.srcH) (hhi : a.srcH < 2 ^ 31) {src dst d : Buffer}
    (h : fbopsBitblit a src dst = some d) : d.size = dst.size := by
  rw [fbopsBitblit_eq a src dst hlo hhi] at h
  rw [(copies_eq_some.mp h).2, size_copies]

theorem wrapChar_pixelSize {n : ℕ} (h : n ≤ 10) : wrapChar (((n : ℤ) * 8).tdiv 8) = n := by
  rw [Int.mul_tdiv_cancel _ (by omega), wrapChar]
  omega

theorem draw_inside_iff {s : Screen} (hdepth : s.info.depth = 32) (r : RegionData) {raw : RawImage}
    (hpix : raw.pixelSize ≤ 10) :
    (∃ fb, fbopsBitblit (blitArgs s.info r raw) raw.bytes s.framebuffer = some fb) ↔
      (raw.pixelSize = 3 ∨ raw.pixelSize = 4 →
        imageFits s r raw.bytes.size raw.width raw.height raw.pixelSize) := by
  have hdst : asInt s.info.depth = 32 := by
    rw [hdepth]
    exact asInt_ofNat (n := 32) (by omega)
  have hsize : s.framebuffer.size < 2 ^ 32 := by
    rw [s.size_eq]
    exact UInt32.toNat_lt _
  have hsrc : (blitArgs s.info r raw).bytesppSrc = raw.pixelSize := wrapChar_pixelSize hpix
  have hb : (blitArgs s.info r raw).bytesppDst = 4 := by
    simp only [BlitArgs.bytesppDst, blitArgs, hdst]
    rfl
  have hiff := fbopsBitblit_isSome_iff hb (blitArgs_srcH _ _ _).1 (blitArgs_srcH _ _ _).2 raw.bytes hsize
  have h3 : ((raw.pixelSize : ℤ) = 3) = (raw.pixelSize = 3) := propext ⟨fun h => by omega, fun h => by omega⟩
  have h4 : ((raw.pixelSize : ℤ) = 4) = (raw.pixelSize = 4) := propext ⟨fun h => by omega, fun h => by omega⟩
  rw [hsrc, h3, h4] at hiff
  rw [hiff]
  simp only [imageFits, blitArgs, hdst]

theorem handledInside_of_image {c : Codec} {s : Screen} {r : RegionData} {raw : RawImage}
    (hdepth : s.info.depth = 32) (hlen : 0 < r.length) (hdec : decodeRegion c r = .image raw) (hpix : raw.pixelSize ≤ 10) :
    HandledInside c s r ↔ (raw.pixelSize = 3 ∨ raw.pixelSize = 4 →
      imageFits s r raw.bytes.size raw.width raw.height raw.pixelSize) := by
  rw [← draw_inside_iff hdepth r hpix]
  simp only [HandledInside, Screen.Keeps, handleRegion, hlen, if_true, hdec, Option.map_eq_some_iff, Prod.mk.injEq]
  constructor
  · rintro ⟨_, fb, ⟨fb', hfb', _, rfl⟩, _⟩
    exact ⟨fb', hfb'⟩
  · rintro ⟨fb, hfb⟩
    exact ⟨true, fb, ⟨fb, hfb, rfl, rfl⟩, fbopsBitblit_size (blitArgs_srcH _ _ _).1 (blitArgs_srcH _ _ _).2 hfb, by simp⟩

theorem handledInside_of_rejected {c : Codec} {s : Screen} {r : RegionData} (hlen : 0 < r.length)
    (hdec : decodeRegion c r = .rejected) : HandledInside c s r :=
  ⟨false, s.framebuffer, by simp [handleRegion, hlen, hdec], rfl, fun _ => rfl⟩

/-- A JPEG whose scanlines need more than `2^32` bytes overruns its buffer; any
other is an image of the size it announces. -/
theorem decodeRegion_jpeg {c : Codec} {r : RegionData} {img : JpegImage}
    (hfmt : Pix.ofCode r.pixfmt = some .jpegBgra ∨ Pix.ofCode r.pixfmt = some .jpegRgba)
    (himg : c.jpegDecompress r.data = some img) :
    decodeRegion c r =
      if img.outputWidth * img.outputHeight * img.outputComponents < 2 ^ 32 then
        .image ⟨img.scanlines.toArray, UInt32.ofNat img.outputWidth, UInt32.ofNat img.outputHeight, img.outputComponents⟩
      else .outside := by
  split
  · next h => rcases hfmt with hfmt | hfmt <;> simp [decodeRegion, hfmt, himg, img.decompressJpegToRaw_eq h]
  · next h =>
    rcases hfmt with hfmt | hfmt <;>
      simp [decodeRegion, hfmt, himg, img.decompressJpegToRaw_eq_none (Nat.le_of_not_lt h)]

theorem handledInside_jpeg {c : Codec} {s : Screen} {r : RegionData} (hdepth : s.info.depth = 32) (hlen : 0 < r.length)
    (hfmt : Pix.ofCode r.pixfmt = some .jpegBgra ∨ Pix.ofCode r.pixfmt = some .jpegRgba) :
    HandledInside c s r ↔ ∀ img, c.jpegDecompress r.data = some img →
      img.outputWidth * img.outputHeight * img.outputComponents < 2 ^ 32 ∧
        (img.outputComponents = 3 ∨ img.outputComponents = 4 →
          imageFits s r img.scanlines.length (UInt32.ofNat img.outputWidth) (UInt32.ofNat img.outputHeight)
            img.outputComponents) := by
  cases himg : c.jpegDecompress r.data with
  | none =>
    have hdec : decodeRegion c r = .rejected := by rcases hfmt with hfmt | hfmt <;> simp [decodeRegion, hfmt, himg]
    simp [handledInside_of_rejected hlen hdec]
  | some img =>
    have hdec := decodeRegion_jpeg hfmt himg
    simp only [Option.some.injEq, forall_eq']
    by_cases h : img.outputWidth * img.outputHeight * img.outputComponents < 2 ^ 32
    · rw [if_pos h] at hdec
      rw [handledInside_of_image hdepth hlen hdec img.components_le, List.size_toArray]
      simp only [h, true_and]
    · rw [if_neg h] at hdec
      simp only [HandledInside, Screen.Keeps, handleRegion, hlen, if_true, hdec, reduceCtorEq, false_and, exists_false, h]

theorem handledInside_lz4 {c : Codec} {s : Screen} {r : RegionData} (hdepth : s.info.depth = 32) (hlen : 0 < r.length)
    (hfmt : Pix.ofCode r.pixfmt = some .lz4Bgra ∨ Pix.ofCode r.pixfmt = some .lz4Rgba) :
    HandledInside c s r ↔ c.lz4Decompress r.data (asInt (r.width * r.height * 4)) = [] ∨
      imageFits s r (c.lz4Decompress r.data (asInt (r.width * r.height * 4))).length r.width r.height 4 := by
  by_cases hraw : c.lz4Decompress r.data (asInt (r.width * r.height * 4)) = []
  · have hdec : decodeRegion c r = .rejected := by rcases hfmt with hfmt | hfmt <;> simp [decodeRegion, hfmt, hraw]
    simp [handledInside_of_rejected hlen hdec, hraw]
  · have hdec : decodeRegion c r =
        .image ⟨(c.lz4Decompress r.data (asInt (r.width * r.height * 4))).toArray, r.width, r.height, 4⟩ := by
      rcases hfmt with hfmt | hfmt <;> simp [decodeRegion, hfmt, hraw]
    rw [handledInside_of_image hdepth hlen hdec (by simp)]
    simp [hraw]

/-- The accesses of a region stay inside the payload, the decoded image and the
framebuffer exactly when the region fits. -/
theorem handled_inside_iff_fits (c : Codec) (s : Screen) (hdepth : s.info.depth = 32) (r : RegionData) :
    HandledInside c s r ↔ RegionFits c s r := by
  by_cases hzero : r.length = 0
  · have hnot : ¬ 0 < r.length := by simp [hzero]
    have hdone : HandledInside c s r := ⟨true, s.framebuffer, by simp [handleRegion, hnot], rfl, by simp⟩
    exact iff_of_true hdone (Or.inl hzero)
  · have hlen : 0 < r.length := UInt32.pos_iff_ne_zero.mpr hzero
    simp only [RegionFits, hzero, false_or]
    cases hfmt : Pix.ofCode r.pixfmt with
    | none =>
      have hdec : decodeRegion c r = .image ⟨#[], r.width, r.height, 4⟩ := by simp [decodeRegion, hfmt]
      rw [handledInside_of_image hdepth hlen hdec (by simp)]
      simp
    | some pix =>
      cases pix with
      | jpegBgra => exact handledInside_jpeg hdepth hlen (Or.inl hfmt)
      | jpegRgba => exact handledInside_jpeg hdepth hlen (Or.inr hfmt)
      | lz4Bgra => exact handledInside_lz4 hdepth hlen (Or.inl hfmt)
      | lz4Rgba => exact handledInside_lz4 hdepth hlen (Or.inr hfmt)
      | rawBgra | rawRgba =>
        have hdec : decodeRegion c r = .image ⟨r.data.toArray, r.width, r.height, 4⟩ := by simp [decodeRegion, hfmt]
        rw [handledInside_of_image hdepth hlen hdec (by simp)]
        simp

/-! ## The payload -/

/-- The condition on the header and on the bytes behind it. -/
def StreamFits (c : Codec) (s : Screen) (header : RegionHeader) (stream : Bytes) : Prop :=
  (header.length.toNat ≤ 2 ^ 31 ∨ stream.length ≤ 2 ^ 31) ∧
    (stream.length < header.length.toNat ∨ RegionFits c s (header.region (stream.take header.length.toNat)))

section Receive
variable {c : Codec} {s : Screen} {header : RegionHeader} {stream : Bytes} {answers : List Bytes}

theorem receiveRegion_empty (h : ¬ 0 < header.length) :
    receiveRegion c s.info s.framebuffer header answers = some (true, s.framebuffer) := by
  rw [receiveRegion, if_neg h, handleRegion]
  exact if_neg h

/-- A payload that is not all there is waited for, or rejected. -/
theorem keeps_of_short (hpos : 0 < header.length) (h : InPieces stream answers)
    (hint : header.length.toNat ≤ 2 ^ 31 ∨ stream.length ≤ 2 ^ 31) (hshort : stream.length < header.length.toNat) :
    s.Keeps (receiveRegion c s.info s.framebuffer header answers) := by
  have hrefused := (tcpReadAll_takes header.length h).short hshort
  rw [receiveRegion, if_pos hpos]
  simp only [if_pos (tcpReadAll_stores h hint)]
  cases htotal : (tcpReadAll (asInt header.length) answers).total with
  | none => exact ⟨true, s.framebuffer, rfl, rfl, fun _ => rfl⟩
  | some rlen =>
    simp only [if_pos (hrefused rlen htotal)]
    exact ⟨false, s.framebuffer, rfl, rfl, fun _ => rfl⟩

/-- A payload that is all there is handled. -/
theorem receiveRegion_complete (hpos : 0 < header.length) (h : InPieces stream answers)
    (hint : header.length.toNat ≤ 2 ^ 31 ∨ stream.length ≤ 2 ^ 31) (hall : header.length.toNat ≤ stream.length) :
    receiveRegion c s.info s.framebuffer header answers =
      handleRegion c s.info s.framebuffer (header.region (stream.take header.length.toNat)) := by
  have htakes := tcpReadAll_takes header.length h
  rw [receiveRegion, if_pos hpos]
  simp only [if_pos (tcpReadAll_stores h hint), htakes.complete hall, htakes.received, wordOfInt_asInt, ne_eq, not_true,
    if_false, Nat.sub_zero]

/-- A payload whose total leaves the `int`s is not read inside its array. -/
theorem not_regionInside_of_long (hlength : 2 ^ 31 < header.length.toNat) (hstream : 2 ^ 31 < stream.length) :
    ¬ RegionInside c s header stream := by
  intro hinside
  obtain ⟨alive, fb, hreceive, -⟩ := hinside _ (inPieces_single stream)
  have hpos : 0 < header.length := UInt32.lt_iff_toNat_lt.mpr (Nat.lt_trans (by decide) hlength)
  rw [receiveRegion, if_pos hpos] at hreceive
  simp only [if_neg (tcpReadAll_leaves hlength hstream)] at hreceive
  cases hreceive

end Receive

def smallScreen : Screen := ⟨⟨16, 16, 32⟩, Array.replicate 1024 0, Array.size_replicate.trans (by decide)⟩

end LilitunRemote

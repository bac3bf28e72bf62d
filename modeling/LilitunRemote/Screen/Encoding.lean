import LilitunRemote.Protocol.Wire
import LilitunRemote.Foundation.Memory
import LilitunRemote.Foundation.Mirror

/-! # The encodings of a screen rectangle

The projector sends a rectangle as JPEG, as LZ4 or as plain pixels, and the
control server decodes it into a buffer for the blitter. libjpeg and LZ4 are
parameters; a decoded JPEG carries what its header promises.
-/
namespace LilitunRemote
open Memory

/-- Pixel memory addressed as in the source, by `y * scrWidth + x`. -/
abbrev Frame := ℕ → UInt32

/-- The four bytes of a pixel in memory order: blue, green, red, alpha. -/
def pixelBytes (p : UInt32) : Bytes :=
  [UInt8.ofNat p.toNat, UInt8.ofNat (p.toNat / 2 ^ 8), UInt8.ofNat (p.toNat / 2 ^ 16), UInt8.ofNat (p.toNat / 2 ^ 24)]

@[simp] theorem pixelBytes_length (p : UInt32) : (pixelBytes p).length = 4 := rfl

/-- A decompressed JPEG: its header, within `JPEG_MAX_DIMENSION` and `MAX_COMPONENTS`,
and the scanlines it announces. -/
structure JpegImage where
  outputWidth : ℕ
  outputHeight : ℕ
  outputComponents : ℕ
  scanlines : Bytes
  width_le : outputWidth ≤ 65500
  height_le : outputHeight ≤ 65500
  components_le : outputComponents ≤ 10
  scanlines_length : scanlines.length = outputWidth * outputHeight * outputComponents

structure Codec where
  /-- libjpeg on `height` scanlines of `width` BGRA pixels. -/
  jpegCompress : (width height : ℕ) → Bytes → Bytes
  /-- libjpeg on a received image; `none` is a rejected header. -/
  jpegDecompress : Bytes → Option JpegImage
  /-- `LZ4_compress_default` with the given capacity: the bytes it counts in its result. -/
  lz4Compress : Bytes → ℕ → Bytes
  /-- `LZ4_decompress_safe` with the given capacity: the bytes it counts in its
  result, none of them for a result that is not positive. -/
  lz4Decompress : Bytes → ℤ → Bytes

/-- The codecs on small noise: a JPEG's tables alone outgrow the pixels, and LZ4
finds nothing to compress. -/
def noiseCodec : Codec where
  jpegCompress _ _ pixels := List.replicate 623 0 ++ pixels
  jpegDecompress _ := none
  lz4Compress _ _ := []
  lz4Decompress _ _ := []

/-- The grabbed screen; `compare_buf` is allocated with its size in an `int`. -/
structure Geometry where
  scrWidth : ℕ
  scrHeight : ℕ
  width_pos : 0 < scrWidth
  height_pos : 0 < scrHeight
  size_lt : 4 * (scrWidth * scrHeight) < 2 ^ 31

namespace Geometry
variable (g : Geometry)

theorem width_lt : g.scrWidth < 2 ^ 29 := by
  have hle := Nat.mul_le_mul_left g.scrWidth g.height_pos
  have hlt := g.size_lt
  omega

theorem height_lt : g.scrHeight < 2 ^ 29 := by
  have hle := Nat.mul_le_mul_right g.scrHeight g.width_pos
  have hlt := g.size_lt
  omega

structure OnScreen (x y w h : ℕ) : Prop where
  width_pos : 0 < w
  height_pos : 0 < h
  right : x + w ≤ g.scrWidth
  bottom : y + h ≤ g.scrHeight

end Geometry

def screen16 : Geometry := ⟨16, 16, by decide, by decide, by decide⟩

section
variable {g : Geometry} {x y w h : ℕ}

theorem Geometry.OnScreen.area_lt (hrect : g.OnScreen x y w h) : 4 * (w * h) < 2 ^ 31 := by
  have hw : w ≤ g.scrWidth := by have := hrect.right; omega
  have hh : h ≤ g.scrHeight := by have := hrect.bottom; omega
  have hle := Nat.mul_le_mul hw hh
  have hlt := g.size_lt
  omega

theorem Geometry.OnScreen.area_pos (hrect : g.OnScreen x y w h) : 0 < w * h :=
  Nat.mul_pos hrect.width_pos hrect.height_pos

end

/-- `struct region_data`, which is also what the server reads back from the wire:
six header words and the bytes after them. -/
structure RegionData where
  x : UInt32
  y : UInt32
  width : UInt32
  height : UInt32
  pixfmt : UInt32
  length : UInt32
  data : Bytes
  deriving DecidableEq

def regionAs (pix : Pix) (x y w h : ℕ) (data : Bytes) : RegionData :=
  ⟨UInt32.ofNat x, UInt32.ofNat y, UInt32.ofNat w, UInt32.ofNat h, pix.code, UInt32.ofNat data.length, data⟩

/-! ## The projector's side -/

/-- The red, green and blue bytes of a pixel, as libjpeg returns them by default. -/
def rgbBytes (p : UInt32) : Bytes :=
  [UInt8.ofNat (p.toNat / 2 ^ 16), UInt8.ofNat (p.toNat / 2 ^ 8), UInt8.ofNat p.toNat]

@[simp] theorem rgbBytes_length (p : UInt32) : (rgbBytes p).length = 3 := rfl

def rectOf (bytesOf : UInt32 → Bytes) (g : Geometry) (f : Frame) (x y w h : ℕ) : Bytes :=
  (List.range h).flatMap (fun r => (List.range w).flatMap (fun c => bytesOf (f ((r + y) * g.scrWidth + (c + x)))))

def rectBytes (g : Geometry) (f : Frame) (x y w h : ℕ) : Bytes := rectOf pixelBytes g f x y w h
def rectRgb (g : Geometry) (f : Frame) (x y w h : ℕ) : Bytes := rectOf rgbBytes g f x y w h

section Rect
variable {bytesOf : UInt32 → Bytes} {n : ℕ} (hn : ∀ p, (bytesOf p).length = n) (g : Geometry) (f : Frame) (x y : ℕ)
include hn

theorem rectRow_length (w r : ℕ) :
    ((List.range w).flatMap (fun c => bytesOf (f ((r + y) * g.scrWidth + (c + x))))).length = n * w := by
  rw [length_flatMap_const (fun c => hn _), List.length_range]

theorem rectOf_length (w h : ℕ) : (rectOf bytesOf g f x y w h).length = n * (w * h) := by
  rw [rectOf, length_flatMap_const (rectRow_length hn g f x y w), List.length_range, Nat.mul_assoc]

theorem getElem?_rectOf {w h r c k : ℕ} (hr : r < h) (hc : c < w) (hk : k < n) :
    (rectOf bytesOf g f x y w h)[n * (r * w + c) + k]? = (bytesOf (f ((r + y) * g.scrWidth + (c + x))))[k]? := by
  have hidx : n * (r * w + c) + k = n * w * r + (n * c + k) := by ring
  have hlt : n * c + k < n * w := by
    have hle := Nat.mul_le_mul_left n (Nat.succ_le_of_lt hc)
    rw [Nat.mul_succ] at hle
    omega
  rw [rectOf, hidx, getElem?_flatMap_const (rectRow_length hn g f x y w) _ hlt, List.getElem?_range hr,
    Option.bind_some, getElem?_flatMap_const (fun c => hn _) _ hk, List.getElem?_range hc, Option.bind_some]

end Rect

def getRawScreenData (g : Geometry) (compareBuf : Frame) (x y w h : ℕ) : Bytes := rectBytes g compareBuf x y w h

def compressRgbToJpeg (c : Codec) (g : Geometry) (fb : Frame) (x y w h : ℕ) : Bytes :=
  c.jpegCompress w h (rectBytes g fb x y w h)

/-- The encoding of a rectangle: JPEG unless it is larger than the pixels, then
LZ4 if that makes them smaller. -/
def encodeRect (c : Codec) (g : Geometry) (fb compareBuf : Frame) (x y w h : ℕ) : Pix × Bytes :=
  let jpeg := compressRgbToJpeg c g fb x y w h
  if jpeg.length > w * h * 4 then
    let raw := getRawScreenData g compareBuf x y w h
    let packed := c.lz4Compress raw raw.length
    if 0 < packed.length ∧ packed.length < raw.length then (.lz4Bgra, packed) else (.rawBgra, raw)
  else (.jpegBgra, jpeg)

theorem encodeRect_cases (c : Codec) (g : Geometry) (fb compareBuf : Frame) (x y w h : ℕ) :
    (encodeRect c g fb compareBuf x y w h = (.jpegBgra, compressRgbToJpeg c g fb x y w h) ∧
      (compressRgbToJpeg c g fb x y w h).length ≤ w * h * 4) ∨
    encodeRect c g fb compareBuf x y w h = (.rawBgra, rectBytes g compareBuf x y w h) ∨
    ∃ packed, packed = c.lz4Compress (rectBytes g compareBuf x y w h) (rectBytes g compareBuf x y w h).length ∧
      0 < packed.length ∧ packed.length < (rectBytes g compareBuf x y w h).length ∧
      encodeRect c g fb compareBuf x y w h = (.lz4Bgra, packed) := by
  by_cases hjpeg : (compressRgbToJpeg c g fb x y w h).length > w * h * 4
  · obtain ⟨packed, hp⟩ : ∃ packed, packed = c.lz4Compress (rectBytes g compareBuf x y w h)
      (rectBytes g compareBuf x y w h).length := ⟨_, rfl⟩
    have henc : encodeRect c g fb compareBuf x y w h =
        if 0 < packed.length ∧ packed.length < (rectBytes g compareBuf x y w h).length then (.lz4Bgra, packed)
        else (.rawBgra, rectBytes g compareBuf x y w h) := by
      subst hp
      exact if_pos hjpeg
    by_cases hpacked : 0 < packed.length ∧ packed.length < (rectBytes g compareBuf x y w h).length
    · exact Or.inr (Or.inr ⟨packed, hp, hpacked.1, hpacked.2, henc.trans (if_pos hpacked)⟩)
    · exact Or.inr (Or.inl (henc.trans (if_neg hpacked)))
  · exact Or.inl ⟨if_neg hjpeg, Nat.le_of_not_lt hjpeg⟩

/-! ## The control server's JPEG buffer -/

namespace JpegImage
variable (img : JpegImage)

def rowBytes : ℕ := img.outputWidth * img.outputComponents

/-- The stores of the scanlines: `output_scanline * row_stride` is a 32-bit product. -/
def scanlineCopies : List Copy :=
  (List.range img.outputHeight).flatMap (fun line : ℕ => (List.range img.rowBytes).map (fun i : ℕ =>
    (((line * img.rowBytes % 2 ^ 32 + i : ℕ) : ℤ), some ((line * img.rowBytes + i : ℕ) : ℤ))))

/-- `decompress_jpeg_to_raw` after the header was accepted: the output buffer has
the 32-bit product of the announced sizes. `none` is a store outside it. -/
def decompressJpegToRaw : Option Buffer :=
  img.scanlineCopies.foldlM (copyByte img.scanlines.toArray)
    (Array.replicate (img.outputWidth * img.outputHeight * img.outputComponents % 2 ^ 32) 0)

theorem mem_scanlineCopies {c : Copy} :
    c ∈ img.scanlineCopies ↔ ∃ line < img.outputHeight, ∃ i < img.rowBytes,
      c = (((line * img.rowBytes % 2 ^ 32 + i : ℕ) : ℤ), some ((line * img.rowBytes + i : ℕ) : ℤ)) := by
  simp only [scanlineCopies, List.mem_flatMap, List.mem_map, List.mem_range]
  constructor
  · rintro ⟨line, hline, i, hi, rfl⟩
    exact ⟨line, hline, i, hi, rfl⟩
  · rintro ⟨line, hline, i, hi, rfl⟩
    exact ⟨line, hline, i, hi, rfl⟩

theorem size_eq : img.outputWidth * img.outputHeight * img.outputComponents = img.rowBytes * img.outputHeight := by
  rw [rowBytes]
  ring

theorem decompressJpegToRaw_eq (h : img.outputWidth * img.outputHeight * img.outputComponents < 2 ^ 32) :
    img.decompressJpegToRaw = some img.scanlines.toArray := by
  have hlen := img.scanlines_length
  rw [size_eq] at h hlen
  have hplain : ∀ line < img.outputHeight, line * img.rowBytes % 2 ^ 32 = line * img.rowBytes := by
    intro line hline
    have hle := Nat.mul_le_mul_right img.rowBytes (Nat.le_of_lt hline)
    rw [Nat.mul_comm img.outputHeight] at hle
    exact Nat.mod_eq_of_lt (by omega)
  rw [decompressJpegToRaw, size_eq, Nat.mod_eq_of_lt h]
  refine copies_eq_some.mpr ⟨?_, ?_⟩
  · intro c hc
    obtain ⟨line, hline, i, hi, rfl⟩ := img.mem_scanlineCopies.mp hc
    have hidx := Grid.index_lt hi hline
    simp only [CopyInside, Inside, hplain line hline, Array.size_replicate, List.size_toArray, hlen, Option.some.injEq,
      forall_eq']
    omega
  · apply Array.ext_getElem?
    intro k
    by_cases hk : k < img.rowBytes * img.outputHeight
    · obtain ⟨line, hline, i, hi, rfl⟩ := Grid.exists_coords hk
      rw [getElem?_copies (by simpa using hk) (img.scanlines.toArray.getD (line * img.rowBytes + i) 0), if_pos]
      · rw [Array.getD_eq_getD_getElem?, getElem?_pos _ _ (by simpa [hlen] using hk), Option.getD_some]
      · refine ⟨_, img.mem_scanlineCopies.mpr ⟨line, hline, i, hi, rfl⟩, ?_⟩
        simp only [hplain line hline, Int.toNat_natCast]
      · intro c hc he
        obtain ⟨line', hline', i', hi', rfl⟩ := img.mem_scanlineCopies.mp hc
        simp only [hplain line' hline', Int.toNat_natCast] at he
        simp only [copyValue, Int.toNat_natCast, he]
    · have hdst : (img.scanlineCopies.foldl (copyPure img.scanlines.toArray)
          (Array.replicate (img.rowBytes * img.outputHeight) 0)).size ≤ k := by
        rw [size_copies, Array.size_replicate]
        omega
      have hsrc : img.scanlines.toArray.size ≤ k := by
        rw [List.size_toArray, hlen]
        omega
      rw [Array.getElem?_eq_none hsrc, Array.getElem?_eq_none hdst]

/-- From `2^32` bytes on the buffer is too small for the scanline that reaches them. -/
theorem decompressJpegToRaw_eq_none (h : 2 ^ 32 ≤ img.outputWidth * img.outputHeight * img.outputComponents) :
    img.decompressJpegToRaw = none := by
  rw [decompressJpegToRaw, size_eq]
  rw [size_eq] at h
  have hrow : 0 < img.rowBytes := by
    rcases Nat.eq_zero_or_pos img.rowBytes with h0 | h0
    · rw [h0, Nat.zero_mul] at h
      omega
    · exact h0
  -- the last scanline that starts below 2^32
  obtain ⟨line, hline⟩ : ∃ line, line = (2 ^ 32 - 1) / img.rowBytes := ⟨_, rfl⟩
  have hlo : line * img.rowBytes ≤ 2 ^ 32 - 1 := by rw [hline]; exact Nat.div_mul_le_self _ _
  have hhi : 2 ^ 32 - 1 < line * img.rowBytes + img.rowBytes := by
    have := Nat.lt_div_mul_add (a := 2 ^ 32 - 1) hrow
    rwa [← hline] at this
  have hlt : line < img.outputHeight := by
    by_contra hge
    have hle := Nat.mul_le_mul_right img.rowBytes (Nat.le_of_not_lt hge)
    rw [Nat.mul_comm img.outputHeight] at hle
    omega
  cases hout : img.scanlineCopies.foldlM (copyByte img.scanlines.toArray)
      (Array.replicate (img.rowBytes * img.outputHeight % 2 ^ 32) 0) with
  | none => rfl
  | some out =>
    have hin := ((copies_eq_some.mp hout).1 _
      (img.mem_scanlineCopies.mpr ⟨line, hlt, img.rowBytes - 1, by omega, rfl⟩)).1
    simp only [Inside, Array.size_replicate] at hin
    omega

end JpegImage
end LilitunRemote

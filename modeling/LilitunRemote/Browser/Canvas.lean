import LilitunRemote.Browser.Client
import LilitunRemote.Foundation.Layers
import LilitunRemote.Foundation.Transition

/-! # The canvas of the browser's client

`socket.onmessage` paints RAW and LZ4 regions as they arrive, and a JPEG region when the
`onload` callback of its image fires. The canvas shows a part of an unbounded plane of pixels.
-/
namespace LilitunRemote
namespace Browser

structure Colour where
  r : UInt8
  g : UInt8
  b : UInt8
  a : UInt8
  deriving DecidableEq, Repr

abbrev Pixel := ℤ × ℤ

/-- The decoders: a pixel of an image drawn with a width and a height, and `lz4.decompress`
with its limit, or nothing if it throws. -/
structure Decoders where
  jpeg : Bytes → ℤ → ℤ → Pixel → Colour
  lz4 : Bytes → ℤ → Option Bytes

def RegionHeader.Is (header : RegionHeader) (p q : Pix) : Prop := header.depth = p.code.toNat ∨ header.depth = q.code.toNat

instance (header : RegionHeader) (p q : Pix) : Decidable (header.Is p q) := inferInstanceAs (Decidable (_ ∨ _))

abbrev RegionHeader.IsJpeg (header : RegionHeader) : Prop := header.Is .jpegRgba .jpegBgra
abbrev RegionHeader.IsLz4 (header : RegionHeader) : Prop := header.Is .lz4Rgba .lz4Bgra
abbrev RegionHeader.IsRaw (header : RegionHeader) : Prop := header.Is .rawRgba .rawBgra

def Within (x y w h : ℤ) (p : Pixel) : Prop := x ≤ p.1 ∧ p.1 < x + w ∧ y ≤ p.2 ∧ p.2 < y + h

instance (x y w h : ℤ) (p : Pixel) : Decidable (Within x y w h p) := inferInstanceAs (Decidable (_ ∧ _))

/-- `putImageData` of the bytes with red and blue exchanged and full opacity. -/
def putImageData (img : Bytes) (header : RegionHeader) : Layer Pixel Colour := fun p =>
  if Within header.x header.y header.width header.height p then
    let i := (((p.2 - header.y) * header.width + (p.1 - header.x)) * 4).toNat
    some ⟨img.getD (i + 2) 0, img.getD (i + 1) 0, img.getD i 0, 0xff⟩
  else none

def drawImage (d : Decoders) (data : Bytes) (header : RegionHeader) : Layer Pixel Colour := fun p =>
  if Within (min header.x (header.x + header.width)) (min header.y (header.y + header.height)) |header.width| |header.height| p then
    some (d.jpeg data header.width header.height (p.1 - header.x, p.2 - header.y))
  else none

/-- What a received region paints; one of an unsupported format paints nothing. -/
def regionLayer (d : Decoders) (region : RegionHeader × Bytes) : Layer Pixel Colour :=
  let (header, data) := region
  if header.IsJpeg then drawImage d data header
  else if header.IsLz4 then
    match d.lz4 data (header.width * header.height * 4) with
    | none => fun _ => none
    | some img => putImageData img header
  else if header.IsRaw then putImageData data header
  else fun _ => none

/-- `new ImageData` throws if a side is not positive or the bytes do not fill it. -/
def throws (d : Decoders) (header : RegionHeader) (data : Bytes) : Bool :=
  if header.IsJpeg then false
  else if header.IsLz4 then
    match d.lz4 data (header.width * header.height * 4) with
    | none => true
    | some img => decide (¬ (0 < header.width ∧ 0 < header.height ∧ (img.length : ℤ) = header.width * header.height * 4))
  else if header.IsRaw then decide (¬ (0 < header.width ∧ 0 < header.height))
  else false

/-- The client with its canvas. An image whose `onload` has not fired is known by the place of its
region among those handed over; its callback keeps the values the header had then. -/
structure Page where
  client : Client
  canvas : Pixel → Colour
  pending : List ℕ

def Page.layers (d : Decoders) (page : Page) : List (Layer Pixel Colour) := page.client.drawn.map (regionLayer d)

def Page.start : Page := ⟨Client.start.onopen.1, fun _ => ⟨0, 0, 0, 0⟩, []⟩

/-- `socket.onmessage` with what it does to the canvas; setting the size of the canvas clears it. -/
def Page.onmessage (d : Decoders) (password : Bytes) (page : Page) (data : Bytes) : Page :=
  let client := (page.client.onmessage password data).1
  match page.client.request, page.client.state with
  | .code .screenInfo, .readAck => ⟨client, fun _ => ⟨0, 0, 0, 0⟩, page.pending⟩
  | .code .screenUpdate, .readRegionData =>
    if throws d page.client.regionHeader data then page
    else if page.client.regionHeader.IsJpeg then ⟨client, page.canvas, page.pending ++ [page.client.drawn.length]⟩
    else ⟨client, Layer.paint page.canvas (regionLayer d (page.client.regionHeader, data)), page.pending⟩
  | _, _ => ⟨client, page.canvas, page.pending⟩

inductive PageEvent
  | message (data : Bytes)
  | onload (image : ℕ)
  | timeout
  | input (events : List InputEvent)
  | close

def Page.step (d : Decoders) (password : Bytes) (page : Page) : PageEvent → Option Page
  | .message data => some (page.onmessage d password data)
  | .onload image =>
    if image ∈ page.pending then
      (page.layers d)[image]?.map (fun l => ⟨page.client, Layer.paint page.canvas l, page.pending.erase image⟩)
    else none
  | .timeout => page.client.ontimeout.map (fun sent => ⟨sent.1, page.canvas, page.pending⟩)
  | .input events => some ⟨page.client.oninput events, page.canvas, page.pending⟩
  | .close => some ⟨page.client.onclose, page.canvas, page.pending⟩

/-- A callback fires where, at every pixel of its region, no region received later has been
painted with another colour. -/
def InOrder (d : Decoders) (page : Page) : PageEvent → Prop
  | .onload image => image ∈ page.pending → Layer.MayPaint (page.layers d) page.pending image
  | _ => True

/-! ## What the client hands over -/

section Client
variable {b : Client}

def Client.Drawing (b : Client) : Prop := b.drawn ≠ [] → b.request = .code .screenUpdate

/-- Only the data of a region is handed over. -/
theorem drawn_onmessage (password data : Bytes) :
    (b.onmessage password data).1.drawn =
      if b.request = .code .screenUpdate ∧ b.state = .readRegionData then b.drawn ++ [(b.regionHeader, data)] else b.drawn := by
  unfold Client.onmessage
  split <;> simp_all [Client.ask, Client.completeUpdate, apply_ite Prod.fst, apply_ite Client.drawn]

theorem request_onmessage (h : b.request = .code .screenUpdate) (password data : Bytes) :
    (b.onmessage password data).1.request = .code .screenUpdate := by
  unfold Client.onmessage
  split <;> simp_all [Client.completeUpdate, apply_ite Prod.fst, apply_ite Client.request]

theorem Client.Drawing.onmessage (h : b.Drawing) (password data : Bytes) : (b.onmessage password data).1.Drawing := by
  intro hne
  apply request_onmessage
  rw [drawn_onmessage] at hne
  split at hne
  · next hdata => exact hdata.1
  · exact h hne

end Client
/-! ## Runs of the page -/

/-- The canvas is settled, and the images that are still to fire are received regions, each once. -/
structure Page.Ok (d : Decoders) (page : Page) : Prop where
  settled : Layer.Settled (page.layers d) page.pending page.canvas
  nodup : page.pending.Nodup
  received : ∀ image ∈ page.pending, image < page.client.drawn.length
  drawing : page.client.Drawing

section Page
variable {d : Decoders} {password : Bytes} {page next : Page}

theorem start_ok (d : Decoders) : Page.start.Ok d := by
  refine ⟨Layer.settled_nil _ _, List.nodup_nil, ?_, ?_⟩
  · intro image himage
    cases himage
  · intro hne
    exact absurd rfl hne

theorem layers_concat {client : Client} {canvas : Pixel → Colour} {pending : List ℕ} {region : RegionHeader × Bytes}
    (h : client.drawn = page.client.drawn ++ [region]) :
    Page.layers d ⟨client, canvas, pending⟩ = page.layers d ++ [regionLayer d region] := by
  rw [Page.layers, Page.layers, h, List.map_append, List.map_singleton]

/-- Handlers that hand over no region and leave the canvas alone. -/
theorem Page.Ok.same (h : page.Ok d) {client : Client} (hdrawn : client.drawn = page.client.drawn) (hdrawing : client.Drawing) :
    Page.Ok d ⟨client, page.canvas, page.pending⟩ := by
  refine ⟨?_, h.nodup, ?_, hdrawing⟩
  · have hsettled := h.settled
    rw [Page.layers, ← hdrawn] at hsettled
    exact hsettled
  · rw [hdrawn]
    exact h.received

theorem Page.Ok.region (h : page.Ok d) (hrequest : page.client.request = .code .screenUpdate)
    (hstate : page.client.state = .readRegionData) (data : Bytes) : (page.onmessage d password data).Ok d := by
  have hdrawn := drawn_onmessage (b := page.client) password data
  rw [if_pos ⟨hrequest, hstate⟩] at hdrawn
  have hdrawing := h.drawing.onmessage password data
  have hold : ∀ image ∈ page.pending, image < (page.client.onmessage password data).1.drawn.length := by
    intro image himage
    have hlt := h.received image himage
    rw [hdrawn, List.length_append]
    omega
  simp only [Page.onmessage, hrequest, hstate]
  split
  · exact h
  · split
    · have hlater := h.settled.later (regionLayer d (page.client.regionHeader, data))
      rw [Page.layers, List.length_map, ← Page.layers] at hlater
      refine ⟨?_, ?_, ?_, hdrawing⟩
      · rw [layers_concat hdrawn]
        exact hlater
      · rw [List.nodup_append]
        refine ⟨h.nodup, List.nodup_singleton _, ?_⟩
        intro image himage other hother
        have hlt := h.received image himage
        rw [List.mem_singleton.mp hother]
        omega
      · intro image himage
        rcases List.mem_append.mp himage with himage | himage
        · exact hold image himage
        · rw [List.mem_singleton.mp himage, hdrawn, List.length_append, List.length_singleton]
          omega
    · refine ⟨?_, h.nodup, hold, hdrawing⟩
      rw [layers_concat hdrawn]
      exact h.settled.now _

theorem Page.Ok.message (h : page.Ok d) (data : Bytes) : (page.onmessage d password data).Ok d := by
  have hdrawing := h.drawing.onmessage password data
  by_cases hdata : page.client.request = .code .screenUpdate ∧ page.client.state = .readRegionData
  · exact h.region hdata.1 hdata.2 data
  · have hdrawn := drawn_onmessage (b := page.client) password data
    rw [if_neg hdata] at hdrawn
    unfold Page.onmessage
    split
    · next hrequest hstate =>
      -- the canvas is cleared before the first region
      have hnone : page.client.drawn = [] := by
        by_contra hne
        rw [h.drawing hne] at hrequest
        cases hrequest
      refine ⟨?_, h.nodup, ?_, hdrawing⟩
      · rw [Page.layers, hdrawn, hnone]
        exact Layer.settled_nil _ _
      · rw [hdrawn]
        exact h.received
    · next hrequest hstate => exact absurd ⟨hrequest, hstate⟩ hdata
    · exact h.same hdrawn hdrawing

theorem Page.Ok.onload {image : ℕ} (h : page.Ok d) (hstep : page.step d password (.onload image) = some next) :
    image ∈ page.pending ∧ (Layer.MayPaint (page.layers d) page.pending image ↔
      Layer.Settled (next.layers d) next.pending next.canvas) ∧
      next.pending.Nodup ∧ (∀ i ∈ next.pending, i < next.client.drawn.length) ∧ next.client.Drawing := by
  simp only [Page.step] at hstep
  split at hstep
  · next himage =>
    obtain ⟨l, hl, rfl⟩ := Option.map_eq_some_iff.mp hstep
    refine ⟨himage, (Layer.settled_fire_iff h.settled h.nodup himage hl).symm, h.nodup.erase image, ?_, h.drawing⟩
    intro i hi
    exact h.received i (List.mem_of_mem_erase hi)
  · cases hstep

/-- One event keeps the canvas settled, a callback if it fires in order. -/
theorem step_ok (page : Page) (e : PageEvent) (next : Page) (h : page.Ok d) (horder : InOrder d page e)
    (hstep : page.step d password e = some next) : next.Ok d := by
  cases e with
  | message data =>
    obtain rfl := Option.some.inj hstep
    exact h.message data
  | onload image =>
    obtain ⟨himage, hmay, hnodup, hreceived, hdrawing⟩ := h.onload hstep
    exact ⟨hmay.mp (horder himage), hnodup, hreceived, hdrawing⟩
  | timeout =>
    obtain ⟨sent, hsent, rfl⟩ := Option.map_eq_some_iff.mp hstep
    simp only [Client.ontimeout] at hsent
    split at hsent
    · cases hsent
    · obtain rfl := Option.some.inj hsent
      exact h.same rfl h.drawing
  | input events =>
    obtain rfl := Option.some.inj hstep
    have hsame : (page.client.oninput events).drawn = page.client.drawn ∧
        (page.client.oninput events).request = page.client.request := by
      simp only [Client.oninput]
      split <;> exact ⟨rfl, rfl⟩
    apply h.same hsame.1
    intro hne
    rw [hsame.2]
    exact h.drawing (hsame.1 ▸ hne)
  | close =>
    obtain rfl := Option.some.inj hstep
    exact h.same rfl h.drawing

/-- Whenever the callbacks have fired in order and none is pending, every pixel shows the region
received last that covers it. -/
theorem canvas_shows_latest (d : Decoders) (password : Bytes) (events : List PageEvent) (page : Page)
    (horder : Transition.Guarded (Page.step d password) (InOrder d) Page.start events)
    (hrun : Transition.run (Page.step d password) Page.start events = some page) (hdone : page.pending = [])
    {p : Pixel} {i : ℕ} {c : Colour} (hlatest : Layer.IsLatest (page.layers d) p i c) : page.canvas p = c := by
  have hok := Transition.run_preserves_guarded (I := Page.Ok d) step_ok (start_ok d) horder hrun
  have hsettled := hok.settled
  rw [hdone] at hsettled
  exact hsettled.done hlatest

/-- The condition is exact at every event: it is met throughout if and only if in every state on the way
each pixel whose last region has been painted shows it. -/
theorem inOrder_iff_settled (d : Decoders) (password : Bytes) (events : List PageEvent) :
    Transition.Guarded (Page.step d password) (InOrder d) Page.start events ↔
      ∀ before page, before <+: events → Transition.run (Page.step d password) Page.start before = some page →
        Layer.Settled (page.layers d) page.pending page.canvas := by
  apply Transition.guarded_iff_forall (I := Page.Ok d) (fun page h => h.settled) step_ok
  · intro page e h hnot
    cases e with
    | onload image =>
      simp only [InOrder, not_forall] at hnot
      obtain ⟨himage, hmay⟩ := hnot
      obtain ⟨l, hl⟩ : ∃ l, (page.layers d)[image]? = some l := by
        have hlt := h.received image himage
        exact ⟨_, List.getElem?_eq_getElem (by rw [Page.layers, List.length_map]; exact hlt)⟩
      have hstep : page.step d password (.onload image) =
          some ⟨page.client, Layer.paint page.canvas l, page.pending.erase image⟩ := by
        rw [Page.step, if_pos himage, hl, Option.map_some]
      exact ⟨_, hstep, fun hsettled => hmay ((h.onload hstep).2.1.mpr hsettled)⟩
    | _ => exact absurd trivial hnot
  · exact start_ok d

end Page

/-! ## One pixel received several times -/

/-- A JPEG image of a single pixel: quantisation table, frame, two Huffman tables of one code
each, and a scan of a brightness of some size and the end of the block. -/
def flatJpeg (size : UInt8) (scan : Bytes) : Bytes :=
  [0xff, 0xd8, 0xff, 0xdb, 0, 0x43, 0] ++ List.replicate 64 1 ++ [0xff, 0xc0, 0, 0x0b, 8, 0, 1, 0, 1, 1, 1, 0x11, 0] ++
    [0xff, 0xc4, 0, 0x14, 0, 1] ++ List.replicate 15 0 ++ [size] ++ [0xff, 0xc4, 0, 0x14, 0x10, 1] ++ List.replicate 16 0 ++
    [0xff, 0xda, 0, 8, 1, 1, 0, 0, 0x3f, 0] ++ scan ++ [0xff, 0xd9]

def greyJpeg : Bytes := flatJpeg 0 [0x3f]
def whiteJpeg : Bytes := flatJpeg 10 [0x7f, 0x0f]

def shades : Decoders :=
  ⟨fun data _ _ _ => if data = whiteJpeg then ⟨255, 255, 255, 255⟩ else ⟨128, 128, 128, 255⟩, fun _ _ => none⟩

def updates (regions : UInt32) : List PageEvent :=
  [.message (htonl 1), .message [115], .message (htonl 0), .message (wordBytes [1, 16, 16, 32, 0]), .message (wordBytes [9, 1]),
    .message [104], .message (wordBytes [2, regions])]

def jpegPixel : List PageEvent := [.message (wordBytes [0, 0, 1, 1, Pix.jpegBgra.code, 141]), .message greyJpeg]
def whitePixel : List PageEvent := [.message (wordBytes [0, 0, 1, 1, Pix.jpegBgra.code, 142]), .message whiteJpeg]
def rawPixel : List PageEvent := [.message (wordBytes [0, 0, 1, 1, Pix.rawBgra.code, 4]), .message [10, 20, 30, 0]]
def rawPixels : List PageEvent :=
  [.message (wordBytes [0, 0, 2, 1, Pix.rawBgra.code, 8]), .message [10, 20, 30, 0, 40, 50, 60, 0]]

def twoImages : List PageEvent := updates 3 ++ rawPixels ++ jpegPixel ++ whitePixel

/-- The grey image is painted while the white one is still to come, and that one is the last. -/
theorem twoImages_in_order :
    Transition.Guarded (Page.step shades []) (InOrder shades) Page.start (twoImages ++ [.onload 1] ++ [.onload 2]) := by
  have hbefore : (Transition.run (Page.step shades []) Page.start twoImages).map
      (fun page => (page.pending, page.client.drawn.length)) = some ([1, 2], 3) := by decide +kernel
  have hbetween : (Transition.run (Page.step shades []) Page.start (twoImages ++ [.onload 1])).map
      (fun page => page.client.drawn.length) = some 3 := by decide +kernel
  have hmessages : Transition.Guarded (Page.step shades []) (InOrder shades) Page.start twoImages := by
    apply Transition.Guarded.of_forall
    simp [twoImages, updates, rawPixels, jpegPixel, whitePixel, InOrder]
  refine Transition.Guarded.concat (Transition.Guarded.concat hmessages ?_) ?_
  · intro early hearly _
    rw [hearly, Option.map_some, Option.some.injEq] at hbefore
    obtain ⟨hpending, hlength⟩ := Prod.mk.inj hbefore
    refine Layer.mayPaint_of_pending (fun j hij hj => ?_)
    rw [Page.layers, List.length_map, hlength] at hj
    obtain rfl : j = 2 := by omega
    simp [hpending]
  · intro late hlate _
    rw [hlate, Option.map_some, Option.some.injEq] at hbetween
    refine Layer.mayPaint_of_pending (fun j hij hj => ?_)
    rw [Page.layers, List.length_map, hbetween] at hj
    omega

theorem images_in_order_shown :
    ∃ page, Transition.run (Page.step shades []) Page.start (twoImages ++ [.onload 1] ++ [.onload 2]) = some page ∧
      page.canvas (0, 0) = ⟨255, 255, 255, 255⟩ ∧ page.canvas (1, 0) = ⟨60, 50, 40, 255⟩ := by
  have hrun : (Transition.run (Page.step shades []) Page.start (twoImages ++ [.onload 1] ++ [.onload 2])).map
      (fun page => (page.pending, page.client.drawn)) =
      some ([], [(⟨0, 0, 2, 1, 1, 8⟩, [10, 20, 30, 0, 40, 50, 60, 0]), (⟨0, 0, 1, 1, 3, 141⟩, greyJpeg),
        (⟨0, 0, 1, 1, 3, 142⟩, whiteJpeg)]) := by decide +kernel
  obtain ⟨page, hpage, hend⟩ := Option.map_eq_some_iff.mp hrun
  obtain ⟨hpending, hdrawn⟩ := Prod.mk.inj hend
  have hlatest : Layer.IsLatest (page.layers shades) (0, 0) 2 ⟨255, 255, 255, 255⟩ ∧
      Layer.IsLatest (page.layers shades) (1, 0) 0 ⟨60, 50, 40, 255⟩ := by
    rw [Page.layers, hdrawn]
    decide +kernel
  have hshows := @canvas_shows_latest shades [] _ page twoImages_in_order hpage hpending
  exact ⟨page, hpage, hshows hlatest.1, hshows hlatest.2⟩

/-- The raw pixel arrives last and is painted over by the older image. -/
theorem late_image_stale :
    ∃ page, Transition.run (Page.step shades []) Page.start (updates 2 ++ jpegPixel ++ rawPixel ++ [.onload 0]) = some page ∧
      page.pending = [] ∧ Layer.IsLatest (page.layers shades) (0, 0) 1 ⟨30, 20, 10, 255⟩ ∧
      page.canvas (0, 0) = ⟨128, 128, 128, 255⟩ := by
  have hrun : (Transition.run (Page.step shades []) Page.start (updates 2 ++ jpegPixel ++ rawPixel ++ [.onload 0])).map
      (fun page => (page.pending, page.client.drawn, page.canvas (0, 0))) =
      some ([], [(⟨0, 0, 1, 1, 3, 141⟩, greyJpeg), (⟨0, 0, 1, 1, 1, 4⟩, [10, 20, 30, 0])], ⟨128, 128, 128, 255⟩) := by
    decide +kernel
  obtain ⟨page, hpage, hend⟩ := Option.map_eq_some_iff.mp hrun
  simp only [Prod.mk.injEq] at hend
  obtain ⟨hpending, hdrawn, hcanvas⟩ := hend
  refine ⟨page, hpage, hpending, ?_, hcanvas⟩
  rw [Page.layers, hdrawn]
  decide +kernel

end Browser
end LilitunRemote

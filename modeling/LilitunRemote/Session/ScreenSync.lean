import LilitunRemote.Foundation.Transition
import LilitunRemote.Screen.ScreenDiff
import LilitunRemote.Server.Drawing

/-! # The viewer follows the screen

One session between a projector and a control server: each grabbed screen goes
through `update_screen`, and its regions are drawn in transmission order. The
viewer is a mirror of `compare_buf`; each region is a patch that carries the
committed pixels of its rectangle, so it may repeat pixels but never misses one.
-/
namespace LilitunRemote
open Memory

def Shows (g : Geometry) (fb : Buffer) (f : Frame) : Prop :=
  fb.size = 4 * (g.scrWidth * g.scrHeight) ∧
    ∀ i < g.scrWidth * g.scrHeight, ∀ k < 4, fb[4 * i + k]? = (pixelBytes (f i))[k]?

/-- A region drawn by a live thread; a rejected region would end the session. -/
def applyRegion (c : Codec) (g : Geometry) (fb : Buffer) (r : RegionData) : Option Buffer :=
  match handleRegion c g.announced fb r with
  | some (true, fb) => some fb
  | _ => none

structure Sync where
  compareBuf : Option Frame
  framebuffer : Buffer

def syncUpdate (c : Codec) (g : Geometry) (s : Sync) (screen : Frame) : Option Sync :=
  let (compareBuf, regions) := updateScreen c g s.compareBuf screen
  (regions.foldlM (applyRegion c g) s.framebuffer).map (fun fb => ⟨some compareBuf, fb⟩)

def blankFramebuffer (g : Geometry) : Buffer := Array.replicate (4 * (g.scrWidth * g.scrHeight)) 0

def Lossless (r : RegionData) : Prop := r.pixfmt = Pix.rawBgra.code ∨ r.pixfmt = Pix.lz4Bgra.code

def SentLosslessly (c : Codec) (g : Geometry) (s : Sync) (screen : Frame) : Prop :=
  ∀ r ∈ (updateScreen c g s.compareBuf screen).2, Lossless r

/-! ## One region is one patch -/

theorem Drawn.shows {g : Geometry} {x y w h : ℕ} {f view : Frame} {fb d : Buffer} (hrect : g.OnScreen x y w h)
    (hshow : Shows g fb view) (hd : Drawn g x y w h 4 (rectBytes g f x y w h).toArray fb d) :
    Shows g d (Mirror.patch (rectCells g x y w h) f view) := by
  refine ⟨hd.1.trans hshow.1, fun i hi k hk => ?_⟩
  obtain ⟨py, hpy, px, hpx, rfl⟩ := Grid.exists_coords hi
  have hright := hrect.right
  have hbottom := hrect.bottom
  rw [hd.plain_pixel hpy hpx hk]
  split
  · next hc =>
    obtain ⟨h1, h2, h3, h4⟩ := hc
    have hmem : py * g.scrWidth + px ∈ rectCells g x y w h := ⟨py, h3, by omega, px, h1, by omega, rfl⟩
    rw [Mirror.patch_apply_of_mem hmem]
  · next hc =>
    have hmem : py * g.scrWidth + px ∉ rectCells g x y w h := by
      rintro ⟨py', h3, h4, px', h1, h2, he⟩
      obtain ⟨rfl, rfl⟩ := Grid.index_inj hpx (by omega) he
      exact hc ⟨h1, by omega, h3, by omega⟩
    rw [Mirror.patch_apply_of_notMem hmem]
    exact hshow.2 _ hi k hk

theorem applyRegion_encoded {c : Codec} (hlz4 : LosslessLz4 c) {g : Geometry} {fb compareBuf view : Frame} {x y w h : ℕ}
    (hrect : g.OnScreen x y w h) (hloss : Lossless (encodedRegion c g fb compareBuf x y w h)) {buf : Buffer}
    (hshow : Shows g buf view) :
    ∃ buf', applyRegion c g buf (encodedRegion c g fb compareBuf x y w h) = some buf' ∧
      Shows g buf' (Mirror.patch (rectCells g x y w h) compareBuf view) := by
  obtain ⟨d, hd, hdrawn⟩ := blit_drawn hrect (rectBytes g compareBuf x y w h).toArray (Or.inr rfl) hshow.1
    (by rw [List.size_toArray]; exact rectOf_length pixelBytes_length g compareBuf x y w h)
  have hraw := handleRegion_raw hrect compareBuf c buf
  rw [hd, Option.map_some] at hraw
  refine ⟨d, ?_, hdrawn.shows hrect hshow⟩
  -- the encoder chose plain pixels or LZ4, and both draw the same
  have hregion : handleRegion c g.announced buf (encodedRegion c g fb compareBuf x y w h) = some (true, d) := by
    simp only [encodedRegion] at hloss ⊢
    rcases encodeRect_cases c g fb compareBuf x y w h with ⟨henc, _⟩ | henc | ⟨packed, hpacked, hpos, hlt, henc⟩
    · rw [henc] at hloss
      rcases hloss with hfmt | hfmt <;> exact absurd hfmt (by simp [regionAs, Pix.code])
    · rw [henc]
      exact hraw
    · rw [henc]
      subst hpacked
      exact (handleRegion_lz4 hrect compareBuf hlz4 hpos hlt).trans hraw
  rw [applyRegion, hregion]

/-! ## One update is a sequence of patches -/

section Update
variable {c : Codec} {g : Geometry} {fb : Frame}

theorem foldl_updateBlock_acc (os : List (ℕ × ℕ)) (compareBuf : Frame) (regions : List RegionData) :
    os.foldl (updateBlock c g fb) (compareBuf, regions) =
      ((os.foldl (updateBlock c g fb) (compareBuf, [])).1,
        regions ++ (os.foldl (updateBlock c g fb) (compareBuf, [])).2) := by
  induction os generalizing compareBuf regions with
  | nil => simp
  | cons o os ih =>
    simp only [List.foldl_cons, updateBlock, List.nil_append]
    rw [ih _ (regions ++ _), ih _ (screenDiff c g fb compareBuf o.1 o.2).2.toList, List.append_assoc]

theorem updateBlock_cons (o : ℕ × ℕ) (os : List (ℕ × ℕ)) (compareBuf : Frame) :
    (o :: os).foldl (updateBlock c g fb) (compareBuf, []) =
      ((os.foldl (updateBlock c g fb) ((screenDiff c g fb compareBuf o.1 o.2).1, [])).1,
        (screenDiff c g fb compareBuf o.1 o.2).2.toList ++
          (os.foldl (updateBlock c g fb) ((screenDiff c g fb compareBuf o.1 o.2).1, [])).2) := by
  rw [List.foldl_cons]
  exact foldl_updateBlock_acc os _ _

theorem foldl_updateBlock_shows (hlz4 : LosslessLz4 c) (hg : g.Scannable) (os : List (ℕ × ℕ)) {compareBuf : Frame}
    {buf : Buffer} (hshow : Shows g buf compareBuf)
    (hloss : ∀ r ∈ (os.foldl (updateBlock c g fb) (compareBuf, [])).2, Lossless r) :
    ∃ buf', (os.foldl (updateBlock c g fb) (compareBuf, [])).2.foldlM (applyRegion c g) buf = some buf' ∧
      Shows g buf' (os.foldl (updateBlock c g fb) (compareBuf, [])).1 := by
  induction os generalizing compareBuf buf with
  | nil => exact ⟨buf, rfl, hshow⟩
  | cons o os ih =>
    rw [updateBlock_cons] at hloss ⊢
    rcases screenDiff_cases c hg fb compareBuf o with ⟨hdiff, hsame⟩ | ⟨x, y, w, h, hrect, _, _, hdiff, hcover⟩
    · rw [hdiff, hsame] at hloss ⊢
      exact ih hshow (by simpa using hloss)
    · rw [hdiff] at hloss ⊢
      simp only [Option.toList_some, List.singleton_append, List.mem_cons, forall_eq_or_imp] at hloss
      obtain ⟨buf', hbuf', hshow'⟩ := applyRegion_encoded hlz4 hrect hloss.1 hshow
      rw [Mirror.patch_eq_of_covers rfl hcover] at hshow'
      obtain ⟨buf'', hbuf'', hshow''⟩ := ih hshow' hloss.2
      exact ⟨buf'', by simp [hbuf', hbuf''], hshow''⟩

end Update

/-! ## A session -/

/-- The viewer shows `compare_buf`, which is blank before its allocation. -/
def InSync (g : Geometry) (s : Sync) : Prop := Shows g s.framebuffer (s.compareBuf.getD (fun _ => 0))

theorem syncUpdate_inSync {c : Codec} (hlz4 : LosslessLz4 c) {g : Geometry} (hg : g.Scannable) {s : Sync} {screen : Frame}
    (hs : InSync g s) (hloss : SentLosslessly c g s screen) :
    ∃ t, syncUpdate c g s screen = some t ∧ InSync g t ∧
      ∃ compareBuf, t.compareBuf = some compareBuf ∧ ∀ i < g.scrWidth * g.scrHeight, compareBuf i = screen i := by
  obtain ⟨buf, hbuf, hshow⟩ := foldl_updateBlock_shows hlz4 hg (blockOrigins g) hs hloss
  refine ⟨⟨some (updateScreen c g s.compareBuf screen).1, buf⟩, ?_, hshow, _, rfl, ?_⟩
  · simp only [syncUpdate, updateScreen, hbuf, Option.map_some]
  · exact fun i hi => updateScreen_fst c g s.compareBuf screen hi

theorem shows_congr {g : Geometry} {buf : Buffer} {f f' : Frame} (h : ∀ i < g.scrWidth * g.scrHeight, f i = f' i)
    (hshow : Shows g buf f) : Shows g buf f' :=
  ⟨hshow.1, fun i hi k hk => by rw [hshow.2 i hi k hk, h i hi]⟩

theorem pixelBytes_zero {k : ℕ} (hk : k < 4) : (pixelBytes 0)[k]? = some 0 := by
  match k, hk with
  | 0, _ | 1, _ | 2, _ | 3, _ => rfl

theorem shows_blank (g : Geometry) : Shows g (blankFramebuffer g) (fun _ => 0) := by
  refine ⟨Array.size_replicate, fun i hi k hk => ?_⟩
  have hlt : 4 * i + k < 4 * (g.scrWidth * g.scrHeight) := by omega
  simp [blankFramebuffer, hlt, pixelBytes_zero hk]

/-- In every session of lossless updates from blank ends, the viewer shows after
each update what `compare_buf` holds, and that is the grabbed screen. -/
theorem viewer_follows_screen (c : Codec) (hlz4 : LosslessLz4 c) (g : Geometry) (hg : g.Scannable)
    (compareBuf : Option Frame) (hzero : compareBuf.getD (fun _ => 0) = fun _ => 0) (screens : List Frame)
    (hloss : Transition.Guarded (syncUpdate c g) (SentLosslessly c g) ⟨compareBuf, blankFramebuffer g⟩ screens)
    (before : List Frame) (screen : Frame) (hpre : before ++ [screen] <+: screens) :
    ∃ s compareBuf', Transition.run (syncUpdate c g) ⟨compareBuf, blankFramebuffer g⟩ (before ++ [screen]) = some s ∧
      s.compareBuf = some compareBuf' ∧ (∀ i < g.scrWidth * g.scrHeight, compareBuf' i = screen i) ∧
      Shows g s.framebuffer compareBuf' ∧ Shows g s.framebuffer screen := by
  obtain ⟨after, rfl⟩ := hpre
  have hguard := hloss.of_append
  have hinit : InSync g ⟨compareBuf, blankFramebuffer g⟩ := by
    simp only [InSync, hzero]
    exact shows_blank g
  obtain ⟨t, ht, htsync⟩ := Transition.run_total_guarded (I := InSync g)
    (fun s a hs ha => by
      obtain ⟨u, hu, husync, _⟩ := syncUpdate_inSync hlz4 hg hs ha
      exact ⟨u, hu, husync⟩) hinit hguard.of_append
  obtain ⟨s, hs, hsync, cmp, hcmp, hpix⟩ := syncUpdate_inSync hlz4 hg htsync (hguard.last ht)
  have hshow : Shows g s.framebuffer cmp := by
    simpa only [InSync, hcmp, Option.getD_some] using hsync
  exact ⟨s, cmp, Transition.run_concat.mpr ⟨t, ht, hs⟩, hcmp, hpix, hshow, shows_congr hpix hshow⟩

/-! ## A session with noise in one corner -/

/-- Noise in the 9 × 9 corner of a screen of 16 × 16 pixels. -/
def noiseScreen : Frame := fun i => if i % 16 < 9 ∧ i / 16 < 9 then UInt32.ofNat (i * 2654435761 + 12345) else 0

theorem noiseCodec_screenDiff {g : Geometry} {fb compareBuf : Frame} {o : ℕ × ℕ} {r : RegionData}
    (h : (screenDiff noiseCodec g fb compareBuf o.1 o.2).2 = some r) : Lossless r := by
  have hfmt : ∀ f x y w h, (encodeRect noiseCodec g fb f x y w h).1 = .rawBgra := by
    intro f x y w h
    rcases encodeRect_cases noiseCodec g fb f x y w h with ⟨_, hshort⟩ | henc | ⟨packed, hpacked, hpos, _, _⟩
    · simp only [compressRgbToJpeg, noiseCodec, List.length_append, List.length_replicate, rectBytes,
        rectOf_length pixelBytes_length] at hshort
      omega
    · rw [henc]
    · subst hpacked
      exact absurd hpos (Nat.lt_irrefl 0)
  simp only [screenDiff] at h
  split at h
  · cases h
    exact Or.inl (by simp [hfmt])
  · cases h

theorem noiseCodec_lossless (g : Geometry) (s : Sync) (screen : Frame) : SentLosslessly noiseCodec g s screen := by
  have hall : ∀ (os : List (ℕ × ℕ)) (compareBuf : Frame),
      ∀ r ∈ (os.foldl (updateBlock noiseCodec g screen) (compareBuf, [])).2, Lossless r := by
    intro os
    induction os with
    | nil => simp
    | cons o os ih =>
      intro compareBuf r hr
      rw [updateBlock_cons] at hr
      rcases List.mem_append.mp hr with hr | hr
      · exact noiseCodec_screenDiff (Option.mem_toList.mp hr)
      · exact ih _ r hr
  exact hall (blockOrigins g) _

theorem noise_session_follows :
    ∃ s compareBuf, Transition.run (syncUpdate noiseCodec screen16) ⟨none, blankFramebuffer screen16⟩
        ([noiseScreen] ++ [fun _ => 0]) = some s ∧ s.compareBuf = some compareBuf ∧
      (∀ i < screen16.scrWidth * screen16.scrHeight, compareBuf i = 0) ∧
      Shows screen16 s.framebuffer compareBuf ∧ Shows screen16 s.framebuffer (fun _ => 0) :=
  viewer_follows_screen noiseCodec (fun _ _ _ hne => absurd rfl hne) screen16
    ⟨le_refl 16, by decide, le_refl 16, by decide⟩ none rfl [noiseScreen, fun _ => 0]
    ⟨noiseCodec_lossless _ _ _, fun _ _ => ⟨noiseCodec_lossless _ _ _, fun _ _ => trivial⟩⟩ [noiseScreen] (fun _ => 0)
    (List.prefix_refl _)

end LilitunRemote

import LilitunRemote.Foundation.Transition
import LilitunRemote.Server.Translator

/-! # The VNC side follows the framebuffer

Blits into `conn->framebuffer` alternate with updates of the translator. `framebuffer_cmp`
and `framebuffer_vnc` are two copies that stay equal, and a viewer is a third one that is
refreshed only inside the marked rectangles.
-/
namespace LilitunRemote
open Memory

structure VncSession where
  framebuffer : Buffer
  translator : Translator
  viewer : ℕ → UInt32

/-- A viewer copies `framebuffer_vnc` inside a marked rectangle, as far as the screen goes. -/
def refresh (info : ScreenInfo) (vnc : ℤ → UInt32) (mark : Option MarkedRect) (viewer : ℕ → UInt32) : ℕ → UInt32 :=
  match mark with
  | none => viewer
  | some r => fun i =>
    let x : ℤ := (i % info.width.toNat : ℕ)
    let y : ℤ := (i / info.width.toNat : ℕ)
    if r.x1 ≤ x ∧ x < r.x2 ∧ r.y1 ≤ y ∧ y < r.y2 then vnc i else viewer i

inductive VncAction
  | blit (src : Buffer) (srcX srcY srcW srcH : UInt32) (srcDepth : ℤ)
  | update

def vncStep (info : ScreenInfo) (s : VncSession) : VncAction → Option VncSession
  | .blit src srcX srcY srcW srcH srcDepth =>
    (fbopsBitblit ⟨asInt info.width, asInt info.height, asInt info.depth, asInt srcX, asInt srcY, asInt srcW, asInt srcH,
      srcDepth⟩ src s.framebuffer).map (fun fb => { s with framebuffer := fb })
  | .update =>
    (Translator.updateScreen info { s.translator with framebuffer := .ofBuffer s.framebuffer }).map (fun (t, mark) =>
      { s with translator := t, viewer := refresh info t.framebufferVnc.cell mark s.viewer })

/-- After `translator_init`: blank blocks, and the whole screen marked for a viewer that
has seen something else before. -/
def VncSession.start (info : ScreenInfo) (seen : ℕ → UInt32) : VncSession where
  framebuffer := Array.replicate info.allocSize 0
  translator := ⟨.fresh (fun _ => 0), .fresh (fun _ => 0), .fresh (fun _ => 0), ⟨0, 0, 0, 0⟩⟩
  viewer := refresh info (fun _ => 0) (some ⟨0, 0, info.width.toNat, info.height.toNat⟩) seen

def CopiesAgree (info : ScreenInfo) (s : VncSession) : Prop :=
  ∀ i < info.width.toNat * info.height.toNat,
    s.translator.framebufferVnc.cell i = s.translator.framebufferCmp.cell i ∧
      s.viewer i = s.translator.framebufferCmp.cell i

def CopiesFollow (info : ScreenInfo) (s : VncSession) : Prop :=
  ∀ i < info.width.toNat * info.height.toNat,
    s.translator.framebufferVnc.cell i = (Words.ofBuffer s.framebuffer).cell i ∧
      s.translator.framebufferCmp.cell i = (Words.ofBuffer s.framebuffer).cell i ∧
      s.viewer i = (Words.ofBuffer s.framebuffer).cell i

section
variable {info : ScreenInfo}

theorem CopiesFollow.agree {s : VncSession} (h : CopiesFollow info s) : CopiesAgree info s := by
  intro i hi
  obtain ⟨hvnc, hcmp, hviewer⟩ := h i hi
  exact ⟨hvnc.trans hcmp.symm, hviewer.trans hcmp.symm⟩

theorem refresh_inside (vnc : ℤ → UInt32) {r : MarkedRect} (viewer : ℕ → UInt32) {x y : ℕ} (hx : x < info.width.toNat)
    (hin : Translator.MarkedRect.Contains r (x, y)) :
    refresh info vnc (some r) viewer (y * info.width.toNat + x) = vnc (y * info.width.toNat + x : ℕ) := by
  have hmod : (y * info.width.toNat + x) % info.width.toNat = x := by
    rw [Nat.mul_comm, Nat.mul_add_mod, Nat.mod_eq_of_lt hx]
  have hdiv : (y * info.width.toNat + x) / info.width.toNat = y := by
    rw [Nat.mul_comm, Nat.mul_add_div (by omega), Nat.div_eq_of_lt hx, Nat.add_zero]
  simp only [refresh, hmod, hdiv]
  exact if_pos hin

theorem start_agree (seen : ℕ → UInt32) : CopiesAgree info (VncSession.start info seen) := by
  intro i hi
  obtain ⟨y, hy, x, hx, he⟩ := Grid.exists_coords hi
  rw [he]
  constructor
  · rfl
  · have hin : Translator.MarkedRect.Contains ⟨0, 0, info.width.toNat, info.height.toNat⟩ (x, y) := by
      simp only [Translator.MarkedRect.Contains]
      omega
    exact refresh_inside (fun _ => 0) seen hx hin

/-- An update brings every copy to the framebuffer: a pixel outside the marked rectangle
had not changed since the last one. -/
theorem update_follows (hw : info.width.toNat ≤ 9999) (hh : info.height.toNat ≤ 9999) (hdepth : info.depth = 32)
    {s : VncSession} (hs : CopiesAgree info s) :
    ∃ t, vncStep info s .update = some t ∧ t.framebuffer = s.framebuffer ∧ CopiesFollow info t := by
  obtain ⟨tr, htr⟩ : ∃ tr : Translator, tr = { s.translator with framebuffer := .ofBuffer s.framebuffer } := ⟨_, rfl⟩
  have hdiv : ¬ info.depth / 8 = 0 := by
    rw [hdepth]
    decide
  obtain ⟨v, mark, hupdate, hmark⟩ := Translator.updateScreen_mark hdiv (by omega) (by omega) tr
  obtain ⟨_, hcmp, hvnc, _⟩ := Translator.compareScreen_spec info tr
  refine ⟨⟨s.framebuffer, { Translator.compareScreen info tr with varblock := v },
    refresh info (Translator.compareScreen info tr).framebufferVnc.cell mark s.viewer⟩, ?_, rfl, ?_⟩
  · simp only [vncStep, ← htr, hupdate, Option.map_some]
  · intro i hi
    obtain ⟨y, hy, x, hx, he⟩ := Grid.exists_coords hi
    have hpix : (x, y) ∈ Translator.pixels info := Translator.mem_pixels.mpr ⟨hx, hy⟩
    have hplace : (i : ℤ) = Translator.place info.width.toNat (x, y) := by rw [he]; rfl
    obtain ⟨hsame, hseen⟩ := hs i hi
    have hold : tr.framebufferCmp = s.translator.framebufferCmp ∧ tr.framebufferVnc = s.translator.framebufferVnc ∧
        tr.framebuffer = .ofBuffer s.framebuffer := by
      rw [htr]
      exact ⟨rfl, rfl, rfl⟩
    rw [← hold.1] at hsame hseen
    rw [← hold.2.1] at hsame
    simp only [← hold.2.2]
    have hcmp' : (Translator.compareScreen info tr).framebufferCmp.cell i = tr.framebuffer.cell i := by
      rw [hcmp]
      exact Mirror.patch_apply_of_mem ⟨(x, y), hpix, hplace⟩
    -- a pixel that does not differ is already everywhere
    have hquiet : (x, y) ∉ Translator.differing info tr → tr.framebufferCmp.cell i = tr.framebuffer.cell i := by
      intro hnot
      rw [Translator.mem_differing, ← hplace] at hnot
      by_contra hne
      exact hnot ⟨hpix, fun h => hne h.symm⟩
    have hvnc' : (Translator.compareScreen info tr).framebufferVnc.cell i = tr.framebuffer.cell i := by
      rw [hvnc]
      by_cases hdiff : (x, y) ∈ Translator.differing info tr
      · exact Mirror.patch_apply_of_mem ⟨(x, y), hdiff, hplace⟩
      · rw [Mirror.patch_apply_of_notMem, hsame, hquiet hdiff]
        rintro ⟨q, hq, heq⟩
        have hqxy := Translator.place_inj hpix (Translator.mem_differing.mp hq).1 (hplace.symm.trans heq)
        exact hdiff (hqxy ▸ hq)
    refine ⟨hvnc', hcmp', ?_⟩
    rcases hmark with ⟨rfl, hnone⟩ | ⟨r, rfl, _, hcover⟩
    · have hleft : x < 9999 := by omega
      exact hseen.trans (hquiet (fun hdiff => hnone (x, y) hdiff hleft))
    · by_cases hdiff : (x, y) ∈ Translator.differing info tr
      · rw [he] at hvnc' ⊢
        rw [refresh_inside _ _ hx (hcover _ hdiff)]
        exact hvnc'
      · simp only [refresh]
        split
        · exact hvnc'
        · exact hseen.trans (hquiet hdiff)

theorem blit_agree {s t : VncSession} {src : Buffer} {srcX srcY srcW srcH : UInt32} {srcDepth : ℤ}
    (hs : CopiesAgree info s) (h : vncStep info s (.blit src srcX srcY srcW srcH srcDepth) = some t) :
    CopiesAgree info t := by
  rw [vncStep, Option.map_eq_some_iff] at h
  obtain ⟨fb, _, rfl⟩ := h
  exact hs

theorem vncStep_agree (hw : info.width.toNat ≤ 9999) (hh : info.height.toNat ≤ 9999) (hdepth : info.depth = 32)
    (s : VncSession) (a : VncAction) (t : VncSession) (hs : CopiesAgree info s) (h : vncStep info s a = some t) :
    CopiesAgree info t := by
  cases a with
  | blit src srcX srcY srcW srcH srcDepth => exact blit_agree hs h
  | update =>
    obtain ⟨u, hu, _, hfollow⟩ := update_follows hw hh hdepth hs
    rw [hu] at h
    cases h
    exact hfollow.agree

/-- After any sequence of blits and updates, an update leaves `framebuffer_vnc`,
`framebuffer_cmp` and the viewer equal to the framebuffer. -/
theorem viewer_follows_framebuffer (hw : info.width.toNat ≤ 9999) (hh : info.height.toNat ≤ 9999) (hdepth : info.depth = 32)
    (seen : ℕ → UInt32) {as : List VncAction} {s : VncSession}
    (hrun : Transition.run (vncStep info) (VncSession.start info seen) as = some s) :
    ∃ t, vncStep info s .update = some t ∧ t.framebuffer = s.framebuffer ∧ CopiesFollow info t :=
  update_follows hw hh hdepth (Transition.run_preserves (vncStep_agree hw hh hdepth) (start_agree seen) hrun)

end

/-- One pixel of three bytes blitted into the corner of a screen of 2 × 2 pixels. -/
theorem corner_blit_follows :
    ∃ s, Transition.run (vncStep ⟨2, 2, 32⟩) (VncSession.start ⟨2, 2, 32⟩ (fun _ => 5)) [.blit #[1, 2, 3] 1 1 1 1 24] = some s ∧
      ∃ t, vncStep ⟨2, 2, 32⟩ s .update = some t ∧ t.framebuffer = s.framebuffer ∧ CopiesFollow ⟨2, 2, 32⟩ t := by
  have hblit : ∃ fb, fbopsBitblit ⟨asInt 2, asInt 2, asInt 32, asInt 1, asInt 1, asInt 1, asInt 1, 24⟩ #[1, 2, 3]
      (VncSession.start ⟨2, 2, 32⟩ (fun _ => 5)).framebuffer = some fb := by
    have hno : BlitArgs.NoOverflow 2 2 1 1 1 1 4 3 := ⟨by omega, by omega, by omega, by omega, by omega, by omega, by omega⟩
    have hone : asInt 1 = (1 : ℕ) := @asInt_ofNat 1 (by omega)
    have htwo : asInt 2 = (2 : ℕ) := @asInt_ofNat 2 (by omega)
    have hblank : (VncSession.start ⟨2, 2, 32⟩ (fun _ => 5)).framebuffer = Array.replicate 16 0 := rfl
    have hdepth : asInt 32 = (32 : ℤ) := @asInt_ofNat 32 (by omega)
    obtain ⟨fb, hfb, _⟩ := @BlitArgs.fbopsBitblit_clip 2 2 1 1 1 1 4 3 32 24 #[1, 2, 3] (Array.replicate 16 0)
      (Or.inr rfl) (Or.inl rfl) rfl rfl hno Array.size_replicate (by decide)
    rw [hone, htwo, hdepth, hblank]
    exact ⟨fb, hfb⟩
  obtain ⟨fb, hfb⟩ := hblit
  have hrun : Transition.run (vncStep ⟨2, 2, 32⟩) (VncSession.start ⟨2, 2, 32⟩ (fun _ => 5)) [.blit #[1, 2, 3] 1 1 1 1 24] =
      some { VncSession.start ⟨2, 2, 32⟩ (fun _ => 5) with framebuffer := fb } := by
    rw [Transition.run_cons]
    exact ⟨_, by rw [vncStep, hfb]; rfl, rfl⟩
  exact ⟨_, hrun, viewer_follows_framebuffer (by decide) (by decide) rfl _ hrun⟩

end LilitunRemote

import LilitunRemote.Projector.Thread
import LilitunRemote.Session.ScreenSync

/-! # Sessions one after another on one projector

`compare_buf` lives as long as the projector, and every connection meets a viewer
with a new blank framebuffer. A session may be cut at any point: its reads and
writes then fail and the thread runs to its end.
-/
namespace LilitunRemote
open Projector

/-- What a session found when it served its first update: `compare_buf`, and the
last screen that earlier sessions had grabbed. -/
structure FirstUpdate where
  compareBuf : Option Frame
  earlier : Option Frame

structure Lifetime where
  compareBuf : Option Frame
  /-- The thread of the last session, if there was one. -/
  thread : Option Thread
  status : Status
  /-- The running session has served an update. -/
  served : Bool
  lastGrabbed : Option Frame
  firstUpdates : List FirstUpdate

namespace Lifetime

def initial : Lifetime := ⟨none, none, .ok, false, none, []⟩

inductive Step
  | connect
  | grab (screen : Frame)
  | perform (e : Effect) (r : Response e)

def ended : Thread → Bool
  | .ret (Sum.inr _) => true
  | _ => false

/-- When the next session starts: the retry loop of the application connects again
after a connection error, a server accepts the next client. -/
def mayConnect (v : Vars) (s : Lifetime) : Bool :=
  match s.thread with
  | none => true
  | some t => ended t && (v.server || s.status == .connectionError)

def sessionThread (v : Vars) : Thread := if v.server then httpThread v else projectorThread v

def after (s : Lifetime) (t : Thread) : (e : Effect) → Response e → Option Lifetime
  | .grabScreen, some _ => none
  | .setStatus status, _ => some { s with thread := some t, status := status }
  | _, _ => some { s with thread := some t }

def step (c : Codec) (v : Vars) (s : Lifetime) : Step → Option Lifetime
  | .connect =>
    if mayConnect v s then
      some { s with thread := some ((sessionThread v).resume (body v)), status := .ok, served := false }
    else none
  | .grab screen => do
    let t ← s.thread
    let (compareBuf, regions) := updateScreen c v.screen s.compareBuf screen
    let p ← t.feed .grabScreen (some regions)
    some { s with
      compareBuf := some compareBuf
      thread := some (p.resume (body v))
      served := true
      lastGrabbed := some screen
      firstUpdates := if s.served then s.firstUpdates else s.firstUpdates ++ [⟨s.compareBuf, s.lastGrabbed⟩] }
  | .perform e r => do
    let t ← s.thread
    let p ← t.feed e r
    after s (p.resume (body v)) e r

/-- `compare_buf` holds the last grabbed screen, in this session or an earlier one. -/
structure Ok (g : Geometry) (s : Lifetime) : Prop where
  current : ∀ i < g.scrWidth * g.scrHeight, s.compareBuf.getD (fun _ => 0) i = s.lastGrabbed.getD (fun _ => 0) i
  recorded : ∀ u ∈ s.firstUpdates, ∀ i < g.scrWidth * g.scrHeight,
    u.compareBuf.getD (fun _ => 0) i = u.earlier.getD (fun _ => 0) i

theorem after_eq {s s' : Lifetime} {t : Thread} {e : Effect} {r : Response e} (h : after s t e r = some s') :
    s'.compareBuf = s.compareBuf ∧ s'.lastGrabbed = s.lastGrabbed ∧ s'.firstUpdates = s.firstUpdates := by
  cases e with
  | grabScreen =>
    cases r with
    | none =>
      cases h
      exact ⟨rfl, rfl, rfl⟩
    | some regions => cases h
  | _ =>
    cases h
    exact ⟨rfl, rfl, rfl⟩

theorem step_cases {c : Codec} {v : Vars} {s s' : Lifetime} {a : Step} (h : step c v s a = some s') :
    (s'.compareBuf = s.compareBuf ∧ s'.lastGrabbed = s.lastGrabbed ∧ s'.firstUpdates = s.firstUpdates) ∨
    ∃ screen, s'.compareBuf = some (updateScreen c v.screen s.compareBuf screen).1 ∧ s'.lastGrabbed = some screen ∧
      ∀ u ∈ s'.firstUpdates, u ∈ s.firstUpdates ∨ u = ⟨s.compareBuf, s.lastGrabbed⟩ := by
  cases a with
  | connect =>
    simp only [step] at h
    split at h
    · cases h
      exact Or.inl ⟨rfl, rfl, rfl⟩
    · cases h
  | grab screen =>
    obtain ⟨t, _, h⟩ := Option.bind_eq_some_iff.mp h
    obtain ⟨p, _, h⟩ := Option.bind_eq_some_iff.mp h
    cases h
    refine Or.inr ⟨screen, rfl, rfl, fun u hu => ?_⟩
    simp only at hu
    split at hu
    · exact Or.inl hu
    · rcases List.mem_append.mp hu with hu | hu
      · exact Or.inl hu
      · exact Or.inr (List.mem_singleton.mp hu)
  | perform e r =>
    obtain ⟨t, _, h⟩ := Option.bind_eq_some_iff.mp h
    obtain ⟨p, _, h⟩ := Option.bind_eq_some_iff.mp h
    exact Or.inl (after_eq h)

theorem step_ok {c : Codec} {v : Vars} {s s' : Lifetime} {a : Step} (hs : Ok v.screen s) (h : step c v s a = some s') :
    Ok v.screen s' := by
  rcases step_cases h with ⟨h1, h2, h3⟩ | ⟨screen, h1, h2, h3⟩
  · exact ⟨by rw [h1, h2]; exact hs.current, by rw [h3]; exact hs.recorded⟩
  · refine ⟨fun i hi => ?_, fun u hu i hi => ?_⟩
    · rw [h1, h2]
      exact updateScreen_fst c v.screen s.compareBuf screen hi
    · rcases h3 u hu with hu | rfl
      · exact hs.recorded u hu i hi
      · exact hs.current i hi

theorem run_ok {c : Codec} {v : Vars} {steps : List Step} {s : Lifetime}
    (hrun : Transition.run (step c v) initial steps = some s) : Ok v.screen s :=
  Transition.run_preserves (fun _ _ _ hs h => step_ok hs h) ⟨fun _ _ => rfl, fun _ h => by cases h⟩ hrun

def Black (g : Geometry) (screen : Option Frame) : Prop :=
  ∀ i < g.scrWidth * g.scrHeight, screen.getD (fun _ => 0) i = 0

theorem pixelBytes_eq_zero {p : UInt32} (h : ∀ k < 4, (pixelBytes p)[k]? = some 0) : p = 0 := by
  have hp := p.toNat_lt
  have h0 := h 0 (by omega)
  have h1 := h 1 (by omega)
  have h2 := h 2 (by omega)
  have h3 := h 3 (by omega)
  simp only [pixelBytes, List.getElem?_cons_zero, List.getElem?_cons_succ, Option.some.injEq] at h0 h1 h2 h3
  have hn : ∀ n, UInt8.ofNat n = 0 → n % 2 ^ 8 = 0 := by
    intro n hn
    simpa using congrArg UInt8.toNat hn
  have e0 := hn _ h0
  have e1 := hn _ h1
  have e2 := hn _ h2
  have e3 := hn _ h3
  apply UInt32.toNat_inj.mp
  simp only [UInt32.reduceToNat]
  omega

theorem inSync_blank_iff {g : Geometry} {compareBuf : Option Frame} :
    InSync g ⟨compareBuf, blankFramebuffer g⟩ ↔ Black g compareBuf := by
  constructor
  · intro h i hi
    apply pixelBytes_eq_zero
    intro k hk
    have hblank : (blankFramebuffer g)[4 * i + k]? = some 0 := by
      rw [(shows_blank g).2 i hi k hk]
      exact pixelBytes_zero hk
    exact (h.2 i hi k hk).symm.trans hblank
  · exact fun h => shows_congr (fun i hi => (h i hi).symm) (shows_blank g)

/-- In every run, the viewers are in sync when their sessions serve the first update
exactly when the last screen grabbed before that, in an earlier session, was black. -/
theorem new_viewers_in_sync_iff (c : Codec) (v : Vars) (steps : List Step) (s : Lifetime)
    (hrun : Transition.run (step c v) initial steps = some s) :
    (∀ u ∈ s.firstUpdates, InSync v.screen ⟨u.compareBuf, blankFramebuffer v.screen⟩) ↔
      ∀ u ∈ s.firstUpdates, Black v.screen u.earlier := by
  have hok := run_ok hrun
  have hsame : ∀ u ∈ s.firstUpdates,
      (InSync v.screen ⟨u.compareBuf, blankFramebuffer v.screen⟩ ↔ Black v.screen u.earlier) := by
    intro u hu
    rw [inSync_blank_iff]
    constructor
    · exact fun h i hi => (hok.recorded u hu i hi).symm.trans (h i hi)
    · exact fun h i hi => (hok.recorded u hu i hi).trans (h i hi)
  constructor
  · exact fun h u hu => (hsame u hu).mp (h u hu)
  · exact fun h u hu => (hsame u hu).mpr (h u hu)

/-! ## A reconnect after a lost connection -/

/-- A projector that shares its screen through a control server. -/
def sharingVars : Vars := ⟨false, true, screen16, [97], [115], [104]⟩

/-- A session up to its first update, of which only the announcement of `n` regions is tried. -/
def firstUpdateLost (screen : Frame) (n : ℕ) : List Step :=
  [.connect, .perform (.tcpWrite .signature (remoteId ++ [0])) true, .perform (.tcpRead 33) (serverId ++ [0]),
    .perform .isStarted true, .perform (.tcpRead 4) (htonl Req.screenUpdate.code),
    .perform (.dispatch Req.screenUpdate.code) (), .grab screen,
    .perform (.tcpWrite (.answer (.screenUpdate n)) (screenRegionsBytes n)) false]

def connectionLost : List Step :=
  [.perform .isStarted true, .perform (.tcpRead 4) [], .perform (.setStatus .connectionError) (), .perform .tcpClose ()]

theorem black_screen_in_sync :
    ∃ s, Transition.run (step noiseCodec sharingVars) initial
        (firstUpdateLost (fun _ => 0) 0 ++ connectionLost ++ firstUpdateLost (fun _ => 1) 1) = some s ∧
      ((∀ u ∈ s.firstUpdates, InSync sharingVars.screen ⟨u.compareBuf, blankFramebuffer sharingVars.screen⟩) ↔
        ∀ u ∈ s.firstUpdates, Black sharingVars.screen u.earlier) := by
  have hrun : (Transition.run (step noiseCodec sharingVars) initial
      (firstUpdateLost (fun _ => 0) 0 ++ connectionLost ++ firstUpdateLost (fun _ => 1) 1)).isSome = true := by
    decide +kernel
  obtain ⟨s, hs⟩ := Option.isSome_iff_exists.mp hrun
  exact ⟨s, hs, new_viewers_in_sync_iff noiseCodec sharingVars _ s hs⟩

/-- After a lost update of a white screen the new viewer never gets these pixels. -/
theorem reconnect_out_of_sync :
    ∃ s, Transition.run (step noiseCodec sharingVars) initial
        (firstUpdateLost (fun _ => 0xFFFFFF) 1 ++ connectionLost ++ firstUpdateLost (fun _ => 0xFFFFFF) 0) = some s ∧
      ¬ ∀ u ∈ s.firstUpdates, InSync sharingVars.screen ⟨u.compareBuf, blankFramebuffer sharingVars.screen⟩ := by
  have hrun : ((Transition.run (step noiseCodec sharingVars) initial
      (firstUpdateLost (fun _ => 0xFFFFFF) 1 ++ connectionLost ++ firstUpdateLost (fun _ => 0xFFFFFF) 0)).map
      (fun s => decide (∃ u ∈ s.firstUpdates, u.compareBuf.getD (fun _ => 0) 0 ≠ 0))) = some true := by
    decide +kernel
  obtain ⟨s, hs, hex⟩ := Option.map_eq_some_iff.mp hrun
  refine ⟨s, hs, fun hall => ?_⟩
  obtain ⟨u, hu, hne⟩ := of_decide_eq_true hex
  exact hne (inSync_blank_iff.mp (hall u hu) 0 (by decide))

end Lifetime
end LilitunRemote

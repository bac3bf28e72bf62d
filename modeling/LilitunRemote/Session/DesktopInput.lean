import LilitunRemote.Projector.WinGrabber
import LilitunRemote.Session.InputDelivery

/-! # The remote desktop under the viewer's buttons and keys

A grabber keeps one mask and turns buttons and keys of its desktop. What the two
grabbers have in common is a structure with its laws; from these, the desktop's
buttons are those of the viewer's last mask and its keys those of the last key events,
whatever the flushes, the reads and the calls the queue leaves out.
-/
namespace LilitunRemote
open Projector Switches
variable {σ β κ : Type} [DecidableEq β] [DecidableEq κ]

structure Platform (σ β κ : Type) [DecidableEq β] [DecidableEq κ] where
  perform : σ → Effect → σ
  start : σ
  mask : σ → UInt32
  buttonTurns : σ → List (β × Bool)
  keyTurns : σ → List (κ × Bool)
  buttons : List β
  bitOf : β → ℕ
  /-- The turns for a key symbol. -/
  keys : Bool → UInt32 → List (κ × Bool)
  nodup : buttons.Nodup
  keys_value : ∀ down key, ∀ e ∈ keys down key, e.2 = down
  start_mask : mask start = 0
  start_buttons : buttonTurns start = []
  start_keys : keyTurns start = []
  mouse_mask : ∀ cfg new x y, ∀ b ∈ buttons,
    XGrabber.bit (mask (perform cfg (.mouseEvent new x y))) (bitOf b) = XGrabber.bit new (bitOf b)
  mouse_buttons : ∀ cfg new x y, buttonTurns (perform cfg (.mouseEvent new x y)) = buttonTurns cfg ++
    changes buttons (fun b => XGrabber.bit (mask cfg) (bitOf b)) (fun b => XGrabber.bit new (bitOf b))
  mouse_keys : ∀ cfg new x y, keyTurns (perform cfg (.mouseEvent new x y)) = keyTurns cfg
  keyboard_mask : ∀ cfg down key, mask (perform cfg (.keyboardEvent down key)) = mask cfg
  keyboard_buttons : ∀ cfg down key, buttonTurns (perform cfg (.keyboardEvent down key)) = buttonTurns cfg
  keyboard_keys : ∀ cfg down key,
    keyTurns (perform cfg (.keyboardEvent down key)) = keyTurns cfg ++ keys (down ≠ 0) key
  dispatch : ∀ cfg req, perform cfg (.dispatch req) = cfg

abbrev released {κ : Type} : Held κ := fun _ => false

def lastMask (old : UInt32) (calls : List InputCall) : UInt32 :=
  calls.foldl (fun mask c => match c with | .pointer buttons _ _ => buttons.toUInt32 | _ => mask) old

def maskAfter (old : UInt32) (events : List InputEvent) : UInt32 :=
  events.foldl (fun mask e => match e with | .pointer buttons _ _ _ => buttons | .keyboard _ _ => mask) old

def InputEvent.pressed : InputEvent → Bool
  | .keyboard down _ => down ≠ 0
  | .pointer _ _ _ _ => false

theorem maskAfter_delivered {calls : List InputCall} (hmask : ∀ c ∈ calls, c.HasMask) {last old : UInt32}
    (hlast : last = 0xFFFFFFFF ∨ last = old) : maskAfter old (InputQueue.delivered last calls) = lastMask old calls := by
  induction calls generalizing last old with
  | nil => rfl
  | cons c calls ih =>
    have hrest : ∀ c ∈ calls, c.HasMask := fun c hc => hmask c (List.mem_cons_of_mem _ hc)
    cases c with
    | keyboard down key => exact ih hrest hlast
    | flush => exact ih hrest (Or.inl rfl)
    | pointer buttons x y =>
      have hne : buttons.toUInt32 ≠ 0xFFFFFFFF := hmask _ List.mem_cons_self
      unfold InputQueue.delivered
      split
      · exact ih hrest (Or.inr rfl)
      · next hsame =>
        obtain rfl : last = buttons.toUInt32 := not_not.mp hsame
        obtain rfl : buttons.toUInt32 = old := hlast.resolve_left hne
        exact ih hrest (Or.inr rfl)

namespace Platform
variable (G : Platform σ β κ) {cfg : σ} {old : UInt32}

def turnsOf : InputEvent → List (κ × Bool)
  | .keyboard down key => G.keys (down ≠ 0) key
  | .pointer _ _ _ _ => []

theorem turnsOf_value (e : InputEvent) : ∀ t ∈ G.turnsOf e, t.2 = e.pressed := by
  cases e with
  | keyboard down key => exact G.keys_value _ key
  | pointer buttons x y wheel => simp [turnsOf]

structure Follows (old : UInt32) (cfg : σ) : Prop where
  tracked : ∀ b ∈ G.buttons, XGrabber.bit (G.mask cfg) (G.bitOf b) = XGrabber.bit old (G.bitOf b)
  down : ∀ b, replay released (G.buttonTurns cfg) b = (decide (b ∈ G.buttons) && XGrabber.bit old (G.bitOf b))
  alternates : Alternates released (G.buttonTurns cfg)

theorem start_follows : G.Follows 0 G.start where
  tracked := by simp [G.start_mask]
  down := by simp [G.start_buttons, XGrabber.bit]
  alternates := by simp [G.start_buttons, Alternates]

variable {G}

theorem Follows.mouse (h : G.Follows old cfg) (new x y : UInt32) :
    G.Follows new (G.perform cfg (.mouseEvent new x y)) := by
  have hheld : ∀ b ∈ G.buttons, replay released (G.buttonTurns cfg) b = XGrabber.bit (G.mask cfg) (G.bitOf b) := by
    intro b hb
    rw [h.down, h.tracked b hb]
    simp [hb]
  refine ⟨G.mouse_mask cfg new x y, fun b => ?_, ?_⟩
  · rw [G.mouse_buttons, replay_append, replay_changes hheld, h.down]
    by_cases hb : b ∈ G.buttons <;> simp [hb]
  · rw [G.mouse_buttons]
    exact alternates_append.mpr ⟨h.alternates, alternates_changes G.nodup hheld⟩

theorem Follows.keyboard (h : G.Follows old cfg) (down key : UInt32) :
    G.Follows old (G.perform cfg (.keyboardEvent down key)) := by
  refine ⟨?_, ?_, ?_⟩
  · rw [G.keyboard_mask]
    exact h.tracked
  · rw [G.keyboard_buttons]
    exact h.down
  · rw [G.keyboard_buttons]
    exact h.alternates

theorem Follows.events (h : G.Follows old cfg) (events : List InputEvent) :
    G.Follows (maskAfter old events) ((events.map effectOf).foldl G.perform cfg) := by
  induction events generalizing old cfg with
  | nil => exact h
  | cons e events ih =>
    cases e with
    | keyboard down key => exact ih (h.keyboard down key)
    | pointer buttons x y wheel => exact ih (h.mouse buttons x y)

variable (G)

theorem keyTurns_events (events : List InputEvent) (cfg : σ) :
    G.keyTurns ((events.map effectOf).foldl G.perform cfg) = G.keyTurns cfg ++ events.flatMap G.turnsOf := by
  induction events generalizing cfg with
  | nil => simp
  | cons e events ih =>
    rw [List.map_cons, List.foldl_cons, ih]
    cases e with
    | keyboard down key => simp [effectOf, G.keyboard_keys, turnsOf]
    | pointer buttons x y wheel => simp [effectOf, G.mouse_keys, turnsOf]

/-- Dispatching is not the grabber's, and after a part of the handling of some records it
stands behind a first part of these. -/
theorem foldl_handled {log : List Effect} {events : List InputEvent} (h : log <+: events.flatMap Receiver.handled) (cfg : σ) :
    ∃ seen, seen <+: events ∧ log.foldl G.perform cfg = (seen.map effectOf).foldl G.perform cfg := by
  induction events generalizing log cfg with
  | nil =>
    rw [List.prefix_nil.mp h]
    exact ⟨[], List.prefix_rfl, rfl⟩
  | cons e events ih =>
    have hlog : log <+: .dispatch e.req.code :: effectOf e :: events.flatMap Receiver.handled := h
    rcases List.prefix_cons_iff.mp hlog with rfl | ⟨rest, rfl, hrest⟩
    · exact ⟨[], List.nil_prefix, rfl⟩
    · rcases List.prefix_cons_iff.mp hrest with rfl | ⟨more, rfl, hmore⟩
      · exact ⟨[], List.nil_prefix, G.dispatch cfg _⟩
      · obtain ⟨seen, hseen, hfold⟩ := ih hmore (G.perform cfg (effectOf e))
        refine ⟨e :: seen, List.cons_prefix_cons.mpr ⟨rfl, hseen⟩, ?_⟩
        rw [List.foldl_cons, G.dispatch, List.foldl_cons, hfold]
        rfl

theorem foldl_all_handled (events : List InputEvent) (cfg : σ) :
    (events.flatMap Receiver.handled).foldl G.perform cfg = (events.map effectOf).foldl G.perform cfg := by
  induction events generalizing cfg with
  | nil => rfl
  | cons e events ih =>
    rw [List.flatMap_cons, List.foldl_append, ih]
    simp [Receiver.handled, G.dispatch]

/-- A key is down when the last key event that turns it was a press. -/
def keyDown (calls : List InputCall) (k : κ) : Bool :=
  (((calls.filterMap InputCall.event).filter (fun e => (G.turnsOf e).any (fun t => t.1 = k))).getLast?.map
    InputEvent.pressed).getD false

theorem delivered_turns (last : UInt32) (calls : List InputCall) :
    (InputQueue.delivered last calls).flatMap G.turnsOf = (calls.filterMap InputCall.event).flatMap G.turnsOf := by
  have hkeyboard : ∀ events : List InputEvent, events.flatMap G.turnsOf = (events.filter InputEvent.isKeyboard).flatMap G.turnsOf := by
    intro events
    induction events with
    | nil => rfl
    | cons e events ih =>
      cases e with
      | keyboard down key =>
        rw [List.filter_cons_of_pos rfl, List.flatMap_cons, List.flatMap_cons, ih]
      | pointer buttons x y wheel =>
        rw [List.filter_cons_of_neg (by simp [InputEvent.isKeyboard]), List.flatMap_cons, ih]
        rfl
  rw [hkeyboard, InputQueue.delivered_keyboard, ← hkeyboard]

theorem delivered_keyDown (last : UInt32) (calls : List InputCall) (k : κ) :
    replay released ((InputQueue.delivered last calls).flatMap G.turnsOf) k = G.keyDown calls k := by
  rw [delivered_turns, replay_flatMap G.turnsOf_value, keyDown]

end Platform

/-! ## The two grabbers -/

namespace Projector.XGrabber

def buttonTurn (i : Injection) : Option (ℕ × Bool) :=
  match i.input with
  | .button press button => some (button, press)
  | _ => none

def keyTurn (i : Injection) : Option (UInt8 × Bool) :=
  match i.input with
  | .key press keycode => some (keycode, press)
  | _ => none

def motion (i : Injection) : Option (UInt16 × UInt16) :=
  match i.input with
  | .motion rootX rootY => some (rootX, rootY)
  | _ => none

def motionTo (cfg : XGrabber) (x y : UInt32) : List Injection :=
  if x ≠ cfg.x ∨ y ≠ cfg.y then [⟨.motion x.toUInt16 y.toUInt16, cfg.x, cfg.y⟩] else []

theorem moveTo_injected (cfg : XGrabber) (x y : UInt32) : (cfg.moveTo x y).injected = cfg.injected ++ cfg.motionTo x y := by
  unfold moveTo motionTo
  split
  · rfl
  · simp

theorem grabberMouseEvent_injected (cfg : XGrabber) (buttons x y : UInt32) :
    (cfg.grabberMouseEvent buttons x y).injected = cfg.injected ++ cfg.motionTo x y ++ maskEvents cfg.buttons buttons x y ∧
      (cfg.grabberMouseEvent buttons x y).x = x ∧ (cfg.grabberMouseEvent buttons x y).y = y := by
  obtain ⟨hx, hy, hbuttons, -⟩ := cfg.moveTo_spec x y
  obtain ⟨-, hx', hy', hinjected⟩ := setBits_spec buttons (List.range 5) List.nodup_range
    (fun i hi => by have := List.mem_range.mp hi; omega) (cfg.moveTo x y)
  rw [hx, hy, hbuttons, moveTo_injected] at hinjected
  exact ⟨hinjected, hx'.trans hx, hy'.trans hy⟩

theorem maskEvents_eq (old new x y : UInt32) :
    maskEvents old new x y = (changes [1, 2, 3, 4, 5] (fun b => bit old (b - 1)) (fun b => bit new (b - 1))).map
      (fun e => ⟨.button e.2 e.1, x, y⟩) := by
  have hrange : [1, 2, 3, 4, 5] = (List.range 5).map (· + 1) := rfl
  rw [hrange, changes, List.filterMap_map, List.map_filterMap, maskEvents]
  refine List.filterMap_congr (fun i _ => ?_)
  simp only [bitEvent, Function.comp_apply, Nat.add_sub_cancel]
  split <;> rfl

theorem filterMap_maskEvents {γ : Type} {f : Injection → Option γ} (old new x y : UInt32)
    (hf : ∀ press button, f ⟨.button press button, x, y⟩ = none) : (maskEvents old new x y).filterMap f = [] := by
  rw [maskEvents_eq, List.filterMap_map]
  exact List.filterMap_eq_nil_iff.mpr (fun e _ => hf e.2 e.1)

theorem filterMap_motionTo {γ : Type} {f : Injection → Option γ} (cfg : XGrabber) (x y : UInt32)
    (hf : ∀ rootX rootY, f ⟨.motion rootX rootY, cfg.x, cfg.y⟩ = none) : (cfg.motionTo x y).filterMap f = [] := by
  unfold motionTo
  split
  · simp [hf]
  · rfl

end Projector.XGrabber

open XGrabber in
def x11 (keycodes : UInt32 → Option UInt8) : Platform XGrabber ℕ UInt8 where
  perform := XGrabber.perform keycodes
  start := XGrabber.init
  mask := XGrabber.buttons
  buttonTurns cfg := cfg.injected.filterMap buttonTurn
  keyTurns cfg := cfg.injected.filterMap keyTurn
  buttons := [1, 2, 3, 4, 5]
  bitOf b := b - 1
  keys down key := ((keycodes key).map (fun k => (k, down))).toList
  nodup := by decide
  keys_value := by
    intro down key e he
    cases h : keycodes key with
    | none => simp [h] at he
    | some k =>
      obtain rfl : e = (k, down) := by simpa [h] using he
      rfl
  start_mask := rfl
  start_buttons := rfl
  start_keys := rfl
  mouse_mask := by
    intro cfg new x y b hb
    have hbit := (cfg.grabberMouseEvent_spec new x y).1 (b - 1)
    simp only [List.mem_cons, List.not_mem_nil, or_false] at hb
    exact hbit (by omega)
  mouse_buttons := by
    intro cfg new x y
    have hsome : ∀ l : List (ℕ × Bool), (l.map (fun e => (⟨.button e.2 e.1, x, y⟩ : Injection))).filterMap buttonTurn = l := by
      intro l
      rw [List.filterMap_map]
      exact List.filterMap_some
    simp only [XGrabber.perform, (grabberMouseEvent_injected cfg new x y).1, List.filterMap_append]
    rw [filterMap_motionTo cfg x y (fun _ _ => rfl), maskEvents_eq, hsome, List.append_nil]
  mouse_keys := by
    intro cfg new x y
    simp only [XGrabber.perform, (grabberMouseEvent_injected cfg new x y).1, List.filterMap_append]
    rw [filterMap_motionTo cfg x y (fun _ _ => rfl), filterMap_maskEvents _ _ x y (fun _ _ => rfl), List.append_nil,
      List.append_nil]
  keyboard_mask cfg down key := (cfg.grabberKeyboardEvent_spec keycodes down key).1
  keyboard_buttons := by
    intro cfg down key
    simp only [XGrabber.perform, grabberKeyboardEvent]
    cases keycodes key with
    | none => rfl
    | some k => simp [fakeInput, buttonTurn]
  keyboard_keys := by
    intro cfg down key
    simp only [XGrabber.perform, grabberKeyboardEvent]
    cases keycodes key with
    | none => simp
    | some k => simp [fakeInput, keyTurn]
  dispatch _ _ := rfl

def windows (desktop : Desktop) (width height : Int32) : Platform WinGrabber WinGrabber.Button UInt8 where
  perform := WinGrabber.perform desktop
  start := ⟨width, height, 0, []⟩
  mask := WinGrabber.mouseButtons
  buttonTurns cfg := cfg.sent.flatMap WinGrabber.buttonTurns
  keyTurns cfg := cfg.sent.flatMap WinGrabber.keyTurns
  buttons := [.left, .right, .middle]
  bitOf := WinGrabber.Button.bit
  keys := WinGrabber.keysTurned desktop
  nodup := by decide
  keys_value := WinGrabber.keysTurned_value desktop
  start_mask := rfl
  start_buttons := rfl
  start_keys := rfl
  mouse_mask _ _ _ _ _ _ := rfl
  mouse_buttons := by
    intro cfg new x y
    obtain ⟨sent, hsent, hbuttons, -⟩ := cfg.grabberMouseEvent_spec desktop new x y
    simp only [WinGrabber.perform, hsent, List.flatMap_append, hbuttons]
  mouse_keys := by
    intro cfg new x y
    obtain ⟨sent, hsent, -, hkeys, -⟩ := cfg.grabberMouseEvent_spec desktop new x y
    simp only [WinGrabber.perform, hsent, List.flatMap_append, hkeys, List.append_nil]
  keyboard_mask := by
    intro cfg down key
    obtain ⟨sent, hsent, -⟩ := cfg.grabberKeyboardEvent_spec desktop down key
    simp only [WinGrabber.perform, hsent]
  keyboard_buttons := by
    intro cfg down key
    obtain ⟨sent, hsent, -, hbuttons, -⟩ := cfg.grabberKeyboardEvent_spec desktop down key
    simp only [WinGrabber.perform, hsent, List.flatMap_append, hbuttons, List.append_nil]
  keyboard_keys := by
    intro cfg down key
    obtain ⟨sent, hsent, hkeys, -⟩ := cfg.grabberKeyboardEvent_spec desktop down key
    simp only [WinGrabber.perform, hsent, List.flatMap_append, hkeys]
  dispatch _ _ := rfl

/-! ## The viewer and the desktop -/

namespace Platform
variable (G : Platform σ β κ)

/-- During the run of the projector every turn of a button changes it, and at the end the
buttons are those of the last mask and the keys those of the last key events. -/
theorem desktop_follows (v : Vars) (keycodes : UInt32 → Option UInt8) {calls : List InputCall}
    (hmask : ∀ c ∈ calls, c.HasMask) {answers : List ((e : Effect) × Response e)} {s : Receiver}
    (hrun : Transition.run (Receiver.step v keycodes)
      (Receiver.start v ((InputQueue.delivered 0xFFFFFFFF calls).flatMap InputEvent.words)) answers = some s) :
    Alternates released (G.buttonTurns (s.log.foldl G.perform G.start)) ∧
      ((∀ a, s.step v keycodes a = none) →
        s.log.foldl G.perform G.start = ((InputQueue.delivered 0xFFFFFFFF calls).map effectOf).foldl G.perform G.start ∧
        (∀ b, replay released (G.buttonTurns (s.log.foldl G.perform G.start)) b =
          (decide (b ∈ G.buttons) && XGrabber.bit (lastMask 0 calls) (G.bitOf b))) ∧
        ∀ k, replay released (G.keyTurns (s.log.foldl G.perform G.start)) k = G.keyDown calls k) := by
  obtain ⟨m, -, hok⟩ := Transition.run_ranked (fun _ _ _ _ hs h => Receiver.step_ok hs h)
    (Receiver.start_ok v keycodes (InputQueue.delivered 0xFFFFFFFF calls)) hrun
  constructor
  · obtain ⟨seen, -, hfold⟩ := G.foldl_handled hok.log_prefix G.start
    rw [hfold]
    exact (G.start_follows.events seen).alternates
  · intro hstuck
    rw [hok.log_of_stuck hstuck, foldl_all_handled]
    have hfollows := G.start_follows.events (InputQueue.delivered 0xFFFFFFFF calls)
    rw [maskAfter_delivered hmask (Or.inl rfl)] at hfollows
    refine ⟨rfl, hfollows.down, fun k => ?_⟩
    rw [keyTurns_events, G.start_keys, List.nil_append, delivered_keyDown]

end Platform

def InputEvent.position : InputEvent → Option (UInt32 × UInt32)
  | .keyboard _ _ => none
  | .pointer _ x y _ => some (x, y)

/-- Where the delivered records put the pointer, one after the other. -/
def deliveredPositions (calls : List InputCall) : List (UInt32 × UInt32) :=
  (InputQueue.delivered 0xFFFFFFFF calls).filterMap InputEvent.position

/-- The last position, if the pointer has ever left the corner where the grabber takes it
to be at first. -/
def lastMotion (positions : List (UInt32 × UInt32)) : Option (UInt16 × UInt16) :=
  if positions.all (· = (0, 0)) then none else positions.getLast?.map (fun p => (p.1.toUInt16, p.2.toUInt16))

theorem lastMotion_concat (positions : List (UInt32 × UInt32)) (x y : UInt32) :
    lastMotion (positions ++ [(x, y)]) =
      if (x, y) = (positions.getLast?.getD (0, 0)) then lastMotion positions else some (x.toUInt16, y.toUInt16) := by
  simp only [lastMotion, List.all_append, List.all_cons, List.all_nil, Bool.and_true, List.getLast?_concat, Option.map_some]
  cases hall : positions.all (· = (0, 0)) with
  | true =>
    have hlast : positions.getLast?.getD (0, 0) = (0, 0) := by
      cases hlast : positions.getLast? with
      | none => rfl
      | some p => simpa using List.all_eq_true.mp hall p (List.mem_of_getLast? hlast)
    rw [hlast]
    simp
  | false =>
    have hne : positions ≠ [] := by
      rintro rfl
      simp at hall
    rw [List.getLast?_eq_some_getLast hne]
    by_cases hsame : (x, y) = positions.getLast hne
    · simp [← hsame]
    · simp [hsame]

theorem lastMotion_events (keycodes : UInt32 → Option UInt8) (events : List InputEvent) :
    (((events.map effectOf).foldl (XGrabber.perform keycodes) XGrabber.init).x,
        ((events.map effectOf).foldl (XGrabber.perform keycodes) XGrabber.init).y) =
        (events.filterMap InputEvent.position).getLast?.getD (0, 0) ∧
      (((events.map effectOf).foldl (XGrabber.perform keycodes) XGrabber.init).injected.filterMap XGrabber.motion).getLast? =
        lastMotion (events.filterMap InputEvent.position) := by
  induction events using List.reverseRecOn with
  | nil => simp [lastMotion, XGrabber.init]
  | append_singleton events e ih =>
    simp only [List.map_append, List.map_singleton, List.foldl_concat, List.filterMap_append]
    generalize (events.map effectOf).foldl (XGrabber.perform keycodes) XGrabber.init = cfg at ih ⊢
    obtain ⟨htracked, hmotion⟩ := ih
    cases e with
    | keyboard down key =>
      simp only [effectOf, XGrabber.perform, XGrabber.grabberKeyboardEvent]
      cases keycodes key with
      | none =>
        simp only [InputEvent.position, List.filterMap_cons, List.filterMap_nil, List.append_nil]
        exact ⟨htracked, hmotion⟩
      | some k =>
        simp only [InputEvent.position, XGrabber.fakeInput, XGrabber.motion, List.filterMap_append, List.filterMap_cons,
          List.filterMap_nil, List.append_nil]
        exact ⟨htracked, hmotion⟩
    | pointer buttons x y wheel =>
      obtain ⟨hinjected, hx, hy⟩ := cfg.grabberMouseEvent_injected buttons x y
      simp only [effectOf, XGrabber.perform, hinjected, hx, hy, List.filterMap_append, InputEvent.position,
        List.filterMap_cons, List.filterMap_nil,
        XGrabber.filterMap_maskEvents (f := XGrabber.motion) _ _ x y (fun _ _ => rfl), List.append_nil]
      refine ⟨by simp, ?_⟩
      rw [lastMotion_concat, ← htracked, ← hmotion, List.getLast?_append, XGrabber.motionTo]
      by_cases hsame : (x, y) = (cfg.x, cfg.y)
      · obtain ⟨rfl, rfl⟩ := Prod.mk.inj hsame
        rw [if_pos rfl, if_neg (by simp)]
        rfl
      · have hmoved : x ≠ cfg.x ∨ y ≠ cfg.y := by
          by_contra h
          simp only [ne_eq, not_or, not_not] at h
          exact hsame (Prod.ext h.1 h.2)
        rw [if_neg hsame, if_pos hmoved]
        rfl

/-- The X11 desktop under any calls of the viewer. A button is pressed only while it is up
and released only while it is down. When the projector has read everything, the five
buttons are those of the last mask, a key is down if the last key event for it was a
press, and the pointer is where the last delivered record puts it, unless no record
has put it anywhere but in the corner. -/
theorem x11_follows_viewer (v : Vars) (keycodes : UInt32 → Option UInt8) (calls : List InputCall)
    (hmask : ∀ c ∈ calls, c.HasMask) (hfits : InputQueue.FitsBetweenFlushes calls) :
    ∃ q, Transition.run InputQueue.call InputQueue.initial (calls ++ [.flush]) = some q ∧
      ∀ answers s, Transition.run (Receiver.step v keycodes) (Receiver.start v q.sent) answers = some s →
        Alternates released ((x11 keycodes).buttonTurns s.cfg) ∧
        ((∀ a, s.step v keycodes a = none) →
          (∀ b, replay released ((x11 keycodes).buttonTurns s.cfg) b =
            (decide (b ∈ [1, 2, 3, 4, 5]) && XGrabber.bit (lastMask 0 calls) (b - 1))) ∧
          (∀ k, replay released ((x11 keycodes).keyTurns s.cfg) k = (x11 keycodes).keyDown calls k) ∧
          (s.cfg.injected.filterMap XGrabber.motion).getLast? = lastMotion (deliveredPositions calls)) := by
  obtain ⟨q, hq, hsent⟩ := InputQueue.run_flushed hfits
  refine ⟨q, hq, fun answers s hrun => ?_⟩
  rw [hsent] at hrun
  obtain ⟨m, -, hok⟩ := Transition.run_ranked (fun _ _ _ _ hs h => Receiver.step_ok hs h)
    (Receiver.start_ok v keycodes (InputQueue.delivered 0xFFFFFFFF calls)) hrun
  have hcfg : s.cfg = s.log.foldl (x11 keycodes).perform (x11 keycodes).start := hok.grabber
  obtain ⟨halternates, hend⟩ := (x11 keycodes).desktop_follows v keycodes hmask hrun
  rw [← hcfg] at halternates hend
  refine ⟨halternates, fun hstuck => ?_⟩
  obtain ⟨hall, hbuttons, hkeys⟩ := hend hstuck
  refine ⟨hbuttons, hkeys, ?_⟩
  rw [hall]
  exact (lastMotion_events keycodes _).2

/-- A drag under shift with a flush in it. -/
def dragWithShift : List InputCall :=
  [.keyboard 1 0xFFE1, .pointer 1 5 6, .pointer 1 7 8, .flush, .pointer 5 9 9]

def shiftKeycode (key : UInt32) : Option UInt8 := if key = 0xFFE1 then some 50 else none

def displayVars : Vars := ⟨false, true, screen16, [97], [115], [104]⟩

theorem drag_reaches_x11 :
    ∃ q, Transition.run InputQueue.call InputQueue.initial (dragWithShift ++ [.flush]) = some q ∧
      ∀ answers s, Transition.run (Receiver.step displayVars shiftKeycode) (Receiver.start displayVars q.sent) answers = some s →
        (∀ a, s.step displayVars shiftKeycode a = none) →
          replay released ((x11 shiftKeycode).buttonTurns s.cfg) 1 = true ∧
          replay released ((x11 shiftKeycode).buttonTurns s.cfg) 2 = false ∧
          replay released ((x11 shiftKeycode).keyTurns s.cfg) 50 = true ∧
          (s.cfg.injected.filterMap XGrabber.motion).getLast? = some (9, 9) := by
  have hfits : ∀ p ∈ dragWithShift.inits, InputQueue.pendingWords p ≤ 1024 := by decide +kernel
  obtain ⟨q, hq, hruns⟩ := x11_follows_viewer displayVars shiftKeycode dragWithShift
    (by simp [dragWithShift, InputCall.HasMask]; decide) (fun p hp => hfits p ((List.mem_inits p dragWithShift).mpr hp))
  refine ⟨q, hq, fun answers s hrun hstuck => ?_⟩
  obtain ⟨hbuttons, hkeys, hmotion⟩ := (hruns answers s hrun).2 hstuck
  refine ⟨(hbuttons 1).trans ?_, (hbuttons 2).trans ?_, (hkeys 50).trans ?_, hmotion.trans ?_⟩ <;> decide +kernel

/-! ### Windows -/

def InputEvent.wheelTurn : InputEvent → Option Int32
  | .keyboard _ _ => none
  | .pointer buttons _ _ _ => WinGrabber.wheelOf buttons

theorem windows_moves (desktop : Desktop) (width height : Int32) (events : List InputEvent) {cfg : WinGrabber}
    (hsize : cfg.width = width ∧ cfg.height = height) :
    ((events.map effectOf).foldl (WinGrabber.perform desktop) cfg).sent.flatMap WinGrabber.wheelTurns =
        cfg.sent.flatMap WinGrabber.wheelTurns ++ events.filterMap InputEvent.wheelTurn ∧
      ((events.map effectOf).foldl (WinGrabber.perform desktop) cfg).sent.flatMap WinGrabber.positions =
        cfg.sent.flatMap WinGrabber.positions ++
          (events.filterMap InputEvent.position).map (fun p => (desktop.scale width p.1, desktop.scale height p.2)) := by
  induction events generalizing cfg with
  | nil => simp
  | cons e events ih =>
    rw [List.map_cons, List.foldl_cons]
    cases e with
    | keyboard down key =>
      obtain ⟨new, hnew, -, -, hwheel, hpositions⟩ := cfg.grabberKeyboardEvent_spec desktop down key
      have hstep : cfg.perform desktop (effectOf (.keyboard down key)) = { cfg with sent := cfg.sent ++ new } := hnew
      obtain ⟨hwheels, hmoves⟩ := @ih { cfg with sent := cfg.sent ++ new } hsize
      rw [hstep, hwheels, hmoves, List.filterMap_cons_none rfl, List.filterMap_cons_none rfl]
      simp [hwheel, hpositions]
    | pointer buttons x y wheel =>
      obtain ⟨new, hnew, -, -, hwheel, hpositions⟩ := cfg.grabberMouseEvent_spec desktop buttons x y
      obtain ⟨hwheels, hmoves⟩ := @ih (cfg.grabberMouseEvent desktop buttons x y) hsize
      have hstep : cfg.perform desktop (effectOf (.pointer buttons x y wheel)) = cfg.grabberMouseEvent desktop buttons x y := rfl
      rw [hstep, hwheels, hmoves, hnew]
      constructor
      · cases hw : WinGrabber.wheelOf buttons <;> simp [hwheel, hw, InputEvent.wheelTurn]
      · simp [hpositions, hsize, InputEvent.position]

/-- The Windows desktop under any calls of the viewer: the three buttons as on X11, a key by
the last key event that turns it, where a character that needs it turns shift too; the
wheel turns with every delivered record whose mask has one of its bits, and the pointer
goes wherever a record puts it. -/
theorem windows_follows_viewer (v : Vars) (keycodes : UInt32 → Option UInt8) (desktop : Desktop) (width height : Int32)
    (calls : List InputCall) (hmask : ∀ c ∈ calls, c.HasMask) (hfits : InputQueue.FitsBetweenFlushes calls) :
    ∃ q, Transition.run InputQueue.call InputQueue.initial (calls ++ [.flush]) = some q ∧
      ∀ answers s, Transition.run (Receiver.step v keycodes) (Receiver.start v q.sent) answers = some s →
        ∀ cfg, cfg = s.log.foldl (WinGrabber.perform desktop) ⟨width, height, 0, []⟩ →
          Alternates released (cfg.sent.flatMap WinGrabber.buttonTurns) ∧
          ((∀ a, s.step v keycodes a = none) →
            (∀ b : WinGrabber.Button,
              replay released (cfg.sent.flatMap WinGrabber.buttonTurns) b = XGrabber.bit (lastMask 0 calls) b.bit) ∧
            (∀ k, replay released (cfg.sent.flatMap WinGrabber.keyTurns) k = (windows desktop width height).keyDown calls k) ∧
            cfg.sent.flatMap WinGrabber.wheelTurns =
              (InputQueue.delivered 0xFFFFFFFF calls).filterMap InputEvent.wheelTurn ∧
            cfg.sent.flatMap WinGrabber.positions =
              (deliveredPositions calls).map (fun p => (desktop.scale width p.1, desktop.scale height p.2))) := by
  obtain ⟨q, hq, hsent⟩ := InputQueue.run_flushed hfits
  refine ⟨q, hq, fun answers s hrun cfg hcfg => ?_⟩
  rw [hsent] at hrun
  obtain ⟨halternates, hend⟩ := (windows desktop width height).desktop_follows v keycodes hmask hrun
  subst hcfg
  refine ⟨halternates, fun hstuck => ?_⟩
  obtain ⟨hall, hbuttons, hkeys⟩ := hend hstuck
  obtain ⟨hwheels, hmoves⟩ := @windows_moves desktop width height (InputQueue.delivered 0xFFFFFFFF calls)
    ⟨width, height, 0, []⟩ ⟨rfl, rfl⟩
  refine ⟨fun b => ?_, hkeys, ?_, ?_⟩
  · have hb : b ∈ (windows desktop width height).buttons := by cases b <;> simp [windows]
    rw [← Bool.true_and (XGrabber.bit _ _), ← decide_eq_true hb]
    exact hbuttons b
  · exact (congrArg (fun cfg : WinGrabber => cfg.sent.flatMap WinGrabber.wheelTurns) hall).trans hwheels
  · exact (congrArg (fun cfg : WinGrabber => cfg.sent.flatMap WinGrabber.positions) hall).trans hmoves

/-- A capital letter under shift, and two records with a button and the wheel. -/
def capitalAndWheel : List InputCall :=
  [.keyboard 1 0xFFE1, .keyboard 1 0x41, .keyboard 0 0x41, .pointer 9 5 6, .flush, .pointer 9 7 8]

/-- Two keys of a layout, and a scale without rounding on extents that divide 65535. -/
def layoutDesktop : Desktop where
  scale extent p := Int32.ofInt (p.toInt32.toInt * 65535 / extent.toInt)
  vkKeyScan c := if c = 0x41 then 0x141 else if c = 0x61 then 0x41 else 0xFFFF

theorem capital_reaches_windows :
    ∃ q, Transition.run InputQueue.call InputQueue.initial (capitalAndWheel ++ [.flush]) = some q ∧
      ∀ answers s, Transition.run (Receiver.step displayVars shiftKeycode) (Receiver.start displayVars q.sent) answers = some s →
        (∀ a, s.step displayVars shiftKeycode a = none) →
        ∀ cfg, cfg = s.log.foldl (WinGrabber.perform layoutDesktop) ⟨4369, 3855, 0, []⟩ →
          replay released (cfg.sent.flatMap WinGrabber.buttonTurns) .left = true ∧
          replay released (cfg.sent.flatMap WinGrabber.keyTurns) WinGrabber.vkShift = false ∧
          cfg.sent.flatMap WinGrabber.wheelTurns = [120, 120] ∧
          cfg.sent.flatMap WinGrabber.positions = [(75, 102), (105, 136)] := by
  have hfits : ∀ p ∈ capitalAndWheel.inits, InputQueue.pendingWords p ≤ 1024 := by decide +kernel
  obtain ⟨q, hq, hruns⟩ := windows_follows_viewer displayVars shiftKeycode layoutDesktop 4369 3855 capitalAndWheel
    (by simp [capitalAndWheel, InputCall.HasMask]; decide) (fun p hp => hfits p ((List.mem_inits p capitalAndWheel).mpr hp))
  refine ⟨q, hq, fun answers s hrun hstuck cfg hcfg => ?_⟩
  obtain ⟨hbuttons, hkeys, hwheels, hmoves⟩ := (hruns answers s hrun cfg hcfg).2 hstuck
  refine ⟨(hbuttons .left).trans ?_, (hkeys _).trans ?_, hwheels.trans ?_, hmoves.trans ?_⟩ <;> decide +kernel

/-- Shift is up behind the release of a character that needs it, whether or not the viewer
holds it. -/
theorem shift_lost (desktop : Desktop) (width height : Int32) {key : UInt32} {vk : UInt8}
    (hkey : WinGrabber.keyOf desktop key = some (vk, true)) (calls : List InputCall) :
    (windows desktop width height).keyDown (calls ++ [.keyboard 0 key]) WinGrabber.vkShift = false := by
  have hevent : InputCall.event (.keyboard 0 key) = some (.keyboard 0 key) := rfl
  have hturns : (windows desktop width height).turnsOf (.keyboard 0 key) = [(vk, false), (WinGrabber.vkShift, false)] := by
    simp [Platform.turnsOf, windows, WinGrabber.keysTurned, hkey]
  simp [Platform.keyDown, hevent, hturns, InputEvent.pressed]

end LilitunRemote

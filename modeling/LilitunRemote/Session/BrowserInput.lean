import LilitunRemote.Browser.InputDevices
import LilitunRemote.Session.BrowserRuns
import LilitunRemote.Session.DesktopInput

/-! # The desktop under the browser's mouse and keyboard

A session of the browser whose input events come from the handlers of its mouse and
keyboard. What the projector has decoded when it waits are the events of these handlers,
and the desktop is as the user left his buttons and keys.
-/
namespace LilitunRemote
open Projector Browser Switches
variable {σ β κ : Type} [DecidableEq β] [DecidableEq κ]

def Browser.DomEvent.scrolls (i : ℕ) : DomEvent → Bool
  | .wheel deltaY => XGrabber.bit (Mouse.wheelBit deltaY) i
  | _ => false

/-! ## Buttons and keys of the handlers' events -/

def rises (i : ℕ) : UInt32 → List InputEvent → ℕ
  | _, [] => 0
  | old, .keyboard _ _ :: events => rises i old events
  | old, .pointer buttons _ _ _ :: events =>
    (if XGrabber.bit old i = false ∧ XGrabber.bit buttons i = true then 1 else 0) + rises i buttons events

theorem maskAfter_append (old : UInt32) (events more : List InputEvent) :
    maskAfter old (events ++ more) = maskAfter (maskAfter old events) more := by
  simp [maskAfter]

theorem rises_append (i : ℕ) (old : UInt32) (events more : List InputEvent) :
    rises i old (events ++ more) = rises i old events + rises i (maskAfter old events) more := by
  induction events generalizing old with
  | nil => simp [rises, maskAfter]
  | cons e events ih =>
    cases e with
    | keyboard down key =>
      have hmask : maskAfter old (.keyboard down key :: events) = maskAfter old events := rfl
      rw [List.cons_append, rises, rises, ih, hmask]
    | pointer buttons x y wheel =>
      have hmask : maskAfter old (.pointer buttons x y wheel :: events) = maskAfter buttons events := rfl
      rw [List.cons_append, rises, rises, ih, hmask, Nat.add_assoc]

namespace Browser.Mouse

theorem maskAfter_keyboard (d : DomEvent) (old : UInt32) : maskAfter old d.keyboard = old := by
  cases d with
  | keydown code | keyup code =>
    simp only [DomEvent.keyboard]
    cases (keys.lookup code).filter (· ≠ 0) with
    | none => rfl
    | some key => rfl
  | mousemove _ _ | mousedown _ _ _ | mouseup _ _ _ | wheel _ => rfl

theorem maskAfter_handle (m : Mouse) (d : DomEvent) : maskAfter m.buttons (m.handle d).2 = (m.handle d).1.buttons := by
  cases d with
  | keydown code => exact maskAfter_keyboard (.keydown code) m.buttons
  | keyup code => exact maskAfter_keyboard (.keyup code) m.buttons
  | mousemove _ _ | mousedown _ _ _ | mouseup _ _ _ | wheel _ => rfl

theorem maskAfter_pushed (events : List DomEvent) : maskAfter 0 (pushed events) = (after events).buttons := by
  induction events using List.reverseRecOn with
  | nil => rfl
  | append_singleton events d ih => rw [pushed_concat, maskAfter_append, ih, maskAfter_handle, after_concat]

/-- An event that neither sets nor clears the bit lets it appear exactly if it turns the
wheel. -/
theorem rises_handle {m : Mouse} {d : DomEvent} {i : ℕ} (hbit : XGrabber.bit m.buttons i = false)
    (hd : d.bit? ≠ some i) : rises i m.buttons (m.handle d).2 = if d.scrolls i then 1 else 0 := by
  have hclear : ∀ mask : UInt32, XGrabber.bit (m.buttons ||| mask) i = XGrabber.bit mask i := by
    intro mask
    unfold XGrabber.bit at hbit ⊢
    rw [UInt32.toBitVec_or, BitVec.getLsbD_or, hbit, Bool.false_or]
  cases d with
  | mousemove x y => simp [handle, event, rises, hbit, DomEvent.scrolls]
  | mousedown button x y =>
    have hmask : XGrabber.bit (1 <<< button) i = false := by
      rw [shiftLeft_one]
      simpa [XGrabber.bit, XGrabber.maskOf, DomEvent.bit?] using fun _ => hd
    simp [handle, event, rises, hclear, hmask, DomEvent.scrolls]
  | mouseup button x y =>
    have hmask : XGrabber.bit (m.buttons &&& ~~~(1 <<< button)) i = false := by
      unfold XGrabber.bit at hbit ⊢
      rw [UInt32.toBitVec_and, BitVec.getLsbD_and, hbit, Bool.false_and]
    simp [handle, event, rises, hmask, DomEvent.scrolls]
  | wheel deltaY =>
    by_cases hscrolls : XGrabber.bit (wheelBit deltaY) i = true
    · simp [handle, event, rises, hbit, DomEvent.scrolls, hclear, hscrolls]
    · simp [handle, event, rises, hbit, DomEvent.scrolls, hclear, hscrolls]
  | keydown code | keyup code =>
    simp only [handle, DomEvent.keyboard]
    cases (keys.lookup code).filter (· ≠ 0) <;> simp [rises, DomEvent.scrolls]

theorem rises_pushed {events : List DomEvent} {i : ℕ} (hmouse : ∀ d ∈ events, d.bit? ≠ some i) :
    rises i 0 (pushed events) = events.countP (DomEvent.scrolls i) := by
  induction events using List.reverseRecOn with
  | nil => rfl
  | append_singleton events d ih =>
    have hbefore : ∀ d ∈ events, d.bit? ≠ some i := fun d hd => hmouse d (List.mem_append_left _ hd)
    have hlast := rises_handle ((after_bit events i).trans (held_of_none hbefore)) (hmouse d (by simp))
    rw [pushed_concat, rises_append, maskAfter_pushed, ih hbefore, hlast]
    simp [List.countP_append, List.countP_singleton]

end Browser.Mouse

namespace Platform
variable (G : Platform σ β κ) {cfg : σ} {old : UInt32}

theorem pushed_turns (events : List DomEvent) :
    (Mouse.pushed events).flatMap G.turnsOf = events.flatMap (fun d => d.keyboard.flatMap G.turnsOf) := by
  induction events using List.reverseRecOn with
  | nil => rfl
  | append_singleton events d ih =>
    have hlast : ∀ m : Mouse, (m.handle d).2.flatMap G.turnsOf = d.keyboard.flatMap G.turnsOf := by
      intro m
      cases d <;> rfl
    rw [Mouse.pushed_concat, List.flatMap_append, ih, hlast]
    simp

theorem keyboard_turns_value (d : DomEvent) : ∀ e ∈ d.keyboard.flatMap G.turnsOf, e.2 = d.isDown := by
  intro e he
  obtain ⟨event, hevent, he⟩ := List.mem_flatMap.mp he
  rw [G.turnsOf_value event e he]
  cases d with
  | keydown code | keyup code =>
    obtain ⟨key, -, rfl⟩ := List.mem_map.mp hevent
    rfl
  | mousemove _ _ | mousedown _ _ _ | mouseup _ _ _ | wheel _ => cases hevent

variable {G}

/-- A button is pressed as often as its bit appears in the masks. -/
theorem Follows.count_presses (h : G.Follows old cfg) {b : β} (hb : b ∈ G.buttons) (events : List InputEvent) :
    (G.buttonTurns ((events.map effectOf).foldl G.perform cfg)).count (b, true) =
      (G.buttonTurns cfg).count (b, true) + rises (G.bitOf b) old events := by
  induction events generalizing old cfg with
  | nil => rfl
  | cons e events ih =>
    cases e with
    | keyboard down key =>
      have hlater := ih (h.keyboard down key)
      rw [G.keyboard_buttons] at hlater
      exact hlater
    | pointer buttons x y wheel =>
      have hlater := ih (h.mouse buttons x y)
      rw [G.mouse_buttons, List.count_append, count_changes G.nodup hb, h.tracked b hb, Nat.add_assoc] at hlater
      exact hlater

variable (G)

/-- Dispatching is not the grabber's. -/
def isTurn : Effect → Bool
  | .dispatch _ => false
  | _ => true

theorem foldl_isTurn (log : List Effect) (cfg : σ) : log.foldl G.perform cfg = (log.filter isTurn).foldl G.perform cfg := by
  induction log generalizing cfg with
  | nil => rfl
  | cons e log ih =>
    by_cases he : isTurn e = true
    · rw [List.filter_cons_of_pos he]
      exact ih _
    · obtain ⟨req, rfl⟩ : ∃ req, e = .dispatch req := by
        cases e <;> simp_all [isTurn]
      rw [List.filter_cons_of_neg he, List.foldl_cons, G.dispatch]
      exact ih cfg

theorem handled_isTurn (records : List Record) :
    (records.flatMap BrowserSession.handled).filter isTurn = (records.filterMap BrowserSession.inputOf).map effectOf := by
  have hevent : ∀ event : InputEvent, isTurn (effectOf event) = true := by
    intro event
    cases event <;> rfl
  induction records with
  | nil => rfl
  | cons q records ih =>
    rw [List.flatMap_cons, List.filter_append, ih]
    cases q with
    | input event =>
      have hdispatch : isTurn (.dispatch event.req.code) = false := rfl
      simp [BrowserSession.handled, BrowserSession.inputOf, Receiver.handled, hdispatch, hevent]
    | hello | password _ | request _ => rfl

theorem foldl_records (records : List Record) (cfg : σ) :
    (records.flatMap BrowserSession.handled).foldl G.perform cfg =
      ((records.filterMap BrowserSession.inputOf).map effectOf).foldl G.perform cfg := by
  rw [foldl_isTurn, handled_isTurn]

/-- A first part of the handling of some records leaves the grabber behind a first part of
their input events. -/
theorem foldl_of_prefix {log : List Effect} {records : List Record} (h : log <+: records.flatMap BrowserSession.handled)
    (cfg : σ) : ∃ seen : List InputEvent, log.foldl G.perform cfg = (seen.map effectOf).foldl G.perform cfg := by
  have hprefix := h.filter isTurn
  rw [handled_isTurn, List.prefix_map_iff] at hprefix
  obtain ⟨seen, -, hlog⟩ := hprefix
  exact ⟨seen, by rw [foldl_isTurn, hlog]⟩

end Platform
/-! ## A session with its mouse and keyboard -/

/-- A session with the mouse of its browser; `seen` are the events whose handlers ran. -/
structure Attended where
  session : BrowserSession.Session
  mouse : Mouse
  seen : List DomEvent

namespace Attended

inductive Action
  | user (d : DomEvent)
  | session (a : BrowserSession.Action)

def start (v : Vars) : Attended := ⟨.start v, .start, []⟩

/-- Input events come from the handlers only, while these are installed. -/
def step (v : Vars) (password : Bytes) (s : Attended) : Action → Option Attended
  | .user d =>
    if s.session.client.inputDevices then
      (s.session.step v password (.oninput (s.mouse.handle d).2)).map (⟨·, (s.mouse.handle d).1, s.seen ++ [d]⟩)
    else some s
  | .session (.oninput _) => none
  | .session a => (s.session.step v password a).map ({ s with session := · })

structure Ok (v : Vars) (s : Attended) : Prop where
  session : ∃ records phase, BrowserSession.Ok v s.session records phase
  mouse : s.mouse = Mouse.after s.seen
  queued : s.session.history.filterMap BrowserSession.Event.queued? = Mouse.pushed s.seen

variable {v : Vars} {s t : Attended}

theorem queued_of_not_input {s t : BrowserSession.Session} {password : Bytes} {a : BrowserSession.Action}
    (hinput : ∀ events, a ≠ .oninput events) (h : s.step v password a = some t) :
    t.history.filterMap BrowserSession.Event.queued? = s.history.filterMap BrowserSession.Event.queued? := by
  cases a with
  | projector e r =>
    simp only [BrowserSession.Session.step, Option.bind_eq_bind, Option.bind_eq_some_iff, Option.some.injEq] at h
    obtain ⟨p, -, c, -, rfl⟩ := h
    rfl
  | onopen =>
    simp only [BrowserSession.Session.step, Option.ite_none_left_eq_some, Option.some.injEq] at h
    obtain ⟨-, rfl⟩ := h
    simp [BrowserSession.Session.react, BrowserSession.Event.queued?]
  | onmessage =>
    simp only [BrowserSession.Session.step] at h
    split at h
    · cases h
    · obtain rfl := Option.some.inj h
      simp [BrowserSession.Session.react, BrowserSession.Event.queued?]
  | ontimeout =>
    obtain ⟨out, -, rfl⟩ := Option.map_eq_some_iff.mp h
    simp [BrowserSession.Session.react, BrowserSession.Event.queued?]
  | oninput events => exact absurd rfl (hinput events)
  | onclose =>
    obtain rfl := Option.some.inj h
    rfl

theorem step_ok (hnul : 0 ∉ v.sessionId) (hlen : v.sessionId.length < 2 ^ 31) {a : Action} (hs : s.Ok v)
    (h : s.step v v.sessionId a = some t) : t.Ok v := by
  cases a with
  | user d =>
    simp only [step] at h
    split at h
    · next hdevices =>
      obtain ⟨session, hsession, rfl⟩ := Option.map_eq_some_iff.mp h
      refine ⟨BrowserSession.step_ok hnul hlen hs.session hsession, ?_, ?_⟩
      · change (s.mouse.handle d).1 = Mouse.after (s.seen ++ [d])
        rw [Mouse.after_concat, hs.mouse]
      · obtain rfl := Option.some.inj hsession
        have hnew : ∀ events : List InputEvent,
            (events.map BrowserSession.Event.queued).filterMap BrowserSession.Event.queued? = events := by
          intro events
          rw [List.filterMap_map]
          exact List.filterMap_some
        simp only [hdevices, if_true, List.filterMap_append, hs.queued, hnew]
        rw [Mouse.pushed_concat, hs.mouse]
    · exact Option.some.inj h ▸ hs
  | session a =>
    have hinput : ∀ events, a ≠ .oninput events := by
      rintro events rfl
      cases h
    have hstep : s.step v v.sessionId (.session a) =
        (s.session.step v v.sessionId a).map (fun session => { s with session := session }) := by
      cases a with
      | oninput events => exact absurd rfl (hinput events)
      | _ => rfl
    rw [hstep] at h
    obtain ⟨session, hsession, rfl⟩ := Option.map_eq_some_iff.mp h
    exact ⟨BrowserSession.step_ok hnul hlen hs.session hsession, hs.mouse,
      (queued_of_not_input hinput hsession).trans hs.queued⟩

theorem start_ok (hserver : v.server = true) : (start v).Ok v :=
  ⟨⟨[], .unopened, BrowserSession.start_ok hserver⟩, rfl, rfl⟩

end Attended

/-- In every run of a session every turn of a button of the desktop changes it. When the
projector waits with nothing on its way to it and no input event is queued, a button is
down if the last event for its bit was a press, one whose bit belongs to no mouse button
of the browser was pressed once for each turn of the wheel with its bit, and a key is as
the last event that turns it left it. -/
theorem desktop_follows_browser (G : Platform σ β κ) (v : Vars) (hserver : v.server = true) (hnul : 0 ∉ v.sessionId)
    (hlen : v.sessionId.length < 2 ^ 31) (actions : List Attended.Action) (s : Attended)
    (hrun : Transition.run (Attended.step v v.sessionId) (Attended.start v) actions = some s) :
    Alternates released (G.buttonTurns (s.session.log.foldl G.perform G.start)) ∧
      ∀ n k, s.session.thread = .op (.tcpRead n) k → s.session.up = [] → s.session.client.inputEvents = [] →
        (∀ b, replay released (G.buttonTurns (s.session.log.foldl G.perform G.start)) b =
          (decide (b ∈ G.buttons) && Mouse.held s.seen (G.bitOf b))) ∧
        (∀ b ∈ G.buttons, (∀ d ∈ s.seen, d.bit? ≠ some (G.bitOf b)) →
          (G.buttonTurns (s.session.log.foldl G.perform G.start)).count (b, true) =
            s.seen.countP (DomEvent.scrolls (G.bitOf b))) ∧
        ∀ k, replay released (G.keyTurns (s.session.log.foldl G.perform G.start)) k =
          ((s.seen.filter (fun d => (d.keyboard.flatMap G.turnsOf).any (fun e => e.1 = k))).getLast?.map
            DomEvent.isDown).getD false := by
  obtain ⟨⟨records, phase, hok⟩, hmouse, hqueued⟩ := Transition.run_preserves
    (fun _ _ _ hs h => Attended.step_ok hnul hlen hs h) (Attended.start_ok hserver) hrun
  constructor
  · obtain ⟨seen, hfold⟩ := G.foldl_of_prefix hok.log_prefix G.start
    rw [hfold]
    exact (G.start_follows.events seen).alternates
  · intro n k hthread hup hqueue
    have hinputs : records.filterMap BrowserSession.inputOf = Mouse.pushed s.seen := by
      rw [← hqueued, hok.recorded.queued, hqueue, List.append_nil]
    rw [hok.log_of_waiting hthread hup, G.foldl_records, hinputs]
    have hfollows := G.start_follows.events (Mouse.pushed s.seen)
    rw [Mouse.maskAfter_pushed] at hfollows
    refine ⟨fun b => ?_, fun b hb hbits => ?_, fun k => ?_⟩
    · rw [hfollows.down, Mouse.after_bit]
    · rw [G.start_follows.count_presses hb, G.start_buttons, List.count_nil, Nat.zero_add, Mouse.rises_pushed hbits]
    · rw [G.keyTurns_events, G.start_keys, List.nil_append, G.pushed_turns, replay_flatMap G.keyboard_turns_value]

namespace Attended
open BrowserSession

def takesPointer (buttons x y : UInt32) : List BrowserSession.Action :=
  takes .pointer ++ [.projector (.tcpRead 4) (htonl buttons), .projector (.tcpRead 4) (htonl x),
    .projector (.tcpRead 4) (htonl y), .projector (.tcpRead 4) (htonl 0), .projector (.mouseEvent buttons x y) ()]

/-- An update without regions, three pointer records and the next poll. -/
def scrolling : List BrowserSession.Action :=
  takes .screenUpdate ++
    [.projector .grabScreen (some []), writes (.answer (.screenUpdate 0)) (screenRegionsBytes 0), .onmessage] ++
    takesPointer 1 5 6 ++ takesPointer 9 5 6 ++ takesPointer 1 5 6 ++ [.projector .isStarted true]

def scrollInDrag : List Action :=
  (firstUpdate.takeWhile BrowserSession.Action.carriesOn).map .session ++
    [.user (.mousedown 0 5 6), .user (.wheel (-1))] ++ scrolling.map .session

def isWaiting : Thread → Bool
  | .op (.tcpRead _) _ => true
  | _ => false

end Attended

theorem scroll_reaches_x11 :
    ∃ s, Transition.run (Attended.step BrowserSession.serverVars BrowserSession.serverVars.sessionId)
        (Attended.start BrowserSession.serverVars) Attended.scrollInDrag = some s ∧
      replay released ((x11 shiftKeycode).buttonTurns (s.session.log.foldl (x11 shiftKeycode).perform (x11 shiftKeycode).start)) 1 = true ∧
      ((x11 shiftKeycode).buttonTurns (s.session.log.foldl (x11 shiftKeycode).perform (x11 shiftKeycode).start)).count (4, true) = 1 := by
  have hend : (Transition.run (Attended.step BrowserSession.serverVars BrowserSession.serverVars.sessionId)
      (Attended.start BrowserSession.serverVars) Attended.scrollInDrag).map
        (fun s => (Attended.isWaiting s.session.thread, s.session.up, s.session.client.inputEvents, s.seen)) =
      some (true, [], [], [.mousedown 0 5 6, .wheel (-1)]) := by decide +kernel
  obtain ⟨s, hrun, hend⟩ := Option.map_eq_some_iff.mp hend
  obtain ⟨hwaiting, hup, hqueue, hseen⟩ : Attended.isWaiting s.session.thread = true ∧ s.session.up = [] ∧
      s.session.client.inputEvents = [] ∧ s.seen = [.mousedown 0 5 6, .wheel (-1)] := by
    simpa using hend
  obtain ⟨n, k, hthread⟩ : ∃ n k, s.session.thread = .op (.tcpRead n) k := by
    unfold Attended.isWaiting at hwaiting
    split at hwaiting
    · next n k hthread => exact ⟨n, k, hthread⟩
    · cases hwaiting
  obtain ⟨hbuttons, hpresses, -⟩ := (desktop_follows_browser (x11 shiftKeycode) BrowserSession.serverVars rfl (by decide)
    (by decide) Attended.scrollInDrag s hrun).2 n k hthread hup hqueue
  refine ⟨s, hrun, (hbuttons 1).trans ?_, (hpresses 4 (by decide) ?_).trans ?_⟩
  · rw [hseen]
    decide +kernel
  · rw [hseen]
    decide +kernel
  · rw [hseen]
    decide +kernel

end LilitunRemote

import LilitunRemote.Projector.Grabber
import Mathlib.Data.List.Induction

/-! # The browser's mouse and keyboard

The handlers of the canvas and the window in `lilitun-remote-client.js`, from an event to
the input events they queue. A position is the word that `htonl` makes of the scaled
coordinate.
-/
namespace LilitunRemote
namespace Browser
open Projector.XGrabber

/-- `Keys`, from the codes of the browser to key symbols. -/
def keys : List (String × UInt32) :=
  [("Escape", 0xff1b), ("F1", 0xffbe), ("F2", 0xffbf), ("F3", 0xffc0), ("F4", 0xffc1), ("F5", 0xffc2),
    ("F6", 0xffc3), ("F7", 0xffc4), ("F8", 0xffc5), ("F9", 0xffc6), ("F10", 0xffc7), ("F11", 0xffc8),
    ("F12", 0xffc9), ("PrintScreen", 0xff61), ("Delete", 0xffff), ("Backquote", 0x060), ("Digit1", 0x031),
    ("Digit2", 0x032), ("Digit3", 0x033), ("Digit4", 0x034), ("Digit5", 0x035), ("Digit6", 0x036), ("Digit7", 0x037),
    ("Digit8", 0x038), ("Digit9", 0x039), ("Digit0", 0x030), ("Minus", 0x02d), ("Equal", 0x03d),
    ("Backspace", 0xff08), ("Tab", 0xff09), ("KeyQ", 0x071), ("KeyW", 0x077), ("KeyE", 0x065), ("KeyR", 0x072),
    ("KeyT", 0x074), ("KeyY", 0x079), ("KeyU", 0x075), ("KeyI", 0x069), ("KeyO", 0x06f), ("KeyP", 0x070),
    ("BracketLeft", 0x05b), ("BracketRight", 0x05d), ("CapsLock", 0xffe5), ("KeyA", 0x061), ("KeyS", 0x073),
    ("KeyD", 0x064), ("KeyF", 0x066), ("KeyG", 0x067), ("KeyH", 0x068), ("KeyJ", 0x06a), ("KeyK", 0x06b),
    ("KeyL", 0x06c), ("Semicolon", 0x03b), ("Quote", 0x027), ("Backslash", 0x05c), ("Enter", 0xff0d),
    ("ShiftLeft", 0xffe1), ("IntlBackslash", 0x03c), ("KeyZ", 0x07a), ("KeyX", 0x078), ("KeyC", 0x063),
    ("KeyV", 0x076), ("KeyB", 0x062), ("KeyN", 0x06e), ("KeyM", 0x06d), ("Comma", 0x02c), ("Period", 0x02e),
    ("Slash", 0x02f), ("ShiftRight", 0xffe2), ("ControlLeft", 0xffe3), ("MetaLeft", 0xffe7), ("AltLeft", 0xffe9),
    ("Space", 0x020), ("AltRight", 0xffea), ("ControlRight", 0xffe4), ("ArrowLeft", 0xff51), ("ArrowUp", 0xff52),
    ("ArrowRight", 0xff53), ("ArrowDown", 0xff54), ("Home", 0xff50), ("End", 0xff57), ("PageUp", 0xff55),
    ("PageDown", 0xff56), ("ScrollLock", 0xff14), ("Insert", 0xff63)]

inductive DomEvent
  | mousemove (x y : UInt32)
  | mousedown (button x y : UInt32)
  | mouseup (button x y : UInt32)
  | wheel (deltaY : ℤ)
  | keydown (code : String)
  | keyup (code : String)
  deriving DecidableEq, Repr

structure Mouse where
  buttons : UInt32
  x : UInt32
  y : UInt32
  wheel : UInt32
  deriving DecidableEq, Repr

namespace Mouse

def start : Mouse := ⟨0, 0, 0, 0⟩

def event (m : Mouse) : InputEvent := .pointer m.buttons m.x m.y m.wheel

end Mouse

namespace DomEvent

def keyboard : DomEvent → List InputEvent
  | keydown code => ((keys.lookup code).filter (· ≠ 0)).toList.map (.keyboard 1)
  | keyup code => ((keys.lookup code).filter (· ≠ 0)).toList.map (.keyboard 0)
  | _ => []

def isDown : DomEvent → Bool
  | mousedown _ _ _ | keydown _ => true
  | _ => false

def bit? : DomEvent → Option ℕ
  | mousedown button _ _ | mouseup button _ _ => some (button.toNat % 32)
  | _ => none

end DomEvent

namespace Mouse

def wheelBit (deltaY : ℤ) : UInt32 := if deltaY < 0 then (1 : UInt32) <<< 3 else if deltaY > 0 then (1 : UInt32) <<< 4 else 0

/-- The handler of an event: the variables behind it and what it pushes on
`input_events`. -/
def handle (m : Mouse) : DomEvent → Mouse × List InputEvent
  | .mousemove x y =>
    let m := { m with x := x, y := y }
    (m, [m.event])
  | .mousedown button x y =>
    let m := { m with x := x, y := y, buttons := m.buttons ||| (1 <<< button) }
    (m, [m.event])
  | .mouseup button x y =>
    let m := { m with x := x, y := y, buttons := m.buttons &&& ~~~(1 <<< button) }
    (m, [m.event])
  | .wheel deltaY => (m, [.pointer (m.buttons ||| wheelBit deltaY) m.x m.y m.wheel, m.event])
  | d@(.keydown _) | d@(.keyup _) => (m, d.keyboard)

def after (events : List DomEvent) : Mouse := events.foldl (fun m d => (m.handle d).1) start

def pushedFrom : Mouse → List DomEvent → List InputEvent
  | _, [] => []
  | m, d :: events => (m.handle d).2 ++ pushedFrom (m.handle d).1 events

def pushed (events : List DomEvent) : List InputEvent := pushedFrom start events

def held (events : List DomEvent) (i : ℕ) : Bool :=
  ((events.filter (fun d => d.bit? = some i)).getLast?.map DomEvent.isDown).getD false

/-! ## The mask and the buttons -/

theorem after_concat (events : List DomEvent) (d : DomEvent) : after (events ++ [d]) = ((after events).handle d).1 := by
  simp [after]

theorem pushedFrom_append (m : Mouse) (events more : List DomEvent) :
    pushedFrom m (events ++ more) = pushedFrom m events ++ pushedFrom (events.foldl (fun m d => (m.handle d).1) m) more := by
  induction events generalizing m with
  | nil => rfl
  | cons d events ih => simp [pushedFrom, ih]

theorem pushed_concat (events : List DomEvent) (d : DomEvent) :
    pushed (events ++ [d]) = pushed events ++ ((after events).handle d).2 := by
  rw [pushed, pushedFrom_append]
  simp [pushedFrom, pushed, after]

theorem shiftLeft_one (button : UInt32) : 1 <<< button = maskOf (button.toNat % 32) := by
  apply UInt32.toBitVec_inj.mp
  rw [maskOf, UInt32.toBitVec_shiftLeft, BitVec.twoPow, BitVec.shiftLeft_eq', BitVec.toNat_umod]
  rfl

theorem held_concat (events : List DomEvent) (d : DomEvent) (i : ℕ) :
    held (events ++ [d]) i = if d.bit? = some i then d.isDown else held events i := by
  unfold held
  rw [List.filter_append]
  by_cases h : d.bit? = some i
  · simp [h]
  · simp [h]

theorem bit_of_le (mask : UInt32) {i : ℕ} (hi : 32 ≤ i) : bit mask i = false := BitVec.getLsbD_of_ge _ _ hi

theorem held_of_none {events : List DomEvent} {i : ℕ} (hnone : ∀ d ∈ events, d.bit? ≠ some i) :
    held events i = false := by
  have hfilter : events.filter (fun d => d.bit? = some i) = [] := by
    simpa [List.filter_eq_nil_iff] using hnone
  simp [held, hfilter]

theorem held_of_le (events : List DomEvent) {i : ℕ} (hi : 32 ≤ i) : held events i = false := by
  refine held_of_none (fun d _ hd => ?_)
  cases d with
  | mousedown button x y | mouseup button x y =>
    have hlt := Nat.mod_lt button.toNat (by decide : 0 < 32)
    simp only [DomEvent.bit?, Option.some.injEq] at hd
    omega
  | mousemove _ _ | wheel _ | keydown _ | keyup _ => simp [DomEvent.bit?] at hd

/-- The mask holds a bit for every button that is held. -/
theorem after_bit (events : List DomEvent) (i : ℕ) : bit (after events).buttons i = held events i := by
  by_cases hi : i < 32
  · induction events using List.reverseRecOn with
    | nil => simp [after, start, held, bit]
    | append_singleton events d ih =>
      rw [after_concat, held_concat, ← ih]
      cases d with
      | mousedown button x y =>
        simp only [handle, shiftLeft_one, bit_set _ hi, DomEvent.bit?, DomEvent.isDown, Option.some.injEq]
        split <;> simp_all
      | mouseup button x y =>
        simp only [handle, shiftLeft_one, bit_clear _ hi, DomEvent.bit?, DomEvent.isDown, Option.some.injEq]
        split <;> simp_all
      | mousemove _ _ | wheel _ | keydown _ | keyup _ => simp [handle, DomEvent.bit?]
  · rw [bit_of_le _ (not_lt.mp hi), held_of_le events (not_lt.mp hi)]

end Mouse
end Browser
end LilitunRemote

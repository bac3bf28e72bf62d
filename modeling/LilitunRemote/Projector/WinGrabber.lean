import LilitunRemote.Foundation.Switches
import LilitunRemote.Projector.Grabber

/-! # The Windows grabber's input side

`GrabberMouseEvent` sends a move and then the changes of three buttons and the wheel;
`GrabberKeyboardEvent` puts a press or a release of shift around a character that
needs it. The conversion of a coordinate to 65536ths of the screen, which goes
through floating point, and `VkKeyScan` are parameters.
-/
namespace LilitunRemote
namespace Projector
open Switches

inductive MouseFlag
  | move | absolute | leftDown | leftUp | rightDown | rightUp | middleDown | middleUp | wheel
  deriving DecidableEq, Repr

structure MouseInput where
  dx : Int32
  dy : Int32
  flags : List MouseFlag
  mouseData : Int32
  deriving DecidableEq, Repr

inductive Input
  | mouse (mi : MouseInput)
  | keyboard (keyUp : Bool) (wVk : UInt8)
  deriving DecidableEq, Repr

/-- What the grabber asks of the system: where a coordinate lies on an extent, and the
key of a character with its shift state in the high byte, `0xFFFF` if there is none. -/
structure Desktop where
  scale : Int32 → UInt32 → Int32
  vkKeyScan : UInt8 → UInt16

structure WinGrabber where
  width : Int32
  height : Int32
  mouseButtons : UInt32
  sent : List Input
  deriving DecidableEq, Repr

namespace WinGrabber

def mouseLB : UInt32 := 1
def mouseMB : UInt32 := 2
def mouseRB : UInt32 := 4
def mouseWD : UInt32 := 8
def mouseWU : UInt32 := 16

def wheelDelta : Int32 := 120

def buttonFlags (old new mask : UInt32) (down up : MouseFlag) : List MouseFlag :=
  if old &&& mask ≠ new &&& mask then if new &&& mask ≠ 0 then [down] else [up] else []

def changeFlags (old new : UInt32) : List MouseFlag :=
  buttonFlags old new mouseLB .leftDown .leftUp ++ buttonFlags old new mouseRB .rightDown .rightUp ++
    buttonFlags old new mouseMB .middleDown .middleUp ++
    (if new &&& mouseWD ≠ 0 then [.wheel] else []) ++ (if new &&& mouseWU ≠ 0 then [.wheel] else [])

def wheelData (buttons : UInt32) : Int32 :=
  if buttons &&& mouseWU ≠ 0 then -wheelDelta else if buttons &&& mouseWD ≠ 0 then wheelDelta else 0

def grabberMouseEvent (desktop : Desktop) (cfg : WinGrabber) (buttons x y : UInt32) : WinGrabber :=
  let dx := desktop.scale cfg.width x
  let dy := desktop.scale cfg.height y
  { cfg with
    sent := cfg.sent ++ [.mouse ⟨dx, dy, [.move, .absolute], 0⟩,
      .mouse ⟨dx, dy, changeFlags cfg.mouseButtons buttons, wheelData buttons⟩]
    mouseButtons := buttons }

/-- The cases of `convertVNCKeyToVK`: key symbols of X11 and virtual keys. -/
def vkTable : List (UInt32 × UInt16) :=
  [(0xFF1B, 0x1B), (0xFFBE, 0x70), (0xFFBF, 0x71), (0xFFC0, 0x72), (0xFFC1, 0x73), (0xFFC2, 0x74), (0xFFC3,
   0x75), (0xFFC4, 0x76), (0xFFC5, 0x77), (0xFFC6, 0x78), (0xFFC7, 0x79), (0xFFC8, 0x7A), (0xFFC9, 0x7B),
   (0xFF61, 0x2A), (0xFF63, 0x2D), (0xFFFF, 0x2E), (0xFF08, 0x08), (0xFF09, 0x09), (0xFF0D, 0x0D), (0xFFE2,
   0xA1), (0xFFE1, 0x10), (0xFFE4, 0x11), (0xFFE3, 0x11), (0xFFE8, 0x5C), (0xFFE7, 0x5B), (0xFFEA, 0xA5),
   (0xFFE9, 0x12), (0xFF52, 0x26), (0xFF54, 0x28), (0xFF51, 0x25), (0xFF53, 0x27), (0xFF55, 0x21), (0xFF56,
   0x22), (0xFF50, 0x24), (0xFF57, 0x23), (0xFF60, 0x29), (0xFF62, 0x2B), (0xFF6A, 0x2F), (0xFF6B, 0x03),
   (0xFF80, 0x20), (0xFF89, 0x09), (0xFF8D, 0x0D), (0xFF91, 0x70), (0xFF92, 0x71), (0xFF93, 0x72), (0xFF94,
   0x73), (0xFF95, 0x24), (0xFF96, 0x25), (0xFF97, 0x26), (0xFF98, 0x27), (0xFF99, 0x28), (0xFF9C, 0x23),
   (0xFF9A, 0x21), (0xFF9B, 0x22), (0xFF9D, 0x0C), (0xFF9E, 0x2D), (0xFF9F, 0x2E), (0xFFAA, 0x6A), (0xFFAB,
   0x6B), (0xFFAC, 0x6C), (0xFFAD, 0x6D), (0xFFAE, 0x6E), (0xFFAF, 0x6F), (0xFFB0, 0x60), (0xFFB1, 0x61),
   (0xFFB2, 0x62), (0xFFB3, 0x63), (0xFFB4, 0x64), (0xFFB5, 0x65), (0xFFB6, 0x66), (0xFFB7, 0x67), (0xFFB8,
   0x68), (0xFFB9, 0x69)]

def convertVNCKeyToVK (key : UInt32) : UInt16 := (vkTable.lookup key).getD 0

def vkShift : UInt8 := 0x10

/-- The virtual key of a key symbol, and whether it needs shift; no key for a symbol
that is ignored. -/
def keyOf (desktop : Desktop) (keysym : UInt32) : Option (UInt8 × Bool) :=
  if (32 ≤ keysym ∧ keysym ≤ 126) ∨ (160 ≤ keysym ∧ keysym ≤ 255) then
    let s := desktop.vkKeyScan keysym.toUInt8
    if s = 0xFFFF then none else some (s.toUInt8, s &&& 0x100 ≠ 0)
  else
    let s := convertVNCKeyToVK keysym
    if s = 0 then none else some (s.toUInt8, s &&& 0x100 ≠ 0)

def grabberKeyboardEvent (desktop : Desktop) (cfg : WinGrabber) (down keysym : UInt32) : WinGrabber :=
  match keyOf desktop keysym with
  | none => cfg
  | some (vk, shift) =>
    if down ≠ 0 then
      { cfg with sent := cfg.sent ++ (if shift then [.keyboard false vkShift] else []) ++ [.keyboard false vk] }
    else
      { cfg with sent := cfg.sent ++ [.keyboard true vk] ++ (if shift then [.keyboard true vkShift] else []) }

def perform (desktop : Desktop) (cfg : WinGrabber) : Effect → WinGrabber
  | .keyboardEvent down key => cfg.grabberKeyboardEvent desktop down key
  | .mouseEvent buttons x y => cfg.grabberMouseEvent desktop buttons x y
  | _ => cfg

/-! ## What the inputs turn -/

inductive Button
  | left | right | middle
  deriving DecidableEq, Repr

def Button.bit : Button → ℕ
  | left => 0
  | middle => 1
  | right => 2

def flagTurn : MouseFlag → Option (Button × Bool)
  | .leftDown => some (.left, true)
  | .leftUp => some (.left, false)
  | .rightDown => some (.right, true)
  | .rightUp => some (.right, false)
  | .middleDown => some (.middle, true)
  | .middleUp => some (.middle, false)
  | .move | .absolute | .wheel => none

def buttonTurns : Input → List (Button × Bool)
  | .mouse mi => mi.flags.filterMap flagTurn
  | .keyboard _ _ => []

def keyTurns : Input → List (UInt8 × Bool)
  | .mouse _ => []
  | .keyboard keyUp vk => [(vk, !keyUp)]

def wheelTurns : Input → List Int32
  | .mouse mi => if .wheel ∈ mi.flags then [mi.mouseData] else []
  | .keyboard _ _ => []

def positions : Input → List (Int32 × Int32)
  | .mouse mi => if .move ∈ mi.flags then [(mi.dx, mi.dy)] else []
  | .keyboard _ _ => []

def keysTurned (desktop : Desktop) (down : Bool) (keysym : UInt32) : List (UInt8 × Bool) :=
  match keyOf desktop keysym with
  | none => []
  | some (vk, shift) =>
    if down then (if shift then [(vkShift, true)] else []) ++ [(vk, true)]
    else [(vk, false)] ++ (if shift then [(vkShift, false)] else [])

theorem keysTurned_value (desktop : Desktop) (down : Bool) (keysym : UInt32) :
    ∀ e ∈ keysTurned desktop down keysym, e.2 = down := by
  intro e he
  unfold keysTurned at he
  cases hkey : keyOf desktop keysym with
  | none => simp [hkey] at he
  | some p =>
    obtain ⟨vk, shift⟩ := p
    cases down <;> cases shift <;> simp [hkey] at he <;> rcases he with rfl | rfl <;> rfl

/-- The turn of the wheel of an event with a mask: both wheel bits turn it down, once. -/
def wheelOf (buttons : UInt32) : Option Int32 :=
  if XGrabber.bit buttons 4 then some (-wheelDelta) else if XGrabber.bit buttons 3 then some wheelDelta else none

theorem flagTurn_buttonFlags (old new : UInt32) (b : Button) (down up : MouseFlag) (hdown : flagTurn down = some (b, true))
    (hup : flagTurn up = some (b, false)) :
    (buttonFlags old new (XGrabber.maskOf b.bit) down up).filterMap flagTurn =
      changes [b] (fun b => XGrabber.bit old b.bit) (fun b => XGrabber.bit new b.bit) := by
  have hbit : b.bit < 32 := by cases b <;> decide
  simp only [buttonFlags, changes, List.filterMap_cons, List.filterMap_nil, ne_eq, XGrabber.and_maskOf_eq_iff hbit]
  by_cases hsame : XGrabber.bit old b.bit = XGrabber.bit new b.bit
  · simp [hsame]
  · rw [XGrabber.and_maskOf]
    cases hnew : XGrabber.bit new b.bit <;> simp_all [XGrabber.maskOf_ne_zero hbit]

theorem changes_cons (b : Button) (buttons : List Button) (old new : Held Button) :
    changes (b :: buttons) old new = changes [b] old new ++ changes buttons old new := by
  simp only [changes, List.filterMap_cons, List.filterMap_nil]
  split <;> rfl

theorem not_mem_buttonFlags (old new mask : UInt32) {flag down up : MouseFlag} (hdown : flag ≠ down) (hup : flag ≠ up) :
    flag ∉ buttonFlags old new mask down up := by
  unfold buttonFlags
  split
  · split <;> simp [hdown, hup]
  · simp

theorem and_maskOf_ne_zero (w : UInt32) {i : ℕ} (hi : i < 32) : w &&& XGrabber.maskOf i ≠ 0 ↔ XGrabber.bit w i = true := by
  rw [XGrabber.and_maskOf]
  cases XGrabber.bit w i <;> simp [XGrabber.maskOf_ne_zero hi]

theorem and_mouseWD (w : UInt32) : w &&& mouseWD ≠ 0 ↔ XGrabber.bit w 3 = true :=
  @and_maskOf_ne_zero w 3 (by omega)

theorem and_mouseWU (w : UInt32) : w &&& mouseWU ≠ 0 ↔ XGrabber.bit w 4 = true :=
  @and_maskOf_ne_zero w 4 (by omega)

theorem changeFlags_buttons (old new : UInt32) :
    (changeFlags old new).filterMap flagTurn =
      changes [.left, .right, .middle] (fun b => XGrabber.bit old b.bit) (fun b => XGrabber.bit new b.bit) := by
  have hwheel : ∀ p : Prop, ∀ _ : Decidable p, (if p then [MouseFlag.wheel] else []).filterMap flagTurn = [] := by
    intro p _
    split <;> rfl
  have hleft := flagTurn_buttonFlags old new .left .leftDown .leftUp rfl rfl
  have hright := flagTurn_buttonFlags old new .right .rightDown .rightUp rfl rfl
  have hmiddle := flagTurn_buttonFlags old new .middle .middleDown .middleUp rfl rfl
  rw [changes_cons, changes_cons .right, ← hleft, ← hright, ← hmiddle]
  simp only [changeFlags, List.filterMap_append, hwheel, List.append_nil, List.append_assoc]
  rfl

theorem wheel_mem_changeFlags (old new : UInt32) :
    MouseFlag.wheel ∈ changeFlags old new ↔ XGrabber.bit new 3 = true ∨ XGrabber.bit new 4 = true := by
  simp [changeFlags, not_mem_buttonFlags, and_mouseWD, and_mouseWU]

theorem move_not_mem_changeFlags (old new : UInt32) : MouseFlag.move ∉ changeFlags old new := by
  simp [changeFlags, not_mem_buttonFlags]

/-- A pointer event turns the buttons whose bits change, and turns the wheel whether or
not its bit was there before. -/
theorem grabberMouseEvent_spec (desktop : Desktop) (cfg : WinGrabber) (buttons x y : UInt32) :
    ∃ new, (cfg.grabberMouseEvent desktop buttons x y).sent = cfg.sent ++ new ∧
      new.flatMap buttonTurns = changes [.left, .right, .middle] (fun b => XGrabber.bit cfg.mouseButtons b.bit)
        (fun b => XGrabber.bit buttons b.bit) ∧
      new.flatMap keyTurns = [] ∧ new.flatMap wheelTurns = (wheelOf buttons).toList ∧
      new.flatMap positions = [(desktop.scale cfg.width x, desktop.scale cfg.height y)] := by
  refine ⟨_, rfl, ?_, ?_, ?_, ?_⟩
  · have hmove : [MouseFlag.move, .absolute].filterMap flagTurn = [] := rfl
    simpa [buttonTurns, hmove] using changeFlags_buttons cfg.mouseButtons buttons
  · simp [keyTurns]
  · simp only [List.flatMap_cons, List.flatMap_nil, wheelTurns, wheel_mem_changeFlags, wheelData, and_mouseWD, and_mouseWU,
      wheelOf]
    cases XGrabber.bit buttons 3 <;> cases XGrabber.bit buttons 4 <;> simp
  · simp [positions, move_not_mem_changeFlags]

theorem grabberKeyboardEvent_spec (desktop : Desktop) (cfg : WinGrabber) (down keysym : UInt32) :
    ∃ new, cfg.grabberKeyboardEvent desktop down keysym = { cfg with sent := cfg.sent ++ new } ∧
      new.flatMap keyTurns = keysTurned desktop (down ≠ 0) keysym ∧ new.flatMap buttonTurns = [] ∧
      new.flatMap wheelTurns = [] ∧ new.flatMap positions = [] := by
  unfold grabberKeyboardEvent keysTurned
  cases keyOf desktop keysym with
  | none => exact ⟨[], by simp⟩
  | some p =>
    obtain ⟨vk, shift⟩ := p
    by_cases hdown : down = 0
    · refine ⟨[.keyboard true vk] ++ (if shift then [.keyboard true vkShift] else []), ?_⟩
      cases shift <;> simp [hdown, keyTurns, buttonTurns, wheelTurns, positions]
    · refine ⟨(if shift then [.keyboard false vkShift] else []) ++ [.keyboard false vk], ?_⟩
      cases shift <;> simp [hdown, keyTurns, buttonTurns, wheelTurns, positions]

end WinGrabber
end Projector
end LilitunRemote

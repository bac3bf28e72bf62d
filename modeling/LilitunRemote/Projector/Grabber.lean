import LilitunRemote.Projector.Thread

/-! # The X11 grabber's input side

`GrabberMouseEvent` tracks the pointer and the five buttons and turns the difference
to what it tracks into XTest events. The keyboard map of the X server is a parameter.
-/
namespace LilitunRemote
namespace Projector

/-- The events `xcb_test_fake_input` injects; its root coordinates have 16 bits. -/
inductive FakeInput
  | motion (rootX rootY : UInt16)
  | button (press : Bool) (button : ℕ)
  | key (press : Bool) (keycode : UInt8)
  deriving DecidableEq, Repr

/-- An injected event with the position the grabber tracked at that moment. -/
structure Injection where
  input : FakeInput
  x : UInt32
  y : UInt32
  deriving DecidableEq, Repr

structure XGrabber where
  buttons : UInt32
  x : UInt32
  y : UInt32
  injected : List Injection
  deriving DecidableEq, Repr

namespace XGrabber

def init : XGrabber := ⟨0, 0, 0, []⟩

def fakeInput (cfg : XGrabber) (input : FakeInput) : XGrabber :=
  { cfg with injected := cfg.injected ++ [⟨input, cfg.x, cfg.y⟩] }

def setButtons (cfg : XGrabber) (buttons mask : UInt32) (button : ℕ) : XGrabber :=
  if cfg.buttons &&& mask ≠ buttons &&& mask then
    if cfg.buttons &&& mask ≠ 0 then
      { cfg with buttons := cfg.buttons &&& ~~~mask }.fakeInput (.button false button)
    else
      { cfg with buttons := cfg.buttons ||| mask }.fakeInput (.button true button)
  else cfg

def grabberMouseEvent (cfg : XGrabber) (buttons x y : UInt32) : XGrabber :=
  let cfg := if x ≠ cfg.x ∨ y ≠ cfg.y then { cfg.fakeInput (.motion x.toUInt16 y.toUInt16) with x := x, y := y } else cfg
  ((((cfg.setButtons buttons 1 1).setButtons buttons 2 2).setButtons buttons 4 3).setButtons buttons 8 4).setButtons
    buttons 16 5

/-- `keycodes` is `xcb_key_symbols_get_keycode`, its first answer. -/
def grabberKeyboardEvent (keycodes : UInt32 → Option UInt8) (cfg : XGrabber) (down key : UInt32) : XGrabber :=
  match keycodes key with
  | none => cfg
  | some keycode => cfg.fakeInput (.key (down ≠ 0) keycode)

def perform (keycodes : UInt32 → Option UInt8) (cfg : XGrabber) : Effect → XGrabber
  | .keyboardEvent down key => cfg.grabberKeyboardEvent keycodes down key
  | .mouseEvent buttons x y => cfg.grabberMouseEvent buttons x y
  | _ => cfg

/-! ## Button masks bit by bit -/

def bit (mask : UInt32) (i : ℕ) : Bool := mask.toBitVec.getLsbD i

def buttonEvents (cfg : XGrabber) : List Injection :=
  cfg.injected.filter (fun i => match i.input with | .button _ _ => true | _ => false)

def maskOf (i : ℕ) : UInt32 := ⟨BitVec.twoPow 32 i⟩

theorem and_maskOf (w : UInt32) (i : ℕ) : w &&& maskOf i = if bit w i then maskOf i else 0 := by
  apply UInt32.toBitVec_inj.mp
  rw [UInt32.toBitVec_and, maskOf, BitVec.and_twoPow, bit]
  split <;> rfl

theorem maskOf_ne_zero {i : ℕ} (hi : i < 32) : maskOf i ≠ 0 := by
  intro h
  have hbit := congrArg (fun w : UInt32 => w.toBitVec.getLsbD i) h
  simp [maskOf, hi] at hbit

theorem and_maskOf_eq_iff {a b : UInt32} {i : ℕ} (hi : i < 32) : a &&& maskOf i = b &&& maskOf i ↔ bit a i = bit b i := by
  have hne := maskOf_ne_zero hi
  rw [and_maskOf, and_maskOf]
  cases bit a i <;> cases bit b i <;> simp [hne, hne.symm]

theorem bit_clear (a : UInt32) {i j : ℕ} (hj : j < 32) : bit (a &&& ~~~maskOf i) j = (bit a j && decide (i ≠ j)) := by
  simp only [bit, maskOf, UInt32.toBitVec_and, UInt32.toBitVec_not, BitVec.getLsbD_and, BitVec.getLsbD_not,
    BitVec.getLsbD_twoPow, hj, decide_true, Bool.true_and]
  by_cases h : i = j <;> simp [h, hj]

theorem bit_set (a : UInt32) {i j : ℕ} (hj : j < 32) : bit (a ||| maskOf i) j = (bit a j || decide (i = j)) := by
  simp only [bit, maskOf, UInt32.toBitVec_or, BitVec.getLsbD_or, BitVec.getLsbD_twoPow]
  by_cases h : i = j <;> simp [h, hj]

def bitEvent (old new x y : UInt32) (i : ℕ) : Option Injection :=
  if bit old i = bit new i then none else some ⟨.button (bit new i) (i + 1), x, y⟩

def maskEvents (old new x y : UInt32) : List Injection := (List.range 5).filterMap (bitEvent old new x y)

theorem maskEvents_congr {a b : UInt32} (h : ∀ i < 5, bit a i = bit b i) (new x y : UInt32) :
    maskEvents a new x y = maskEvents b new x y := by
  refine List.filterMap_congr (fun i hi => ?_)
  rw [bitEvent, bitEvent, h i (List.mem_range.mp hi)]

theorem setButtons_spec (cfg : XGrabber) (buttons : UInt32) {i : ℕ} (hi : i < 32) :
    (∀ j < 32, bit (cfg.setButtons buttons (maskOf i) (i + 1)).buttons j = if i = j then bit buttons i else bit cfg.buttons j) ∧
      (cfg.setButtons buttons (maskOf i) (i + 1)).x = cfg.x ∧ (cfg.setButtons buttons (maskOf i) (i + 1)).y = cfg.y ∧
      (cfg.setButtons buttons (maskOf i) (i + 1)).injected =
        cfg.injected ++ (bitEvent cfg.buttons buttons cfg.x cfg.y i).toList := by
  unfold setButtons bitEvent
  by_cases hsame : bit cfg.buttons i = bit buttons i
  · rw [if_neg (not_not.mpr ((and_maskOf_eq_iff hi).mpr hsame)), if_pos hsame]
    refine ⟨fun j _ => ?_, rfl, rfl, by simp⟩
    split
    · next h => rw [← h, hsame]
    · rfl
  · rw [if_pos (fun h => hsame ((and_maskOf_eq_iff hi).mp h)), if_neg hsame, and_maskOf]
    have hflip : bit buttons i = !bit cfg.buttons i := by
      cases ha : bit cfg.buttons i <;> cases hb : bit buttons i <;> simp_all
    rw [hflip]
    cases hold : bit cfg.buttons i with
    | false =>
      simp only [Bool.false_eq_true, if_false, ne_eq, not_true_eq_false]
      refine ⟨fun j hj => ?_, rfl, rfl, rfl⟩
      rw [fakeInput, bit_set _ hj]
      by_cases hij : i = j <;> simp [hij]
    | true =>
      simp only [if_true, ne_eq, maskOf_ne_zero hi, not_false_eq_true]
      refine ⟨fun j hj => ?_, rfl, rfl, rfl⟩
      rw [fakeInput, bit_clear _ hj]
      by_cases hij : i = j <;> simp [hij]

def setBits (cfg : XGrabber) (buttons : UInt32) (bits : List ℕ) : XGrabber :=
  bits.foldl (fun cfg i => cfg.setButtons buttons (maskOf i) (i + 1)) cfg

theorem setBits_spec (buttons : UInt32) (bits : List ℕ) (hbits : bits.Nodup) (hlt : ∀ i ∈ bits, i < 32) (cfg : XGrabber) :
    (∀ j < 32, bit (cfg.setBits buttons bits).buttons j = if j ∈ bits then bit buttons j else bit cfg.buttons j) ∧
      (cfg.setBits buttons bits).x = cfg.x ∧ (cfg.setBits buttons bits).y = cfg.y ∧
      (cfg.setBits buttons bits).injected = cfg.injected ++ bits.filterMap (bitEvent cfg.buttons buttons cfg.x cfg.y) := by
  induction bits generalizing cfg with
  | nil => simp [setBits]
  | cons i bits ih =>
    obtain ⟨hi, hrest⟩ := List.nodup_cons.mp hbits
    obtain ⟨hbit, hx, hy, hinj⟩ := setButtons_spec cfg buttons (hlt i List.mem_cons_self)
    obtain ⟨hbit', hx', hy', hinj'⟩ := ih hrest (fun j hj => hlt j (List.mem_cons_of_mem _ hj))
      (cfg.setButtons buttons (maskOf i) (i + 1))
    -- the later bits are still those of the old mask
    have hlater : bits.filterMap (bitEvent (cfg.setButtons buttons (maskOf i) (i + 1)).buttons buttons cfg.x cfg.y) =
        bits.filterMap (bitEvent cfg.buttons buttons cfg.x cfg.y) := by
      refine List.filterMap_congr (fun j hj => ?_)
      have hij : i ≠ j := fun h => hi (h ▸ hj)
      rw [bitEvent, bitEvent, hbit j (hlt j (List.mem_cons_of_mem _ hj)), if_neg hij]
    refine ⟨fun j hj => ?_, hx'.trans hx, hy'.trans hy, ?_⟩
    · have hstep : (cfg.setBits buttons (i :: bits)).buttons =
          ((cfg.setButtons buttons (maskOf i) (i + 1)).setBits buttons bits).buttons := rfl
      rw [hstep, hbit' j hj, hbit j hj]
      by_cases hij : i = j
      · simp [hij]
      · have hji : j ≠ i := fun h => hij h.symm
        simp [hij, hji]
    · have hstep : (cfg.setBits buttons (i :: bits)).injected =
          ((cfg.setButtons buttons (maskOf i) (i + 1)).setBits buttons bits).injected := rfl
      rw [hstep, hinj', hinj, hx, hy, hlater, List.append_assoc, List.filterMap_cons]
      cases bitEvent cfg.buttons buttons cfg.x cfg.y i <;> rfl

def moveTo (cfg : XGrabber) (x y : UInt32) : XGrabber :=
  if x ≠ cfg.x ∨ y ≠ cfg.y then { cfg.fakeInput (.motion x.toUInt16 y.toUInt16) with x := x, y := y } else cfg

theorem moveTo_spec (cfg : XGrabber) (x y : UInt32) :
    (cfg.moveTo x y).x = x ∧ (cfg.moveTo x y).y = y ∧ (cfg.moveTo x y).buttons = cfg.buttons ∧
      (cfg.moveTo x y).buttonEvents = cfg.buttonEvents := by
  unfold moveTo
  split
  · exact ⟨rfl, rfl, rfl, by simp [buttonEvents, fakeInput]⟩
  · next h =>
    obtain ⟨hx, hy⟩ := not_or.mp h
    exact ⟨(not_not.mp hx).symm, (not_not.mp hy).symm, rfl, rfl⟩

theorem grabberMouseEvent_eq (cfg : XGrabber) (buttons x y : UInt32) :
    cfg.grabberMouseEvent buttons x y = (cfg.moveTo x y).setBits buttons (List.range 5) := rfl

/-- A pointer event injects the transitions of the five low bits at its own position. -/
theorem grabberMouseEvent_spec (cfg : XGrabber) (buttons x y : UInt32) :
    (∀ i < 5, bit (cfg.grabberMouseEvent buttons x y).buttons i = bit buttons i) ∧
      (cfg.grabberMouseEvent buttons x y).buttonEvents = cfg.buttonEvents ++ maskEvents cfg.buttons buttons x y := by
  obtain ⟨hx, hy, hbuttons, hevents⟩ := cfg.moveTo_spec x y
  obtain ⟨hbit, _, _, hinj⟩ := setBits_spec buttons (List.range 5) List.nodup_range
    (fun i hi => by have := List.mem_range.mp hi; omega) (cfg.moveTo x y)
  rw [grabberMouseEvent_eq]
  constructor
  · intro i hi
    rw [hbit i (by omega), if_pos (List.mem_range.mpr hi)]
  · have hall : (maskEvents cfg.buttons buttons x y).filter
        (fun i => match i.input with | .button _ _ => true | _ => false) = maskEvents cfg.buttons buttons x y := by
      refine List.filter_eq_self.mpr (fun e he => ?_)
      obtain ⟨i, _, hi⟩ := List.mem_filterMap.mp he
      unfold bitEvent at hi
      split at hi
      · cases hi
      · cases hi
        rfl
    rw [← hevents, buttonEvents, hinj, hx, hy, hbuttons, List.filter_append]
    exact congrArg _ hall

theorem grabberKeyboardEvent_spec (keycodes : UInt32 → Option UInt8) (cfg : XGrabber) (down key : UInt32) :
    (cfg.grabberKeyboardEvent keycodes down key).buttons = cfg.buttons ∧
      (cfg.grabberKeyboardEvent keycodes down key).buttonEvents = cfg.buttonEvents := by
  unfold grabberKeyboardEvent
  cases keycodes key with
  | none => exact ⟨rfl, rfl⟩
  | some keycode => exact ⟨rfl, by simp [buttonEvents, fakeInput]⟩

end XGrabber
end Projector
end LilitunRemote

import LilitunRemote.Foundation.CString
import LilitunRemote.Foundation.Transition
import LilitunRemote.Protocol.Wire

/-! # The user id of a PHP session

The session part of `desktop.php`: a first visit draws a user id and a session id with
`guidv4`, and a form replaces the user id. Texts are the bytes PHP handles; a request
parameter may be missing, a text, or an array.
-/
namespace LilitunRemote
namespace AppServer

/-! ## Texts -/

/-- `addslashes`: quotes and backslashes get a backslash, a zero byte becomes `\0`. -/
def addslashes (s : Bytes) : Bytes :=
  s.flatMap (fun c => if c = 0x27 ∨ c = 0x22 ∨ c = 0x5c then [0x5c, c] else if c = 0 then [0x5c, 0x30] else [c])

def isBlank (c : UInt8) : Bool := c = 0x20 || c = 0x09 || c = 0x0a || c = 0x0d || c = 0x00 || c = 0x0b

def trim (s : Bytes) : Bytes := ((s.dropWhile isBlank).reverse.dropWhile isBlank).reverse

/-- The texts PHP takes for false. -/
def isTruthy (s : Bytes) : Bool := s ≠ [] && s ≠ [0x30]

inductive Param
  | missing
  | text (s : Bytes)
  | array
  deriving DecidableEq, Repr

namespace Param

def isTruthy : Param → Bool
  | missing => false
  | text s => AppServer.isTruthy s
  | array => true

/-- A missing parameter is the empty text; an array is a type error. -/
def addslashes : Param → Option Bytes
  | missing => some []
  | text s => some (AppServer.addslashes s)
  | array => none

end Param

/-! ## UUIDs -/

structure RandomBytes where
  data : Bytes
  length_eq : data.length = 16

def hexDigit (n : UInt8) : UInt8 := if n < 10 then 0x30 + n else 0x57 + n

def bin2hex (data : Bytes) : Bytes := data.flatMap (fun b : UInt8 => [hexDigit (b >>> 4), hexDigit (b &&& 0x0f)])

def setVersion (b : UInt8) : UInt8 := (b &&& 0x0f) ||| 0x40

def setVariant (b : UInt8) : UInt8 := (b &&& 0x3f) ||| 0x80

def guidv4 (random : RandomBytes) : Bytes :=
  let hex := bin2hex ((random.data.modify 6 setVersion).modify 8 setVariant)
  let part := fun i => (hex.drop (4 * i)).take 4
  part 0 ++ part 1 ++ [0x2d] ++ part 2 ++ [0x2d] ++ part 3 ++ [0x2d] ++ part 4 ++ [0x2d] ++ part 5 ++ part 6 ++ part 7

def isHex (c : UInt8) : Bool := (0x30 ≤ c && c ≤ 0x39) || (0x41 ≤ c && c ≤ 0x46) || (0x61 ≤ c && c ≤ 0x66)

def isVariant (c : UInt8) : Bool := c = 0x38 || c = 0x39 || c = 0x41 || c = 0x42 || c = 0x61 || c = 0x62

def uuidPattern : List (UInt8 → Bool) :=
  let dash := fun c : UInt8 => decide (c = 0x2d)
  let hex := fun n => List.replicate n isHex
  hex 8 ++ [dash] ++ hex 4 ++ [dash] ++ [fun c => decide (c = 0x34)] ++ hex 3 ++ [dash] ++ [isVariant] ++ hex 3 ++
    [dash] ++ hex 12

def fits : List (UInt8 → Bool) → Bytes → Bool
  | [], [] => true
  | p :: ps, c :: cs => p c && fits ps cs
  | _, _ => false

/-- `preg_match` of the pattern; its `$` also matches before a last newline. -/
def pregMatch (s : Bytes) : Bool := fits uuidPattern s || (s.getLast? = some 0x0a && fits uuidPattern s.dropLast)

theorem isHex_high (b : UInt8) : isHex (hexDigit (b >>> 4)) = true :=
  CString.forall_byte (p := fun b => isHex (hexDigit (b >>> 4)) = true) (by decide +kernel) b

theorem isHex_low (b : UInt8) : isHex (hexDigit (b &&& 0x0f)) = true :=
  CString.forall_byte (p := fun b => isHex (hexDigit (b &&& 0x0f)) = true) (by decide +kernel) b

theorem version_digit (b : UInt8) : hexDigit (setVersion b >>> 4) = 0x34 :=
  CString.forall_byte (p := fun b => hexDigit (setVersion b >>> 4) = 0x34) (by decide +kernel) b

theorem variant_digit (b : UInt8) : isVariant (hexDigit (setVariant b >>> 4)) = true :=
  CString.forall_byte (p := fun b => isVariant (hexDigit (setVariant b >>> 4)) = true) (by decide +kernel) b

theorem guidv4_matches (random : RandomBytes) : pregMatch (guidv4 random) = true := by
  obtain ⟨data, hlength⟩ := random
  match data, hlength with
  | [b0, b1, b2, b3, b4, b5, b6, b7, b8, b9, b10, b11, b12, b13, b14, b15], _ =>
    simp [pregMatch, guidv4, bin2hex, fits, uuidPattern, isHex_high, isHex_low, version_digit, variant_digit]

/-! ## Requests -/

structure PhpSession where
  userId : Option Bytes
  sessionId : Option Bytes
  errUserId : Option Bytes
  deriving DecidableEq, Repr

def PhpSession.empty : PhpSession := ⟨none, none, none⟩

structure DesktopRequest where
  action : Param
  userIdSubmitted : Param
  newUserId : Param
  random : RandomBytes
  random' : RandomBytes

def invalidUserId : Bytes := asciiBytes "<span class=\"err\"> (Invalid user ID!)</span>"

def isSet (value : Option Bytes) : Bool := value.any isTruthy

def PhpSession.submit (s : PhpSession) (newUserId : Bytes) (random : RandomBytes) : PhpSession :=
  if newUserId ≠ [] ∧ some newUserId ≠ s.userId then
    if pregMatch (s.userId.getD []) = false then
      if s.userId ≠ some [] then { s with errUserId := some invalidUserId } else s
    else { s with userId := some newUserId, sessionId := some (guidv4 random) }
  else s

/-- `desktop.php` on the session; with an action it leaves the session alone, and a type
error ends it. -/
def desktop (s : PhpSession) (r : DesktopRequest) : PhpSession :=
  if r.action.isTruthy then s
  else
    let s := if isSet s.errUserId then { s with errUserId := none } else s
    if r.userIdSubmitted.isTruthy then
      match r.newUserId.addslashes with
      | none => s
      | some text => s.submit (trim text) r.random
    else
      let s := if isSet s.userId then s else { s with userId := some (guidv4 r.random) }
      if isSet s.sessionId then s else { s with sessionId := some (guidv4 r.random') }

/-- The pages of the server; the others only read the session. -/
inductive Visit
  | desktop (r : DesktopRequest)
  | sessions
  | control

def PhpSession.visit (s : PhpSession) : Visit → PhpSession
  | .desktop r => AppServer.desktop s r
  | .sessions | .control => s

def Visit.submitted : Visit → Option Bytes
  | .desktop r =>
    if r.action.isTruthy = false ∧ r.userIdSubmitted.isTruthy = true then r.newUserId.addslashes.map trim else none
  | _ => none

def PhpSession.step (s : PhpSession) (v : Visit) : Option PhpSession := some (s.visit v)

def PhpSession.Valid (s : PhpSession) : Prop := ∀ u, s.userId = some u → pregMatch u = true

def PhpSession.Rejects (s : PhpSession) (v : Visit) : Prop :=
  ∀ n, v.submitted = some n → pregMatch n = false →
    (s.visit v).userId = s.userId ∧ (s.visit v).sessionId = s.sessionId

def PhpSession.SubmitsUuid (s : PhpSession) (v : Visit) : Prop :=
  ∀ n, v.submitted = some n → s.userId ≠ none → n = [] ∨ s.userId = some n ∨ pregMatch n = true

/-! ## The user id along the requests -/

variable {s : PhpSession}

theorem submit_cases (hvalid : s.Valid) (n : Bytes) (random : RandomBytes) :
    (n ≠ [] ∧ s.userId ≠ some n ∧ s.userId ≠ none ∧ (s.submit n random).userId = some n) ∨
      (s.submit n random).userId = s.userId ∧ (s.submit n random).sessionId = s.sessionId ∧
        (n = [] ∨ s.userId = some n ∨ s.userId = none) := by
  unfold PhpSession.submit
  by_cases hnew : n ≠ [] ∧ some n ≠ s.userId
  · rw [if_pos hnew]
    cases huser : s.userId with
    | none => exact Or.inr ⟨by simp [fits, pregMatch, uuidPattern], by simp [fits, pregMatch, uuidPattern], Or.inr (Or.inr rfl)⟩
    | some u =>
      have hmatch := hvalid u huser
      left
      refine ⟨hnew.1, fun he => hnew.2 (by rw [huser]; exact he.symm), Option.some_ne_none u, ?_⟩
      rw [Option.getD_some, hmatch, if_neg (by decide)]
  · rw [if_neg hnew]
    refine Or.inr ⟨rfl, rfl, ?_⟩
    rcases not_and_or.mp hnew with hempty | hsame
    · exact Or.inl (not_not.mp hempty)
    · exact Or.inr (Or.inl (not_not.mp hsame).symm)

/-- A submission reaches the form's branch; only the error text may change before it. -/
theorem visit_submitted {v : Visit} {n : Bytes} (h : v.submitted = some n) :
    ∃ err random, s.visit v = ({ s with errUserId := err } : PhpSession).submit n random := by
  cases v with
  | sessions => cases h
  | control => cases h
  | desktop r =>
    simp only [Visit.submitted, Option.ite_none_right_eq_some, Option.map_eq_some_iff] at h
    obtain ⟨⟨haction, hsubmitted⟩, text, htext, rfl⟩ := h
    simp only [PhpSession.visit, desktop, haction, hsubmitted, htext, Bool.false_eq_true, if_false, if_true]
    split
    · exact ⟨none, r.random, rfl⟩
    · exact ⟨s.errUserId, r.random, rfl⟩

theorem visit_not_submitted {v : Visit} (h : v.submitted = none) :
    (s.visit v).userId = s.userId ∨ ∃ random, (s.visit v).userId = some (guidv4 random) := by
  cases v with
  | sessions => exact Or.inl rfl
  | control => exact Or.inl rfl
  | desktop r =>
    simp only [PhpSession.visit, desktop]
    split
    · exact Or.inl rfl
    · next haction =>
      have hkept : (if isSet s.errUserId = true then { s with errUserId := none } else s).userId = s.userId := by
        split <;> rfl
      split
      · next hsubmitted =>
        simp only [Visit.submitted] at h
        rw [if_pos ⟨by simpa using haction, hsubmitted⟩, Option.map_eq_none_iff] at h
        rw [h]
        exact Or.inl hkept
      · rw [apply_ite PhpSession.userId, ite_self, apply_ite PhpSession.userId, hkept]
        split
        · exact Or.inl rfl
        · exact Or.inr ⟨r.random, rfl⟩

theorem visit_valid {v : Visit} (hvalid : s.Valid) (hsubmits : s.SubmitsUuid v) : (s.visit v).Valid := by
  cases hv : v.submitted with
  | none =>
    intro u hu
    rcases visit_not_submitted (s := s) hv with hkept | ⟨random, hdrawn⟩
    · exact hvalid u (hkept ▸ hu)
    · rw [hdrawn] at hu
      exact Option.some.inj hu ▸ guidv4_matches random
  | some n =>
    obtain ⟨err, random, hvisit⟩ := visit_submitted (s := s) hv
    intro u hu
    rw [hvisit] at hu
    rcases submit_cases (s := { s with errUserId := err }) hvalid n random with ⟨hne, hother, hset, hnew⟩ | ⟨hkept, _⟩
    · rw [hnew] at hu
      obtain rfl := Option.some.inj hu
      exact ((hsubmits n hv hset).resolve_left hne).resolve_left hother
    · exact hvalid u (hkept ▸ hu)

theorem visit_not_valid {v : Visit} (hvalid : s.Valid) (hsubmits : ¬ s.SubmitsUuid v) : ¬ (s.visit v).Valid := by
  unfold PhpSession.SubmitsUuid at hsubmits
  push Not at hsubmits
  obtain ⟨n, hv, hset, hne, hother, hmatch⟩ := hsubmits
  obtain ⟨err, random, hvisit⟩ := visit_submitted (s := s) hv
  rw [hvisit]
  intro hafter
  rcases submit_cases (s := { s with errUserId := err }) hvalid n random with ⟨_, _, _, hnew⟩ | ⟨_, _, hcase⟩
  · exact hmatch (hafter n hnew)
  · rcases hcase with h | h | h
    · exact hne h
    · exact hother h
    · exact hset h

/-- When the user ids before and after a submission match, a text that does not match
has been rejected. -/
theorem rejects_of_valid {v : Visit} (hvalid : s.Valid) (hafter : (s.visit v).Valid) : s.Rejects v := by
  intro n hv hmatch
  obtain ⟨err, random, hvisit⟩ := visit_submitted (s := s) hv
  rw [hvisit] at hafter ⊢
  rcases submit_cases (s := { s with errUserId := err }) hvalid n random with ⟨_, _, _, hnew⟩ | ⟨huser, hsession, _⟩
  · rw [hafter n hnew] at hmatch
    cases hmatch
  · exact ⟨huser, hsession⟩

theorem empty_valid : PhpSession.empty.Valid := by
  intro u hu
  cases hu

/-- Along every sequence of requests: the user id matches the pattern after each of them
and texts that do not match are rejected exactly when every text submitted to a session
with a user id is empty, the current one, or matches. Every drawn id matches. -/
theorem userId_valid_iff (visits : List Visit) :
    (∀ random, pregMatch (guidv4 random) = true) ∧
      ((∀ vs t, vs <+: visits → Transition.run PhpSession.step .empty vs = some t →
          t.Valid ∧ ∀ v, vs ++ [v] <+: visits → t.Rejects v) ↔
        Transition.Guarded PhpSession.step PhpSession.SubmitsUuid .empty visits) := by
  refine ⟨guidv4_matches, ?_⟩
  have hgood : ∀ (s : PhpSession) v t, s.Valid → s.SubmitsUuid v → s.step v = some t → t.Valid := by
    intro s v t h hs ht
    exact Option.some.inj ht ▸ visit_valid h hs
  have hbad : ∀ (s : PhpSession) v, s.Valid → ¬ s.SubmitsUuid v → ∃ t, s.step v = some t ∧ ¬ t.Valid :=
    fun s v h hs => ⟨s.visit v, rfl, visit_not_valid h hs⟩
  have hiff := Transition.guarded_iff_forall (fun _ h => h) hgood hbad empty_valid visits
  rw [hiff]
  constructor
  · intro h vs t hvs ht
    exact (h vs t hvs ht).1
  · intro h vs t hvs ht
    refine ⟨h vs t hvs ht, fun v hv => rejects_of_valid (h vs t hvs ht) (h (vs ++ [v]) (t.visit v) hv ?_)⟩
    exact Transition.run_concat.mpr ⟨t, ht, rfl⟩

def RandomBytes.zeros : RandomBytes := ⟨List.replicate 16 0, rfl⟩

/-- A first page load, and a form with the user id "x". -/
def submitsX : List Visit :=
  let zeros := RandomBytes.zeros
  [.desktop ⟨.missing, .missing, .missing, zeros, zeros⟩, .desktop ⟨.missing, .text [0x31], .text [0x78], zeros, zeros⟩]

theorem submitsX_accepted :
    ∃ t, Transition.run PhpSession.step .empty submitsX = some t ∧ t.userId = some [0x78] ∧ ¬ t.Valid := by
  have hrun : (Transition.run PhpSession.step .empty submitsX).map PhpSession.userId = some (some [0x78]) := by
    decide +kernel
  obtain ⟨t, ht, huser⟩ := Option.map_eq_some_iff.mp hrun
  refine ⟨t, ht, huser, fun hvalid => ?_⟩
  exact absurd (hvalid _ huser) (by decide +kernel)

end AppServer
end LilitunRemote

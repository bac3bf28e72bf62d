import Mathlib.Data.List.Basic

/-! # JSON texts

A text is a tree with its blanks, so that every place in it is known. The strings keep
their spelling; of a number or a literal only the bytes matter.
-/
namespace Json

def isBlank (b : UInt8) : Bool := b = 32 || b = 9 || b = 10 || b = 13

def isHex (b : UInt8) : Bool := (48 ≤ b && b ≤ 57) || (65 ≤ b && b ≤ 70) || (97 ≤ b && b ≤ 102)

def hexValue (b : UInt8) : ℕ := if b ≤ 57 then b.toNat - 48 else if b ≤ 70 then b.toNat - 55 else b.toNat - 87

/-- The letters of the escapes of one letter: quote, slash, backslash, b, f, r, n and t. -/
def escapes : List UInt8 := [34, 47, 92, 98, 102, 114, 110, 116]

def escapeValue (b : UInt8) : ℕ :=
  if b = 98 then 8 else if b = 102 then 12 else if b = 114 then 13 else if b = 110 then 10 else if b = 116 then 9 else b.toNat

def isPrimitiveByte (b : UInt8) : Bool :=
  (48 ≤ b && b ≤ 57) || (65 ≤ b && b ≤ 90) || (97 ≤ b && b ≤ 122) || b = 43 || b = 45 || b = 46

structure Blank where
  text : List UInt8
  blank : ∀ b ∈ text, isBlank b = true

def Blank.empty : Blank := ⟨[], nofun⟩

inductive Item
  | plain (b : UInt8) (hb : 32 ≤ b ∧ b ≠ 34 ∧ b ≠ 92)
  | escape (b : UInt8) (hb : b ∈ escapes)
  | unicode (a b c d : UInt8) (hex : [a, b, c, d].all isHex = true)

structure Primitive where
  text : List UInt8
  ne : text ≠ []
  bytes : ∀ b ∈ text, isPrimitiveByte b = true

inductive Kind
  | value | elements | members

inductive Node : Kind → Type
  | string (s : List Item) : Node .value
  | primitive (p : Primitive) : Node .value
  | emptyArray (w : Blank) : Node .value
  | array (es : Node .elements) : Node .value
  | emptyObject (w : Blank) : Node .value
  | object (ms : Node .members) : Node .value
  | element (w : Blank) (v : Node .value) (w' : Blank) : Node .elements
  | elements (w : Blank) (v : Node .value) (w' : Blank) (es : Node .elements) : Node .elements
  | member (w : Blank) (key : List Item) (w' u : Blank) (v : Node .value) (u' : Blank) : Node .members
  | members (w : Blank) (key : List Item) (w' u : Blank) (v : Node .value) (u' : Blank) (ms : Node .members) :
    Node .members

def Item.text : Item → List UInt8
  | plain b _ => [b]
  | escape b _ => [92, b]
  | unicode a b c d _ => [92, 117, a, b, c, d]

def Item.unit : Item → ℕ
  | plain b _ => b.toNat
  | escape b _ => escapeValue b
  | unicode a b c d _ => 4096 * hexValue a + 256 * hexValue b + 16 * hexValue c + hexValue d

def stringText (s : List Item) : List UInt8 := s.flatMap Item.text

def quoted (s : List Item) : List UInt8 := 34 :: (stringText s ++ [34])

def plainItems : (s : List UInt8) → (∀ b ∈ s, 32 ≤ b ∧ b ≠ 34 ∧ b ≠ 92) → List Item
  | [], _ => []
  | b :: s, h => .plain b (h b List.mem_cons_self) :: plainItems s (fun c hc => h c (List.mem_cons_of_mem b hc))

theorem stringText_plainItems (s : List UInt8) (h : ∀ b ∈ s, 32 ≤ b ∧ b ≠ 34 ∧ b ≠ 92) : stringText (plainItems s h) = s := by
  induction s with
  | nil => rfl
  | cons b s ih => exact congrArg (b :: ·) (ih _)

namespace Node

def text : {k : Kind} → Node k → List UInt8
  | _, string s => quoted s
  | _, primitive p => p.text
  | _, emptyArray w => 91 :: (w.text ++ [93])
  | _, array es => 91 :: (es.text ++ [93])
  | _, emptyObject w => 123 :: (w.text ++ [125])
  | _, object ms => 123 :: (ms.text ++ [125])
  | _, element w v w' => w.text ++ (v.text ++ w'.text)
  | _, elements w v w' es => w.text ++ (v.text ++ (w'.text ++ (44 :: es.text)))
  | _, member w key w' u v u' => w.text ++ (quoted key ++ (w'.text ++ (58 :: (u.text ++ (v.text ++ u'.text)))))
  | _, members w key w' u v u' ms =>
    w.text ++ (quoted key ++ (w'.text ++ (58 :: (u.text ++ (v.text ++ (u'.text ++ (44 :: ms.text)))))))

/-- A value as it is spelled, a string without its quotes. -/
def rawText : Node .value → List UInt8
  | string s => stringText s
  | v => v.text

/-- The members of an object, not those of the objects in it. -/
def entries : {k : Kind} → Node k → List (List Item × Node .value)
  | _, member _ key _ _ v _ => [(key, v)]
  | _, members _ key _ _ v _ ms => (key, v) :: ms.entries
  | _, _ => []

def strings : {k : Kind} → Node k → List (List Item)
  | _, string s => [s]
  | _, primitive _ | _, emptyArray _ | _, emptyObject _ => []
  | _, array es => es.strings
  | _, object ms => ms.strings
  | _, element _ v _ => v.strings
  | _, elements _ v _ es => v.strings ++ es.strings
  | _, member _ key _ _ v _ => key :: v.strings
  | _, members _ key _ _ v _ ms => key :: (v.strings ++ ms.strings)

/-- The strings inside a value that is more than a string. -/
def inner : Node .value → List (List Item)
  | string _ => []
  | v => v.strings

def flat (key value : List Item) : List (List Item × List Item) → Node .members
  | [] => .member .empty key .empty .empty (.string value) .empty
  | (key', value') :: es => .members .empty key .empty .empty (.string value) .empty (flat key' value' es)

end Node

/-- How the name of a member is read: as it is spelled, or with its escapes decoded. -/
inductive Reading
  | spelled | decoded
  deriving DecidableEq, Repr

def Reading.names (r : Reading) (key : List Item) (name : List UInt8) : Bool :=
  match r with
  | spelled => stringText key = name
  | decoded => key.map Item.unit = name.map UInt8.toNat

/-- The last member of a name in a row of members, as its value is spelled. -/
def lastEntry (r : Reading) (entries : List (List Item × Node .value)) (name : List UInt8) : Option (List UInt8) :=
  ((entries.filter fun e => r.names e.1 name).getLast?).map fun e => e.2.rawText

end Json

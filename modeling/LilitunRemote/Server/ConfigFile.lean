import LilitunRemote.Foundation.CString
import LilitunRemote.Foundation.LineReader
import LilitunRemote.Foundation.Memory
import LilitunRemote.Projector.Thread

/-! # The configuration file

`config.c` reads the file through a buffer of 1024 bytes, so a long line comes in pieces,
each of which is taken for a line. A section is found by a line in brackets whose text only
begins with its name.
-/
namespace LilitunRemote
namespace ConfigFile
open CString LineReader Memory
open Projector (strncmp)

/-! ## `config.c` -/

structure ConfigText where
  bytes : Bytes
  noZero : 0 ∉ bytes

/-- An open file: its text, the position in it, and the position `secPos` of the section. -/
structure Config where
  text : ConfigText
  pos : ℕ
  secPos : ℤ

def isBlank (b : UInt8) : Bool := b = 32 || b = 9

def skipSpaces (ptr : Bytes) : Bytes := ptr.dropWhile isBlank

def skipEndSpaces (ptr : Bytes) : Bytes := (ptr.reverse.dropWhile isSpace).reverse

def trimmed (buffer : Bytes) : Bytes := skipEndSpaces (skipSpaces buffer)

/-- What the reads of a loop leave in the buffer, one after the other. -/
def buffers (bytes : Bytes) : List Bytes := reads 10 1023 bytes

def isHeader (name buffer : Bytes) : Bool :=
  let ptr := trimmed buffer
  1 < ptr.length && ptr.head? = some 91 && ptr.getLast? = some 93 && strncmp ptr.tail name name.length

def configSection (conf : Config) : Option Bytes → ℤ × Config
  | none => (-1, conf)
  | some name =>
    match firstEnd (isHeader name) 0 (buffers conf.text.bytes) with
    | some pos => (0, { conf with pos := pos, secPos := wrapInt pos })
    | none => (-1, { conf with pos := conf.text.bytes.length })

/-- A negative offset is refused. -/
def fseek (conf : Config) (offset : ℤ) : ℕ := if offset < 0 then conf.pos else offset.toNat

def isNameByte (b : UInt8) : Bool :=
  isDigit b || (65 ≤ b && b ≤ 90) || (97 ≤ b && b ≤ 122) || b = 45 || b = 95

/-- One round of `ConfigReadString`: nothing for `continue`, and without a value for `break`. -/
def readRound (key buffer : Bytes) : Option (Option Bytes) :=
  match trimmed buffer with
  | [] => none
  | c :: ptr =>
    if c = 91 then some none
    else if c = 59 ∨ c = 35 then none
    else
      match (c :: ptr).dropWhile isNameByte with
      | [] => none
      | _ :: ptrNext => if (c :: ptr).takeWhile isNameByte = key then some (some (skipSpaces ptrNext)) else none

def configReadString (conf : Config) (key : Bytes) (defval : Option Bytes) : Option Bytes :=
  ((buffers (conf.text.bytes.drop (fseek conf conf.secPos))).findSome? (readRound key)).join.or defval

/-! ## Lookups by lines -/

def isSection (name line : Bytes) : Bool := trimmed line = 91 :: (name ++ [93])

structure ConfigKey where
  text : Bytes
  name : ∀ b ∈ text, isNameByte b = true

def keyValue (key text : Bytes) : Option Bytes :=
  if key <+: text then
    match text.drop key.length with
    | [] => none
    | separator :: value => if isNameByte separator then none else some (skipSpaces value)
  else none

def lineValue (key line : Bytes) : Option Bytes :=
  let text := trimmed line
  if text.head? = some 59 ∨ text.head? = some 35 then none else keyValue key text

/-- The value of a key in the lines of a section, up to the next bracket. -/
def lookup (key : Bytes) : List Bytes → Option Bytes
  | [] => none
  | line :: rest => if (trimmed line).head? = some 91 then none else (lineValue key line).or (lookup key rest)

inductive Lookup
  | find (conf : Config) (name : Bytes)
  | read (text : ConfigText) (pos secPos : ℕ) (key : ConfigKey) (defval : Option Bytes)

def Lookup.Exact : Lookup → Prop
  | .find conf name =>
    match firstEnd (isSection name) 0 (lines 10 conf.text.bytes) with
    | some pos => configSection conf (some name) = (0, { conf with pos := pos, secPos := pos })
    | none => (configSection conf (some name)).1 = -1 ∧ (configSection conf (some name)).2.secPos = conf.secPos
  | .read text pos secPos key defval =>
    configReadString ⟨text, pos, secPos⟩ key.text defval = (lookup key.text (lines 10 (text.bytes.drop secPos))).or defval

/-- No piece of a line before the section, or of any line if it is missing, looks like its
header, and of the section's own line only the last piece does; and it ends below `2^31`. -/
structure SectionClear (text name : Bytes) : Prop where
  met : ∀ before line after, lines 10 text = before ++ line :: after → (∀ l ∈ before, isSection name l = false) →
    Met (isHeader name) (isSection name) (buffers line) line
  near : ∀ before line after, lines 10 text = before ++ line :: after → (∀ l ∈ before, isSection name l = false) →
    isSection name line = true → (before ++ [line]).flatten.length < 2 ^ 31

/-- What a line says to the search for a key: that the section ends, a value, or nothing. -/
def meaning (key line : Bytes) : Option (Option Bytes) :=
  if (trimmed line).head? = some 91 then some none else (lineValue key line).map some

/-- No line that the search comes to says something else in pieces. -/
def LinesWhole (key : Bytes) (ls : List Bytes) : Prop :=
  ∀ before line after, ls = before ++ line :: after → (∀ l ∈ before, meaning key l = none) → ¬ Torn (meaning key) buffers line

def Lookup.Clear : Lookup → Prop
  | .find conf name => SectionClear conf.text.bytes name
  | .read text _ secPos key _ => LinesWhole key.text (lines 10 (text.bytes.drop secPos))

/-! ## Sections -/

theorem buffers_line {bytes line : Bytes} (h : line ∈ lines 10 bytes) :
    (buffers line).flatten = line ∧ (∀ p ∈ buffers line, p ≠ []) ∧ line ≠ [] :=
  ⟨reads_flatten (by omega) line, reads_nonempty (by omega) line, lines_nonempty bytes line h⟩

theorem section_found_iff (bytes name : Bytes) :
    firstEnd (isHeader name) 0 (buffers bytes) = firstEnd (isSection name) 0 (lines 10 bytes) ↔
      ∀ before line after, lines 10 bytes = before ++ line :: after → (∀ l ∈ before, isSection name l = false) →
        Met (isHeader name) (isSection name) (buffers line) line := by
  rw [buffers, reads_eq_flatMap (by omega)]
  exact firstEnd_flatMap_iff (fun line hline => buffers_line hline) 0

theorem wrapInt_eq_self_iff (n : ℕ) : wrapInt n = n ↔ n < 2 ^ 31 := by
  unfold wrapInt
  omega

theorem section_exact_iff (conf : Config) (name : Bytes) :
    (Lookup.find conf name).Exact ↔ (Lookup.find conf name).Clear := by
  have hmet := section_found_iff conf.text.bytes name
  change (match firstEnd (isSection name) 0 (lines 10 conf.text.bytes) with
    | some pos => _
    | none => _) ↔ SectionClear conf.text.bytes name
  cases hspec : firstEnd (isSection name) 0 (lines 10 conf.text.bytes) with
  | some pos =>
    rw [hspec] at hmet
    constructor
    · intro h
      cases hfound : firstEnd (isHeader name) 0 (buffers conf.text.bytes) with
      | none =>
        simp [configSection, hfound] at h
      | some k =>
        simp only [configSection, hfound, Prod.mk.injEq, Config.mk.injEq, true_and] at h
        obtain ⟨rfl, hnarrow⟩ := h
        refine ⟨hmet.mp hfound, fun before line after hsplit hbefore hline => ?_⟩
        have hend := firstEnd_eq_some_iff.mpr ⟨before, line, after, hsplit, hbefore, hline, (Nat.zero_add _).symm⟩
        rw [hspec] at hend
        rw [← Option.some.inj hend]
        exact (wrapInt_eq_self_iff k).mp hnarrow
    · intro h
      obtain ⟨before, line, after, hsplit, hbefore, hline, hpos⟩ := firstEnd_eq_some_iff.mp hspec
      have hnear := h.near before line after hsplit hbefore hline
      rw [Nat.zero_add] at hpos
      rw [← hpos] at hnear
      simp only [configSection, hmet.mpr h.met, (wrapInt_eq_self_iff pos).mpr hnear]
  | none =>
    rw [hspec] at hmet
    constructor
    · intro h
      cases hfound : firstEnd (isHeader name) 0 (buffers conf.text.bytes) with
      | some k => simp [configSection, hfound] at h
      | none =>
        refine ⟨hmet.mp hfound, fun before line after hsplit _ hline => ?_⟩
        have hnone := (firstEnd_eq_none_iff _ _ _).mp hspec line (by rw [hsplit]; simp)
        rw [hline] at hnone
        cases hnone
    · intro h
      simp [configSection, hmet.mpr h.met]

/-! ## Keys -/

theorem keyValue_eq_some_iff (key text v : Bytes) :
    keyValue key text = some v ↔
      ∃ separator value, text = key ++ separator :: value ∧ isNameByte separator = false ∧ v = skipSpaces value := by
  unfold keyValue
  constructor
  · intro h
    obtain ⟨⟨rest, rfl⟩, h⟩ := Option.ite_none_right_eq_some.mp h
    rw [List.drop_left] at h
    cases rest with
    | nil => cases h
    | cons separator value =>
      obtain ⟨hseparator, hv⟩ := Option.ite_none_left_eq_some.mp h
      exact ⟨separator, value, rfl, by simpa using hseparator, (Option.some.inj hv).symm⟩
  · rintro ⟨separator, value, rfl, hseparator, rfl⟩
    rw [if_pos (List.prefix_append _ _), List.drop_left]
    simp [hseparator]

/-- The scan of the loop over the letters ends with the name of the key if the key is there. -/
theorem span_eq_some_iff {key : Bytes} (hkey : ∀ b ∈ key, isNameByte b = true) (text v : Bytes) :
    (match text.dropWhile isNameByte with
      | [] => none
      | _ :: ptrNext => if text.takeWhile isNameByte = key then some (some (skipSpaces ptrNext)) else none) = some (some v) ↔
      ∃ separator value, text = key ++ separator :: value ∧ isNameByte separator = false ∧ v = skipSpaces value := by
  constructor
  · intro h
    have hsplit := List.takeWhile_append_dropWhile (p := isNameByte) (l := text)
    cases hrest : text.dropWhile isNameByte with
    | nil =>
      rw [hrest] at h
      cases h
    | cons separator value =>
      rw [hrest] at h hsplit
      obtain ⟨hname, hv⟩ := Option.ite_none_right_eq_some.mp h
      have hstop := List.head_dropWhile_not isNameByte (l := text) (by simp [hrest])
      simp only [hrest, List.head_cons] at hstop
      rw [hname] at hsplit
      exact ⟨separator, value, hsplit.symm, hstop, (Option.some.inj (Option.some.inj hv)).symm⟩
  · rintro ⟨separator, value, rfl, hseparator, rfl⟩
    rw [List.takeWhile_append_of_pos hkey, List.dropWhile_append_of_pos hkey]
    simp [hseparator]

/-- A round of the loop goes by what its line says. -/
theorem readRound_eq (key : ConfigKey) (line : Bytes) : readRound key.text line = meaning key.text line := by
  have hvalue : ∀ text : Bytes, (match text.dropWhile isNameByte with
      | [] => none
      | _ :: ptrNext => if text.takeWhile isNameByte = key.text then some (some (skipSpaces ptrNext)) else none) =
      (keyValue key.text text).map some := by
    intro text
    ext r
    cases r with
    | none =>
      refine iff_of_false (fun h => ?_) (by simp)
      split at h
      · cases h
      · cases (Option.ite_none_right_eq_some.mp h).2
    | some v =>
      rw [span_eq_some_iff key.name, ← keyValue_eq_some_iff]
      simp
  unfold readRound meaning lineValue
  cases htext : trimmed line with
  | nil => simp [keyValue]
  | cons c ptr =>
    simp only [List.head?_cons, Option.some.injEq, hvalue]
    split
    · rfl
    · split <;> rfl

theorem lookup_eq (key : Bytes) (ls : List Bytes) : lookup key ls = (ls.findSome? (meaning key)).join := by
  induction ls with
  | nil => rfl
  | cons line rest ih =>
    rw [lookup, List.findSome?_cons, meaning]
    split
    · rfl
    · cases lineValue key line with
      | none => simpa using ih
      | some value => rfl

theorem read_exact (text : ConfigText) (pos secPos : ℕ) (key : ConfigKey) (defval : Option Bytes)
    (h : LinesWhole key.text (lines 10 (text.bytes.drop secPos))) : (Lookup.read text pos secPos key defval).Exact := by
  have hseek : fseek ⟨text, pos, secPos⟩ secPos = secPos := by simp [fseek]
  have hround : readRound key.text = meaning key.text := funext (readRound_eq key)
  have hsame := findSome_flatMap h
  simp only [Lookup.Exact, configReadString, hseek, lookup_eq, hround, ← hsame]
  rw [buffers, reads_eq_flatMap (by omega)]
  rfl

/-- Lines that fit the buffer are whole. -/
theorem linesWhole_of_short {key bytes : Bytes} (hshort : ∀ line ∈ lines 10 bytes, line.length ≤ 1023) :
    LinesWhole key (lines 10 bytes) := by
  rintro before line after hsplit - htorn
  have hmem : line ∈ lines 10 bytes := by simp [hsplit]
  have hwhole : buffers line = [line] := reads_of_fits (by omega) _ line hmem (hshort line hmem)
  exact absurd (by simp [hwhole]) htorn

/-- Lookups go by lines if the text is clear for them, that of a section exactly then. -/
theorem lookup_exact_of_clear (l : Lookup) :
    (l.Clear → l.Exact) ∧ ∀ conf name, l = .find conf name → l.Exact → l.Clear := by
  cases l with
  | find conf name =>
    refine ⟨(section_exact_iff conf name).mpr, ?_⟩
    rintro _ _ ⟨⟩ hexact
    exact (section_exact_iff conf name).mp hexact
  | read text pos secPos key defval => exact ⟨read_exact text pos secPos key defval, nofun⟩

def portKey : ConfigKey := ⟨asciiBytes "port", by decide +kernel⟩

/-- A comment, a longer name and the port in a section. -/
def mainSection : ConfigText := ⟨asciiBytes "[main]\n;port=1\nport2=2\n port=3 \n[other]\nport=4\n", by decide +kernel⟩

theorem port_read : (Lookup.read mainSection 0 7 portKey none).Exact ∧
    configReadString ⟨mainSection, 0, 7⟩ portKey.text none = some (asciiBytes "3") := by
  have hshort : ∀ line ∈ lines 10 (mainSection.bytes.drop 7), line.length ≤ 1023 := by decide +kernel
  exact ⟨(lookup_exact_of_clear (.read mainSection 0 7 portKey none)).1 (linesWhole_of_short hshort), by decide +kernel⟩

def twoSections : ConfigText := ⟨asciiBytes "[main2]\n[main]\nport=1\n", by decide +kernel⟩

theorem longer_name_found : ¬ ∀ l : Lookup, l.Exact := by
  intro h
  have hfind := h (.find ⟨twoSections, 0, 0⟩ (asciiBytes "main"))
  have hspec : firstEnd (isSection (asciiBytes "main")) 0 (lines 10 twoSections.bytes) = some 15 := by decide +kernel
  have hcode : (configSection ⟨twoSections, 0, 0⟩ (some (asciiBytes "main"))).2.pos = 8 := by decide +kernel
  simp only [Lookup.Exact, hspec] at hfind
  rw [hfind] at hcode
  cases hcode

end ConfigFile
end LilitunRemote

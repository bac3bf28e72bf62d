import LilitunRemote.Foundation.CString
import LilitunRemote.Foundation.Json
import Mathlib.Tactic.Linarith

/-! # What a JSON text says

The value of a string with its escapes decoded, and the member of a name. A decoded text
cannot be spelled with fewer bytes than it has, and quotes, backslashes and control
characters take more.
-/
namespace Json

def needsEscape (b : UInt8) : Bool := b < 32 || b = 34 || b = 92

def isHighSurrogate (u : ℕ) : Bool := 0xD800 ≤ u && u < 0xDC00

def isLowSurrogate (u : ℕ) : Bool := 0xDC00 ≤ u && u < 0xE000

/-- The UTF-8 bytes of a string; surrogates have to come in pairs. -/
def decodeItems : List Item → Option (List UInt8)
  | [] => some []
  | .plain b _ :: s => (decodeItems s).map (b :: ·)
  | .escape b _ :: s => (decodeItems s).map (UInt8.ofNat (escapeValue b) :: ·)
  | .unicode a b c d hex :: s =>
    let unit := (Item.unicode a b c d hex).unit
    if isHighSurrogate unit then
      match s with
      | .unicode a' b' c' d' hex' :: s' =>
        let low := (Item.unicode a' b' c' d' hex').unit
        if isLowSurrogate low then
          (decodeItems s').map
            (String.utf8EncodeChar (Char.ofNat (0x10000 + 0x400 * (unit - 0xD800) + (low - 0xDC00))) ++ ·)
        else none
      | _ => none
    else if isLowSurrogate unit then none
    else (decodeItems s).map (String.utf8EncodeChar (Char.ofNat unit) ++ ·)

def stringValue : Node .value → Option (List UInt8)
  | .string s => decodeItems s
  | _ => none

def decodedMember (entries : List (List Item × Node .value)) (name : List UInt8) : Option (Option (List UInt8)) :=
  ((entries.filter fun e => decodeItems e.1 = some name).getLast?).map fun e => stringValue e.2

structure HasMembers (entries : List (List Item × Node .value)) (fields : List (List UInt8 × List UInt8)) : Prop where
  names : ∀ e ∈ entries, decodeItems e.1 ≠ none
  members : ∀ name, decodedMember entries name = (fields.lookup name).map some

/-! ## Spelling -/

theorem length_utf8EncodeChar_le (c : Char) : (String.utf8EncodeChar c).length ≤ 4 := by
  simp only [String.utf8EncodeChar]
  split
  · simp
  · split
    · simp
    · split <;> simp

theorem length_utf8EncodeChar_unit {u : ℕ} (hu : u < 0x10000) : (String.utf8EncodeChar (Char.ofNat u)).length ≤ 3 := by
  have hval : (Char.ofNat u).val.toNat ≤ 0xffff := by
    by_cases hvalid : u.isValidChar
    · rw [Char.ofNat, dif_pos hvalid]
      change u ≤ 0xffff
      omega
    · rw [Char.ofNat, dif_neg hvalid]
      exact Nat.zero_le _
  simp only [String.utf8EncodeChar]
  split
  · simp
  · split
    · simp
    · simp

theorem hexValue_lt {b : UInt8} (h : isHex b = true) : hexValue b < 16 :=
  @CString.forall_byte (fun b => isHex b = true → hexValue b < 16) (by decide +kernel) b h

theorem item_unit_lt (a b c d : UInt8) (hex : [a, b, c, d].all isHex = true) : (Item.unicode a b c d hex).unit < 0x10000 := by
  have hdigits := hex
  simp only [List.all_cons, List.all_nil, Bool.and_true, Bool.and_eq_true] at hdigits
  obtain ⟨ha, hb, hc, hd⟩ := hdigits
  have ha' := hexValue_lt ha
  have hb' := hexValue_lt hb
  have hc' := hexValue_lt hc
  have hd' := hexValue_lt hd
  simp only [Item.unit]
  omega

theorem plain_needsEscape {b : UInt8} (hb : 32 ≤ b ∧ b ≠ 34 ∧ b ≠ 92) : needsEscape b = false := by
  have hlow : ¬ b < 32 := UInt8.not_lt.mpr hb.1
  simp [needsEscape, hlow, hb.2.1, hb.2.2]

theorem stringText_cons (i : Item) (s : List Item) : stringText (i :: s) = i.text ++ stringText s := rfl

/-- A string is spelled with a byte for every byte it decodes to, and with one more for
every byte that cannot stand for itself. -/
theorem length_of_decodeItems {s : List Item} {bytes : List UInt8} (h : decodeItems s = some bytes) :
    bytes.length + bytes.countP needsEscape ≤ (stringText s).length := by
  fun_induction decodeItems s generalizing bytes with
  | case1 =>
    obtain rfl := Option.some.inj h
    simp
  | case2 b hb s ih =>
    obtain ⟨rest, hrest, rfl⟩ := Option.map_eq_some_iff.mp h
    have hle := ih hrest
    have hplain := plain_needsEscape hb
    simp only [List.length_cons, List.countP_cons, hplain, stringText_cons, Item.text, List.length_append, List.length_nil]
    simp
    omega
  | case3 b hb s ih =>
    obtain ⟨rest, hrest, rfl⟩ := Option.map_eq_some_iff.mp h
    have hle := ih hrest
    have hcount := List.countP_le_length (p := needsEscape) (l := [UInt8.ofNat (escapeValue b)])
    rw [← List.singleton_append, List.countP_append]
    simp only [List.length_append, stringText_cons, Item.text, List.length_cons, List.length_nil] at hcount ⊢
    omega
  | case4 a b c d hex unit hhigh a' b' c' d' hex' s low hlow =>
    rename_i ih
    obtain ⟨rest, hrest, rfl⟩ := Option.map_eq_some_iff.mp h
    have hle := ih hrest
    have hchar := length_utf8EncodeChar_le (Char.ofNat (0x10000 + 0x400 * (unit - 0xD800) + (low - 0xDC00)))
    have hcount := List.countP_le_length (p := needsEscape)
      (l := String.utf8EncodeChar (Char.ofNat (0x10000 + 0x400 * (unit - 0xD800) + (low - 0xDC00))))
    rw [List.countP_append]
    simp only [List.length_append, stringText_cons, Item.text, List.length_cons, List.length_nil]
    omega
  | case5 => cases h
  | case6 => cases h
  | case7 => cases h
  | case8 a b c d hex s unit hhigh hlow =>
    rename_i ih
    obtain ⟨rest, hrest, rfl⟩ := Option.map_eq_some_iff.mp h
    have hle := ih hrest
    have hchar : (String.utf8EncodeChar (Char.ofNat unit)).length ≤ 3 := length_utf8EncodeChar_unit (item_unit_lt a b c d hex)
    have hcount := List.countP_le_length (p := needsEscape) (l := String.utf8EncodeChar (Char.ofNat unit))
    rw [List.countP_append]
    simp only [List.length_append, stringText_cons, Item.text, List.length_cons, List.length_nil]
    omega

/-! ## Members -/

/-- The bytes of a name and a text, with quotes, colon and comma, and with an escape for
every byte of the text that needs one. -/
def fieldLength (f : List UInt8 × List UInt8) : ℕ := f.1.length + f.2.length + f.2.countP needsEscape + 6

def entryLength (e : List Item × Node .value) : ℕ := (quoted e.1).length + e.2.text.length + 2

/-- The members of an object with their colons, and all but one with a comma. -/
theorem length_entries_le {k : Kind} (v : Node k) : (v.entries.map entryLength).sum ≤ v.text.length + 1 := by
  induction v with
  | member w key w' u v u' ih =>
    simp [Node.entries, Node.text, entryLength]
    omega
  | members w key w' u v u' ms ih ih' =>
    simp [Node.entries, Node.text, entryLength] at ih' ⊢
    omega
  | _ => simp [Node.entries]

theorem lookup_of_mem {fields : List (List UInt8 × List UInt8)} (hnodup : (fields.map Prod.fst).Nodup)
    {f : List UInt8 × List UInt8} (hf : f ∈ fields) : fields.lookup f.1 = some f.2 := by
  induction fields with
  | nil => cases hf
  | cons g fields ih =>
    obtain ⟨hnew, hnodup⟩ := List.nodup_cons.mp hnodup
    rcases List.mem_cons.mp hf with rfl | hf
    · exact List.lookup_cons_self
    · have hne : (f.1 == g.1) = false := by
        rw [beq_eq_false_iff_ne]
        intro heq
        exact hnew (heq ▸ List.mem_map_of_mem hf)
      rw [List.lookup_cons, hne]
      exact ih hnodup hf

theorem entryLength_of_decoded {e : List Item × Node .value} {f : List UInt8 × List UInt8}
    (hname : decodeItems e.1 = some f.1) (hvalue : stringValue e.2 = some f.2) : fieldLength f ≤ entryLength e := by
  obtain ⟨key, value⟩ := e
  have hkey := length_of_decodeItems hname
  cases value with
  | string s =>
    have hvalue := length_of_decodeItems hvalue
    simp only [entryLength, fieldLength, Node.text, quoted, List.length_cons, List.length_append, List.length_nil] at hkey hvalue ⊢
    omega
  | _ => cases hvalue

/-- Different names need different members. -/
theorem length_fields_le {fields : List (List UInt8 × List UInt8)} (hnodup : (fields.map Prod.fst).Nodup)
    {entries : List (List Item × Node .value)}
    (h : ∀ f ∈ fields, ∃ e ∈ entries, decodeItems e.1 = some f.1 ∧ stringValue e.2 = some f.2) :
    (fields.map fieldLength).sum ≤ (entries.map entryLength).sum := by
  induction fields generalizing entries with
  | nil => simp
  | cons f fields ih =>
    obtain ⟨hnew, hnodup⟩ := List.nodup_cons.mp hnodup
    obtain ⟨⟨e, he, hname, hvalue⟩, hrest⟩ := List.forall_mem_cons.mp h
    obtain ⟨front, back, rfl⟩ := List.append_of_mem he
    have hothers : ∀ g ∈ fields, ∃ e ∈ front ++ back, decodeItems e.1 = some g.1 ∧ stringValue e.2 = some g.2 := by
      intro g hg
      obtain ⟨e', he', hname', hvalue'⟩ := hrest g hg
      refine ⟨e', ?_, hname', hvalue'⟩
      rcases List.mem_append.mp he' with hfront | hback
      · exact List.mem_append_left _ hfront
      · refine List.mem_append_right _ ((List.mem_cons.mp hback).resolve_left ?_)
        rintro rfl
        rw [hname, Option.some.injEq] at hname'
        exact hnew (hname' ▸ List.mem_map_of_mem hg)
    have hle := ih hnodup hothers
    have hfirst := entryLength_of_decoded hname hvalue
    simp only [List.map_cons, List.map_append, List.sum_cons, List.sum_append] at hle ⊢
    omega

theorem mem_of_decodedMember {entries : List (List Item × Node .value)} {name value : List UInt8}
    (h : decodedMember entries name = some (some value)) :
    ∃ e ∈ entries, decodeItems e.1 = some name ∧ stringValue e.2 = some value := by
  obtain ⟨e, he, hvalue⟩ := Option.map_eq_some_iff.mp h
  obtain ⟨hmem, hname⟩ := List.mem_filter.mp (List.mem_of_getLast? he)
  exact ⟨e, hmem, of_decide_eq_true hname, hvalue⟩

/-- An object with the members of some fields is at least as long as their plain spelling. -/
theorem HasMembers.length_le {ms : Node .members} {fields : List (List UInt8 × List UInt8)} (h : HasMembers ms.entries fields)
    (hnodup : (fields.map Prod.fst).Nodup) : (fields.map fieldLength).sum ≤ ms.text.length + 1 := by
  refine (length_fields_le hnodup (fun f hf => mem_of_decodedMember ?_)).trans (length_entries_le ms)
  rw [h.members, lookup_of_mem hnodup hf]
  rfl

/-! ## Plain objects -/

/-- The bytes of a text that need no escape, as items. -/
def itemsOf (s : List UInt8) : List Item :=
  s.filterMap fun b => if h : 32 ≤ b ∧ b ≠ 34 ∧ b ≠ 92 then some (.plain b h) else none

def Plain (s : List UInt8) : Prop := ∀ b ∈ s, needsEscape b = false

theorem itemsOf_cons {b : UInt8} (hb : needsEscape b = false) (s : List UInt8) :
    ∃ h, itemsOf (b :: s) = .plain b h :: itemsOf s := by
  have hplain : 32 ≤ b ∧ b ≠ 34 ∧ b ≠ 92 := by
    simpa [needsEscape, and_assoc] using hb
  exact ⟨hplain, by simp [itemsOf, hplain]⟩

theorem decodeItems_itemsOf {s : List UInt8} (hs : Plain s) : decodeItems (itemsOf s) = some s := by
  induction s with
  | nil => rfl
  | cons b s ih =>
    obtain ⟨hb, hs⟩ := List.forall_mem_cons.mp hs
    obtain ⟨_, hitems⟩ := itemsOf_cons hb s
    rw [hitems, decodeItems, ih hs, Option.map_some]

theorem stringText_itemsOf {s : List UInt8} (hs : Plain s) : stringText (itemsOf s) = s := by
  induction s with
  | nil => rfl
  | cons b s ih =>
    obtain ⟨hb, hs⟩ := List.forall_mem_cons.mp hs
    obtain ⟨_, hitems⟩ := itemsOf_cons hb s
    rw [hitems, stringText_cons, ih hs]
    rfl

def plainMembers (f : List UInt8 × List UInt8) (fields : List (List UInt8 × List UInt8)) : Node .members :=
  Node.flat (itemsOf f.1) (itemsOf f.2) (fields.map fun g => (itemsOf g.1, itemsOf g.2))

theorem entries_flat (key value : List Item) (es : List (List Item × List Item)) :
    (Node.flat key value es).entries = ((key, value) :: es).map fun e => (e.1, Node.string e.2) := by
  induction es generalizing key value with
  | nil => rfl
  | cons e es ih =>
    rw [Node.flat, Node.entries, ih]
    rfl

def fieldText (f : List UInt8 × List UInt8) : List UInt8 := 34 :: (f.1 ++ (34 :: 58 :: 34 :: (f.2 ++ [34])))

theorem text_plainMembers {f : List UInt8 × List UInt8} {fields : List (List UInt8 × List UInt8)}
    (h : ∀ g ∈ f :: fields, Plain g.1 ∧ Plain g.2) :
    (plainMembers f fields).text = [44].intercalate ((f :: fields).map fieldText) := by
  induction fields generalizing f with
  | nil =>
    obtain ⟨hname, hvalue⟩ := h f List.mem_cons_self
    simp [plainMembers, Node.flat, Node.text, Blank.empty, quoted, fieldText, stringText_itemsOf hname,
      stringText_itemsOf hvalue, List.intercalate]
  | cons g fields ih =>
    obtain ⟨⟨hname, hvalue⟩, hrest⟩ := List.forall_mem_cons.mp h
    have htext := ih hrest
    rw [plainMembers] at htext
    rw [plainMembers, List.map_cons, Node.flat, Node.text, htext, List.map_cons, List.map_cons]
    simp [Node.text, Blank.empty, quoted, fieldText, stringText_itemsOf hname, stringText_itemsOf hvalue, List.intercalate]

theorem decodedMember_plain {fields : List (List UInt8 × List UInt8)} (h : ∀ g ∈ fields, Plain g.1 ∧ Plain g.2)
    (hnodup : (fields.map Prod.fst).Nodup) (name : List UInt8) :
    decodedMember (fields.map fun g => (itemsOf g.1, Node.string (itemsOf g.2))) name = (fields.lookup name).map some := by
  induction fields with
  | nil => rfl
  | cons g fields ih =>
    obtain ⟨⟨hname, hvalue⟩, hrest⟩ := List.forall_mem_cons.mp h
    obtain ⟨hnew, hnodup⟩ := List.nodup_cons.mp hnodup
    have hdecode := decodeItems_itemsOf hname
    by_cases heq : g.1 = name
    · subst heq
      have hnone : ∀ e ∈ fields.map fun g => (itemsOf g.1, Node.string (itemsOf g.2)), ¬ decodeItems e.1 = some g.1 := by
        intro e he hsame
        obtain ⟨g', hg', rfl⟩ := List.mem_map.mp he
        rw [decodeItems_itemsOf (hrest g' hg').1] at hsame
        exact hnew (Option.some.inj hsame ▸ List.mem_map_of_mem hg')
      have hfilter : (fields.map fun g => (itemsOf g.1, Node.string (itemsOf g.2))).filter
          (fun e => decodeItems e.1 = some g.1) = [] := by
        simpa [List.filter_eq_nil_iff] using hnone
      rw [decodedMember, List.map_cons, List.filter_cons_of_pos (by simp [hdecode]), hfilter]
      have hfirst : (g :: fields).lookup g.1 = some g.2 := List.lookup_cons_self
      simp [stringValue, decodeItems_itemsOf hvalue, hfirst]
    · have hother : (name == g.1) = false := beq_eq_false_iff_ne.mpr (Ne.symm heq)
      rw [decodedMember, List.map_cons, List.filter_cons_of_neg (by simp [hdecode, heq]), List.lookup_cons, hother]
      exact ih hrest hnodup

theorem hasMembers_plainMembers {f : List UInt8 × List UInt8} {fields : List (List UInt8 × List UInt8)}
    (h : ∀ g ∈ f :: fields, Plain g.1 ∧ Plain g.2) (hnodup : ((f :: fields).map Prod.fst).Nodup) :
    HasMembers (plainMembers f fields).entries (f :: fields) := by
  have hentries : (plainMembers f fields).entries = (f :: fields).map fun g => (itemsOf g.1, Node.string (itemsOf g.2)) := by
    simp [plainMembers, entries_flat]
  rw [hentries]
  refine ⟨fun e he => ?_, decodedMember_plain h hnodup⟩
  obtain ⟨g, hg, rfl⟩ := List.mem_map.mp he
  simp [decodeItems_itemsOf (h g hg).1]

end Json

import LilitunRemote.Protocol.Jsmn
import Mathlib.Algebra.Group.Nat.Even
import Mathlib.Data.List.Induction

/-! # Fields of a JSON object

`extract_json_params` and `control_connection_thread` walk over all tokens behind the
first one. A string token spelled like one of their names takes the next token as its
value, and both are passed; so of a run of such tokens every other one is taken.
-/
namespace LilitunRemote
namespace JsonFields
open Json Jsmn

def jsoneq (js : Bytes) (tok : Token) (s : Bytes) : Bool :=
  tok.type = .string && (s.length : ℤ) = tok.stop - tok.start && tokenText js tok = s

abbrev Fields := Bytes → Option Bytes

def Fields.unset : Fields := fun _ => none

def Fields.set (f : Fields) (name value : Bytes) : Fields := fun n => if n = name then some value else f n

theorem Fields.set_self (f : Fields) (name value : Bytes) : f.set name value name = some value := if_pos rfl

theorem Fields.set_of_ne (f : Fields) {name n : Bytes} (h : n ≠ name) (value : Bytes) : f.set name value n = f n := if_neg h

/-- The loop over `t[1]` to `t[r - 1]`; `none` if it reads `t[r]`. -/
def walk (names : List Bytes) (js : Bytes) : List Token → Fields → Option Fields
  | [], f => some f
  | [t], f =>
    match names.find? (jsoneq js t) with
    | some _ => none
    | none => some f
  | t :: v :: ts, f =>
    match names.find? (jsoneq js t) with
    | some name => walk names js ts (f.set name (tokenText js v))
    | none => walk names js (v :: ts) f

/-- What comes of a text: nothing if it is not tokenized or no object, else the fields. -/
inductive Extraction
  | refused
  | fields (f : Option Fields)

def extract (names : List Bytes) (js : Bytes) : Extraction :=
  match jsmnParse js 16 with
  | .error _ | .ok [] => .refused
  | .ok (root :: ts) => if root.type ≠ .object then .refused else .fields (walk names js ts Fields.unset)

/-- The names `extract_json_params` looks for, and those of `control_connection_thread`. -/
def linkNames : List Bytes :=
  [asciiBytes "requestType", asciiBytes "appServerUrl", asciiBytes "controlServerUrl", asciiBytes "sessionId"]

def controlNames : List Bytes := [asciiBytes "requestType", asciiBytes "sessionId"]

/-! ## Taken tokens -/

section Taken
variable (names : List Bytes) (js : Bytes) (ts : List Token)

def spells (t : Token) : Bool := names.any (jsoneq js t)

def run : ℕ := (ts.reverse.takeWhile (spells names js)).length

/-- A token spelled like the name, with an even number of name-like ones right before it. -/
def Taken (name : Bytes) (i : ℕ) : Prop :=
  (∃ t, ts[i]? = some t ∧ jsoneq js t name = true) ∧ Even (run names js (ts.take i))

end Taken

section Walk
variable {names : List Bytes} {js : Bytes} {ts : List Token} {name : Bytes}

theorem jsoneq_text {t : Token} (h : jsoneq js t name = true) : tokenText js t = name := by
  rw [jsoneq, Bool.and_eq_true, decide_eq_true_iff] at h
  exact h.2

theorem jsoneq_unique {t : Token} {name' : Bytes} (h : jsoneq js t name = true) (h' : jsoneq js t name' = true) :
    name = name' := (jsoneq_text h).symm.trans (jsoneq_text h')

theorem find_eq_some {t : Token} : names.find? (jsoneq js t) = some name ↔ name ∈ names ∧ jsoneq js t name = true := by
  constructor
  · intro h
    exact ⟨List.mem_of_find?_eq_some h, List.find?_some h⟩
  · rintro ⟨hmem, heq⟩
    cases hfind : names.find? (jsoneq js t) with
    | none => exact absurd heq (List.find?_eq_none.mp hfind name hmem)
    | some name' => rw [jsoneq_unique (List.find?_some hfind) heq]

theorem find_isSome {t : Token} : (names.find? (jsoneq js t)).isSome = spells names js t := by
  rw [Bool.eq_iff_iff, List.find?_isSome, spells, List.any_eq_true]

theorem run_append (t : Token) : run names js (ts ++ [t]) = if spells names js t then run names js ts + 1 else 0 := by
  rw [run, List.reverse_append, List.reverse_singleton, List.singleton_append, List.takeWhile_cons]
  split
  · rfl
  · rfl

theorem Taken.lt {i : ℕ} (h : Taken names js ts name i) : i < ts.length := by
  obtain ⟨⟨t, ht, _⟩, _⟩ := h
  exact (List.getElem?_eq_some_iff.mp ht).1

theorem taken_append {t : Token} {i : ℕ} (hi : i < ts.length) :
    Taken names js (ts ++ [t]) name i ↔ Taken names js ts name i := by
  rw [Taken, Taken, List.getElem?_append_left hi, List.take_append_of_le_length hi.le]

theorem taken_last {t : Token} : Taken names js (ts ++ [t]) name ts.length ↔ jsoneq js t name = true ∧ Even (run names js ts) := by
  rw [Taken, List.take_left]
  simp

/-! ## The walk, token by token -/

def walkStep (names : List Bytes) (js : Bytes) (s : Option Bytes × Fields) (t : Token) : Option Bytes × Fields :=
  match s.1 with
  | some name => (none, s.2.set name (tokenText js t))
  | none => (names.find? (jsoneq js t), s.2)

theorem walk_eq (f : Fields) :
    walk names js ts f =
      if (ts.foldl (walkStep names js) (none, f)).1 = none then some (ts.foldl (walkStep names js) (none, f)).2 else none := by
  induction ts, f using walk.induct names js with
  | case1 f => rfl
  | case2 f t name hfind => simp [walk, walkStep, hfind]
  | case3 f t hfind => simp [walk, walkStep, hfind]
  | case4 f t v ts name hfind ih =>
    rw [walk, hfind]
    simp only [List.foldl_cons, walkStep, hfind]
    exact ih
  | case5 f t v ts hfind ih =>
    rw [walk, hfind]
    simp only [List.foldl_cons, walkStep, hfind] at ih ⊢
    exact ih

def Valued (names : List Bytes) (js : Bytes) (ts : List Token) (name : Bytes) (i : ℕ) : Prop :=
  Taken names js ts name i ∧ i + 1 < ts.length

def LastValue (names : List Bytes) (js : Bytes) (ts : List Token) (name raw : Bytes) : Prop :=
  ∃ i v, Valued names js ts name i ∧ ts[i + 1]? = some v ∧ tokenText js v = raw ∧ ∀ j, Valued names js ts name j → j ≤ i

structure Walked (names : List Bytes) (js : Bytes) (ts : List Token) (s : Option Bytes × Fields) : Prop where
  even : s.1 = none ↔ Even (run names js ts)
  pending : ∀ name, s.1 = some name ↔ name ∈ names ∧ ∃ i, i + 1 = ts.length ∧ Taken names js ts name i
  unset : ∀ name ∈ names, s.2 name = none ↔ ∀ i, ¬ Valued names js ts name i
  fields : ∀ name ∈ names, ∀ raw, s.2 name = some raw ↔ LastValue names js ts name raw

theorem walked_nil : Walked names js [] (none, Fields.unset) where
  even := iff_of_true rfl (Even.zero)
  pending := fun name => iff_of_false nofun (fun h => by
    obtain ⟨_, i, hi, _⟩ := h
    cases hi)
  unset := fun name _ => iff_of_true rfl (fun i h => nomatch h.2)
  fields := fun name _ raw => iff_of_false nofun (fun h => by
    obtain ⟨i, v, hi, _⟩ := h
    exact nomatch hi.2)

section Append
variable {s : Option Bytes × Fields} {t : Token}

/-- A further token gives a value to a name only if this name is pending. -/
theorem Walked.valued_append (h : Walked names js ts s) (hname : name ∈ names) (hnot : s.1 ≠ some name) (i : ℕ) :
    Valued names js (ts ++ [t]) name i ↔ Valued names js ts name i := by
  unfold Valued
  rw [List.length_append, List.length_singleton]
  constructor
  · rintro ⟨htaken, hlt⟩
    have hold := (taken_append (by omega)).mp htaken
    have hlast : i + 1 ≠ ts.length := fun heq => hnot ((h.pending name).mpr ⟨hname, i, heq, hold⟩)
    exact ⟨hold, by omega⟩
  · rintro ⟨htaken, hlt⟩
    exact ⟨(taken_append (by omega)).mpr htaken, by omega⟩

theorem Walked.unset_append (h : Walked names js ts s) (hname : name ∈ names) (hnot : s.1 ≠ some name) :
    s.2 name = none ↔ ∀ i, ¬ Valued names js (ts ++ [t]) name i := by
  rw [h.unset name hname]
  exact forall_congr' fun i => not_congr (h.valued_append hname hnot i).symm

theorem Walked.fields_append (h : Walked names js ts s) (hname : name ∈ names) (hnot : s.1 ≠ some name) (raw : Bytes) :
    s.2 name = some raw ↔ LastValue names js (ts ++ [t]) name raw := by
  rw [h.fields name hname raw]
  unfold LastValue
  simp only [h.valued_append hname hnot]
  constructor
  · rintro ⟨i, v, hi, hv, hraw, hmax⟩
    exact ⟨i, v, hi, by rw [List.getElem?_append_left hi.2]; exact hv, hraw, hmax⟩
  · rintro ⟨i, v, hi, hv, hraw, hmax⟩
    rw [List.getElem?_append_left hi.2] at hv
    exact ⟨i, v, hi, hv, hraw, hmax⟩

/-- Behind a token that is not pending the next one becomes pending, or nothing does. -/
theorem Walked.append_free {f : Fields} (h : Walked names js ts (none, f)) (t : Token) :
    Walked names js (ts ++ [t]) (names.find? (jsoneq js t), f) := by
  have heven : Even (run names js ts) := h.even.mp rfl
  refine ⟨?_, ?_, fun name hname => h.unset_append hname nofun, fun name hname => h.fields_append hname nofun⟩
  · rw [run_append, ← find_isSome]
    cases names.find? (jsoneq js t) with
    | none => exact iff_of_true rfl Even.zero
    | some name => exact iff_of_false nofun (Nat.not_even_iff_odd.mpr heven.add_one)
  · intro name
    rw [find_eq_some]
    refine and_congr_right fun _ => ?_
    rw [List.length_append, List.length_singleton]
    constructor
    · intro heq
      exact ⟨ts.length, rfl, taken_last.mpr ⟨heq, heven⟩⟩
    · rintro ⟨i, hi, htaken⟩
      obtain rfl : i = ts.length := Nat.succ.inj hi
      exact (taken_last.mp htaken).1

/-- The token behind a pending one is its value. -/
theorem Walked.lastValue_append {n : Bytes} {f : Fields} (h : Walked names js ts (some n, f)) (t : Token) (raw : Bytes) :
    LastValue names js (ts ++ [t]) n raw ↔ tokenText js t = raw := by
  obtain ⟨_, i, hi, htaken⟩ := (h.pending n).mp rfl
  have hlength : (ts ++ [t]).length = ts.length + 1 := by rw [List.length_append, List.length_singleton]
  have hvalued : Valued names js (ts ++ [t]) n i := ⟨(taken_append (by omega)).mpr htaken, by omega⟩
  have hnext : (ts ++ [t])[i + 1]? = some t := by
    rw [hi, List.getElem?_append_right (le_refl _), Nat.sub_self]
    rfl
  -- no token can be taken behind the pending one
  have hmax : ∀ j, Valued names js (ts ++ [t]) n j → j ≤ i := by
    rintro j ⟨_, hlt⟩
    omega
  constructor
  · rintro ⟨j, v, hj, hv, hraw, hlast⟩
    obtain rfl : i = j := Nat.le_antisymm (hlast i hvalued) (hmax j hj)
    rw [hnext, Option.some.injEq] at hv
    rw [hv, hraw]
  · intro hraw
    exact ⟨i, t, hvalued, hnext, hraw, hmax⟩

theorem Walked.append_pending {n : Bytes} {f : Fields} (h : Walked names js ts (some n, f)) (t : Token) :
    Walked names js (ts ++ [t]) (none, f.set n (tokenText js t)) := by
  have hodd : ¬ Even (run names js ts) := fun heven => nomatch h.even.mpr heven
  have hother : ∀ name, name ≠ n → (some n, f).1 ≠ some name := fun name hne heq => hne (Option.some.inj heq).symm
  refine ⟨?_, ?_, ?_, ?_⟩
  · refine iff_of_true rfl ?_
    rw [run_append]
    split
    · exact (Nat.not_even_iff_odd.mp hodd).add_one
    · exact Even.zero
  · intro name
    refine iff_of_false nofun ?_
    rintro ⟨_, j, hj, hlast⟩
    rw [List.length_append, List.length_singleton] at hj
    obtain rfl : j = ts.length := Nat.succ.inj hj
    exact hodd (taken_last.mp hlast).2
  · intro name hname
    dsimp only
    by_cases heq : name = n
    · subst heq
      obtain ⟨i, _, hvalued, _⟩ := (h.lastValue_append t _).mpr rfl
      rw [Fields.set_self]
      exact iff_of_false nofun (fun hnone => hnone i hvalued)
    · rw [Fields.set_of_ne f heq]
      exact h.unset_append hname (hother name heq)
  · intro name hname raw
    dsimp only
    by_cases heq : name = n
    · subst heq
      rw [Fields.set_self, Option.some.injEq]
      exact (h.lastValue_append t raw).symm
    · rw [Fields.set_of_ne f heq]
      exact h.fields_append hname (hother name heq) raw

/-- One token keeps the place of the walk. -/
theorem Walked.append (h : Walked names js ts s) (t : Token) : Walked names js (ts ++ [t]) (walkStep names js s t) := by
  obtain ⟨pending, f⟩ := s
  cases pending with
  | none => exact h.append_free t
  | some n => exact h.append_pending t

end Append

theorem walked (ts : List Token) : Walked names js ts (ts.foldl (walkStep names js) (none, Fields.unset)) := by
  induction ts using List.reverseRecOn with
  | nil => exact walked_nil
  | append_singleton ts t ih =>
    rw [List.foldl_append]
    exact ih.append t

theorem walked_of_walk {f : Fields} (h : walk names js ts Fields.unset = some f) : Walked names js ts (none, f) := by
  have hwalked := @walked names js ts
  rw [walk_eq] at h
  split at h
  · next hnone =>
    obtain ⟨s, hs⟩ : ∃ s, ts.foldl (walkStep names js) (none, Fields.unset) = s := ⟨_, rfl⟩
    rw [hs] at hwalked hnone h
    obtain ⟨p, g⟩ := s
    obtain rfl : p = none := hnone
    obtain rfl : g = f := Option.some.inj h
    exact hwalked
  · cases h

/-- The walk does not read behind the last token if it does not take it. -/
theorem walk_ends (h : ∀ name ∈ names, ∀ i, i + 1 = ts.length → ¬ Taken names js ts name i) :
    ∃ f, walk names js ts Fields.unset = some f := by
  have hwalked := @walked names js ts
  rw [walk_eq]
  split
  · exact ⟨_, rfl⟩
  · next hpending =>
    obtain ⟨name, hname⟩ := Option.ne_none_iff_exists'.mp hpending
    obtain ⟨hmem, i, hi, htaken⟩ := (hwalked.pending name).mp hname
    exact absurd htaken (h name hmem i hi)

/-- A walk that ends has not taken the last token. -/
theorem walk_last {f : Fields} (h : walk names js ts Fields.unset = some f) :
    ∀ name ∈ names, ∀ i, i + 1 = ts.length → ¬ Taken names js ts name i := by
  intro name hname i hi htaken
  exact nomatch ((walked_of_walk h).pending name).mpr ⟨hname, i, hi, htaken⟩

/-- So every taken token has one behind it. -/
theorem Taken.valued {i : ℕ} (h : Taken names js ts name i) (hlast : ∀ i, i + 1 = ts.length → ¬ Taken names js ts name i) :
    Valued names js ts name i := by
  have hlt := h.lt
  have hne : i + 1 ≠ ts.length := fun heq => hlast i heq h
  exact ⟨h, by omega⟩

end Walk

theorem extract_object {names : List Bytes} {js : Bytes} {root : Token} {ts : List Token}
    (hparse : jsmnParse js 16 = .ok (root :: ts)) (hroot : root.type = .object) :
    extract names js = .fields (walk names js ts Fields.unset) := by
  rw [extract, hparse]
  exact if_neg (not_not.mpr hroot)

/-! ## Strings of a text -/

section Strings
variable {names : List Bytes} {js rest : Bytes} {pos : ℕ}

theorem tokenText_string {s : List Item} (h : js.drop pos = quoted s ++ rest) : tokenText js (stringToken pos s) = stringText s := by
  have hbehind : js.drop (pos + 1) = stringText s ++ 34 :: rest := by
    rw [← List.drop_drop, h, quoted, List.cons_append, List.append_assoc]
    rfl
  have hstart : (stringToken pos s).start.toNat = pos + 1 := by
    change ((pos : ℤ) + 1).toNat = pos + 1
    omega
  have hlength : ((stringToken pos s).stop - (stringToken pos s).start).toNat = (stringText s).length := by
    change ((pos : ℤ) + 1 + (stringText s).length - (pos + 1)).toNat = (stringText s).length
    omega
  rw [tokenText, hstart, hlength, hbehind, List.take_left]

theorem jsoneq_string {s : List Item} (h : js.drop pos = quoted s ++ rest) (name : Bytes) :
    jsoneq js (stringToken pos s) name = true ↔ stringText s = name := by
  rw [jsoneq, tokenText_string h, Bool.and_eq_true, decide_eq_true_iff]
  refine and_iff_right_of_imp (fun htext => ?_)
  rw [← htext]
  refine Bool.and_eq_true_iff.mpr ⟨rfl, decide_eq_true ?_⟩
  rw [stringToken]
  dsimp only
  omega

theorem find_string {s : List Item} (h : js.drop pos = quoted s ++ rest) :
    names.find? (jsoneq js (stringToken pos s)) = if stringText s ∈ names then some (stringText s) else none := by
  split
  · next hmem => exact find_eq_some.mpr ⟨hmem, (jsoneq_string h _).mpr rfl⟩
  · next hmem =>
    refine List.find?_eq_none.mpr (fun name hname heq => hmem ?_)
    rw [(jsoneq_string h name).mp heq]
    exact hname

theorem drop_behind {text : Bytes} {c : UInt8} (h : js.drop pos = text ++ c :: rest) :
    js.drop (pos + text.length + 1) = rest := by
  rw [Nat.add_assoc, ← List.drop_drop, h, ← List.drop_drop, List.drop_left]
  rfl

theorem walk_passed {t : Token} (ts : List Token) (f : Fields) (h : names.find? (jsoneq js t) = none) :
    walk names js (t :: ts) f = walk names js ts f := by
  cases ts with
  | nil => simp only [walk, h]
  | cons v ts => rw [walk, h]

theorem drop_passed {passed : Bytes} (h : js.drop pos = passed ++ rest) : js.drop (pos + passed.length) = rest := by
  rw [← List.drop_drop, h, List.drop_left]

theorem drop_bracket {o c : UInt8} {inner : Bytes} (h : js.drop pos = o :: (inner ++ [c]) ++ rest) :
    js.drop (pos + 1) = inner ++ c :: rest := by
  rw [← List.drop_drop, h, List.cons_append, List.append_assoc]
  rfl

theorem tokenText_eq {text : Bytes} (h : js.drop pos = text ++ rest) {type : TokenType} {stop : ℤ}
    (hstop : stop = pos + text.length) : tokenText js ⟨type, pos, stop⟩ = text := by
  have hlength : (stop - pos).toNat = text.length := by omega
  rw [tokenText, hlength, Int.toNat_natCast, h, List.take_left]

theorem jsoneq_other {t : Token} (h : t.type ≠ .string) (name : Bytes) : jsoneq js t name ≠ true := by
  rw [jsoneq, Ne, Bool.and_eq_true, Bool.and_eq_true, decide_eq_true_eq]
  exact fun heq => h heq.1.1

/-- The tokens spelled like a name are those of the strings. -/
theorem exists_spelled {k : Kind} (v : Node k) (hjs : js.drop pos = v.text ++ rest) (name : Bytes) :
    (∃ t ∈ tokens v pos, jsoneq js t name = true) ↔ ∃ s ∈ v.strings, stringText s = name := by
  induction v generalizing pos rest with
  | string s =>
    simp only [tokens, Node.strings, List.mem_singleton, exists_eq_left]
    exact jsoneq_string hjs name
  | primitive p | emptyArray w | emptyObject w =>
    simp only [tokens, Node.strings, List.mem_singleton, exists_eq_left, List.not_mem_nil, false_and, exists_false, iff_false]
    exact jsoneq_other (by simp) name
  | array es ih | object es ih =>
    simp only [tokens, Node.strings, List.exists_mem_cons_iff]
    refine (or_iff_right ?_).trans (ih (drop_bracket hjs))
    exact jsoneq_other (by simp) name
  | element w v w' ih =>
    rw [Node.text, List.append_assoc, List.append_assoc] at hjs
    exact ih (drop_passed hjs)
  | elements w v w' es ih ih' =>
    simp only [Node.text, List.append_assoc, List.cons_append] at hjs
    have hvalue := drop_passed hjs
    have hlater := drop_behind (drop_passed hvalue)
    simp only [tokens, Node.strings, List.mem_append, or_and_right, exists_or]
    exact or_congr (ih hvalue) (ih' hlater)
  | member w key w' u v u' ih =>
    simp only [Node.text, List.append_assoc, List.cons_append] at hjs
    have hkey := drop_passed hjs
    have hvalue := drop_passed (drop_behind (drop_passed hkey))
    simp only [tokens, Node.strings, List.exists_mem_cons_iff]
    exact or_congr (jsoneq_string hkey name) (ih hvalue)
  | members w key w' u v u' ms ih ih' =>
    simp only [Node.text, List.append_assoc, List.cons_append] at hjs
    have hkey := drop_passed hjs
    have hvalue := drop_passed (drop_behind (drop_passed hkey))
    have hlater := drop_behind (drop_passed hvalue)
    simp only [tokens, Node.strings, List.exists_mem_cons_iff, List.mem_append, or_and_right, exists_or]
    exact or_congr (jsoneq_string hkey name) (or_congr (ih hvalue) (ih' hlater))

/-- What the walk finds at a value: a token with its text, which is spelled like a name only
for a string, and behind it those of the strings inside. -/
theorem tokens_value (v : Node .value) (hjs : js.drop pos = v.text ++ rest) :
    ∃ t ts, tokens v pos = t :: ts ∧ tokenText js t = v.rawText ∧
      (∀ name, jsoneq js t name = true → ∃ s, v = .string s ∧ stringText s = name) ∧
      ∀ t' ∈ ts, ∀ name, jsoneq js t' name = true → ∃ s ∈ v.inner, stringText s = name := by
  have hother : ∀ {t : Token}, t.type ≠ .string → ∀ name, jsoneq js t name = true → ∃ s, v = .string s ∧ stringText s = name :=
    fun htype name heq => absurd heq (jsoneq_other htype name)
  cases v with
  | string s => exact ⟨_, [], rfl, tokenText_string hjs, fun name heq => ⟨s, rfl, (jsoneq_string hjs name).mp heq⟩,
      List.forall_mem_nil _⟩
  | primitive p => exact ⟨_, [], rfl, tokenText_eq hjs rfl, hother (by simp), List.forall_mem_nil _⟩
  | emptyArray w | emptyObject w =>
    refine ⟨_, [], rfl, tokenText_eq hjs ?_, hother (by simp), List.forall_mem_nil _⟩
    simp only [Node.text, List.length_cons, List.length_append, List.length_nil]
    omega
  | array es | object es =>
    refine ⟨_, _, rfl, tokenText_eq hjs ?_, hother (by simp),
      fun t' ht' name heq => (exists_spelled es (drop_bracket hjs) name).mp ⟨t', ht', heq⟩⟩
    simp only [Node.text, List.length_cons, List.length_append, List.length_nil]
    omega

/-- What the walk makes of a member. -/
def setEntry (names : List Bytes) (f : Fields) (e : List Item × Node .value) : Fields :=
  if stringText e.1 ∈ names then f.set (stringText e.1) e.2.rawText else f

/-- The strings of a member that may be taken for names: those of its value, of which one right
behind such a key is passed. -/
def loose (names : List Bytes) (e : List Item × Node .value) : List (List Item) :=
  match e.2 with
  | .string s => if stringText e.1 ∈ names then [] else [s]
  | v => v.strings

def KeyOnly (names : List Bytes) (e : List Item × Node .value) : Prop := ∀ s ∈ loose names e, stringText s ∉ names

instance (names : List Bytes) (e : List Item × Node .value) : Decidable (KeyOnly names e) :=
  inferInstanceAs (Decidable (∀ _ ∈ _, _))

theorem KeyOnly.inner {key : List Item} {v : Node .value} (h : KeyOnly names (key, v)) :
    ∀ s ∈ v.inner, stringText s ∉ names := by
  cases v with
  | string s => exact nofun
  | primitive p | emptyArray w | emptyObject w | array es | object ms => exact h

theorem KeyOnly.string {key s : List Item} (h : KeyOnly names (key, .string s)) (hkey : stringText key ∉ names) :
    stringText s ∉ names := by
  refine h s ?_
  simp only [loose, if_neg hkey]
  exact List.mem_singleton_self s

theorem walk_pass {passed : List Token} (h : ∀ t ∈ passed, ∀ name ∈ names, jsoneq js t name ≠ true) (ts : List Token) (f : Fields) :
    walk names js (passed ++ ts) f = walk names js ts f := by
  induction passed with
  | nil => rfl
  | cons t passed ih =>
    obtain ⟨ht, hpassed⟩ := List.forall_mem_cons.mp h
    rw [List.cons_append, walk_passed _ f (List.find?_eq_none.mpr ht), ih hpassed]

/-- The walk takes the key of a member, if it is a name, and nothing of the value. -/
theorem walk_entry {key : List Item} {v : Node .value} {pos' : ℕ} {rest' : Bytes} (hkey : js.drop pos = quoted key ++ rest)
    (hvalue : js.drop pos' = v.text ++ rest') (h : KeyOnly names (key, v)) (ts : List Token) (f : Fields) :
    walk names js (stringToken pos key :: (tokens v pos' ++ ts)) f = walk names js ts (setEntry names f (key, v)) := by
  obtain ⟨t, inner, htokens, htext, hstring, hinner⟩ := tokens_value v hvalue
  have hpassed : ∀ t' ∈ inner, ∀ name ∈ names, jsoneq js t' name ≠ true := by
    intro t' ht' name hname heq
    obtain ⟨s, hs, rfl⟩ := hinner t' ht' name heq
    exact h.inner s hs hname
  have hfind := @find_string names _ _ _ _ hkey
  rw [htokens, List.cons_append]
  by_cases hmem : stringText key ∈ names
  · rw [if_pos hmem] at hfind
    rw [walk, hfind, setEntry, if_pos hmem, htext]
    exact walk_pass hpassed ts _
  · rw [if_neg hmem] at hfind
    have hnone : names.find? (jsoneq js t) = none := by
      refine List.find?_eq_none.mpr (fun name hname heq => ?_)
      obtain ⟨s, rfl, rfl⟩ := hstring name heq
      exact h.string hmem hname
    rw [walk_passed _ f hfind, walk_passed _ f hnone, walk_pass hpassed, setEntry, if_neg hmem]

theorem walk_members : ∀ (ms : Node .members) {pos : ℕ} {rest : Bytes} (f : Fields), js.drop pos = ms.text ++ rest →
    (∀ e ∈ ms.entries, KeyOnly names e) → walk names js (tokens ms pos) f = some (ms.entries.foldl (setEntry names) f)
  | .member w key w' u v u', pos, rest, f, hjs, h => by
    simp only [Node.text, List.append_assoc, List.cons_append] at hjs
    have hkey := drop_passed hjs
    have hvalue := drop_passed (drop_behind (drop_passed hkey))
    have hwalk := walk_entry hkey hvalue (h _ (List.mem_singleton_self _)) [] f
    rw [List.append_nil] at hwalk
    exact hwalk
  | .members w key w' u v u' ms, pos, rest, f, hjs, h => by
    simp only [Node.text, List.append_assoc, List.cons_append] at hjs
    have hkey := drop_passed hjs
    have hvalue := drop_passed (drop_behind (drop_passed hkey))
    have hlater := drop_behind (drop_passed hvalue)
    obtain ⟨hfirst, hbehind⟩ := List.forall_mem_cons.mp h
    exact (walk_entry hkey hvalue hfirst _ f).trans (walk_members ms _ hlater hbehind)

end Strings

/-! ## Objects of strings -/

section Flat
variable {names : List Bytes} {js rest : Bytes} {pos : ℕ}

/-- What the walk makes of a member whose value is a string. -/
def setMember (names : List Bytes) (f : Fields) (e : List Item × List Item) : Fields :=
  if stringText e.1 ∈ names then f.set (stringText e.1) (stringText e.2) else f

/-- A member whose key or whose value may be taken for a name, but not the value alone. -/
def KeyFirst (names : List Bytes) (e : List Item × List Item) : Prop := stringText e.1 ∈ names ∨ stringText e.2 ∉ names

theorem entries_flat (es : List (List Item × List Item)) (key value : List Item) :
    (Node.flat key value es).entries = ((key, value) :: es).map fun e => (e.1, .string e.2) := by
  induction es generalizing key value with
  | nil => rfl
  | cons e es ih => exact congrArg _ (ih e.1 e.2)

theorem KeyFirst.keyOnly {e : List Item × List Item} (h : KeyFirst names e) : KeyOnly names (e.1, .string e.2) := by
  intro s hs hname
  by_cases hkey : stringText e.1 ∈ names
  · simp only [loose, if_pos hkey] at hs
    cases hs
  · simp only [loose, if_neg hkey] at hs
    obtain rfl := List.mem_singleton.mp hs
    exact h.elim hkey (fun hvalue => hvalue hname)

theorem walk_flat (es : List (List Item × List Item)) {key value : List Item} (f : Fields)
    (hjs : js.drop pos = (Node.flat key value es).text ++ rest) (hes : ∀ e ∈ (key, value) :: es, KeyFirst names e) :
    walk names js (tokens (Node.flat key value es) pos) f = some (((key, value) :: es).foldl (setMember names) f) := by
  have hkeys : ∀ e ∈ (Node.flat key value es).entries, KeyOnly names e := by
    rw [entries_flat, List.forall_mem_map]
    exact fun e he => (hes e he).keyOnly
  rw [walk_members _ f hjs hkeys, entries_flat, List.foldl_map]
  rfl

end Flat

/-! ## The last member of a name -/

section Last
variable {names : List Bytes} {name : Bytes}

theorem lastEntry_append (r : Reading) (es : List (List Item × Node .value)) (e : List Item × Node .value) :
    lastEntry r (es ++ [e]) name = if r.names e.1 name then some e.2.rawText else lastEntry r es name := by
  unfold lastEntry
  rw [List.filter_append, List.filter_singleton]
  cases r.names e.1 name <;> simp

theorem foldl_setEntry (hname : name ∈ names) (es : List (List Item × Node .value)) :
    es.foldl (setEntry names) Fields.unset name = lastEntry .spelled es name := by
  induction es using List.reverseRecOn with
  | nil => rfl
  | append_singleton es e ih =>
    rw [List.foldl_append, List.foldl_cons, List.foldl_nil, lastEntry_append, setEntry, ← ih]
    by_cases heq : stringText e.1 = name
    · subst heq
      rw [if_pos hname, Fields.set_self, Reading.names, if_pos (decide_eq_true rfl)]
    · have hother : ¬ Reading.spelled.names e.1 name = true := fun h => heq (of_decide_eq_true h)
      rw [if_neg hother]
      split
      · exact Fields.set_of_ne _ (Ne.symm heq) _
      · rfl

/-- A name without a backslash that is spelled out is also read. -/
theorem units_of_spelled {key : List Item} (hname : 92 ∉ name) (h : stringText key = name) :
    key.map Item.unit = name.map UInt8.toNat := by
  subst h
  induction key with
  | nil => rfl
  | cons i key ih =>
    have hcons : stringText (i :: key) = i.text ++ stringText key := rfl
    rw [hcons, List.mem_append, not_or] at hname
    rw [hcons, List.map_cons, List.map_append, ih hname.2]
    cases i with
    | plain b hb => rfl
    | escape b hb => exact absurd (by simp [Item.text]) hname.1
    | unicode a b c d hex => exact absurd (by simp [Item.text]) hname.1

end Last

/-! ## Strings taken for names -/

section Exposed
variable {names : List Bytes} {js rest : Bytes} {pos : ℕ} {ts : List Token}

/-- A token spelled like a name right behind one that is not. -/
def Exposed (names : List Bytes) (js : Bytes) (ts : List Token) (i : ℕ) : Prop :=
  ∃ t t', ts[i]? = some t ∧ spells names js t = false ∧ ts[i + 1]? = some t' ∧ spells names js t' = true

theorem Exposed.taken {i : ℕ} (h : Exposed names js ts i) : ∃ name ∈ names, Taken names js ts name (i + 1) := by
  obtain ⟨t, t', ht, hfree, ht', hspells⟩ := h
  obtain ⟨name, hname, heq⟩ := List.any_eq_true.mp hspells
  refine ⟨name, hname, ⟨t', ht', heq⟩, ?_⟩
  rw [List.take_add_one, ht, Option.toList_some, run_append, hfree, if_neg Bool.false_ne_true]
  exact Even.zero

theorem Exposed.append_left {i : ℕ} (h : Exposed names js ts i) (us : List Token) : Exposed names js (ts ++ us) i := by
  obtain ⟨t, t', ht, hfree, ht', hspells⟩ := h
  have hlt := (List.getElem?_eq_some_iff.mp ht').1
  refine ⟨t, t', ?_, hfree, ?_, hspells⟩
  · rw [List.getElem?_append_left (by omega), ht]
  · rw [List.getElem?_append_left hlt, ht']

theorem Exposed.append_right {i : ℕ} (h : Exposed names js ts i) (us : List Token) : Exposed names js (us ++ ts) (us.length + i) := by
  obtain ⟨t, t', ht, hfree, ht', hspells⟩ := h
  refine ⟨t, t', ?_, hfree, ?_, hspells⟩
  · rw [List.getElem?_append_right (by omega), Nat.add_sub_cancel_left, ht]
  · rw [List.getElem?_append_right (by omega), Nat.add_assoc, Nat.add_sub_cancel_left, ht']

/-- Behind a token that is not spelled like a name, the first one that is stands exposed. -/
theorem exists_exposed {t : Token} (ht : spells names js t = false) (hspells : ∃ t' ∈ ts, spells names js t' = true) :
    ∃ i, i < ts.length ∧ Exposed names js (t :: ts) i := by
  induction ts generalizing t with
  | nil =>
    obtain ⟨t', ht', -⟩ := hspells
    cases ht'
  | cons u ts ih =>
    cases hu : spells names js u with
    | true => exact ⟨0, Nat.succ_pos _, t, u, rfl, ht, rfl, hu⟩
    | false =>
      obtain ⟨i, hlt, hexposed⟩ := ih hu (by simpa [hu] using hspells)
      have hbehind := hexposed.append_right [t]
      rw [List.length_singleton, Nat.add_comm 1 i] at hbehind
      exact ⟨i + 1, Nat.succ_lt_succ hlt, hbehind⟩

theorem spells_string {s : List Item} (h : js.drop pos = quoted s ++ rest) :
    spells names js (stringToken pos s) = true ↔ stringText s ∈ names := by
  rw [← find_isSome, find_string h]
  split <;> simp [*]

theorem not_spells {t : Token} (h : t.type ≠ .string) : spells names js t = false := by
  rw [spells, List.any_eq_false]
  exact fun name _ => jsoneq_other h name

theorem exists_spells {k : Kind} {v : Node k} (hjs : js.drop pos = v.text ++ rest) {s : List Item} (hs : s ∈ v.strings)
    (hname : stringText s ∈ names) : ∃ t ∈ tokens v pos, spells names js t = true := by
  obtain ⟨t, ht, heq⟩ := (exists_spelled v hjs (stringText s)).mpr ⟨s, hs, rfl⟩
  exact ⟨t, ht, List.any_eq_true.mpr ⟨_, hname, heq⟩⟩

/-- Behind a bracket it does too, whatever the token before. -/
theorem exists_exposed_behind (u : Token) {t : Token} (ht : t.type ≠ .string) (hspells : ∃ t' ∈ ts, spells names js t' = true) :
    ∃ i, i < (t :: ts).length ∧ Exposed names js (u :: t :: ts) i := by
  obtain ⟨i, hlt, hexposed⟩ := exists_exposed (not_spells ht) hspells
  have hbehind := hexposed.append_right [u]
  rw [List.length_singleton, Nat.add_comm 1 i] at hbehind
  exact ⟨i + 1, Nat.succ_lt_succ hlt, hbehind⟩

/-- A member with a loose string that is spelled like a name has an exposed token. -/
theorem entry_exposed {key : List Item} {v : Node .value} {pos' : ℕ} {rest' : Bytes} (hkey : js.drop pos = quoted key ++ rest)
    (hvalue : js.drop pos' = v.text ++ rest') (h : ¬ KeyOnly names (key, v)) :
    ∃ i, i < (tokens v pos').length ∧ Exposed names js (stringToken pos key :: tokens v pos') i := by
  unfold KeyOnly at h
  push Not at h
  obtain ⟨s, hs, hname⟩ := h
  cases v with
  | string value =>
    by_cases hmem : stringText key ∈ names
    · simp only [loose, if_pos hmem] at hs
      cases hs
    · simp only [loose, if_neg hmem] at hs
      obtain rfl := List.mem_singleton.mp hs
      have hfree : spells names js (stringToken pos key) = false :=
        Bool.eq_false_iff.mpr (fun heq => hmem ((spells_string hkey).mp heq))
      exact exists_exposed hfree ⟨_, List.mem_singleton_self _, (spells_string hvalue).mpr hname⟩
  | primitive p | emptyArray w | emptyObject w => cases hs
  | array es | object es =>
    have hinside := exists_spells (drop_bracket hvalue) (show s ∈ es.strings from hs) hname
    refine exists_exposed_behind _ ?_ hinside
    exact nofun

theorem length_tokens {k : Kind} (v : Node k) (pos : ℕ) : (tokens v pos).length = (tokens v 0).length := by
  have hany : ∀ pos pos', (tokens v pos).length = (tokens v pos').length := by
    induction v with
    | string s | primitive p | emptyArray w | emptyObject w => exact fun _ _ => rfl
    | array es ih | object es ih => exact fun pos pos' => congrArg Nat.succ (ih _ _)
    | element w v w' ih => exact fun pos pos' => ih _ _
    | elements w v w' es ih ih' =>
      intro pos pos'
      rw [tokens, tokens, List.length_append, List.length_append, ih _ (pos' + w.text.length), ih' _ _]
    | member w key w' u v u' ih => exact fun pos pos' => congrArg Nat.succ (ih _ _)
    | members w key w' u v u' ms ih ih' =>
      intro pos pos'
      rw [tokens, tokens, List.length_cons, List.length_cons, List.length_append, List.length_append, ih _ _, ih' _ _]
  exact hany pos 0

/-- The places of the keys among the tokens of the members. -/
def keyPlaces : Node .members → List ℕ
  | .member .. => [0]
  | .members _ _ _ _ v _ ms => 0 :: (keyPlaces ms).map (1 + (tokens v 0).length + ·)

theorem members_exposed : ∀ (ms : Node .members) {pos : ℕ} {rest : Bytes}, js.drop pos = ms.text ++ rest →
    (¬ ∀ e ∈ ms.entries, KeyOnly names e) → ∃ i, i + 1 ∉ keyPlaces ms ∧ Exposed names js (tokens ms pos) i
  | .member w key w' u v u', pos, rest, hjs, h => by
    simp only [Node.text, List.append_assoc, List.cons_append] at hjs
    have hkey := drop_passed hjs
    have hvalue := drop_passed (drop_behind (drop_passed hkey))
    obtain ⟨i, -, hexposed⟩ := entry_exposed hkey hvalue (fun hentry => h (List.forall_mem_singleton.mpr hentry))
    exact ⟨i, by simp [keyPlaces], hexposed⟩
  | .members w key w' u v u' ms, pos, rest, hjs, h => by
    simp only [Node.text, List.append_assoc, List.cons_append] at hjs
    have hkey := drop_passed hjs
    have hvalue := drop_passed (drop_behind (drop_passed hkey))
    have hlater := drop_behind (drop_passed hvalue)
    by_cases hfirst : KeyOnly names (key, v)
    · obtain ⟨i, hplace, hexposed⟩ := members_exposed ms hlater (fun hbehind => h (List.forall_mem_cons.mpr ⟨hfirst, hbehind⟩))
      have hbehind := hexposed.append_right (stringToken (pos + w.text.length) key ::
        tokens v (pos + w.text.length + (quoted key).length + w'.text.length + 1 + u.text.length))
      refine ⟨_, ?_, hbehind⟩
      rw [List.length_cons, length_tokens v]
      rw [keyPlaces, List.mem_cons, List.mem_map]
      rintro (hzero | ⟨n, hn, heq⟩)
      · omega
      · obtain rfl : n = i + 1 := by omega
        exact hplace hn
    · obtain ⟨i, hlt, hexposed⟩ := entry_exposed hkey hvalue hfirst
      refine ⟨i, ?_, hexposed.append_left _⟩
      rw [length_tokens v] at hlt
      rw [keyPlaces, List.mem_cons, List.mem_map]
      rintro (hzero | ⟨n, hn, heq⟩) <;> omega

end Exposed

/-! ## Documents -/

def objectOf : Blank ⊕ Node .members → Node .value
  | .inl w => .emptyObject w
  | .inr ms => .object ms

structure Document where
  before : Blank
  inner : Blank ⊕ Node .members
  after : Blank
  fits : (tokens (objectOf inner) before.text.length).length ≤ 16

namespace Document
variable (d : Document)

def text : Bytes := d.before.text ++ ((objectOf d.inner).text ++ d.after.text)

def entries : List (List Item × Node .value) :=
  match d.inner with
  | .inl _ => []
  | .inr ms => ms.entries

def inside : List Token := (tokens (objectOf d.inner) d.before.text.length).tail

theorem extract_text (names : List Bytes) : extract names d.text = .fields (walk names d.text d.inside Fields.unset) := by
  have hparse := jsmnParse_text d.before d.after (objectOf d.inner) d.fits
  obtain ⟨root, hroot, htokens⟩ :
      ∃ root : Token, root.type = .object ∧ tokens (objectOf d.inner) d.before.text.length = root :: d.inside := by
    unfold inside
    cases d.inner with
    | inl w => exact ⟨_, rfl, rfl⟩
    | inr ms => exact ⟨_, rfl, rfl⟩
  rw [htokens] at hparse
  exact extract_object hparse hroot

/-- Every field is the value of the last member of its name, and unset without one. -/
def PicksMembers (r : Reading) (names : List Bytes) : Prop :=
  ∃ f, extract names d.text = .fields (some f) ∧ ∀ name ∈ names, f name = lastEntry r d.entries name

def keyPlaces : List ℕ :=
  match d.inner with
  | .inl _ => []
  | .inr ms => JsonFields.keyPlaces ms

/-- The keys that read as names are spelled like them, and no other string is, except a
value right behind such a key. -/
structure Unmistaken (r : Reading) (names : List Bytes) : Prop where
  spelled : ∀ e ∈ d.entries, ∀ name ∈ names, r.names e.1 name = true → stringText e.1 = name
  keys : ∀ e ∈ d.entries, KeyOnly names e

/-- A key that reads as a name is spelled in another way. -/
def Overlooks (r : Reading) (names : List Bytes) : Prop :=
  ∃ e ∈ d.entries, ∃ name ∈ names, r.names e.1 name = true ∧ stringText e.1 ≠ name

/-- A string that is no key of the object is taken for a name. -/
def TakesOther (names : List Bytes) : Prop := ∃ name ∈ names, ∃ i, Taken names d.text d.inside name i ∧ i ∉ d.keyPlaces

theorem inside_eq : d.inside = match d.inner with
    | .inl _ => []
    | .inr ms => tokens ms (d.before.text.length + 1) := by
  unfold inside
  cases d.inner <;> rfl

theorem drop_text {ms : Node .members} (h : d.inner = .inr ms) :
    d.text.drop (d.before.text.length + 1) = ms.text ++ 125 :: d.after.text := by
  have htext : d.text.drop d.before.text.length = 123 :: (ms.text ++ [125]) ++ d.after.text := by
    rw [text, h, List.drop_left]
    rfl
  exact drop_bracket htext

theorem picks_of_unmistaken {r : Reading} {names : List Bytes} (hnames : ∀ name ∈ names, 92 ∉ name)
    (h : d.Unmistaken r names) : d.PicksMembers r names := by
  have hwalk : walk names d.text d.inside Fields.unset = some (d.entries.foldl (setEntry names) Fields.unset) := by
    have hkeys := h.keys
    rw [inside_eq]
    unfold entries at hkeys ⊢
    cases hinner : d.inner with
    | inl w => rfl
    | inr ms =>
      rw [hinner] at hkeys
      exact walk_members ms _ (d.drop_text hinner) hkeys
  refine ⟨_, (d.extract_text names).trans (congrArg Extraction.fields hwalk), fun name hname => ?_⟩
  rw [foldl_setEntry hname]
  cases r with
  | spelled => rfl
  | decoded =>
    have hsame : ∀ e ∈ d.entries, Reading.spelled.names e.1 name = Reading.decoded.names e.1 name := by
      intro e he
      rw [Bool.eq_iff_iff]
      constructor
      · exact fun hspelled => decide_eq_true (units_of_spelled (hnames name hname) (of_decide_eq_true hspelled))
      · exact fun hdecoded => decide_eq_true (h.spelled e he name hname hdecoded)
    rw [lastEntry, lastEntry, List.filter_congr hsame]

theorem takes_other {names : List Bytes} (h : ¬ ∀ e ∈ d.entries, KeyOnly names e) : d.TakesOther names := by
  unfold TakesOther keyPlaces
  rw [inside_eq]
  unfold entries at h
  cases hinner : d.inner with
  | inl w =>
    rw [hinner] at h
    exact absurd (fun _ he => nomatch he) h
  | inr ms =>
    rw [hinner] at h
    obtain ⟨i, hplace, hexposed⟩ := members_exposed ms (d.drop_text hinner) h
    obtain ⟨name, hname, htaken⟩ := hexposed.taken
    exact ⟨name, hname, i + 1, htaken, hplace⟩

theorem mistaken_cases {r : Reading} {names : List Bytes} (h : ¬ d.Unmistaken r names) :
    d.TakesOther names ∨ d.Overlooks r names := by
  by_cases hkeys : ∀ e ∈ d.entries, KeyOnly names e
  · right
    by_contra hspelled
    unfold Overlooks at hspelled
    push Not at hspelled
    exact h ⟨hspelled, hkeys⟩
  · exact Or.inl (d.takes_other hkeys)

end Document

def requestTypeItems : List Item := plainItems (asciiBytes "requestType") (by decide +kernel)

def sessionIdItems : List Item := plainItems (asciiBytes "sessionId") (by decide +kernel)

/-- Both functions pick the members of a document in which no string is spelled like a name
but keys and the values right behind such keys. In any other such a string is taken for a
name, or the escapes of a key hide that it is one. -/
theorem fields_picked_of_unmistaken (d : Document) (r : Reading) : ∀ names ∈ [linkNames, controlNames],
    (d.Unmistaken r names → d.PicksMembers r names) ∧ (¬ d.Unmistaken r names → d.TakesOther names ∨ d.Overlooks r names) := by
  intro names hnames
  have hplain : ∀ name ∈ names, 92 ∉ name := by
    rcases List.mem_pair.mp hnames with rfl | rfl <;> decide +kernel
  exact ⟨d.picks_of_unmistaken hplain, d.mistaken_cases⟩

/-- An object with members inside a value and a value spelled like a name behind a name. -/
def nested : Document where
  before := .empty
  inner := .inr (.members .empty requestTypeItems .empty .empty (.string sessionIdItems) .empty
    (.members .empty (plainItems (asciiBytes "a") (by decide +kernel)) .empty .empty
      (.array (.element .empty (.object (.flat (plainItems (asciiBytes "b") (by decide +kernel))
        (plainItems (asciiBytes "c") (by decide +kernel)) [])) .empty)) .empty
      (.flat sessionIdItems (plainItems (asciiBytes "s") (by decide +kernel)) [])))
  after := .empty
  fits := by decide

theorem nested_picked : nested.PicksMembers .decoded linkNames ∧ nested.PicksMembers .spelled controlNames :=
  ⟨(fields_picked_of_unmistaken nested .decoded linkNames (by simp)).1 ⟨by decide +kernel, by decide +kernel⟩,
    (fields_picked_of_unmistaken nested .spelled controlNames (by simp)).1 ⟨by decide +kernel, by decide +kernel⟩⟩

def lookAlike : Document where
  before := .empty
  inner := .inr (.flat (plainItems (asciiBytes "a") (by decide +kernel)) sessionIdItems
    [(requestTypeItems, plainItems (asciiBytes "stopSharing") (by decide +kernel))])
  after := .empty
  fits := by decide

theorem not_picksMembers_of_walk {d : Document} {r : Reading} {names : List Bytes} {name : Bytes} (hname : name ∈ names)
    (h : (walk names d.text d.inside Fields.unset).map (fun f => f name) ≠ some (lastEntry r d.entries name)) :
    ¬ d.PicksMembers r names := by
  rintro ⟨f, hf, hpicks⟩
  rw [d.extract_text] at hf
  rw [Extraction.fields.inj hf, Option.map_some, hpicks name hname] at h
  exact h rfl

/-- The value of the first member becomes a name, and the name of the second its value. -/
theorem look_alike_taken :
    ¬ lookAlike.PicksMembers .decoded linkNames ∧ ¬ lookAlike.PicksMembers .decoded controlNames ∧
      ¬ lookAlike.PicksMembers .spelled linkNames ∧ ¬ lookAlike.PicksMembers .spelled controlNames := by
  refine ⟨?_, ?_, ?_, ?_⟩
  · exact @not_picksMembers_of_walk _ _ _ (asciiBytes "sessionId") (by decide) (by decide +kernel)
  · exact @not_picksMembers_of_walk _ _ _ (asciiBytes "sessionId") (by decide) (by decide +kernel)
  · exact @not_picksMembers_of_walk _ _ _ (asciiBytes "sessionId") (by decide) (by decide +kernel)
  · exact @not_picksMembers_of_walk _ _ _ (asciiBytes "sessionId") (by decide) (by decide +kernel)

end JsonFields
end LilitunRemote

import LilitunRemote.Foundation.CString
import LilitunRemote.Foundation.Json
import LilitunRemote.Protocol.Wire

/-! # The JSON tokenizer

`jsmn_parse` of the vendored `jsmn.h`, in its non-strict mode, without parent links and
with an array of tokens. Its parser skips from place to place; here the bytes it skips
are passed one by one. `toksuper` and the sizes of tokens only count children, which
nothing reads.
-/
namespace LilitunRemote
namespace Jsmn

inductive TokenType
  | object | array | string | primitive
  deriving DecidableEq, Repr

/-- A token; an object or array has the end -1 while it is open. -/
structure Token where
  type : TokenType
  start : ℤ
  stop : ℤ
  deriving DecidableEq, Repr

/-- `JSMN_ERROR_NOMEM`, `JSMN_ERROR_INVAL` and `JSMN_ERROR_PART`. -/
inductive Error
  | nomem | inval | part
  deriving DecidableEq, Repr

/-- What ends a primitive: colon, tab, carriage return, newline, space, comma and closing brackets. -/
def endsPrimitive (b : UInt8) : Bool := b ∈ [58, 9, 13, 10, 32, 44, 93, 125]

def primitiveLength : Bytes → Except Error ℕ
  | [] => .ok 0
  | b :: js =>
    if endsPrimitive b then .ok 0
    else if b < 32 ∨ b ≥ 127 then .error .inval
    else (primitiveLength js).map (· + 1)

/-- The scan of `jsmn_parse_string` behind the quote: the length up to the next quote. A
backslash at the end of the text, or four digits that are not all there, leave a part. -/
def stringLength : Bytes → Except Error ℕ
  | [] => .error .part
  | 34 :: _ => .ok 0
  | [92] => .error .part
  | 92 :: 117 :: a :: b :: c :: d :: js =>
    if [a, b, c, d].all Json.isHex then (stringLength js).map (· + 6) else .error .inval
  | 92 :: 117 :: js => if js.all Json.isHex then .error .part else .error .inval
  | 92 :: e :: js => if e ∈ Json.escapes then (stringLength js).map (· + 2) else .error .inval
  | _ :: js => (stringLength js).map (· + 1)

def closeLast (type : TokenType) (stop : ℤ) : List Token → Option (Except Error (List Token))
  | [] => none
  | t :: ts =>
    match closeLast type stop ts with
    | some closed => some (closed.map (t :: ·))
    | none =>
      if t.stop = -1 then some (if t.type = type then .ok ({ t with stop := stop } :: ts) else .error .inval)
      else none

/-- `jsmn_alloc_token` with `jsmn_fill_token`. -/
def alloc (numTokens : ℕ) (tokens : List Token) (t : Token) : Except Error (List Token) :=
  if tokens.length ≥ numTokens then .error .nomem else .ok (tokens ++ [t])

/-- The loop of `jsmn_parse` at `pos`, with `skip` bytes to pass first. -/
def parseFrom (numTokens : ℕ) : ℕ → ℕ → Bytes → List Token → Except Error (List Token)
  | _, _, [], tokens => if tokens.any (·.stop = -1) then .error .part else .ok tokens
  | skip + 1, pos, _ :: js, tokens => parseFrom numTokens skip (pos + 1) js tokens
  | 0, pos, c :: js, tokens =>
    if c = 123 ∨ c = 91 then do
      let tokens ← alloc numTokens tokens ⟨if c = 123 then .object else .array, pos, -1⟩
      parseFrom numTokens 0 (pos + 1) js tokens
    else if c = 125 ∨ c = 93 then
      match closeLast (if c = 125 then .object else .array) (pos + 1) tokens with
      | none => .error .inval
      | some closed => do
        let tokens ← closed
        parseFrom numTokens 0 (pos + 1) js tokens
    else if c = 34 then do
      let length ← stringLength js
      let tokens ← alloc numTokens tokens ⟨.string, pos + 1, pos + 1 + length⟩
      parseFrom numTokens (length + 1) (pos + 1) js tokens
    else if c ∈ [9, 13, 10, 32, 58, 44] then parseFrom numTokens 0 (pos + 1) js tokens
    else do
      let length ← primitiveLength (c :: js)
      let tokens ← alloc numTokens tokens ⟨.primitive, pos, pos + length⟩
      parseFrom numTokens (length - 1) (pos + 1) js tokens

/-- `jsmn_parse` after `jsmn_init`, on a text without a zero; the count it returns is the
number of tokens. -/
def jsmnParse (js : Bytes) (numTokens : ℕ) : Except Error (List Token) := parseFrom numTokens 0 0 js []

def tokenText (js : Bytes) (t : Token) : Bytes := (js.drop t.start.toNat).take (t.stop - t.start).toNat

/-! ## The tokens of a JSON text -/

section Tokens
open Json

def stringToken (pos : ℕ) (s : List Item) : Token := ⟨.string, pos + 1, pos + 1 + (stringText s).length⟩

def tokens : {k : Kind} → Node k → ℕ → List Token
  | _, .string s, pos => [stringToken pos s]
  | _, .primitive p, pos => [⟨.primitive, pos, pos + p.text.length⟩]
  | _, .emptyArray w, pos => [⟨.array, pos, (pos + 1 + w.text.length : ℕ) + 1⟩]
  | _, .array es, pos => ⟨.array, pos, (pos + 1 + es.text.length : ℕ) + 1⟩ :: tokens es (pos + 1)
  | _, .emptyObject w, pos => [⟨.object, pos, (pos + 1 + w.text.length : ℕ) + 1⟩]
  | _, .object ms, pos => ⟨.object, pos, (pos + 1 + ms.text.length : ℕ) + 1⟩ :: tokens ms (pos + 1)
  | _, .element w v _, pos => tokens v (pos + w.text.length)
  | _, .elements w v w' es, pos =>
    tokens v (pos + w.text.length) ++ tokens es (pos + w.text.length + v.text.length + w'.text.length + 1)
  | _, .member w key w' u v _, pos =>
    stringToken (pos + w.text.length) key ::
      tokens v (pos + w.text.length + (quoted key).length + w'.text.length + 1 + u.text.length)
  | _, .members w key w' u v u' ms, pos =>
    stringToken (pos + w.text.length) key ::
      (tokens v (pos + w.text.length + (quoted key).length + w'.text.length + 1 + u.text.length) ++
        tokens ms (pos + w.text.length + (quoted key).length + w'.text.length + 1 + u.text.length + v.text.length +
          u'.text.length + 1))

def Delimited (js : Bytes) : Prop := ∀ b ∈ js.head?, endsPrimitive b = true

section Scans
variable {n pos : ℕ} {js : Bytes} {ts : List Token}

theorem parse_skip (passed : Bytes) :
    parseFrom n passed.length pos (passed ++ js) ts = parseFrom n 0 (pos + passed.length) js ts := by
  induction passed generalizing pos with
  | nil => rfl
  | cons b passed ih =>
    rw [List.length_cons, List.cons_append, parseFrom, ih]
    congr 1
    omega

/-- Blanks, colons and commas are passed. -/
theorem parse_passed {c : UInt8} (hc : c ∈ [9, 13, 10, 32, 58, 44]) :
    parseFrom n 0 pos (c :: js) ts = parseFrom n 0 (pos + 1) js ts := by
  have hopen : ¬ (c = 123 ∨ c = 91) := by rintro (rfl | rfl) <;> exact absurd hc (by decide)
  have hclose : ¬ (c = 125 ∨ c = 93) := by rintro (rfl | rfl) <;> exact absurd hc (by decide)
  have hquote : ¬ c = 34 := by rintro rfl; exact absurd hc (by decide)
  rw [parseFrom, if_neg hopen, if_neg hclose, if_neg hquote, if_pos hc]

theorem mem_of_isBlank {b : UInt8} (h : isBlank b = true) : b ∈ [9, 13, 10, 32, 58, 44] := by
  simp only [isBlank, Bool.or_eq_true, decide_eq_true_iff] at h
  rcases h with ((rfl | rfl) | rfl) | rfl <;> decide

theorem parse_blanks {text : Bytes} (hblank : ∀ b ∈ text, isBlank b = true) :
    parseFrom n 0 pos (text ++ js) ts = parseFrom n 0 (pos + text.length) js ts := by
  induction text generalizing pos with
  | nil => rfl
  | cons b text ih =>
    obtain ⟨hb, htext⟩ := List.forall_mem_cons.mp hblank
    rw [List.cons_append, parse_passed (mem_of_isBlank hb), ih htext, List.length_cons]
    congr 1
    omega

theorem parse_blank (w : Blank) : parseFrom n 0 pos (w.text ++ js) ts = parseFrom n 0 (pos + w.text.length) js ts :=
  parse_blanks w.blank

theorem stringLength_item (i : Item) : stringLength (i.text ++ js) = (stringLength js).map (· + i.text.length) := by
  cases i with
  | plain b hb =>
    obtain ⟨_, hquote, hback⟩ := hb
    change stringLength (b :: js) = (stringLength js).map (· + 1)
    rw [stringLength]
    · exact fun h => hquote h
    · exact fun h => absurd h hback
    · exact fun _ _ _ _ _ h => absurd h hback
    · exact fun _ h => absurd h hback
    · exact fun _ _ h => absurd h hback
  | escape b hb =>
    change stringLength (92 :: b :: js) = (stringLength js).map (· + 2)
    simp only [escapes, List.mem_cons, List.not_mem_nil, or_false] at hb
    rcases hb with rfl | rfl | rfl | rfl | rfl | rfl | rfl | rfl <;> rfl
  | unicode a b c d hex =>
    change stringLength (92 :: 117 :: a :: b :: c :: d :: js) = (stringLength js).map (· + 6)
    rw [stringLength, if_pos hex]

theorem stringLength_text (s : List Item) : stringLength (stringText s ++ 34 :: js) = .ok (stringText s).length := by
  induction s with
  | nil => rfl
  | cons i s ih =>
    have hcons : stringText (i :: s) = i.text ++ stringText s := rfl
    rw [hcons, List.append_assoc, stringLength_item, ih, List.length_append, Nat.add_comm]
    rfl

theorem alloc_of_lt (hfit : ts.length < n) (t : Token) : alloc n ts t = .ok (ts ++ [t]) := if_neg (Nat.not_le_of_lt hfit)

theorem parse_string (s : List Item) (hfit : ts.length < n) :
    parseFrom n 0 pos (quoted s ++ js) ts = parseFrom n 0 (pos + (quoted s).length) js (ts ++ [stringToken pos s]) := by
  have htext : quoted s ++ js = 34 :: (stringText s ++ 34 :: js) := by
    rw [quoted, List.cons_append, List.append_assoc, List.singleton_append]
  have hskip := @parse_skip n (pos + 1) js (ts ++ [stringToken pos s]) (stringText s ++ [34])
  rw [List.length_append, List.length_singleton, List.append_assoc, List.singleton_append] at hskip
  have hlength : pos + (quoted s).length = pos + 1 + ((stringText s).length + 1) := by
    rw [quoted, List.length_cons, List.length_append, List.length_singleton]
    omega
  rw [htext, hlength, ← hskip, parseFrom, if_neg (by decide), if_neg (by decide), if_pos rfl, stringLength_text]
  change (alloc n ts (stringToken pos s) >>= _) = _
  rw [alloc_of_lt hfit]
  rfl

theorem primitiveByte_spec {b : UInt8} (h : isPrimitiveByte b = true) :
    ¬ endsPrimitive b = true ∧ ¬ (b < 32 ∨ b ≥ 127) ∧ b ∉ [123, 91, 125, 93, 34, 9, 13, 10, 32, 58, 44] := by
  have hall : ∀ b : UInt8, isPrimitiveByte b = true →
      ¬ endsPrimitive b = true ∧ ¬ (b < 32 ∨ b ≥ 127) ∧ b ∉ [123, 91, 125, 93, 34, 9, 13, 10, 32, 58, 44] :=
    CString.forall_byte (by decide +kernel)
  exact hall b h

theorem primitiveLength_text {text : Bytes} (htext : ∀ b ∈ text, isPrimitiveByte b = true) (hjs : Delimited js) :
    primitiveLength (text ++ js) = .ok text.length := by
  induction text with
  | nil =>
    cases js with
    | nil => rfl
    | cons b js =>
      have hb : endsPrimitive b = true := hjs b rfl
      rw [List.nil_append, primitiveLength, if_pos hb]
      rfl
  | cons b text ih =>
    obtain ⟨hb, hrest⟩ := List.forall_mem_cons.mp htext
    obtain ⟨hends, hprintable, _⟩ := primitiveByte_spec hb
    rw [List.cons_append, primitiveLength, if_neg hends, if_neg hprintable, ih hrest]
    rfl

theorem parse_primitive (p : Primitive) (hjs : Delimited js) (hfit : ts.length < n) :
    parseFrom n 0 pos (p.text ++ js) ts =
      parseFrom n 0 (pos + p.text.length) js (ts ++ [⟨.primitive, pos, pos + p.text.length⟩]) := by
  obtain ⟨p, hne, hbytes⟩ := p
  obtain ⟨b, text, rfl⟩ := List.exists_cons_of_ne_nil hne
  obtain ⟨_, _, hother⟩ := primitiveByte_spec (hbytes b List.mem_cons_self)
  simp only [List.mem_cons, List.not_mem_nil, or_false, not_or] at hother
  obtain ⟨hobject, harray, hobject', harray', hquote, hpassed⟩ := hother
  have hlength := primitiveLength_text hbytes hjs
  have hskip := @parse_skip n (pos + 1) js (ts ++ [⟨.primitive, pos, pos + (b :: text).length⟩]) text
  have hpos : pos + (b :: text).length = pos + 1 + text.length := by
    rw [List.length_cons]
    omega
  rw [List.cons_append] at hlength ⊢
  rw [hpos, ← hskip, parseFrom, if_neg (not_or.mpr ⟨hobject, harray⟩), if_neg (not_or.mpr ⟨hobject', harray'⟩), if_neg hquote,
    if_neg (by simpa using hpassed), hlength]
  change (alloc n ts ⟨.primitive, pos, pos + (b :: text).length⟩ >>= _) = _
  rw [alloc_of_lt hfit]
  rfl

theorem closeLast_none {type : TokenType} {stop : ℤ} (h : ∀ t ∈ ts, 0 ≤ t.stop) : closeLast type stop ts = none := by
  induction ts with
  | nil => rfl
  | cons t ts ih =>
    obtain ⟨ht, hts⟩ := List.forall_mem_cons.mp h
    rw [closeLast, ih hts]
    exact if_neg (by omega)

/-- The bracket closes the last open token, whatever has been closed behind it. -/
theorem closeLast_append {type : TokenType} {start stop : ℤ} {closed : List Token} (h : ∀ t ∈ closed, 0 ≤ t.stop) :
    closeLast type stop (ts ++ ⟨type, start, -1⟩ :: closed) = some (.ok (ts ++ ⟨type, start, stop⟩ :: closed)) := by
  induction ts with
  | nil =>
    rw [List.nil_append, closeLast, closeLast_none h]
    simp
  | cons t ts ih =>
    rw [List.cons_append, closeLast, ih]
    rfl

/-- An opening and a closing bracket and the type they belong to. -/
def Brackets (o c : UInt8) (type : TokenType) : Prop :=
  o = 91 ∧ c = 93 ∧ type = .array ∨ o = 123 ∧ c = 125 ∧ type = .object

theorem parse_bracketed {o c : UInt8} {type : TokenType} (hb : Brackets o c type) {inner : Bytes} {found : List Token}
    (hfit : ts.length + (found.length + 1) ≤ n) (hclosed : ∀ t ∈ found, 0 ≤ t.stop)
    (hinner : parseFrom n 0 (pos + 1) (inner ++ c :: js) (ts ++ [⟨type, pos, -1⟩]) =
      parseFrom n 0 (pos + 1 + inner.length) (c :: js) (ts ++ [⟨type, pos, -1⟩] ++ found)) :
    parseFrom n 0 pos (o :: (inner ++ [c]) ++ js) ts =
      parseFrom n 0 (pos + (o :: (inner ++ [c])).length) js (ts ++ ⟨type, pos, (pos + 1 + inner.length : ℕ) + 1⟩ :: found) := by
  have htext : o :: (inner ++ [c]) ++ js = o :: (inner ++ c :: js) := by
    rw [List.cons_append, List.append_assoc, List.singleton_append]
  have hlength : pos + (o :: (inner ++ [c])).length = pos + 1 + inner.length + 1 := by
    rw [List.length_cons, List.length_append, List.length_singleton]
    omega
  have hopen : parseFrom n 0 pos (o :: (inner ++ c :: js)) ts =
      parseFrom n 0 (pos + 1) (inner ++ c :: js) (ts ++ [⟨type, pos, -1⟩]) := by
    rcases hb with ⟨rfl, rfl, rfl⟩ | ⟨rfl, rfl, rfl⟩
    · rw [parseFrom, if_pos (by decide), alloc_of_lt (by omega)]
      rfl
    · rw [parseFrom, if_pos (by decide), alloc_of_lt (by omega)]
      rfl
  have hclose : parseFrom n 0 (pos + 1 + inner.length) (c :: js) (ts ++ ⟨type, pos, -1⟩ :: found) =
      parseFrom n 0 (pos + 1 + inner.length + 1) js (ts ++ ⟨type, pos, (pos + 1 + inner.length : ℕ) + 1⟩ :: found) := by
    rcases hb with ⟨rfl, rfl, rfl⟩ | ⟨rfl, rfl, rfl⟩
    · rw [parseFrom, if_neg (by decide), if_pos (by decide), if_neg (by decide), closeLast_append hclosed]
      rfl
    · rw [parseFrom, if_neg (by decide), if_pos (by decide), if_pos rfl, closeLast_append hclosed]
      rfl
  rw [htext, hlength, hopen, hinner, List.append_assoc, List.singleton_append, hclose]

end Scans

theorem stringToken_stop (pos : ℕ) (s : List Item) : 0 ≤ (stringToken pos s).stop := by
  change (0 : ℤ) ≤ pos + 1 + (stringText s).length
  omega

theorem stop_nonneg {k : Kind} (v : Node k) (pos : ℕ) : ∀ t ∈ tokens v pos, 0 ≤ t.stop := by
  induction v generalizing pos with
  | string s =>
    rw [tokens, List.forall_mem_singleton]
    exact stringToken_stop pos s
  | primitive p =>
    rw [tokens, List.forall_mem_singleton]
    dsimp only
    omega
  | emptyArray w | emptyObject w =>
    rw [tokens, List.forall_mem_singleton]
    dsimp only
    omega
  | array es ih | object ms ih =>
    rw [tokens, List.forall_mem_cons]
    refine ⟨?_, ih _⟩
    dsimp only
    omega
  | element w v w' ih => exact ih _
  | elements w v w' es ih ih' =>
    rw [tokens, List.forall_mem_append]
    exact ⟨ih _, ih' _⟩
  | member w key w' u v u' ih =>
    rw [tokens, List.forall_mem_cons]
    exact ⟨stringToken_stop _ key, ih _⟩
  | members w key w' u v u' ms ih ih' =>
    rw [tokens, List.forall_mem_cons, List.forall_mem_append]
    exact ⟨stringToken_stop _ key, ih _, ih' _⟩

theorem delimited_cons {c : UInt8} (hc : endsPrimitive c = true) (js : Bytes) : Delimited (c :: js) := by
  rintro b hb
  cases hb
  exact hc

theorem delimited_blank (w : Blank) {js : Bytes} (hjs : Delimited js) : Delimited (w.text ++ js) := by
  obtain ⟨text, hblank⟩ := w
  cases text with
  | nil => exact hjs
  | cons b text =>
    have hb : isBlank b = true := hblank b List.mem_cons_self
    refine delimited_cons ?_ _
    simp only [isBlank, Bool.or_eq_true, decide_eq_true_iff] at hb
    rcases hb with ((rfl | rfl) | rfl) | rfl <;> rfl

/-- The loop passes the text of a tree and appends its tokens. -/
theorem parse_node {n : ℕ} {k : Kind} (v : Node k) {pos : ℕ} {js : Bytes} {ts : List Token}
    (hfit : ts.length + (tokens v pos).length ≤ n) (hjs : Delimited js) :
    parseFrom n 0 pos (v.text ++ js) ts = parseFrom n 0 (pos + v.text.length) js (ts ++ tokens v pos) := by
  induction v generalizing pos js ts with
  | string s => exact parse_string s hfit
  | primitive p => exact parse_primitive p hjs hfit
  | emptyArray w =>
    refine parse_bracketed (Or.inl ⟨rfl, rfl, rfl⟩) hfit (fun _ h => nomatch h) ?_
    rw [parse_blank, List.append_nil]
  | array es ih =>
    rw [tokens, List.length_cons] at hfit
    refine parse_bracketed (Or.inl ⟨rfl, rfl, rfl⟩) hfit (stop_nonneg es _) (ih ?_ (delimited_cons rfl js))
    rw [List.length_append, List.length_singleton]
    omega
  | emptyObject w =>
    refine parse_bracketed (Or.inr ⟨rfl, rfl, rfl⟩) hfit (fun _ h => nomatch h) ?_
    rw [parse_blank, List.append_nil]
  | object ms ih =>
    rw [tokens, List.length_cons] at hfit
    refine parse_bracketed (Or.inr ⟨rfl, rfl, rfl⟩) hfit (stop_nonneg ms _) (ih ?_ (delimited_cons rfl js))
    rw [List.length_append, List.length_singleton]
    omega
  | element w v w' ih =>
    rw [tokens] at hfit
    have hend : pos + (Node.element w v w').text.length = pos + w.text.length + v.text.length + w'.text.length := by
      simp only [Node.text, List.length_append]
      omega
    rw [hend, Node.text, List.append_assoc, List.append_assoc, parse_blank, ih hfit (delimited_blank w' hjs), parse_blank,
      tokens]
  | elements w v w' es ih ih' =>
    rw [tokens, List.length_append] at hfit
    have hend : pos + (Node.elements w v w' es).text.length =
        pos + w.text.length + v.text.length + w'.text.length + 1 + es.text.length := by
      simp only [Node.text, List.length_append, List.length_cons]
      omega
    rw [hend, Node.text, List.append_assoc, List.append_assoc, List.append_assoc, List.cons_append, parse_blank,
      ih (by omega) (delimited_blank w' (delimited_cons rfl _)), parse_blank, parse_passed (by decide),
      ih' (by rw [List.length_append]; omega) hjs, tokens, List.append_assoc]
  | member w key w' u v u' ih =>
    rw [tokens, List.length_cons] at hfit
    have hend : pos + (Node.member w key w' u v u').text.length =
        pos + w.text.length + (quoted key).length + w'.text.length + 1 + u.text.length + v.text.length + u'.text.length := by
      simp only [Node.text, List.length_append, List.length_cons]
      omega
    rw [hend, Node.text, List.append_assoc, List.append_assoc, List.append_assoc, List.cons_append, List.append_assoc,
      List.append_assoc, parse_blank, parse_string key (by omega), parse_blank, parse_passed (by decide), parse_blank,
      ih (by rw [List.length_append, List.length_singleton]; omega) (delimited_blank u' hjs), parse_blank, tokens,
      List.append_assoc, List.singleton_append]
  | members w key w' u v u' ms ih ih' =>
    rw [tokens, List.length_cons, List.length_append] at hfit
    have hend : pos + (Node.members w key w' u v u' ms).text.length =
        pos + w.text.length + (quoted key).length + w'.text.length + 1 + u.text.length + v.text.length + u'.text.length +
          1 + ms.text.length := by
      simp only [Node.text, List.length_append, List.length_cons]
      omega
    rw [hend, Node.text, List.append_assoc, List.append_assoc, List.append_assoc, List.cons_append, List.append_assoc,
      List.append_assoc, List.append_assoc, List.cons_append, parse_blank, parse_string key (by omega), parse_blank,
      parse_passed (by decide), parse_blank,
      ih (by rw [List.length_append, List.length_singleton]; omega) (delimited_blank u' (delimited_cons rfl _)), parse_blank,
      parse_passed (by decide), ih' (by rw [List.length_append, List.length_append, List.length_singleton]; omega) hjs, tokens,
      List.append_assoc, List.append_assoc, List.singleton_append]

/-- A JSON text has the tokens of its tree, if there are enough for them. -/
theorem jsmnParse_text (w w' : Blank) (v : Node .value) {n : ℕ} (hfit : (tokens v w.text.length).length ≤ n) :
    jsmnParse (w.text ++ (v.text ++ w'.text)) n = .ok (tokens v w.text.length) := by
  have hclosed : ¬ (tokens v w.text.length).any (·.stop = -1) = true := by
    rw [List.any_eq_true]
    rintro ⟨t, ht, hstop⟩
    have hle := stop_nonneg v _ t ht
    have hopen : t.stop = -1 := of_decide_eq_true hstop
    omega
  have hdelimited : Delimited (w'.text ++ []) := delimited_blank w' (fun b hb => nomatch hb)
  rw [jsmnParse, parse_blank, Nat.zero_add, ← List.append_nil w'.text, parse_node v (by simpa using hfit) hdelimited,
    parse_blank, List.nil_append, parseFrom, if_neg hclosed]

end Tokens

end Jsmn
end LilitunRemote

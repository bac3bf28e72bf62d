import LilitunRemote.Foundation.CString
import LilitunRemote.Protocol.Wire

/-! # The head of a control request

`get_http_header` reads byte by byte up to an empty line, and `request_parse` looks for a
parameter in the query of what it has read.
-/
namespace LilitunRemote
namespace Control
open CString

/-! ## `get_http_header` -/

/-- The last three bytes that have been read; the array `crlf` without its newest entry. -/
abbrev Crlf := UInt8 × UInt8 × UInt8

/-- The loop of `get_http_header`, with the number of bytes that still fit: what it adds
to the head and what it leaves, or `none` for -1. -/
def headerFrom : ℕ → Crlf → Bytes → Option (Bytes × Bytes)
  | 0, _, bytes => some ([], bytes)
  | _ + 1, _, [] => none
  | room + 1, (c₀, c₁, c₂), b :: bytes =>
    if (c₀ = 13 ∧ c₁ = 10 ∧ c₂ = 13 ∧ b = 10) ∨ (c₂ = 10 ∧ b = 10) then some ([b], bytes)
    else (headerFrom room (c₁, c₂, b) bytes).map fun r => (b :: r.1, r.2)

def getHttpHeader (bytes : Bytes) : Option (Bytes × Bytes) := headerFrom 1023 (0, 0, 0) bytes

def Ended (head : Bytes) : Prop := [13, 10, 13, 10] <:+ head ∨ [10, 10] <:+ head ∨ head.length = 1023

structure IsHead (bytes head rest : Bytes) : Prop where
  split : bytes = head ++ rest
  ended : Ended head
  first : ∀ k < head.length, ¬ Ended (head.take k)

def lastThree (read : Bytes) : Crlf := (read.reverse.getD 2 0, read.reverse.getD 1 0, read.reverse.getD 0 0)

theorem lastThree_append (read : Bytes) (b : UInt8) :
    lastThree (read ++ [b]) = ((lastThree read).2.1, (lastThree read).2.2, b) := by
  rw [lastThree, lastThree, List.reverse_append, List.reverse_singleton, List.singleton_append]
  rfl

/-- The test of the loop finds an empty line. -/
theorem emptyLine_iff (read : Bytes) (b : UInt8) :
    (((lastThree read).1 = 13 ∧ (lastThree read).2.1 = 10 ∧ (lastThree read).2.2 = 13 ∧ b = 10) ∨ ((lastThree read).2.2 = 10 ∧ b = 10)) ↔
      ([13, 10, 13, 10] <:+ read ++ [b] ∨ [10, 10] <:+ read ++ [b]) := by
  have hlong : [13, 10, 13, 10] <:+ read ++ [b] ↔ [10, 13, 10, 13] <+: b :: read.reverse := by
    rw [← List.reverse_prefix, List.reverse_append]
    rfl
  have hshort : [10, 10] <:+ read ++ [b] ↔ [10, 10] <+: b :: read.reverse := by
    rw [← List.reverse_prefix, List.reverse_append]
    rfl
  rw [hlong, hshort, lastThree]
  rcases read.reverse with _ | ⟨x, _ | ⟨y, _ | ⟨z, s⟩⟩⟩ <;> simp [List.cons_prefix_cons] <;> grind

def EmptyLine (read : Bytes) : Prop := [13, 10, 13, 10] <:+ read ∨ [10, 10] <:+ read

instance (read : Bytes) : Decidable (EmptyLine read) := inferInstanceAs (Decidable (_ ∨ _))

section Head
variable {read bytes added rest : Bytes} {b : UInt8}

theorem ended_iff : Ended read ↔ EmptyLine read ∨ read.length = 1023 := (or_assoc).symm

/-- A head that has not ended goes on with the next byte. -/
theorem isHead_append (hopen : ¬ Ended read) :
    IsHead (read ++ b :: bytes) (read ++ added) rest ↔
      ∃ more, added = b :: more ∧ IsHead (read ++ [b] ++ bytes) (read ++ [b] ++ more) rest := by
  constructor
  · intro h
    have hsplit := h.split
    rw [List.append_assoc, List.append_cancel_left_eq] at hsplit
    cases added with
    | nil =>
      rw [List.append_nil] at h
      exact absurd h.ended hopen
    | cons c more =>
      obtain ⟨rfl, _⟩ := List.cons.inj hsplit
      refine ⟨more, rfl, ?_⟩
      rw [List.append_assoc, List.append_assoc]
      exact h
  · rintro ⟨more, rfl, h⟩
    rw [List.append_assoc, List.append_assoc] at h
    exact h

/-- A head that has ended has nothing behind it. -/
theorem isHead_ended (hbefore : ∀ k < read.length, ¬ Ended (read.take k)) (hended : Ended read) :
    IsHead (read ++ bytes) (read ++ added) rest ↔ added = [] ∧ rest = bytes := by
  constructor
  · intro h
    have hsplit := h.split
    rw [List.append_assoc, List.append_cancel_left_eq] at hsplit
    have hnil : added = [] := by
      by_contra hne
      refine h.first read.length ?_ (by rw [List.take_left]; exact hended)
      rw [List.length_append]
      have hpos := List.length_pos_of_ne_nil hne
      omega
    rw [hnil, List.nil_append] at hsplit
    exact ⟨hnil, hsplit.symm⟩
  · rintro ⟨rfl, rfl⟩
    rw [List.append_nil]
    exact ⟨rfl, hended, hbefore⟩

theorem before_append (hbefore : ∀ k < read.length, ¬ Ended (read.take k)) (hopen : ¬ Ended read) (b : UInt8) :
    ∀ k < (read ++ [b]).length, ¬ Ended ((read ++ [b]).take k) := by
  intro k hk
  rw [List.length_append, List.length_singleton] at hk
  rw [List.take_append_of_le_length (by omega)]
  rcases Nat.lt_succ_iff_lt_or_eq.mp hk with hlt | rfl
  · exact hbefore k hlt
  · rw [List.take_length]
    exact hopen

theorem headerFrom_cons (room : ℕ) (crlf : Crlf) (b : UInt8) (bytes : Bytes) :
    headerFrom (room + 1) crlf (b :: bytes) =
      if (crlf.1 = 13 ∧ crlf.2.1 = 10 ∧ crlf.2.2 = 13 ∧ b = 10) ∨ (crlf.2.2 = 10 ∧ b = 10) then some ([b], bytes)
      else (headerFrom room (crlf.2.1, crlf.2.2, b) bytes).map fun r => (b :: r.1, r.2) := rfl

theorem headerFrom_iff {room : ℕ} (hroom : read.length + room = 1023) (hbefore : ∀ k < read.length, ¬ Ended (read.take k))
    (hline : ¬ EmptyLine read) :
    headerFrom room (lastThree read) bytes = some (added, rest) ↔ IsHead (read ++ bytes) (read ++ added) rest := by
  induction room generalizing read bytes added with
  | zero =>
    rw [isHead_ended hbefore (ended_iff.mpr (Or.inr hroom)), headerFrom, Option.some.injEq, Prod.mk.injEq, eq_comm, @eq_comm _ bytes]
  | succ room ih =>
    have hopen : ¬ Ended read := by
      rw [ended_iff, not_or]
      exact ⟨hline, by omega⟩
    cases bytes with
    | nil =>
      refine iff_of_false nofun (fun h => hopen ?_)
      have hsplit := h.split
      rw [List.append_assoc, List.append_cancel_left_eq] at hsplit
      have hended := h.ended
      rwa [(List.append_eq_nil_iff.mp hsplit.symm).1, List.append_nil] at hended
    | cons b bytes =>
      have hbefore' := before_append hbefore hopen b
      rw [isHead_append hopen, headerFrom_cons]
      by_cases hend : EmptyLine (read ++ [b])
      · rw [if_pos ((emptyLine_iff read b).mpr hend), Option.some.injEq, Prod.mk.injEq]
        simp only [isHead_ended hbefore' (ended_iff.mpr (Or.inl hend))]
        constructor
        · rintro ⟨rfl, rfl⟩
          exact ⟨[], rfl, rfl, rfl⟩
        · rintro ⟨_, rfl, rfl, rfl⟩
          exact ⟨rfl, rfl⟩
      · have hlength : (read ++ [b]).length + room = 1023 := by
          rw [List.length_append, List.length_singleton]
          omega
        rw [if_neg (mt (emptyLine_iff read b).mp hend), ← lastThree_append]
        simp only [Option.map_eq_some_iff, Prod.exists, Prod.mk.injEq]
        constructor
        · rintro ⟨more, _, hfrom, rfl, rfl⟩
          exact ⟨more, rfl, (ih hlength hbefore' hend).mp hfrom⟩
        · rintro ⟨more, rfl, hhead⟩
          exact ⟨more, rest, (ih hlength hbefore' hend).mpr hhead, rfl, rfl⟩

/-- `get_http_header` reads the head. -/
theorem getHttpHeader_iff {head : Bytes} : getHttpHeader bytes = some (head, rest) ↔ IsHead bytes head rest := by
  have hline : ¬ EmptyLine [] := by
    unfold EmptyLine
    simp
  exact @headerFrom_iff [] bytes head rest 1023 rfl (fun k hk => absurd hk (Nat.not_lt_zero k)) hline

end Head

/-! ## `request_parse` -/

/-- `*ptr2 != '&' && *ptr2 > ' '`, where a `char` has a sign. -/
def isValueByte (b : UInt8) : Bool := b ≠ 38 && 32 < b && b < 128

def requestParseFrom (param ptr : Bytes) : Option Bytes :=
  if param.isPrefixOf ptr && (ptr.drop param.length).head? = some 61 then
    some ((ptr.drop (param.length + 1)).takeWhile isValueByte)
  else
    match _ : strchr (if param.isPrefixOf ptr then ptr.drop param.length else ptr) 38 with
    | none => none
    | some t => requestParseFrom param t.tail
termination_by ptr.length
decreasing_by
  have hlength := strchr_length ‹_›
  rw [List.length_tail]
  split at hlength
  · rw [List.length_drop] at hlength
    omega
  · omega

def requestParse (url param : Bytes) : Option Bytes :=
  match strchr url 63 with
  | none => none
  | some ptr => requestParseFrom param ptr.tail

def query (url : Bytes) : List Bytes :=
  match strchr url 63 with
  | none => []
  | some t => t.tail.splitOn 38

def valueOf (name : Bytes) (params : List Bytes) : Option Bytes :=
  (params.find? (name ++ [61]).isPrefixOf).map fun p => (p.drop (name.length + 1)).takeWhile isValueByte

section Query
variable {name ptr : Bytes}

/-- The two tests of the loop are one. -/
theorem named_iff : (name.isPrefixOf ptr && (ptr.drop name.length).head? = some 61) = true ↔ name ++ [61] <+: ptr := by
  rw [Bool.and_eq_true, List.isPrefixOf_iff_prefix, decide_eq_true_iff]
  constructor
  · rintro ⟨⟨rest, rfl⟩, hhead⟩
    rw [List.drop_left] at hhead
    obtain ⟨rest, rfl⟩ := List.head?_eq_some_iff.mp hhead
    exact ⟨rest, by simp⟩
  · rintro ⟨rest, rfl⟩
    exact ⟨⟨61 :: rest, by simp⟩, by simp⟩

/-- The search for the next parameter begins behind the name or before it. -/
theorem strchr_behind (hname : 38 ∉ name) :
    strchr (if name.isPrefixOf ptr then ptr.drop name.length else ptr) 38 = strchr ptr 38 := by
  split
  · next hprefix =>
    obtain ⟨rest, rfl⟩ := List.isPrefixOf_iff_prefix.mp hprefix
    rw [List.drop_left, strchr_append_left hname]
  · rfl

theorem valueOf_cons_pos {p : Bytes} (h : name ++ [61] <+: p) (params : List Bytes) :
    valueOf name (p :: params) = some ((p.drop (name.length + 1)).takeWhile isValueByte) := by
  rw [valueOf, List.find?_cons_of_pos (List.isPrefixOf_iff_prefix.mpr h), Option.map_some]

theorem valueOf_cons_neg {p : Bytes} (h : ¬ name ++ [61] <+: p) (params : List Bytes) :
    valueOf name (p :: params) = valueOf name params := by
  rw [valueOf, valueOf, List.find?_cons_of_neg (mt List.isPrefixOf_iff_prefix.mp h)]

/-- What stands behind an ampersand does not matter to the parameter before it. -/
theorem value_before {before : Bytes} (h : name ++ [61] <+: before) (after : Bytes) :
    ((before ++ 38 :: after).drop (name.length + 1)).takeWhile isValueByte =
      (before.drop (name.length + 1)).takeWhile isValueByte := by
  have hlength := h.length_le
  rw [List.length_append, List.length_singleton] at hlength
  rw [List.drop_append_of_le_length hlength, takeWhile_stop (by decide)]

/-- The loop gives the value of the first parameter of the name. -/
theorem requestParseFrom_eq (hname : 38 ∉ name) (ptr : Bytes) : requestParseFrom name ptr = valueOf name (ptr.splitOn 38) := by
  have hname' : 38 ∉ name ++ [61] := by simpa using hname
  fun_induction requestParseFrom name ptr with
  | case1 ptr hnamed =>
    rw [named_iff] at hnamed
    by_cases hmem : 38 ∈ ptr
    · obtain ⟨before, after, rfl, hbefore⟩ := List.eq_append_cons_of_mem hmem
      have hnamed' := (prefix_before hname').mp hnamed
      rw [List.splitOn_append_cons_self_of_not_mem hbefore, valueOf_cons_pos hnamed', value_before hnamed']
    · rw [List.splitOn_eq_singleton hmem, valueOf_cons_pos hnamed]
  | case2 ptr hnamed hnone =>
    rw [named_iff] at hnamed
    rw [dite_eq_ite, strchr_behind hname] at hnone
    have hmem : 38 ∉ ptr := by
      intro hmem
      obtain ⟨before, after, rfl, hbefore⟩ := List.eq_append_cons_of_mem hmem
      rw [strchr_append hbefore] at hnone
      cases hnone
    rw [List.splitOn_eq_singleton hmem, valueOf_cons_neg hnamed]
    rfl
  | case3 ptr hnamed t hsome ih =>
    rw [named_iff] at hnamed
    rw [dite_eq_ite, strchr_behind hname] at hsome
    have hmem : 38 ∈ ptr := by
      by_contra hmem
      rw [strchr_of_notMem hmem] at hsome
      cases hsome
    obtain ⟨before, after, rfl, hbefore⟩ := List.eq_append_cons_of_mem hmem
    rw [strchr_append hbefore] at hsome
    obtain rfl := Option.some.inj hsome
    rw [ih, List.splitOn_append_cons_self_of_not_mem hbefore, valueOf_cons_neg (mt (prefix_before hname').mpr hnamed)]
    rfl

theorem requestParse_eq (hname : 38 ∉ name) (url : Bytes) : requestParse url name = valueOf name (query url) := by
  unfold requestParse query
  split
  · rfl
  · exact requestParseFrom_eq hname _

end Query

end Control
end LilitunRemote

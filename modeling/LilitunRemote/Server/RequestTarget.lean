import LilitunRemote.Foundation.Terminated
import LilitunRemote.Server.Control

/-! # Parameters of the request target

`request_parse` gets the whole head behind "POST ". It looks for the question mark and for
ampersands in all of it, and only a value ends at the space behind the target.
-/
namespace LilitunRemote
namespace Control
open CString
open Projector (cString)

/-- A head that begins with a request line; what follows the version is arbitrary. -/
structure HeaderBlock where
  target : Bytes
  rest : Bytes
  noSpace : 32 ∉ target
  noZero : 0 ∉ target

namespace HeaderBlock

def text (h : HeaderBlock) : Bytes := asciiBytes "POST " ++ h.target ++ asciiBytes " HTTP/" ++ h.rest

def behind (h : HeaderBlock) : Bytes := asciiBytes " HTTP/" ++ cString h.rest

/-- What else the search for a parameter sees. -/
def strayPieces (h : HeaderBlock) : List Bytes := if 63 ∈ h.target then (h.behind.splitOn 38).tail else query h.behind

end HeaderBlock

structure ParamName where
  text : Bytes
  noEquals : 61 ∉ text
  noAmp : 38 ∉ text
  noSpace : 32 ∉ text

def HasName (name p : Bytes) : Prop := 61 ∈ p ∧ p.takeWhile (· ≠ 61) = name

instance (name p : Bytes) : Decidable (HasName name p) := inferInstanceAs (Decidable (_ ∧ _))

def targetValue (name target : Bytes) : Option Bytes :=
  ((query target).find? (fun p => HasName name p)).map fun p => p.drop (name.length + 1)

def ReadsTarget (h : HeaderBlock) (name : ParamName) : Prop :=
  requestParse (cString (h.text.drop 5)) name.text = targetValue name.text h.target

/-- The value has only bytes that `request_parse` copies; without a value no later piece looks
like a parameter of the name. -/
structure Undisturbed (h : HeaderBlock) (name : ParamName) : Prop where
  value : ∀ v, targetValue name.text h.target = some v → ∀ b ∈ v, 32 < b ∧ b < 128
  stray : targetValue name.text h.target = none → ∀ p ∈ h.strayPieces, ¬ HasName name.text p

section Pieces
variable {name : Bytes}

theorem hasName_iff (hequals : 61 ∉ name) {p : Bytes} : HasName name p ↔ name ++ [61] <+: p := by
  rw [HasName, Terminated.takeWhile_eq_iff]
  constructor
  · rintro ⟨hmem, -, rfl | hbegins⟩
    · exact absurd hmem hequals
    · exact hbegins
  · exact fun hbegins => ⟨hbegins.subset (by simp), hequals, Or.inr hbegins⟩

theorem valueOf_eq_none_iff (hequals : 61 ∉ name) (params : List Bytes) :
    valueOf name params = none ↔ ∀ p ∈ params, ¬ HasName name p := by
  simp [valueOf, hasName_iff hequals]

theorem valueOf_cons (p : Bytes) (params : List Bytes) :
    valueOf name (p :: params) =
      if name ++ [61] <+: p then some ((p.drop (name.length + 1)).takeWhile isValueByte) else valueOf name params := by
  split
  · next hnamed => exact valueOf_cons_pos hnamed params
  · next hother => exact valueOf_cons_neg hother params

/-- The space ends the value of the last piece of the target, and a name does not reach it. -/
theorem valueOf_last (hspace : 32 ∉ name) (s w : Bytes) (params : List Bytes) :
    valueOf name ((s ++ 32 :: w) :: params) = (valueOf name [s]).or (valueOf name params) := by
  have hname : 32 ∉ name ++ [61] := by simpa using hspace
  have hnone : valueOf name [] = none := rfl
  simp only [valueOf_cons, prefix_before hname, hnone]
  split
  · next hnamed =>
    have hlength := hnamed.length_le
    rw [List.length_append, List.length_singleton] at hlength
    rw [List.drop_append_of_le_length hlength, takeWhile_stop (by decide), Option.some_or]
  · rfl

/-- The target's own pieces come first, and the last of them goes on with the space. -/
theorem valueOf_append (hspace : 32 ∉ name) (q w : Bytes) :
    valueOf name ((q ++ 32 :: w).splitOn 38) =
      (valueOf name (q.splitOn 38)).or (valueOf name ((32 :: w).splitOn 38).tail) := by
  induction q using pieces_induction (c := 38) with
  | single s hs =>
    rw [List.splitOn_eq_singleton hs]
    by_cases hw : 38 ∈ w
    · obtain ⟨before, after, rfl, hbefore⟩ := List.eq_append_cons_of_mem hw
      have hfirst : 38 ∉ s ++ 32 :: before := by simp [hs, hbefore]
      have hspaced : (38 : UInt8) ∉ 32 :: before := by simp [hbefore]
      have hsplit := List.splitOn_append_cons_self_of_not_mem hfirst after
      have hrest := List.splitOn_append_cons_self_of_not_mem hspaced after
      rw [List.append_assoc, List.cons_append] at hsplit
      rw [List.cons_append] at hrest
      rw [hsplit, hrest, valueOf_last hspace, List.tail_cons]
    · have hall : 38 ∉ s ++ 32 :: w := by simp [hs, hw]
      have hspaced : (38 : UInt8) ∉ 32 :: w := by simp [hw]
      rw [List.splitOn_eq_singleton hall, List.splitOn_eq_singleton hspaced, valueOf_last hspace, List.tail_cons]
  | more piece rest hpiece ih =>
    rw [List.append_assoc, List.cons_append, List.splitOn_append_cons_self_of_not_mem hpiece,
      List.splitOn_append_cons_self_of_not_mem hpiece, valueOf_cons, valueOf_cons, ih]
    split <;> simp

theorem valueOf_query (hequals : 61 ∉ name) (target : Bytes) :
    valueOf name (query target) = (targetValue name target).map (List.takeWhile isValueByte) := by
  have htest : (name ++ [61]).isPrefixOf = fun p => decide (HasName name p) := by
    funext p
    rw [Bool.eq_iff_iff, List.isPrefixOf_iff_prefix, decide_eq_true_iff, hasName_iff hequals]
  simp [valueOf, targetValue, htest, Function.comp_def]

theorem amp_notMem_piece {s p : Bytes} (h : p ∈ s.splitOn 38) : 38 ∉ p := by
  induction s using pieces_induction (c := 38) with
  | single s hs =>
    rw [List.splitOn_eq_singleton hs, List.mem_singleton] at h
    exact h ▸ hs
  | more piece rest hpiece ih =>
    rw [List.splitOn_append_cons_self_of_not_mem hpiece] at h
    rcases List.mem_cons.mp h with rfl | h
    · exact hpiece
    · exact ih h

/-- A value without ampersands is copied as a whole if its bytes are. -/
theorem takeWhile_value_iff {target v : Bytes} (h : targetValue name target = some v) :
    v.takeWhile isValueByte = v ↔ ∀ b ∈ v, 32 < b ∧ b < 128 := by
  obtain ⟨p, hp, rfl⟩ := Option.map_eq_some_iff.mp h
  have hamp : 38 ∉ p := by
    have hmem := List.mem_of_find?_eq_some hp
    unfold query at hmem
    split at hmem
    · cases hmem
    · exact amp_notMem_piece hmem
  rw [List.takeWhile_eq_self_iff]
  refine forall₂_congr (fun b hb => ?_)
  have hne : b ≠ 38 := fun heq => hamp (heq ▸ List.mem_of_mem_drop hb)
  simp [isValueByte, hne]

end Pieces

section Block
variable (h : HeaderBlock)

/-- What `request_parse` gets. -/
theorem HeaderBlock.url_eq : cString (h.text.drop 5) = h.target ++ h.behind := by
  have hversion : 0 ∉ asciiBytes " HTTP/" := by decide +kernel
  have hnul : 0 ∉ h.target ++ asciiBytes " HTTP/" := by simp [h.noZero, hversion]
  have hdrop : h.text.drop 5 = h.target ++ asciiBytes " HTTP/" ++ h.rest := by
    rw [text, List.append_assoc (asciiBytes "POST "), List.append_assoc]
    exact List.drop_left' (by decide)
  rw [hdrop, cString, Terminated.takeWhile_append_left hnul, List.append_assoc]
  rfl

/-- The target decides alone, or the stray pieces do. -/
theorem HeaderBlock.requestParse_eq (name : ParamName) :
    requestParse (cString (h.text.drop 5)) name.text =
      (valueOf name.text (query h.target)).or (valueOf name.text h.strayPieces) := by
  obtain ⟨w, hw⟩ : ∃ w, h.behind = 32 :: w := ⟨_, rfl⟩
  rw [Control.requestParse_eq name.noAmp, h.url_eq, strayPieces]
  split
  · next hmem =>
    obtain ⟨path, q, htarget, hpath⟩ := List.eq_append_cons_of_mem hmem
    have hfull : query (h.target ++ h.behind) = (q ++ 32 :: w).splitOn 38 := by
      rw [htarget, hw, List.append_assoc, List.cons_append, query, strchr_append hpath]
      rfl
    have hown : query h.target = q.splitOn 38 := by
      rw [htarget, query, strchr_append hpath]
      rfl
    rw [hfull, hown, hw, valueOf_append name.noSpace]
  · next hmem =>
    have hfull : query (h.target ++ h.behind) = query h.behind := by
      rw [query, strchr_append_left hmem, query]
    have hown : query h.target = [] := by
      rw [query, strchr_of_notMem hmem]
    rw [hfull, hown]
    rfl

/-- `request_parse` reads the parameters of the target exactly if nothing disturbs it. -/
theorem readsTarget_iff (name : ParamName) : ReadsTarget h name ↔ Undisturbed h name := by
  rw [ReadsTarget, h.requestParse_eq name, valueOf_query name.noEquals]
  cases hvalue : targetValue name.text h.target with
  | some v =>
    simp only [Option.map_some, Option.some_or, Option.some.injEq, takeWhile_value_iff hvalue]
    refine ⟨fun hv => ⟨fun w hw => ?_, fun hnone => ?_⟩, fun hd => hd.value v hvalue⟩
    · rw [hvalue] at hw
      exact Option.some.inj hw ▸ hv
    · rw [hvalue] at hnone
      cases hnone
  | none =>
    simp only [Option.map_none, Option.none_or, valueOf_eq_none_iff name.noEquals]
    refine ⟨fun hv => ⟨fun w hw => ?_, fun _ => hv⟩, fun hd => hd.stray hvalue⟩
    rw [hvalue] at hw
    cases hw

end Block

/-- A request without an action whose second header line has one. -/
def strayAction : HeaderBlock :=
  ⟨asciiBytes "/", asciiBytes "1.1\r\nReferer: /?x&action=message\r\n\r\n", by decide +kernel, by decide +kernel⟩

def actionName : ParamName := ⟨asciiBytes "action", by decide +kernel, by decide +kernel, by decide +kernel⟩

theorem stray_action_found : ¬ ∀ h name, ReadsTarget h name := by
  intro hall
  have hreads := hall strayAction actionName
  have hnone : targetValue actionName.text strayAction.target = none := by decide +kernel
  have hown : valueOf actionName.text (query strayAction.target) = none := by decide +kernel
  have hstray : valueOf actionName.text strayAction.strayPieces = some (asciiBytes "message") := by decide +kernel
  rw [ReadsTarget, strayAction.requestParse_eq, hown, hstray, hnone] at hreads
  cases hreads

end Control
end LilitunRemote

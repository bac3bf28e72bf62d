import Mathlib.Data.List.Basic

/-! # Coalescing by a key

Of a stretch of elements with one key only the first is kept.
-/
namespace Coalesce
variable {α κ : Type*}

/-- The element begins the last stretch of elements with one key. -/
def StartsLast (key : α → κ) (l : List α) (e : α) : Prop :=
  ∃ pre rest, l = pre ++ e :: rest ∧ (∀ a ∈ rest, key a = key e) ∧ ∀ b ∈ pre.getLast?, key b ≠ key e

variable {key : α → κ}

theorem StartsLast.key_getLast {l : List α} {e : α} (h : StartsLast key l e) : ∃ a, l.getLast? = some a ∧ key a = key e := by
  obtain ⟨pre, rest, rfl, hsame, _⟩ := h
  have hlast : (pre ++ e :: rest).getLast? = some ((e :: rest).getLast (List.cons_ne_nil e rest)) := by
    rw [List.getLast?_append, List.getLast?_eq_getLast_of_ne_nil (List.cons_ne_nil e rest), Option.some_or]
  refine ⟨_, hlast, ?_⟩
  rcases List.mem_cons.mp (List.getLast_mem (List.cons_ne_nil e rest)) with heq | hmem
  · rw [heq]
  · exact hsame _ hmem

/-- The same after an element of another key, if nothing stands before the element. -/
def StartsLastAfter (key : α → κ) (last : κ) (l : List α) (e : α) : Prop :=
  ∃ pre rest, l = pre ++ e :: rest ∧ (∀ a ∈ rest, key a = key e) ∧ (∀ b ∈ pre.getLast?, key b ≠ key e) ∧
    (pre = [] → last ≠ key e)

theorem StartsLastAfter.startsLast {last : κ} {l : List α} {e : α} (h : StartsLastAfter key last l e) : StartsLast key l e := by
  obtain ⟨pre, rest, hl, hsame, hbefore, _⟩ := h
  exact ⟨pre, rest, hl, hsame, hbefore⟩

theorem StartsLastAfter.cons {last : κ} {c e : α} {l : List α} (h : StartsLastAfter key (key c) l e) :
    StartsLastAfter key last (c :: l) e := by
  obtain ⟨pre, rest, rfl, hsame, hbefore, hfirst⟩ := h
  refine ⟨c :: pre, rest, rfl, hsame, ?_, fun hnil => nomatch hnil⟩
  cases pre with
  | nil =>
    rintro b hb
    cases hb
    exact hfirst rfl
  | cons d pre =>
    rw [List.getLast?_cons_cons]
    exact hbefore

variable [DecidableEq κ]

/-- The elements whose key is not that of the last one kept. -/
def kept (key : α → κ) : κ → List α → List α
  | _, [] => []
  | last, a :: l => if last ≠ key a then a :: kept key (key a) l else kept key last l

theorem kept_eq_nil {last : κ} {l : List α} (h : ∀ a ∈ l, key a = last) : kept key last l = [] := by
  induction l with
  | nil => rfl
  | cons c l ih =>
    obtain ⟨hc, hl⟩ := List.forall_mem_cons.mp h
    rw [kept, if_neg (not_not.mpr hc.symm), ih hl]

/-- What is kept ends with the beginning of the last stretch, unless there is one stretch
only and its key is the one kept last. -/
theorem getLast_kept (last : κ) (l : List α) :
    (∀ a ∈ l, key a = last) ∨ ∃ e, (kept key last l).getLast? = some e ∧ StartsLastAfter key last l e := by
  induction l generalizing last with
  | nil => exact Or.inl (fun a ha => nomatch ha)
  | cons c l ih =>
    unfold kept
    split
    · next hother =>
      right
      rcases ih (key c) with hall | ⟨e, hlast, hstarts⟩
      · rw [kept_eq_nil hall]
        exact ⟨c, rfl, [], l, rfl, hall, (fun _ hb => nomatch (List.getLast?_nil ▸ hb : _ ∈ none)), fun _ => hother⟩
      · refine ⟨e, ?_, hstarts.cons⟩
        rw [List.getLast?_cons, hlast]
        rfl
    · next hsame =>
      have hkey : last = key c := not_not.mp hsame
      rcases ih last with hall | ⟨e, hlast, hstarts⟩
      · exact Or.inl (List.forall_mem_cons.mpr ⟨hkey.symm, hall⟩)
      · exact Or.inr ⟨e, hlast, StartsLastAfter.cons (hkey ▸ hstarts)⟩

end Coalesce

import Mathlib.Data.List.Nodup
import Mathlib.Logic.Function.Basic

/-! # Chains of cells in a heap

A heap is a partial function from addresses to cells, each with its datum and a pointer.
A segment of a chain leads from one pointer to another one through given cells.
-/
namespace Chain

structure Cell (α : Type*) where
  data : α
  prev : Option ℕ

abbrev Cells (α : Type*) := ℕ → Option (Cell α)

variable {α : Type*}

/-- From `start` through the cells of `l`, each with its address and its datum, to `stop`. -/
def Segment (cells : Cells α) (stop : Option ℕ) : Option ℕ → List (ℕ × α) → Prop
  | start, [] => start = stop
  | start, (a, d) :: l => start = some a ∧ ∃ next, cells a = some ⟨d, next⟩ ∧ Segment cells stop next l

abbrev addresses (l : List (ℕ × α)) : List ℕ := l.map Prod.fst

section Segment
variable {cells : Cells α} {start stop : Option ℕ} {a : ℕ} {d : α} {c : Option (Cell α)} {l m : List (ℕ × α)}

@[simp] theorem segment_nil : Segment cells stop start [] ↔ start = stop := Iff.rfl

theorem segment_cons :
    Segment cells stop start ((a, d) :: l) ↔ start = some a ∧ ∃ next, cells a = some ⟨d, next⟩ ∧ Segment cells stop next l :=
  Iff.rfl

theorem segment_append :
    Segment cells stop start (l ++ m) ↔ ∃ mid, Segment cells mid start l ∧ Segment cells stop mid m := by
  induction l generalizing start with
  | nil => simp
  | cons x l ih =>
    obtain ⟨a, d⟩ := x
    simp only [List.cons_append, segment_cons, ih]
    constructor
    · rintro ⟨hstart, next, hcell, mid, hl, hm⟩
      exact ⟨mid, ⟨hstart, next, hcell, hl⟩, hm⟩
    · rintro ⟨mid, ⟨hstart, next, hcell, hl⟩, hm⟩
      exact ⟨hstart, next, hcell, mid, hl, hm⟩

/-- A cell outside a segment may change. -/
theorem segment_update (ha : a ∉ addresses l) :
    Segment (Function.update cells a c) stop start l ↔ Segment cells stop start l := by
  induction l generalizing start with
  | nil => rfl
  | cons x l ih =>
    obtain ⟨b, d⟩ := x
    simp only [addresses, List.map_cons, List.mem_cons, not_or] at ha
    simp only [segment_cons, Function.update_of_ne (Ne.symm ha.1), ih ha.2]

/-- The last cell of a segment points to where the segment ends. -/
theorem segment_concat :
    Segment cells stop start (l ++ [(a, d)]) ↔ Segment cells (some a) start l ∧ cells a = some ⟨d, stop⟩ := by
  simp only [segment_append, segment_cons, segment_nil]
  constructor
  · rintro ⟨mid, hl, rfl, next, hcell, rfl⟩
    exact ⟨hl, hcell⟩
  · rintro ⟨hl, hcell⟩
    exact ⟨some a, hl, rfl, stop, hcell, rfl⟩

theorem Segment.cell_ne_none (h : Segment cells stop start l) (ha : a ∈ addresses l) : cells a ≠ none := by
  induction l generalizing start with
  | nil => exact absurd ha (by simp)
  | cons x l ih =>
    obtain ⟨b, d⟩ := x
    obtain ⟨_, next, hcell, hl⟩ := segment_cons.mp h
    rcases List.mem_cons.mp ha with rfl | ha
    · simp [hcell]
    · exact ih hl ha

/-- The address of the first cell, or where the segment ends. -/
theorem Segment.start_eq (h : Segment cells none start l) : start = (addresses l).head? := by
  cases l with
  | nil => exact h
  | cons x l => exact (segment_cons.mp h).1

end Segment

/-- The whole chain from a pointer on: no address twice, and no other cell in the heap. -/
structure Holds (cells : Cells α) (start : Option ℕ) (l : List (ℕ × α)) : Prop where
  linked : Segment cells none start l
  nodup : (addresses l).Nodup
  exact_cells : ∀ a, cells a ≠ none → a ∈ addresses l

section Holds
variable {cells : Cells α} {start next : Option ℕ} {a b : ℕ} {d e : α} {before after l : List (ℕ × α)}

theorem holds_empty : Holds (fun _ => none : Cells α) none [] := ⟨rfl, List.nodup_nil, fun _ h => absurd rfl h⟩

/-- A new cell in front of the chain. -/
theorem Holds.push (h : Holds cells start l) (hfresh : cells a = none) (d : α) :
    Holds (Function.update cells a (some ⟨d, start⟩)) (some a) ((a, d) :: l) := by
  have ha : a ∉ addresses l := fun hmem => h.linked.cell_ne_none hmem hfresh
  refine ⟨segment_cons.mpr ⟨rfl, start, by simp, (segment_update ha).mpr h.linked⟩, List.nodup_cons.mpr ⟨ha, h.nodup⟩, ?_⟩
  intro b hb
  by_cases hba : b = a
  · simp [hba]
  · rw [Function.update_of_ne hba] at hb
    exact List.mem_cons_of_mem _ (h.exact_cells b hb)

theorem Holds.released (h : Holds cells start (before ++ (a, d) :: after)) {cells' : Cells α}
    (ha : cells' a = none) (hothers : ∀ b, b ≠ a → (cells' b ≠ none → cells b ≠ none)) :
    (addresses (before ++ after)).Nodup ∧ ∀ b, cells' b ≠ none → b ∈ addresses (before ++ after) := by
  have hnodup := h.nodup
  simp only [addresses, List.map_append, List.map_cons] at hnodup ⊢
  refine ⟨(List.nodup_middle.mp hnodup).of_cons, fun b hb => ?_⟩
  have hba : b ≠ a := fun hba => hb (hba ▸ ha)
  have hmem := h.exact_cells b (hothers b hba hb)
  simp only [addresses, List.map_append, List.map_cons, List.mem_append, List.mem_cons] at hmem
  rw [List.mem_append]
  rcases hmem with hmem | hmem | hmem
  · exact Or.inl hmem
  · exact absurd hmem hba
  · exact Or.inr hmem

/-- The first cell is released and its pointer taken. -/
theorem Holds.pop (h : Holds cells start ((a, d) :: after)) (hcell : cells a = some ⟨e, next⟩) :
    Holds (Function.update cells a none) next after := by
  obtain ⟨_, next', hcell', hafter⟩ := segment_cons.mp h.linked
  obtain rfl : next = next' := by
    rw [hcell] at hcell'
    exact congrArg Cell.prev (Option.some.inj hcell')
  have ha : a ∉ addresses after := (List.nodup_cons.mp h.nodup).1
  have hlinked : Segment (Function.update cells a none) none next after := (segment_update ha).mpr hafter
  have hothers : ∀ b, b ≠ a → Function.update cells a none b ≠ none → cells b ≠ none := by
    intro b hba
    rw [Function.update_of_ne hba]
    exact id
  have hchain : Holds cells start ([] ++ (a, d) :: after) := h
  obtain ⟨hnodup, hexact⟩ := hchain.released (Function.update_self a none cells) hothers
  exact ⟨hlinked, hnodup, hexact⟩

/-- A cell behind another one is released, and its pointer stored in that one. -/
theorem Holds.unlink (h : Holds cells start (before ++ (b, e) :: (a, d) :: after)) (hcell : cells a = some ⟨d, next⟩) :
    Holds (Function.update (Function.update cells a none) b (some ⟨e, next⟩)) start (before ++ (b, e) :: after) := by
  have hsplit : before ++ (b, e) :: (a, d) :: after = (before ++ [(b, e)]) ++ (a, d) :: after := by simp
  rw [hsplit] at h
  obtain ⟨mid, hbefore, hrest⟩ := segment_append.mp h.linked
  obtain ⟨rfl, next', hcell', hafter⟩ := segment_cons.mp hrest
  obtain rfl : next = next' := by
    rw [hcell] at hcell'
    exact congrArg Cell.prev (Option.some.inj hcell')
  obtain ⟨hfront, -⟩ := segment_concat.mp hbefore
  have hnodup := h.nodup
  simp only [addresses, List.map_append, List.map_cons, List.map_nil] at hnodup
  have hapart := List.nodup_middle.mp hnodup
  have ha : a ∉ addresses before ∧ a ≠ b ∧ a ∉ addresses after := by
    have hmem := (List.nodup_cons.mp hapart).1
    simpa [not_or, and_assoc] using hmem
  have hb : b ∉ addresses before ∧ b ∉ addresses after := by
    have hrest := (List.nodup_cons.mp hapart).2
    rw [List.append_assoc, List.singleton_append] at hrest
    have hmem := (List.nodup_cons.mp (List.nodup_middle.mp hrest)).1
    simpa [not_or] using hmem
  have hsplit' : before ++ (b, e) :: after = (before ++ [(b, e)]) ++ after := by simp
  have hlinked : Segment (Function.update (Function.update cells a none) b (some ⟨e, next⟩)) none start
      ((before ++ [(b, e)]) ++ after) := by
    refine segment_append.mpr ⟨next, segment_concat.mpr ⟨?_, by simp⟩, ?_⟩
    · exact (segment_update hb.1).mpr ((segment_update ha.1).mpr hfront)
    · exact (segment_update hb.2).mpr ((segment_update ha.2.2).mpr hafter)
  have hothers : ∀ c, c ≠ a → Function.update (Function.update cells a none) b (some ⟨e, next⟩) c ≠ none → cells c ≠ none := by
    intro c hca
    by_cases hcb : c = b
    · subst hcb
      exact fun _ => h.linked.cell_ne_none (by simp)
    · rw [Function.update_of_ne hcb, Function.update_of_ne hca]
      exact id
  obtain ⟨hnodup', hexact⟩ := h.released (by simp [Function.update_of_ne ha.2.1]) hothers
  rw [hsplit']
  exact ⟨hlinked, hnodup', hexact⟩

end Holds

end Chain

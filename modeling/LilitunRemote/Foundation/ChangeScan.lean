import LilitunRemote.Foundation.Mirror
import Mathlib.Logic.Function.Basic
import Mathlib.Data.List.Nodup

/-! # Scans that commit what changed

A scan visits places of two families of cells. Where they differ it copies the new cell
over the old one and counts the place. As the places have cells of their own, the copies
do not disturb the comparisons still to come.
-/
namespace ChangeScan
variable {ι α β σ : Type*} {place : β → ι} {new old : ι → α}

def cells (place : β → ι) (ps : List β) : Set ι := {i | ∃ p ∈ ps, i = place p}

theorem mem_cells {ps : List β} {i : ι} : i ∈ cells place ps ↔ ∃ p ∈ ps, i = place p := Iff.rfl

/-- Patching the cells of two lists one after the other patches the cells of both. -/
theorem patch_append (ps qs : List β) :
    Mirror.patch (cells place qs) new (Mirror.patch (cells place ps) new old) =
      Mirror.patch (cells place (ps ++ qs)) new old := by
  funext i
  have happ : i ∈ cells place (ps ++ qs) ↔ i ∈ cells place ps ∨ i ∈ cells place qs := by
    simp only [mem_cells, List.mem_append, or_and_right, exists_or]
  by_cases hq : i ∈ cells place qs
  · rw [Mirror.patch_apply_of_mem hq, Mirror.patch_apply_of_mem (happ.mpr (Or.inr hq))]
  · rw [Mirror.patch_apply_of_notMem hq]
    by_cases hp : i ∈ cells place ps
    · rw [Mirror.patch_apply_of_mem hp, Mirror.patch_apply_of_mem (happ.mpr (Or.inl hp))]
    · have hn : i ∉ cells place (ps ++ qs) := fun h => (happ.mp h).elim hp hq
      rw [Mirror.patch_apply_of_notMem hp, Mirror.patch_apply_of_notMem hn]

theorem patch_nil : Mirror.patch (cells place []) new old = old := by
  funext i
  apply Mirror.patch_apply_of_notMem
  rintro ⟨q, hq, _⟩
  cases hq

theorem cells_map {γ : Type*} (f : γ → β) (ps : List γ) : cells place (ps.map f) = cells (fun p => place (f p)) ps := by
  ext i
  simp [mem_cells]

variable [DecidableEq α]

/-- The places whose cells differ, in the order of the scan. -/
def differing (place : β → ι) (new old : ι → α) (ps : List β) : List β :=
  ps.filter (fun p => new (place p) ≠ old (place p))

theorem mem_differing {ps : List β} {p : β} : p ∈ differing place new old ps ↔ p ∈ ps ∧ new (place p) ≠ old (place p) := by
  simp [differing]

theorem differing_append (ps qs : List β) :
    differing place new old (ps ++ qs) = differing place new old ps ++ differing place new old qs :=
  List.filter_append ..

theorem differing_map {γ : Type*} (f : γ → β) (ps : List γ) :
    differing place new old (ps.map f) = (differing (fun p => place (f p)) new old ps).map f :=
  List.filter_map

/-- Places outside a patch compare as before it. -/
theorem differing_patch {ps qs : List β} (h : ∀ p ∈ ps, place p ∉ cells place qs) :
    differing place new (Mirror.patch (cells place qs) new old) ps = differing place new old ps := by
  apply List.filter_congr
  intro p hp
  rw [Mirror.patch_apply_of_notMem (h p hp)]

variable [DecidableEq ι]

def visit (place : β → ι) (new : ι → α) (count : σ → β → σ) (s : (ι → α) × σ) (p : β) : (ι → α) × σ :=
  if new (place p) ≠ s.1 (place p) then (Function.update s.1 (place p) (new (place p)), count s.2 p) else s

omit [DecidableEq α] in
theorem patch_singleton (p : β) :
    Mirror.patch (cells place [p]) new old = Function.update old (place p) (new (place p)) := by
  funext i
  by_cases hi : i = place p
  · have hmem : i ∈ cells place [p] := ⟨p, List.mem_singleton_self p, hi⟩
    rw [Mirror.patch_apply_of_mem hmem, hi, Function.update_self]
  · have hnot : i ∉ cells place [p] := by
      rintro ⟨q, hq, he⟩
      rw [List.mem_singleton.mp hq] at he
      exact hi he
    rw [Mirror.patch_apply_of_notMem hnot, Function.update_of_ne hi]

omit [DecidableEq α] in
/-- Copying the new cells one by one patches them. -/
theorem foldl_update (ps : List β) (old : ι → α) :
    ps.foldl (fun f p => Function.update f (place p) (new (place p))) old = Mirror.patch (cells place ps) new old := by
  induction ps generalizing old with
  | nil => exact patch_nil.symm
  | cons p ps ih => rw [List.foldl_cons, ih, ← patch_singleton, patch_append, List.singleton_append]

/-- A visit leaves the new cell at its place, whether it had to copy it or not. -/
theorem visit_eq (new : ι → α) (count : σ → β → σ) (s : (ι → α) × σ) (p : β) :
    visit place new count s p =
      (Mirror.patch (cells place [p]) new s.1, (differing place new s.1 [p]).foldl count s.2) := by
  rw [patch_singleton]
  unfold visit
  split
  · next hne => simp [differing, hne]
  · next heq =>
    have hsame := not_not.mp heq
    rw [hsame, Function.update_eq_self]
    simp [differing, hsame]

/-- After a scan of places with cells of their own, the scanned cells are new and the
places that differed at the start have been counted. -/
theorem foldl_visit (new : ι → α) (count : σ → β → σ) {ps : List β} (hnd : (ps.map place).Nodup) (s : (ι → α) × σ) :
    ps.foldl (visit place new count) s =
      (Mirror.patch (cells place ps) new s.1, (differing place new s.1 ps).foldl count s.2) := by
  induction ps generalizing s with
  | nil =>
    rw [patch_nil]
    rfl
  | cons p ps ih =>
    rw [List.map_cons, List.nodup_cons] at hnd
    have hrest : ∀ q ∈ ps, place q ∉ cells place [p] := by
      rintro q hq ⟨r, hr, he⟩
      rw [List.mem_singleton.mp hr] at he
      exact hnd.1 (List.mem_map.mpr ⟨q, hq, he⟩)
    rw [List.foldl_cons, ih hnd.2, visit_eq, differing_patch hrest, patch_append, ← List.foldl_append,
      ← differing_append, List.singleton_append]

end ChangeScan

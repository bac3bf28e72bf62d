import Mathlib.Data.Set.Piecewise
import Mathlib.Data.Nat.Basic

/-! # Mirrors of a family of cells, and row-major grids

A mirror receives patches of a family of cells. It stays equal to the original
as long as each patch covers everything that changed since the last one, even
when it carries cells that did not change. Committing a new family part by part
ends in the new family once the parts cover every cell.
-/
namespace Mirror
variable {ι α : Type*}

open Classical in
noncomputable def patch (T : Set ι) (new old : ι → α) : ι → α := T.piecewise new old

theorem patch_apply_of_mem {T : Set ι} {new old : ι → α} {i : ι} (h : i ∈ T) : patch T new old i = new i := by
  classical
  exact Set.piecewise_eq_of_mem T new old h

theorem patch_apply_of_notMem {T : Set ι} {new old : ι → α} {i : ι} (h : i ∉ T) : patch T new old i = old i := by
  classical
  exact Set.piecewise_eq_of_notMem T new old h

/-- A mirror equal to the old family is equal to the new one after a patch that
covers the change. -/
theorem patch_eq_of_covers {T : Set ι} {new old view : ι → α} (hview : view = old)
    (hcover : ∀ i, i ∉ T → new i = old i) : patch T new view = new := by
  funext i
  by_cases hi : i ∈ T
  · exact patch_apply_of_mem hi
  · rw [patch_apply_of_notMem hi, hview, hcover i hi]

/-- Commit the parts one after the other. -/
noncomputable def commit (new : ι → α) (parts : List (Set ι)) (old : ι → α) : ι → α :=
  parts.foldl (fun f T => patch T new f) old

/-- After all parts the covered cells are new and the others are old. -/
theorem commit_eq_patch (new : ι → α) (parts : List (Set ι)) (old : ι → α) :
    commit new parts old = patch {i | ∃ T ∈ parts, i ∈ T} new old := by
  induction parts generalizing old with
  | nil =>
    funext i
    exact (patch_apply_of_notMem (T := {i | ∃ T ∈ ([] : List (Set ι)), i ∈ T}) (by simp)).symm
  | cons T parts ih =>
    have hstep : commit new (T :: parts) old = commit new parts (patch T new old) := rfl
    rw [hstep, ih]
    funext i
    by_cases hrest : i ∈ {i | ∃ U ∈ parts, i ∈ U}
    · have hcons : i ∈ {i | ∃ V ∈ T :: parts, i ∈ V} := by
        obtain ⟨U, hU, hi⟩ := hrest
        exact ⟨U, List.mem_cons_of_mem _ hU, hi⟩
      rw [patch_apply_of_mem hrest, patch_apply_of_mem hcons]
    · rw [patch_apply_of_notMem hrest]
      by_cases hi : i ∈ T
      · have hcons : i ∈ {i | ∃ V ∈ T :: parts, i ∈ V} := ⟨T, List.mem_cons_self, hi⟩
        rw [patch_apply_of_mem hi, patch_apply_of_mem hcons]
      · have hcons : i ∉ {i | ∃ V ∈ T :: parts, i ∈ V} := by
          rintro ⟨U, hU, hiU⟩
          rcases List.mem_cons.mp hU with rfl | hU
          · exact hi hiU
          · exact hrest ⟨U, hU, hiU⟩
        rw [patch_apply_of_notMem hi, patch_apply_of_notMem hcons]

theorem commit_eq_of_cover {new : ι → α} {parts : List (Set ι)} {old : ι → α} {i : ι}
    (h : ∃ T ∈ parts, i ∈ T) : commit new parts old i = new i := by
  have hi : i ∈ {i | ∃ T ∈ parts, i ∈ T} := h
  rw [commit_eq_patch, patch_apply_of_mem hi]

end Mirror

namespace Grid

/-- A cell of a row-major grid determines its row and column. -/
theorem index_inj {w x y x' y' : ℕ} (hx : x < w) (hx' : x' < w) (h : y * w + x = y' * w + x') :
    y = y' ∧ x = x' := by
  have hdiv : ∀ {a b : ℕ}, b < w → (a * w + b) / w = a := by
    intro a b hb
    rw [Nat.mul_comm, Nat.mul_add_div (by omega), Nat.div_eq_of_lt hb, Nat.add_zero]
  have hy : y = y' := by rw [← hdiv (a := y) hx, h, hdiv hx']
  subst hy
  exact ⟨rfl, by omega⟩

theorem index_lt {w h x y : ℕ} (hx : x < w) (hy : y < h) : y * w + x < w * h := by
  have hle : (y + 1) * w ≤ h * w := Nat.mul_le_mul_right w hy
  rw [Nat.add_mul, Nat.one_mul] at hle
  rw [Nat.mul_comm w h]
  omega

/-- Every cell below `w * h` has a row and a column. -/
theorem exists_coords {w h i : ℕ} (hi : i < w * h) : ∃ y < h, ∃ x < w, i = y * w + x := by
  have hw : 0 < w := by
    rcases Nat.eq_zero_or_pos w with rfl | hw
    · simp at hi
    · exact hw
  refine ⟨i / w, Nat.div_lt_of_lt_mul hi, i % w, Nat.mod_lt i hw, ?_⟩
  rw [Nat.mul_comm]
  exact (Nat.div_add_mod i w).symm

end Grid

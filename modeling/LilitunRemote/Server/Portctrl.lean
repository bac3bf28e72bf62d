import Mathlib.Data.List.Basic
import Mathlib.Logic.Function.Basic
import Mathlib.Tactic.Ring

/-! # The pool of client ports

`portctrl.c`: one mark for each port of the range. Port numbers are unsigned 32-bit
words, and the number 0 stands for no port, so a port whose number wraps to 0 is
never handed out. Both calls hold `ports_mutex` throughout and are atomic here.
-/
namespace LilitunRemote

structure PortRange where
  base : ℕ
  max : ℕ
  base_lt : base < 2 ^ 32
  max_le : max ≤ 65536

namespace PortRange
variable (range : PortRange)

abbrev Marks := ℕ → Bool

def portOf (i : ℕ) : ℕ := (i + range.base) % 2 ^ 32

def portctrlAlloc (ports : Marks) : ℕ × Marks :=
  match (List.range range.max).find? (fun i => !ports i) with
  | none => (0, ports)
  | some i => if range.portOf i ≠ 0 then (range.portOf i, Function.update ports i true) else (0, ports)

def portctrlFree (num : ℕ) (ports : Marks) : Marks :=
  let i := (num + 2 ^ 32 - range.base) % 2 ^ 32
  if num ≠ 0 ∧ i < range.max then Function.update ports i false else ports

variable {range}

theorem portOf_index {i : ℕ} (hi : i < range.max) : (range.portOf i + 2 ^ 32 - range.base) % 2 ^ 32 = i := by
  have hbase := range.base_lt
  have hmax := range.max_le
  unfold portOf
  omega

theorem portOf_inj {i j : ℕ} (hi : i < range.max) (hj : j < range.max) (h : range.portOf i = range.portOf j) : i = j := by
  rw [← portOf_index hi, ← portOf_index hj, h]

/-- An allocation gives no port and changes nothing, or marks a free port and gives it. -/
theorem portctrlAlloc_cases (range : PortRange) (ports : Marks) :
    range.portctrlAlloc ports = (0, ports) ∨
      ∃ i < range.max, ports i = false ∧ range.portOf i ≠ 0 ∧
        range.portctrlAlloc ports = (range.portOf i, Function.update ports i true) := by
  unfold portctrlAlloc
  cases hfind : (List.range range.max).find? (fun i => !ports i) with
  | none => exact Or.inl rfl
  | some i =>
    have hfree : ports i = false := by simpa using List.find?_some hfind
    have hi : i < range.max := List.mem_range.mp (List.mem_of_find?_eq_some hfind)
    by_cases hport : range.portOf i ≠ 0
    · exact Or.inr ⟨i, hi, hfree, hport, if_pos hport⟩
    · exact Or.inl (if_neg hport)

theorem portctrlFree_zero (ports : Marks) : range.portctrlFree 0 ports = ports := by
  unfold portctrlFree
  exact if_neg (fun h => h.1 rfl)

theorem portctrlFree_portOf {i : ℕ} (hi : i < range.max) (hport : range.portOf i ≠ 0) (ports : Marks) :
    range.portctrlFree (range.portOf i) ports = Function.update ports i false := by
  unfold portctrlFree
  simp only [portOf_index hi]
  exact if_pos ⟨hport, hi⟩

/-! ## Who holds a port -/

/-- The ports that some holders have: each has the number of a port of the range or 0,
no two of them have the same, and the marked ports are those that are held. -/
structure Owned {κ : Type*} (range : PortRange) (ports : Marks) (held : κ → ℕ) : Prop where
  valid : ∀ k, held k ≠ 0 → ∃ i < range.max, held k = range.portOf i
  exclusive : ∀ k l, held k ≠ 0 → held k = held l → k = l
  marked : ∀ i < range.max, ports i = true ↔ range.portOf i ≠ 0 ∧ ∃ k, held k = range.portOf i

section Owned
variable {κ : Type*} [DecidableEq κ] {ports : Marks} {held : κ → ℕ}

theorem Owned.alloc (h : Owned range ports held) {k : κ} (hk : held k = 0) :
    Owned range (range.portctrlAlloc ports).2 (Function.update held k (range.portctrlAlloc ports).1) := by
  rcases portctrlAlloc_cases range ports with hnone | ⟨i, hi, hfree, hport, hsome⟩
  · rw [hnone, show (0 : ℕ) = held k from hk.symm, Function.update_eq_self]
    exact h
  · rw [hsome]
    dsimp only
    have hunheld : ∀ l, held l ≠ range.portOf i := by
      intro l hl
      have := (h.marked i hi).mpr ⟨hport, l, hl⟩
      rw [hfree] at this
      cases this
    refine ⟨?_, ?_, ?_⟩
    · intro l hl
      by_cases hlk : l = k
      · subst hlk
        exact ⟨i, hi, Function.update_self ..⟩
      · rw [Function.update_of_ne hlk] at hl ⊢
        exact h.valid l hl
    · intro l m hl hlm
      by_cases hlk : l = k <;> by_cases hmk : m = k
      · rw [hlk, hmk]
      · subst hlk
        rw [Function.update_self, Function.update_of_ne hmk] at hlm
        exact absurd hlm.symm (hunheld m)
      · subst hmk
        rw [Function.update_self, Function.update_of_ne hlk] at hlm
        exact absurd hlm (hunheld l)
      · rw [Function.update_of_ne hlk] at hl hlm
        rw [Function.update_of_ne hmk] at hlm
        exact h.exclusive l m hl hlm
    · intro j hj
      by_cases hji : j = i
      · subst hji
        simp only [Function.update_self, true_iff]
        exact ⟨hport, k, Function.update_self ..⟩
      · rw [Function.update_of_ne hji, h.marked j hj]
        refine and_congr_right (fun _ => ⟨fun ⟨l, hl⟩ => ⟨l, ?_⟩, fun ⟨l, hl⟩ => ⟨l, ?_⟩⟩)
        · have hlk : l ≠ k := by
            rintro rfl
            exact absurd (hk ▸ hl).symm ‹_›
          rw [Function.update_of_ne hlk]
          exact hl
        · have hlk : l ≠ k := by
            rintro rfl
            rw [Function.update_self] at hl
            exact hji (portOf_inj hi hj hl).symm
          rw [Function.update_of_ne hlk] at hl
          exact hl

theorem Owned.free (h : Owned range ports held) (k : κ) :
    Owned range (range.portctrlFree (held k) ports) (Function.update held k 0) := by
  by_cases hk : held k = 0
  · rw [hk, portctrlFree_zero, show (0 : ℕ) = held k from hk.symm, Function.update_eq_self]
    exact h
  · obtain ⟨i, hi, hport⟩ := h.valid k hk
    have hne : range.portOf i ≠ 0 := hport ▸ hk
    rw [hport, portctrlFree_portOf hi hne]
    have hother : ∀ l, l ≠ k → held l ≠ range.portOf i := by
      intro l hlk hl
      exact hlk (h.exclusive l k (by rw [hl]; exact hne) (hl.trans hport.symm))
    refine ⟨?_, ?_, ?_⟩
    · intro l hl
      have hlk : l ≠ k := by
        rintro rfl
        exact hl (Function.update_self ..)
      rw [Function.update_of_ne hlk] at hl ⊢
      exact h.valid l hl
    · intro l m hl hlm
      have hlk : l ≠ k := by
        rintro rfl
        exact hl (Function.update_self ..)
      have hmk : m ≠ k := by
        rintro rfl
        exact hl (hlm.trans (Function.update_self ..))
      rw [Function.update_of_ne hlk] at hl hlm
      rw [Function.update_of_ne hmk] at hlm
      exact h.exclusive l m hl hlm
    · intro j hj
      by_cases hji : j = i
      · subst hji
        simp only [Function.update_self, Bool.false_eq_true, false_iff, not_and, not_exists]
        intro _ l hl
        by_cases hlk : l = k
        · subst hlk
          rw [Function.update_self] at hl
          exact hne hl.symm
        · rw [Function.update_of_ne hlk] at hl
          exact hother l hlk hl
      · rw [Function.update_of_ne hji, h.marked j hj]
        refine and_congr_right (fun hjport => ⟨fun ⟨l, hl⟩ => ⟨l, ?_⟩, fun ⟨l, hl⟩ => ⟨l, ?_⟩⟩)
        · have hlk : l ≠ k := by
            rintro rfl
            exact hji (portOf_inj hj hi (hl.symm.trans hport))
          rw [Function.update_of_ne hlk]
          exact hl
        · have hlk : l ≠ k := by
            rintro rfl
            rw [Function.update_self] at hl
            exact hjport hl.symm
          rw [Function.update_of_ne hlk] at hl
          exact hl

end Owned

end PortRange
end LilitunRemote

import Mathlib.Data.List.TakeWhile

/-! # Terminated texts

A text in a buffer ends before the first terminator, or with the buffer.
-/
namespace Terminated
variable {α : Type*} [DecidableEq α] {z : α} {l s : List α}

theorem takeWhile_eq_self (h : z ∉ l) : l.takeWhile (· ≠ z) = l := by
  rw [List.takeWhile_eq_self_iff]
  intro a ha
  exact decide_eq_true (fun heq => h (heq ▸ ha))

/-- A part without the terminator is passed. -/
theorem takeWhile_append_left (h : z ∉ s) (l : List α) : (s ++ l).takeWhile (· ≠ z) = s ++ l.takeWhile (· ≠ z) := by
  have hall : ∀ a ∈ s, decide (a ≠ z) = true := fun a ha => decide_eq_true (fun heq => h (heq ▸ ha))
  exact List.takeWhile_append_of_pos hall

theorem takeWhile_append (h : z ∉ s) (rest : List α) : (s ++ z :: rest).takeWhile (· ≠ z) = s := by
  rw [takeWhile_append_left h, List.takeWhile_cons]
  simp

theorem not_mem_takeWhile (l : List α) : z ∉ l.takeWhile (· ≠ z) := by
  intro h
  have hne := List.mem_takeWhile_imp h
  simp at hne

/-- A buffer holds a text if it is the text, or begins with the text and the terminator. -/
theorem takeWhile_eq_iff : l.takeWhile (· ≠ z) = s ↔ z ∉ s ∧ (l = s ∨ s ++ [z] <+: l) := by
  constructor
  · rintro rfl
    refine ⟨not_mem_takeWhile l, ?_⟩
    have hsplit := List.takeWhile_append_dropWhile (p := (· ≠ z)) (l := l)
    cases hrest : l.dropWhile (· ≠ z) with
    | nil =>
      rw [hrest, List.append_nil] at hsplit
      exact Or.inl hsplit.symm
    | cons c rest =>
      have hc : c = z := by
        have hhead := List.head_dropWhile_not (· ≠ z) (l := l) (by rw [hrest]; simp)
        simp only [hrest, List.head_cons, decide_eq_false_iff_not, not_not] at hhead
        exact hhead
      rw [hrest, hc] at hsplit
      exact Or.inr ⟨rest, by rw [List.append_assoc]; exact hsplit⟩
  · rintro ⟨hz, rfl | ⟨rest, rfl⟩⟩
    · exact takeWhile_eq_self hz
    · rw [List.append_assoc]
      exact takeWhile_append hz rest

end Terminated

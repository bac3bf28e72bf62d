import Mathlib.Data.List.Basic
import Mathlib.Data.List.Count

/-! # Buffers with one owning pointer

A heap hands out numbered buffers and keeps the list of all releases. A pointer owns
the heap when every buffer is released exactly once, except the one the pointer
denotes, which is not released yet.
-/
namespace Ownership

structure Heap where
  allocated : ℕ
  released : List ℕ
  deriving DecidableEq, Repr

namespace Heap

def empty : Heap := ⟨0, []⟩

def malloc (h : Heap) : Heap := { h with allocated := h.allocated + 1 }

def free (h : Heap) : Option ℕ → Heap
  | none => h
  | some b => { h with released := b :: h.released }

structure Owned (h : Heap) (owner : Option ℕ) : Prop where
  live : ∀ b, owner = some b → b < h.allocated ∧ b ∉ h.released
  once : ∀ b < h.allocated, owner ≠ some b → h.released.count b = 1
  known : ∀ b ∈ h.released, b < h.allocated

variable {h : Heap} {owner : Option ℕ}

theorem empty_owned : empty.Owned none :=
  ⟨fun _ hb => (Option.some_ne_none _ hb.symm).elim, fun _ hb _ => (Nat.not_lt_zero _ hb).elim, fun _ hb => nomatch hb⟩

/-- A new buffer may take the pointer only when it owns nothing. -/
theorem malloc_owned_iff (hown : h.Owned owner) : h.malloc.Owned (some h.allocated) ↔ owner = none := by
  constructor
  · intro hnew
    cases owner with
    | none => rfl
    | some b =>
      obtain ⟨hb, hfree⟩ := hown.live b rfl
      have hne : (some h.allocated) ≠ some b := by
        intro he
        exact absurd (Option.some.inj he) (by omega)
      have hcount := hnew.once b (Nat.lt_succ_of_lt hb) hne
      rw [show h.malloc.released = h.released from rfl, List.count_eq_zero_of_not_mem hfree] at hcount
      cases hcount
  · rintro rfl
    refine ⟨?_, ?_, fun b hb => Nat.lt_succ_of_lt (hown.known b hb)⟩
    · intro b hb
      obtain rfl := Option.some.inj hb
      exact ⟨Nat.lt_succ_self _, fun hmem => absurd (hown.known _ hmem) (Nat.lt_irrefl _)⟩
    · intro b hb hne
      have hlt : b < h.allocated := by
        have hb' : b < h.allocated + 1 := hb
        have : h.allocated ≠ b := fun he => hne (congrArg some he)
        omega
      exact hown.once b hlt (Option.some_ne_none b).symm

/-- Releasing what the pointer denotes and clearing it. -/
theorem free_owned (hown : h.Owned owner) : (h.free owner).Owned none := by
  cases owner with
  | none => exact hown
  | some b =>
    obtain ⟨hb, hfree⟩ := hown.live b rfl
    refine ⟨fun _ hc => (Option.some_ne_none _ hc.symm).elim, ?_, ?_⟩
    · intro c hc _
      change (b :: h.released).count c = 1
      by_cases hcb : b = c
      · subst hcb
        rw [List.count_cons_self, List.count_eq_zero_of_not_mem hfree]
      · rw [List.count_cons_of_ne hcb]
        exact hown.once c hc (fun he => hcb (Option.some.inj he))
    · intro c hc
      rcases List.mem_cons.mp hc with rfl | hc
      · exact hb
      · exact hown.known c hc

/-- Releasing what the pointer denotes without clearing it. -/
theorem free_kept_owned_iff (hown : h.Owned owner) : (h.free owner).Owned owner ↔ owner = none := by
  constructor
  · intro hkept
    cases owner with
    | none => rfl
    | some b => exact absurd List.mem_cons_self (hkept.live b rfl).2
  · rintro rfl
    exact hown

end Heap
end Ownership

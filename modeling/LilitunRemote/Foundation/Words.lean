import LilitunRemote.Foundation.Memory
import Mathlib.Logic.Function.Basic

/-! # Word memory that remembers its accesses

A block of 32-bit words, addressed from its start by signed indices. A load or a store
leaves its index in `accessed`, so that what a computation does and whether it stays
within an allocation of so many bytes are two questions about one run.
-/
namespace Memory

structure Words where
  cell : ℤ → UInt32
  accessed : List ℤ

namespace Words

def fresh (cell : ℤ → UInt32) : Words := ⟨cell, []⟩

def load (m : Words) (i : ℤ) : UInt32 × Words := (m.cell i, { m with accessed := i :: m.accessed })

def store (m : Words) (i : ℤ) (v : UInt32) : Words := ⟨Function.update m.cell i v, i :: m.accessed⟩

def Inside (bytes : ℕ) (i : ℤ) : Prop := 0 ≤ i ∧ 4 * i + 4 ≤ bytes

instance (bytes : ℕ) (i : ℤ) : Decidable (Inside bytes i) := inferInstanceAs (Decidable (_ ∧ _))

def Within (bytes : ℕ) (m : Words) : Prop := ∀ i ∈ m.accessed, Inside bytes i

@[simp] theorem load_fst (m : Words) (i : ℤ) : (m.load i).1 = m.cell i := rfl
@[simp] theorem load_cell (m : Words) (i : ℤ) : (m.load i).2.cell = m.cell := rfl
@[simp] theorem load_accessed (m : Words) (i : ℤ) : (m.load i).2.accessed = i :: m.accessed := rfl
@[simp] theorem store_cell (m : Words) (i : ℤ) (v : UInt32) : (m.store i v).cell = Function.update m.cell i v := rfl
@[simp] theorem store_accessed (m : Words) (i : ℤ) (v : UInt32) : (m.store i v).accessed = i :: m.accessed := rfl

/-- The words of a buffer of bytes, the first byte of a word being its lowest. -/
def ofBuffer (b : Buffer) : Words :=
  fresh (fun i =>
    let byte := fun k : ℕ => (b.getD ((4 * i).toNat + k) 0).toNat
    UInt32.ofNat (byte 0 + byte 1 * 2 ^ 8 + byte 2 * 2 ^ 16 + byte 3 * 2 ^ 24))

/-- The rule for logs: when every step adds what it touches, a loop adds what its steps
touch. -/
theorem mem_foldl_log {σ β : Type*} {f : σ → β → σ} (log : σ → List ℤ) {touch : β → ℤ → Prop}
    (hstep : ∀ s p i, i ∈ log (f s p) ↔ i ∈ log s ∨ touch p i) (ps : List β) (s : σ) (i : ℤ) :
    i ∈ log (ps.foldl f s) ↔ i ∈ log s ∨ ∃ p ∈ ps, touch p i := by
  induction ps generalizing s with
  | nil => simp
  | cons p ps ih =>
    rw [List.foldl_cons, ih, hstep]
    simp only [List.mem_cons, exists_eq_or_imp, or_assoc]

theorem of_mem_foldl_log {σ β : Type*} {f : σ → β → σ} (log : σ → List ℤ) {touch : β → ℤ → Prop}
    (hstep : ∀ s p i, i ∈ log (f s p) → i ∈ log s ∨ touch p i) (ps : List β) (s : σ) (i : ℤ)
    (hi : i ∈ log (ps.foldl f s)) : i ∈ log s ∨ ∃ p ∈ ps, touch p i := by
  induction ps generalizing s with
  | nil => exact Or.inl hi
  | cons p ps ih =>
    rcases ih (f s p) hi with hi | ⟨q, hq, htouch⟩
    · rcases hstep s p i hi with hi | htouch
      · exact Or.inl hi
      · exact Or.inr ⟨p, List.mem_cons_self, htouch⟩
    · exact Or.inr ⟨q, List.mem_cons_of_mem _ hq, htouch⟩

end Words
end Memory

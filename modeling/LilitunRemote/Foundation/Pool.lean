import Mathlib.Data.Set.Insert

/-! # Pools of numbers

A pool hands out the numbers of a set, each to one holder at a time, and takes them back.
One number stands for none.
-/
namespace Pool

inductive Call (ν : Type*)
  | alloc
  | free (n : ν)
  deriving DecidableEq, Repr

/-- The functions of a pool, and the number that is none; a mark says that a number is in use. -/
structure Impl (ν σ : Type*) where
  nothing : ν
  alloc : σ → ν × σ
  free : ν → σ → ℕ × σ
  mark : σ → ν → Bool

section Contract
variable {ν σ : Type*} [DecidableEq ν] (pool : Impl ν σ) (numbers : Set ν)

/-- A number that nobody holds is handed out and is in use from then on, and no number only
if all are held. -/
def AllocOk (s : σ) (held : Set ν) : Prop :=
  ((pool.alloc s).1 ≠ pool.nothing ∧ (pool.alloc s).1 ∈ numbers ∧ (pool.alloc s).1 ∉ held ∧
      pool.mark (pool.alloc s).2 (pool.alloc s).1 = true) ∨
    ((pool.alloc s).1 = pool.nothing ∧ ∀ n ∈ numbers, n ≠ pool.nothing → n ∈ held)

/-- The numbers of the pool are accepted, and no other number changes its status. -/
def FreeOk (n : ν) (s : σ) : Prop :=
  ((pool.free n s).1 = 1 ↔ n ≠ pool.nothing ∧ n ∈ numbers) ∧
    ∀ m ∈ numbers, m ≠ n → pool.mark (pool.free n s).2 m = pool.mark s m

/-- Who holds what, by the calls and what they returned. -/
def heldAfterAlloc (s : σ) (held : Set ν) : Set ν := if (pool.alloc s).1 = pool.nothing then held else insert (pool.alloc s).1 held

def Contract : σ → Set ν → List (Call ν) → Prop
  | _, _, [] => True
  | s, held, .alloc :: calls => AllocOk pool numbers s held ∧ Contract (pool.alloc s).2 (heldAfterAlloc pool s held) calls
  | s, held, .free n :: calls => FreeOk pool numbers n s ∧ Contract (pool.free n s).2 (held \ {n}) calls

/-- An invariant between the state and the held numbers is enough for all runs. -/
theorem contract_of_invariant {pool : Impl ν σ} {numbers : Set ν} (Inv : σ → Set ν → Prop)
    (halloc : ∀ s held, Inv s held → AllocOk pool numbers s held ∧ Inv (pool.alloc s).2 (heldAfterAlloc pool s held))
    (hfree : ∀ n s held, Inv s held → FreeOk pool numbers n s ∧ Inv (pool.free n s).2 (held \ {n}))
    {s : σ} {held : Set ν} (h : Inv s held) (calls : List (Call ν)) : Contract pool numbers s held calls := by
  induction calls generalizing s held with
  | nil => trivial
  | cons call calls ih =>
    cases call with
    | alloc =>
      obtain ⟨hok, hinv⟩ := halloc s held h
      exact ⟨hok, ih hinv⟩
    | free n =>
      obtain ⟨hok, hinv⟩ := hfree n s held h
      exact ⟨hok, ih hinv⟩

end Contract

end Pool

import Mathlib.Logic.Relation
import Mathlib.Data.Nat.Basic

/-! # Lock order

Threads hold locks and wait for a lock or for the end of another thread. Where everything
a thread waits for ranks above whatever keeps others waiting for it, no threads wait for each
other in a cycle.
-/

structure WaitGraph (T L : Type*) where
  owner : L → Option T
  wants : T → Option (L ⊕ T)
  running : T → Prop

namespace WaitGraph
variable {T L : Type*} (g : WaitGraph T L)

/-- The first thread waits for a lock of the second, or for its end. -/
def WaitsFor (t u : T) : Prop :=
  (∃ l, g.wants t = some (.inl l) ∧ g.owner l = some u) ∨ (g.wants t = some (.inr u) ∧ g.running u)

/-- A wait for a lock, or for a thread that has not ended. -/
def Waits (t : T) (x : L ⊕ T) : Prop := g.wants t = some x ∧ ∀ u, x = .inr u → g.running u

/-- A waiting thread waits for something above each lock it holds, and above its own end if
another thread waits for that. -/
structure Ordered (rank : L ⊕ T → ℕ) : Prop where
  held : ∀ t l x, g.owner l = some t → g.Waits t x → rank (.inl l) < rank x
  joined : ∀ t u x, g.Waits t (.inr u) → g.Waits u x → rank (.inr u) < rank x

variable {g} {rank : L ⊕ T → ℕ}

theorem WaitsFor.waits {t u : T} (h : g.WaitsFor t u) : ∃ x, g.Waits t x := by
  rcases h with ⟨l, hwants, _⟩ | ⟨hwants, hrunning⟩
  · exact ⟨.inl l, hwants, by simp⟩
  · refine ⟨.inr u, hwants, ?_⟩
    intro v hv
    rw [← Sum.inr.inj hv]
    exact hrunning

def level (g : WaitGraph T L) (rank : L ⊕ T → ℕ) (t : T) : ℕ := (g.wants t).elim 0 rank

theorem Ordered.level_lt (h : g.Ordered rank) {t u v : T} (htu : g.WaitsFor t u) (huv : g.WaitsFor u v) :
    g.level rank t < g.level rank u := by
  obtain ⟨x, hx⟩ := huv.waits
  rcases htu with ⟨l, hwants, howner⟩ | ⟨hwants, hrunning⟩
  · have hlt := h.held u l x howner hx
    rw [level, level, hwants, hx.1]
    exact hlt
  · have hwaits : g.Waits t (.inr u) := by
      refine ⟨hwants, ?_⟩
      intro w hw
      rw [← Sum.inr.inj hw]
      exact hrunning
    have hlt := h.joined t u x hwaits hx
    rw [level, level, hwants, hx.1]
    exact hlt

theorem Ordered.level_lt_of_transGen (h : g.Ordered rank) {t u v : T} (htu : Relation.TransGen g.WaitsFor t u)
    (huv : g.WaitsFor u v) : g.level rank t < g.level rank u := by
  induction htu generalizing v with
  | single hstep => exact h.level_lt hstep huv
  | tail _ hstep ih => exact Nat.lt_trans (ih hstep) (h.level_lt hstep huv)

/-- No thread waits, directly or through others, for itself. -/
theorem Ordered.acyclic (h : g.Ordered rank) (t : T) : ¬ Relation.TransGen g.WaitsFor t t := by
  intro hcycle
  obtain ⟨u, hstep, _⟩ := Relation.TransGen.head'_iff.mp hcycle
  exact Nat.lt_irrefl _ (h.level_lt_of_transGen hcycle hstep)

end WaitGraph

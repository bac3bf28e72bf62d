import Mathlib.Data.List.Basic
import Mathlib.Data.List.Nodup

/-! # Layers painted now or later

Partial pictures arrive in an order and are painted over each other, some of them only
when a callback fires. A canvas is settled where it shows the layer that arrived last.
-/

abbrev Layer (κ V : Type*) := κ → Option V

namespace Layer
variable {κ V : Type*}

def paint (canvas : κ → V) (l : Layer κ V) : κ → V := fun k => (l k).getD (canvas k)

theorem paint_of_some {canvas : κ → V} {l : Layer κ V} {k : κ} {v : V} (h : l k = some v) : paint canvas l k = v := by
  rw [paint, h, Option.getD_some]

theorem paint_of_none {canvas : κ → V} {l : Layer κ V} {k : κ} (h : l k = none) : paint canvas l k = canvas k := by
  rw [paint, h, Option.getD_none]

/-- The layer `i` covers the cell with `v`, and no later one covers it. -/
def IsLatest (layers : List (Layer κ V)) (k : κ) (i : ℕ) (v : V) : Prop :=
  (∃ l, layers[i]? = some l ∧ l k = some v) ∧ ∀ j l, i < j → layers[j]? = some l → l k = none

/-- Every cell shows the last layer that covers it, unless that layer is still to be painted. -/
def Settled (layers : List (Layer κ V)) (pending : List ℕ) (canvas : κ → V) : Prop :=
  ∀ k i v, IsLatest layers k i v → i ∉ pending → canvas k = v

section
variable {layers : List (Layer κ V)} {pending : List ℕ} {canvas : κ → V} {l : Layer κ V} {k : κ} {i : ℕ} {v : V}

theorem IsLatest.lt (h : IsLatest layers k i v) : i < layers.length := by
  obtain ⟨⟨l, hl, _⟩, _⟩ := h
  obtain ⟨hlt, _⟩ := List.getElem?_eq_some_iff.mp hl
  exact hlt

theorem IsLatest.shows (h : IsLatest layers k i v) (hl : layers[i]? = some l) : l k = some v := by
  obtain ⟨⟨m, hm, hmk⟩, _⟩ := h
  rw [hl] at hm
  obtain rfl := Option.some.inj hm
  exact hmk

theorem isLatest_iff : IsLatest layers k i v ↔ layers[i]?.bind (· k) = some v ∧ ∀ l ∈ layers.drop (i + 1), l k = none := by
  rw [IsLatest, Option.bind_eq_some_iff]
  refine and_congr_right fun _ => ⟨fun h l hl => ?_, fun h j l hij hl => h l ?_⟩
  · obtain ⟨j, hj⟩ := List.mem_iff_getElem?.mp hl
    rw [List.getElem?_drop] at hj
    exact h (i + 1 + j) l (by omega) hj
  · obtain ⟨m, rfl⟩ := Nat.exists_eq_add_of_lt hij
    apply List.mem_of_getElem? (i := m)
    rw [List.getElem?_drop, Nat.add_right_comm]
    exact hl

instance [DecidableEq V] (layers : List (Layer κ V)) (k : κ) (i : ℕ) (v : V) : Decidable (IsLatest layers k i v) :=
  decidable_of_iff _ isLatest_iff.symm

/-- The last of a growing list of layers: the new one where it covers, the old last one elsewhere. -/
theorem isLatest_concat (h : IsLatest (layers ++ [l]) k i v) :
    (i = layers.length ∧ l k = some v) ∨ (IsLatest layers k i v ∧ l k = none) := by
  obtain ⟨⟨m, hm, hmk⟩, hlast⟩ := h
  rcases Nat.lt_trichotomy i layers.length with hlt | rfl | hgt
  · right
    rw [List.getElem?_append_left hlt] at hm
    refine ⟨⟨⟨m, hm, hmk⟩, ?_⟩, ?_⟩
    · intro j n hij hn
      obtain ⟨hj, _⟩ := List.getElem?_eq_some_iff.mp hn
      apply hlast j n hij
      rw [List.getElem?_append_left hj]
      exact hn
    · apply hlast layers.length l hlt
      exact List.getElem?_concat_length
  · left
    rw [List.getElem?_concat_length] at hm
    obtain rfl := Option.some.inj hm
    exact ⟨rfl, hmk⟩
  · rw [List.getElem?_eq_none (by rw [List.length_append, List.length_singleton]; omega)] at hm
    cases hm

theorem settled_nil (pending : List ℕ) (canvas : κ → V) : Settled [] pending canvas := by
  intro k i v h
  exact absurd h.lt (Nat.not_lt_zero i)

/-- A layer painted as it arrives. -/
theorem Settled.now (h : Settled layers pending canvas) (l : Layer κ V) : Settled (layers ++ [l]) pending (paint canvas l) := by
  intro k i v hlatest hpending
  rcases isLatest_concat hlatest with ⟨_, hl⟩ | ⟨hold, hl⟩
  · exact paint_of_some hl
  · rw [paint_of_none hl]
    exact h k i v hold hpending

/-- A layer that arrives to be painted later. -/
theorem Settled.later (h : Settled layers pending canvas) (l : Layer κ V) :
    Settled (layers ++ [l]) (pending ++ [layers.length]) canvas := by
  intro k i v hlatest hpending
  rw [List.mem_append, List.mem_singleton, not_or] at hpending
  rcases isLatest_concat hlatest with ⟨hi, _⟩ | ⟨hold, _⟩
  · exact absurd hi hpending.2
  · exact h k i v hold hpending.1

/-- A late layer may be painted over a cell whose last layer it is, whose last layer is still
to come, or shows the same there. -/
def MayPaint (layers : List (Layer κ V)) (pending : List ℕ) (i : ℕ) : Prop :=
  ∀ l k v, layers[i]? = some l → l k = some v →
    ∀ j u, IsLatest layers k j u → j = i ∨ j ∈ pending ∨ u = v

/-- Painting a late layer leaves the canvas settled if and only if it may be painted. -/
theorem settled_fire_iff (h : Settled layers pending canvas) (hnodup : pending.Nodup) (hi : i ∈ pending)
    (hl : layers[i]? = some l) : Settled layers (pending.erase i) (paint canvas l) ↔ MayPaint layers pending i := by
  constructor
  · intro hsettled m k v hm hmk j u hlatest
    rw [hl] at hm
    obtain rfl := Option.some.inj hm
    by_cases hji : j = i
    · exact Or.inl hji
    · by_cases hj : j ∈ pending
      · exact Or.inr (Or.inl hj)
      · have hshown := hsettled k j u hlatest (fun hmem => hj (List.mem_of_mem_erase hmem))
        rw [paint_of_some hmk] at hshown
        exact Or.inr (Or.inr hshown.symm)
  · intro hmay k j u hlatest hpending
    cases hlk : l k with
    | none =>
      rw [paint_of_none hlk]
      apply h k j u hlatest
      intro hj
      have hji : j ≠ i := by
        rintro rfl
        rw [hlatest.shows hl] at hlk
        cases hlk
      exact hpending ((hnodup.mem_erase_iff).mpr ⟨hji, hj⟩)
    | some v =>
      rw [paint_of_some hlk]
      have hself : j = i → v = u := by
        rintro rfl
        rw [hlatest.shows hl] at hlk
        exact (Option.some.inj hlk).symm
      rcases hmay l k v hl hlk j u hlatest with hji | hj | rfl
      · exact hself hji
      · by_cases hji : j = i
        · exact hself hji
        · exact absurd ((hnodup.mem_erase_iff).mpr ⟨hji, hj⟩) hpending
      · rfl

/-- A late layer may be painted while every later one is still to be painted. -/
theorem mayPaint_of_pending (h : ∀ j, i < j → j < layers.length → j ∈ pending) : MayPaint layers pending i := by
  intro l k v hl hlk j u hlatest
  rcases Nat.lt_trichotomy i j with hlt | rfl | hgt
  · exact Or.inr (Or.inl (h j hlt hlatest.lt))
  · exact Or.inl rfl
  · have hnone := hlatest.2 i l hgt hl
    rw [hlk] at hnone
    cases hnone

/-- With nothing left to paint, every cell shows the last layer that covers it. -/
theorem Settled.done (h : Settled layers [] canvas) (hlatest : IsLatest layers k i v) : canvas k = v :=
  h k i v hlatest List.not_mem_nil

end
end Layer

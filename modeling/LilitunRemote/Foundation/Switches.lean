import Mathlib.Data.List.Induction
import Mathlib.Logic.Function.Basic

/-! # Switches that events turn on and off

An event turns one switch on or off. A run of events alternates when each of them
changes its switch, and a switch is as its last event left it.
-/
namespace Switches
variable {κ α : Type*} [DecidableEq κ]

abbrev Held (κ : Type*) := κ → Bool

def turn (held : Held κ) (e : κ × Bool) : Held κ := Function.update held e.1 e.2

def replay (held : Held κ) (events : List (κ × Bool)) : Held κ := events.foldl turn held

def Alternates : Held κ → List (κ × Bool) → Prop
  | _, [] => True
  | held, e :: events => held e.1 ≠ e.2 ∧ Alternates (turn held e) events

def changes (keys : List κ) (old new : Held κ) : List (κ × Bool) :=
  keys.filterMap (fun k => if old k = new k then none else some (k, new k))

variable {held old new : Held κ} {events more : List (κ × Bool)} {keys : List κ} {k : κ}

@[simp] theorem replay_nil : replay held [] = held := rfl

@[simp] theorem replay_cons (e : κ × Bool) : replay held (e :: events) = replay (turn held e) events := rfl

@[simp] theorem replay_append : replay held (events ++ more) = replay (replay held events) more := by
  simp [replay]

theorem alternates_append : Alternates held (events ++ more) ↔ Alternates held events ∧ Alternates (replay held events) more := by
  induction events generalizing held with
  | nil => simp [Alternates]
  | cons e events ih => simp [Alternates, ih, and_assoc]

theorem replay_of_not_mem (h : ∀ e ∈ events, e.1 ≠ k) : replay held events k = held k := by
  induction events generalizing held with
  | nil => rfl
  | cons e events ih =>
    have hne : k ≠ e.1 := (h e List.mem_cons_self).symm
    rw [replay_cons, ih (fun e he => h e (List.mem_cons_of_mem _ he)), turn, Function.update_of_ne hne]

/-- The events of one group all leave the switch at one value. -/
theorem replay_of_forall {b : Bool} (h : ∀ e ∈ events, e.1 = k → e.2 = b) (hmem : ∃ e ∈ events, e.1 = k) :
    replay held events k = b := by
  induction events generalizing held with
  | nil => simp at hmem
  | cons e events ih =>
    rw [replay_cons]
    by_cases hlater : ∃ e ∈ events, e.1 = k
    · exact ih (fun e he => h e (List.mem_cons_of_mem _ he)) hlater
    · have hke : e.1 = k := by simpa [hlater] using hmem
      rw [replay_of_not_mem (fun e he hek => hlater ⟨e, he, hek⟩), turn, ← hke, Function.update_self]
      exact h e List.mem_cons_self hke

/-- Actions that each turn their switches one way: a switch is as the last action that
turns it says. -/
theorem replay_flatMap {turns : α → List (κ × Bool)} {value : α → Bool} (hturns : ∀ a, ∀ e ∈ turns a, e.2 = value a)
    (actions : List α) (held : Held κ) (k : κ) :
    replay held (actions.flatMap turns) k =
      ((actions.filter (fun a => (turns a).any (fun e => e.1 = k))).getLast?.map value).getD (held k) := by
  induction actions using List.reverseRecOn with
  | nil => rfl
  | append_singleton actions a ih =>
    rw [List.flatMap_append, replay_append, List.filter_append]
    by_cases ha : ∃ e ∈ turns a, e.1 = k
    · have hany : (turns a).any (fun e => e.1 = k) = true := by simpa using ha
      simp [hany, replay_of_forall (fun e he _ => hturns a e he) ha]
    · have hnone : ∀ e ∈ turns a, e.1 ≠ k := fun e he hek => ha ⟨e, he, hek⟩
      have hany : (turns a).any (fun e => e.1 = k) = false := List.any_eq_false.mpr (by simpa using hnone)
      simp [hany, replay_of_not_mem hnone, ih]

omit [DecidableEq κ] in
theorem mem_changes {e : κ × Bool} (he : e ∈ changes keys old new) : e.1 ∈ keys ∧ old e.1 ≠ e.2 ∧ new e.1 = e.2 := by
  obtain ⟨k, hk, hke⟩ := List.mem_filterMap.mp he
  split at hke
  · cases hke
  · next hne =>
    obtain rfl := Option.some.inj hke
    exact ⟨hk, hne, rfl⟩

/-- Replayed on the old state of the listed switches, the changes give the new one. -/
theorem replay_changes (hheld : ∀ k ∈ keys, held k = old k) :
    replay held (changes keys old new) k = if k ∈ keys then new k else held k := by
  by_cases hk : k ∈ keys
  · rw [if_pos hk]
    by_cases hsame : old k = new k
    · rw [replay_of_not_mem, hheld k hk, hsame]
      intro e he hek
      obtain ⟨-, hold, hnew⟩ := mem_changes he
      rw [hek] at hold hnew
      exact hold (hsame.trans hnew)
    · refine replay_of_forall (fun e he hek => ?_) ⟨(k, new k), List.mem_filterMap.mpr ⟨k, hk, by simp [hsame]⟩, rfl⟩
      rw [← (mem_changes he).2.2, hek]
  · rw [if_neg hk, replay_of_not_mem]
    intro e he hek
    exact hk (hek ▸ (mem_changes he).1)

theorem alternates_changes (hnodup : keys.Nodup) (hheld : ∀ k ∈ keys, held k = old k) :
    Alternates held (changes keys old new) := by
  induction keys generalizing held with
  | nil => trivial
  | cons a keys ih =>
    obtain ⟨ha, hnodup⟩ := List.nodup_cons.mp hnodup
    have hrest : ∀ k ∈ keys, held k = old k := fun k hk => hheld k (List.mem_cons_of_mem _ hk)
    rw [changes, List.filterMap_cons]
    split
    · exact ih hnodup hrest
    · next e he =>
      split at he
      · cases he
      · next hne =>
        obtain rfl := Option.some.inj he
        refine ⟨by rwa [hheld a List.mem_cons_self], ih hnodup (fun k hk => ?_)⟩
        have hka : k ≠ a := fun hka => ha (hka ▸ hk)
        rw [turn, Function.update_of_ne hka, hrest k hk]

/-- A listed switch is turned on at most once, and exactly if it was off and is to be on. -/
theorem count_changes (hnodup : keys.Nodup) (hk : k ∈ keys) :
    (changes keys old new).count (k, true) = if old k = false ∧ new k = true then 1 else 0 := by
  induction keys with
  | nil => cases hk
  | cons a keys ih =>
    obtain ⟨ha, hnodup⟩ := List.nodup_cons.mp hnodup
    have hfirst : changes (a :: keys) old new = changes [a] old new ++ changes keys old new := by
      rw [changes, changes, changes, ← List.filterMap_append]
      rfl
    rw [hfirst, List.count_append]
    rcases List.mem_cons.mp hk with rfl | hlater
    · have hrest : (changes keys old new).count (k, true) = 0 := by
        rw [List.count_eq_zero]
        exact fun hmem => ha (mem_changes hmem).1
      rw [hrest, Nat.add_zero]
      cases hold : old k <;> cases hnew : new k <;> simp [changes, hold, hnew]
    · have hnone : (changes [a] old new).count (k, true) = 0 := by
        rw [List.count_eq_zero]
        intro hmem
        obtain rfl : k = a := by simpa using (mem_changes hmem).1
        exact ha hlater
      rw [hnone, Nat.zero_add, ih hnodup hlater]

end Switches

import Mathlib.Data.List.Basic
import Mathlib.Order.Basic

/-! # Runs of a partial transition function

A system is a partial function from a state and an action to the next state. A
schedule is a list of actions, so an interleaving of several parties is a list
whose actions name the party that moves.
-/
namespace Transition
variable {σ α : Type*}

def run (step : σ → α → Option σ) : σ → List α → Option σ
  | s, [] => some s
  | s, a :: as => (step s a).bind (fun t => run step t as)

variable {step : σ → α → Option σ}

@[simp] theorem run_nil (s : σ) : run step s [] = some s := rfl

theorem run_cons {s t : σ} {a : α} {as : List α} :
    run step s (a :: as) = some t ↔ ∃ u, step s a = some u ∧ run step u as = some t := by
  simp only [run]
  exact Option.bind_eq_some_iff

theorem run_append {s t : σ} {as bs : List α} :
    run step s (as ++ bs) = some t ↔ ∃ u, run step s as = some u ∧ run step u bs = some t := by
  induction as generalizing s with
  | nil => simp
  | cons a as ih =>
    simp only [List.cons_append, run_cons, ih]
    constructor
    · rintro ⟨u, hu, v, hv, ht⟩
      exact ⟨v, ⟨u, hu, hv⟩, ht⟩
    · rintro ⟨v, ⟨u, hu, hv⟩, ht⟩
      exact ⟨u, hu, v, hv, ht⟩

theorem run_concat {s t : σ} {as : List α} {a : α} :
    run step s (as ++ [a]) = some t ↔ ∃ u, run step s as = some u ∧ step u a = some t := by
  rw [run_append]
  constructor
  · rintro ⟨u, hu, ht⟩
    obtain ⟨v, hv, hn⟩ := run_cons.mp ht
    exact ⟨u, hu, hv.trans hn⟩
  · rintro ⟨u, hu, ht⟩
    exact ⟨u, hu, run_cons.mpr ⟨t, ht, rfl⟩⟩

/-- What every enabled action preserves holds after every schedule. -/
theorem run_preserves {I : σ → Prop} (hstep : ∀ s a t, I s → step s a = some t → I t)
    {s t : σ} {as : List α} (hs : I s) (hr : run step s as = some t) : I t := by
  induction as generalizing s with
  | nil => exact Option.some.inj hr ▸ hs
  | cons a as ih =>
    obtain ⟨u, hu, ht⟩ := run_cons.mp hr
    exact ih (hstep s a u hs hu) ht

/-- An invariant with a rank that every enabled action lowers also bounds the length
of schedules. -/
theorem run_ranked {I : ℕ → σ → Prop} (hstep : ∀ n s a t, I n s → step s a = some t → ∃ m, m < n ∧ I m t)
    {n : ℕ} {s t : σ} {as : List α} (hs : I n s) (hr : run step s as = some t) : ∃ m, m + as.length ≤ n ∧ I m t := by
  induction as generalizing n s with
  | nil => exact ⟨n, Nat.le_refl _, Option.some.inj hr ▸ hs⟩
  | cons a as ih =>
    obtain ⟨u, hu, ht⟩ := run_cons.mp hr
    obtain ⟨m, hm, hIu⟩ := hstep n s a u hs hu
    obtain ⟨k, hk, hIt⟩ := ih hIu ht
    exact ⟨k, by rw [List.length_cons]; omega, hIt⟩

/-- Schedules of bounded length can be extended until no action is enabled. -/
theorem exists_stuck {s : σ} {n : ℕ} (h : ∀ as t, run step s as = some t → as.length ≤ n) :
    ∃ as t, run step s as = some t ∧ ∀ a, step t a = none := by
  by_contra hgo
  have hlong : ∀ m, ∃ as t, run step s as = some t ∧ as.length = m := by
    intro m
    induction m with
    | zero => exact ⟨[], s, rfl, rfl⟩
    | succ m ih =>
      obtain ⟨as, t, ht, hlen⟩ := ih
      have hnext : ∃ a u, step t a = some u := by
        by_contra hnone
        refine hgo ⟨as, t, ht, fun a => ?_⟩
        cases hu : step t a with
        | none => rfl
        | some u => exact absurd ⟨a, u, hu⟩ hnone
      obtain ⟨a, u, hu⟩ := hnext
      exact ⟨as ++ [a], u, run_concat.mpr ⟨t, ht, hu⟩, by rw [List.length_append, hlen]; rfl⟩
  obtain ⟨as, t, ht, hlen⟩ := hlong (n + 1)
  have := h as t ht
  omega

/-- Every action of the schedule meets `C` in the state it is taken from. -/
def Guarded (step : σ → α → Option σ) (C : σ → α → Prop) : σ → List α → Prop
  | _, [] => True
  | s, a :: as => C s a ∧ ∀ t, step s a = some t → Guarded step C t as

instance decidableGuarded {C : σ → α → Prop} [∀ s a, Decidable (C s a)] :
    ∀ (s : σ) (as : List α), Decidable (Guarded step C s as)
  | _, [] => isTrue trivial
  | s, a :: as =>
    match h : step s a with
    | none => decidable_of_iff (C s a) (by simp [Guarded, h])
    | some t =>
      have : Decidable (Guarded step C t as) := decidableGuarded t as
      decidable_of_iff (C s a ∧ Guarded step C t as) (by simp [Guarded, h])

theorem Guarded.of_forall {C : σ → α → Prop} {as : List α} (h : ∀ a ∈ as, ∀ s, C s a) (s : σ) : Guarded step C s as := by
  induction as generalizing s with
  | nil => trivial
  | cons a as ih => exact ⟨h a List.mem_cons_self s, fun t _ => ih (fun b hb => h b (List.mem_cons_of_mem _ hb)) t⟩

theorem Guarded.of_append {C : σ → α → Prop} {s : σ} {as bs : List α} (h : Guarded step C s (as ++ bs)) :
    Guarded step C s as := by
  induction as generalizing s with
  | nil => trivial
  | cons a as ih => exact ⟨h.1, fun t ht => ih (h.2 t ht)⟩

theorem Guarded.last {C : σ → α → Prop} {s t : σ} {as : List α} {a : α} (h : Guarded step C s (as ++ [a]))
    (hr : run step s as = some t) : C t a := by
  induction as generalizing s with
  | nil => exact Option.some.inj hr ▸ h.1
  | cons b as ih =>
    obtain ⟨u, hu, ht⟩ := run_cons.mp hr
    exact ih (h.2 u hu) ht

theorem Guarded.append {C : σ → α → Prop} {s : σ} {as bs : List α} (h : Guarded step C s as)
    (hbs : ∀ t, run step s as = some t → Guarded step C t bs) : Guarded step C s (as ++ bs) := by
  induction as generalizing s with
  | nil => exact hbs s rfl
  | cons a as ih =>
    refine ⟨h.1, fun t ht => ih (h.2 t ht) ?_⟩
    intro u hu
    exact hbs u (run_cons.mpr ⟨t, ht, hu⟩)

theorem Guarded.concat {C : σ → α → Prop} {s : σ} {as : List α} {a : α} (h : Guarded step C s as)
    (ha : ∀ t, run step s as = some t → C t a) : Guarded step C s (as ++ [a]) :=
  h.append (fun t ht => ⟨ha t ht, fun _ _ => trivial⟩)

/-- Two conditions that agree on every reachable state are met by the same schedules. -/
theorem guarded_congr {I : σ → Prop} {C D : σ → α → Prop} (hstep : ∀ s a t, I s → step s a = some t → I t)
    (hiff : ∀ s a, I s → (C s a ↔ D s a)) {s : σ} (hs : I s) (as : List α) :
    Guarded step C s as ↔ Guarded step D s as := by
  induction as generalizing s with
  | nil => exact Iff.rfl
  | cons a as ih =>
    exact and_congr (hiff s a hs) (forall_congr' fun t => forall_congr' fun ht => ih (hstep s a t hs ht))

/-- The rule for schedules that never get stuck: a guarded action is enabled and
keeps the invariant. -/
theorem run_total_guarded {I : σ → Prop} {C : σ → α → Prop} (hstep : ∀ s a, I s → C s a → ∃ t, step s a = some t ∧ I t)
    {s : σ} {as : List α} (hs : I s) (hg : Guarded step C s as) : ∃ t, run step s as = some t ∧ I t := by
  induction as generalizing s with
  | nil => exact ⟨s, rfl, hs⟩
  | cons a as ih =>
    obtain ⟨u, hu, hIu⟩ := hstep s a hs hg.1
    obtain ⟨t, ht, hIt⟩ := ih hIu (hg.2 u hu)
    exact ⟨t, run_cons.mpr ⟨u, hu, ht⟩, hIt⟩

/-- The invariant rule for schedules whose actions all meet a condition. -/
theorem run_preserves_guarded {I : σ → Prop} {C : σ → α → Prop}
    (hstep : ∀ s a t, I s → C s a → step s a = some t → I t)
    {s t : σ} {as : List α} (hs : I s) (hg : Guarded step C s as) (hr : run step s as = some t) : I t := by
  induction as generalizing s with
  | nil => exact Option.some.inj hr ▸ hs
  | cons a as ih =>
    obtain ⟨u, hu, ht⟩ := run_cons.mp hr
    exact ih (hstep s a u hs hg.1 hu) (hg.2 u hu) ht

/-- When a condition is exactly what keeps a property over one step of a kind, a schedule
of such steps meets it throughout exactly when every state on the way has the property. -/
theorem guarded_iff_forall_of {I P : σ → Prop} {B C : σ → α → Prop} (hI : ∀ s, I s → P s)
    (hgood : ∀ s a t, I s → B s a → C s a → step s a = some t → I t)
    (hbad : ∀ s a, I s → B s a → ¬ C s a → ∃ t, step s a = some t ∧ ¬ P t) {s : σ} (hs : I s) {as : List α}
    (hB : Guarded step B s as) : Guarded step C s as ↔ ∀ bs t, bs <+: as → run step s bs = some t → P t := by
  induction as generalizing s with
  | nil =>
    refine iff_of_true trivial (fun bs t hbs ht => ?_)
    obtain rfl := List.prefix_nil.mp hbs
    exact Option.some.inj ht ▸ hI s hs
  | cons a as ih =>
    constructor
    · rintro ⟨hC, hlater⟩ bs t hbs ht
      cases bs with
      | nil => exact Option.some.inj ht ▸ hI s hs
      | cons b bs =>
        obtain ⟨rfl, hprefix⟩ := List.cons_prefix_cons.mp hbs
        obtain ⟨u, hu, ht⟩ := run_cons.mp ht
        exact (ih (hgood s b u hs hB.1 hC hu) (hB.2 u hu)).mp (hlater u hu) bs t hprefix ht
    · intro h
      have hC : C s a := by
        by_contra hn
        obtain ⟨t, ht, hP⟩ := hbad s a hs hB.1 hn
        exact hP (h [a] t ⟨as, rfl⟩ (run_cons.mpr ⟨t, ht, rfl⟩))
      refine ⟨hC, fun t ht => (ih (hgood s a t hs hB.1 hC ht) (hB.2 t ht)).mpr (fun bs u hbs hu => ?_)⟩
      exact h (a :: bs) u (List.cons_prefix_cons.mpr ⟨rfl, hbs⟩) (run_cons.mpr ⟨t, ht, hu⟩)

theorem guarded_iff_forall {I P : σ → Prop} {C : σ → α → Prop} (hI : ∀ s, I s → P s)
    (hgood : ∀ s a t, I s → C s a → step s a = some t → I t)
    (hbad : ∀ s a, I s → ¬ C s a → ∃ t, step s a = some t ∧ ¬ P t) {s : σ} (hs : I s) (as : List α) :
    Guarded step C s as ↔ ∀ bs t, bs <+: as → run step s bs = some t → P t :=
  guarded_iff_forall_of hI (fun s a t h _ => hgood s a t h) (fun s a h _ => hbad s a h) hs
    (Guarded.of_forall (C := fun _ _ => True) (fun _ _ _ => trivial) s)

end Transition

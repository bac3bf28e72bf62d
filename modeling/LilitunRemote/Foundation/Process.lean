import Mathlib.Logic.Basic

/-! # Sequential processes over an alphabet of effects

A process is a finitely deep tree of effects: it asks its environment for one
effect, continues with the response, and at the end returns a value. Monadic
notation writes such a tree the way the imperative source reads. A monitor is
an automaton over effects and responses; obeying it is the weakest-precondition
judgement of the process against every environment the monitor admits.
-/
universe u v w

/-- A process with effects `e : E` answered by values of `R e`. -/
inductive Proc (E : Type u) (R : E → Type v) (α : Type w) : Type (max u v w)
  | ret (a : α) : Proc E R α
  | op (e : E) (k : R e → Proc E R α) : Proc E R α

namespace Proc
variable {E : Type u} {R : E → Type v} {α β γ : Type w} {σ : Type w}

def bind : Proc E R α → (α → Proc E R β) → Proc E R β
  | ret a, f => f a
  | op e k, f => op e (fun r => (k r).bind f)

instance : Monad (Proc E R) where
  pure := ret
  bind := bind

@[simp] theorem pure_eq (a : α) : (pure a : Proc E R α) = ret a := rfl
@[simp] theorem ret_bind (a : α) (f : α → Proc E R β) : (ret a >>= f) = f a := rfl
@[simp] theorem op_bind (e : E) (k : R e → Proc E R α) (f : α → Proc E R β) :
    (op e k >>= f) = op e (fun r => k r >>= f) := rfl

@[simp] theorem bind_assoc (p : Proc E R α) (f : α → Proc E R β) (g : β → Proc E R γ) :
    ((p >>= f) >>= g) = (p >>= fun a => f a >>= g) := by
  induction p with
  | ret a => rfl
  | op e k ih => simp only [op_bind, ih]

def perform {E : Type u} {R : E → Type w} (e : E) : Proc E R (R e) := op e ret

/-- Answer the effect the process is waiting for; any other effect is refused. -/
def feed [DecidableEq E] : Proc E R α → (e : E) → R e → Option (Proc E R α)
  | ret _, _, _ => none
  | op e' k, e, r => if h : e = e' then some (k (h ▸ r)) else none

theorem feed_eq_some [DecidableEq E] {p q : Proc E R α} {e : E} {r : R e} :
    p.feed e r = some q ↔ ∃ k, p = op e k ∧ q = k r := by
  cases p with
  | ret a => simp [feed]
  | op e' k =>
    by_cases h : e = e'
    · subst h
      simp only [feed, dite_true, Option.some.injEq, op.injEq, heq_eq_eq, true_and]
      constructor
      · rintro rfl
        exact ⟨k, rfl, rfl⟩
      · rintro ⟨k', rfl, rfl⟩
        rfl
    · simp only [feed, h, dite_false, reduceCtorEq, op.injEq, false_iff, not_exists]
      rintro k' ⟨⟨he, _⟩, _⟩
      exact h he.symm

def handle {E F : Type u} {R : E → Type w} {S : F → Type v} {α : Type w} (h : (e : E) → Proc F S (R e)) :
    Proc E R α → Proc F S α
  | ret a => ret a
  | op e k => h e >>= fun r => (k r).handle h

theorem handle_bind {E F : Type u} {R : E → Type w} {S : F → Type v} {α β : Type w} (h : (e : E) → Proc F S (R e))
    (p : Proc E R α) (f : α → Proc E R β) : (p >>= f).handle h = p.handle h >>= fun a => (f a).handle h := by
  induction p with
  | ret a => rfl
  | op e k ih =>
    simp only [op_bind, handle, bind_assoc, ih]

@[simp] theorem handle_ret {E F : Type u} {R : E → Type w} {S : F → Type v} {α : Type w}
    (h : (e : E) → Proc F S (R e)) (a : α) : (ret a : Proc E R α).handle h = ret a := rfl

@[simp] theorem bind_ret (p : Proc E R α) : (p >>= ret) = p := by
  induction p with
  | ret a => rfl
  | op e k ih => simp only [op_bind, ih]

theorem handle_perform {E F : Type u} {R : E → Type w} {S : F → Type v} (h : (e : E) → Proc F S (R e)) (e : E) :
    (perform e).handle h = h e := bind_ret (h e)

def Uses (A : E → Prop) : Proc E R α → Prop
  | ret _ => True
  | op e k => A e ∧ ∀ r, (k r).Uses A

@[simp] theorem uses_ret (A : E → Prop) (a : α) : (ret a : Proc E R α).Uses A := trivial

@[simp] theorem uses_perform {E : Type u} {R : E → Type w} {A : E → Prop} {e : E} :
    (perform e : Proc E R (R e)).Uses A ↔ A e := and_iff_left (fun _ => trivial)

theorem Uses.bind {A : E → Prop} {p : Proc E R α} {f : α → Proc E R β} (hp : p.Uses A) (hf : ∀ a, (f a).Uses A) :
    (p >>= f).Uses A := by
  induction p with
  | ret a => exact hf a
  | op e k ih => exact ⟨hp.1, fun r => ih r (hp.2 r)⟩

theorem Uses.mono {A B : E → Prop} {p : Proc E R α} (hp : p.Uses A) (h : ∀ e, A e → B e) : p.Uses B := by
  induction p with
  | ret a => trivial
  | op e k ih => exact ⟨h e hp.1, fun r => ih r (hp.2 r)⟩

theorem Uses.handle {E F : Type u} {R : E → Type w} {S : F → Type v} {α : Type w} {A : E → Prop} {B : F → Prop}
    {h : (e : E) → Proc F S (R e)} {p : Proc E R α} (hp : p.Uses A) (hh : ∀ e, A e → (h e).Uses B) :
    (p.handle h).Uses B := by
  induction p with
  | ret a => trivial
  | op e k ih =>
    apply (hh e hp.1).bind
    intro r
    exact ih r (hp.2 r)

def exec {W : Type*} (answer : W → (e : E) → R e × W) : Proc E R α → W → α × W
  | ret a, s => (a, s)
  | op e k, s => (k (answer s e).1).exec answer (answer s e).2

section Exec
variable {W : Type*} {answer : W → (e : E) → R e × W}

@[simp] theorem exec_ret (a : α) (s : W) : (ret a : Proc E R α).exec answer s = (a, s) := rfl

@[simp] theorem exec_op (e : E) (k : R e → Proc E R α) (s : W) :
    (op e k).exec answer s = (k (answer s e).1).exec answer (answer s e).2 := rfl

theorem exec_bind (p : Proc E R α) (f : α → Proc E R β) (s : W) :
    (p >>= f).exec answer s = (f (p.exec answer s).1).exec answer (p.exec answer s).2 := by
  induction p generalizing s with
  | ret a => rfl
  | op e k ih => exact ih (answer s e).1 (answer s e).2

@[simp] theorem exec_perform {E : Type u} {R : E → Type w} {answer : W → (e : E) → R e × W} (e : E) (s : W) :
    (perform e : Proc E R (R e)).exec answer s = answer s e := rfl

def Ends (answer : W → (e : E) → R e × W) (s : W) (p : Proc E R α) (Q : α → W → Prop) : Prop :=
  Q (p.exec answer s).1 (p.exec answer s).2

@[simp] theorem ends_ret {a : α} {s : W} {Q : α → W → Prop} : (ret a : Proc E R α).Ends answer s Q ↔ Q a s := Iff.rfl

@[simp] theorem ends_op {e : E} {k : R e → Proc E R α} {s : W} {Q : α → W → Prop} :
    (op e k).Ends answer s Q ↔ (k (answer s e).1).Ends answer (answer s e).2 Q := Iff.rfl

/-- Sequential composition of runs. -/
theorem ends_bind {p : Proc E R α} {f : α → Proc E R β} {s : W} {Q : β → W → Prop} :
    (p >>= f).Ends answer s Q ↔ p.Ends answer s (fun a t => (f a).Ends answer t Q) := by
  unfold Ends
  rw [exec_bind]

theorem Ends.mono {p : Proc E R α} {s : W} {Q Q' : α → W → Prop} (h : p.Ends answer s Q)
    (hQ : ∀ a t, Q a t → Q' a t) : p.Ends answer s Q' := hQ _ _ h

end Exec

/-- A thread that repeats `body`: a left result is the next loop state, a right
result ends the thread. Control always rests at an effect or at the end. -/
def resume (body : σ → Proc E R (σ ⊕ β)) : Proc E R (σ ⊕ β) → Proc E R (σ ⊕ β)
  | ret (Sum.inl c) => body c
  | p => p

/-- Control does not rest between two rounds. -/
theorem resume_ne_inl {body : σ → Proc E R (σ ⊕ β)} (hbody : ∀ c d, body c ≠ ret (Sum.inl d)) (p : Proc E R (σ ⊕ β))
    (d : σ) : p.resume body ≠ ret (Sum.inl d) := by
  cases p with
  | ret x =>
    cases x with
    | inl c => exact hbody c d
    | inr b => simp [resume]
  | op e k => simp [resume]

/-- One answered effect of a repeating thread of a class. -/
theorem Uses.feed [DecidableEq E] {A : E → Prop} {body : σ → Proc E R (σ ⊕ β)} (hbody : ∀ c, (body c).Uses A)
    {p q : Proc E R (σ ⊕ β)} {e : E} {r : R e} (hp : p.Uses A) (h : p.feed e r = some q) :
    A e ∧ (q.resume body).Uses A := by
  obtain ⟨k, rfl, rfl⟩ := feed_eq_some.mp h
  refine ⟨hp.1, ?_⟩
  have hnext := hp.2 r
  cases hk : k r with
  | op e' k' =>
    rw [hk] at hnext
    exact hnext
  | ret x =>
    cases x with
    | inl c => exact hbody c
    | inr b => trivial

end Proc

/-- An automaton that watches a process: `ok` are the effects it accepts in a
state, `step` the responses its environment may give and the states after them. -/
structure Monitor (S : Type*) (E : Type u) (R : E → Type v) where
  ok : S → E → Prop
  step : S → (e : E) → R e → S → Prop

namespace Monitor
variable {E : Type u} {R : E → Type v} {α β : Type w} {σ : Type w} {S : Type*}

/-- Along every admitted sequence of responses each effect is accepted and the
returned value meets the postcondition. -/
def Obeys (M : Monitor S E R) : S → Proc E R α → (S → α → Prop) → Prop
  | s, .ret a, Q => Q s a
  | s, .op e k, Q => M.ok s e ∧ ∀ r t, M.step s e r t → Obeys M t (k r) Q

variable {M : Monitor S E R}

@[simp] theorem obeys_ret {s : S} {a : α} {Q : S → α → Prop} : M.Obeys s (.ret a) Q ↔ Q s a := Iff.rfl

@[simp] theorem obeys_op {s : S} {e : E} {k : R e → Proc E R α} {Q : S → α → Prop} :
    M.Obeys s (.op e k) Q ↔ M.ok s e ∧ ∀ r t, M.step s e r t → M.Obeys t (k r) Q := Iff.rfl

@[simp] theorem obeys_perform {E : Type u} {R : E → Type w} {M : Monitor S E R} {s : S} {e : E}
    {Q : S → R e → Prop} :
    M.Obeys s (Proc.perform e) Q ↔ M.ok s e ∧ ∀ r t, M.step s e r t → Q t r := Iff.rfl

/-- Sequential composition: the continuation is judged from wherever the first
process may stop. -/
@[simp] theorem obeys_bind {s : S} {p : Proc E R α} {f : α → Proc E R β} {Q : S → β → Prop} :
    M.Obeys s (p >>= f) Q ↔ M.Obeys s p (fun t a => M.Obeys t (f a) Q) := by
  induction p generalizing s with
  | ret a => rfl
  | op e k ih => simp only [Proc.op_bind, obeys_op, ih]

theorem Obeys.mono {s : S} {p : Proc E R α} {Q Q' : S → α → Prop} (h : M.Obeys s p Q)
    (hQ : ∀ t a, Q t a → Q' t a) : M.Obeys s p Q' := by
  induction p generalizing s with
  | ret a => exact hQ s a h
  | op e k ih => exact ⟨h.1, fun r t ht => ih r (h.2 r t ht)⟩

/-- Effects that are accepted and leave the state alone leave it alone together. -/
theorem obeys_of_uses {A : E → Prop} {s : S} {p : Proc E R α} (hp : p.Uses A) (hok : ∀ e, A e → M.ok s e)
    (hstep : ∀ e r t, A e → M.step s e r t → t = s) : M.Obeys s p (fun t _ => t = s) := by
  induction p with
  | ret a => exact rfl
  | op e k ih =>
    refine ⟨hok e hp.1, fun r t ht => ?_⟩
    rw [hstep e r t hp.1 ht]
    exact ih r (hp.2 r)

/-- Simulation: where the handler of every accepted effect obeys the monitor below and ends in
the image of a state the monitor above may reach, handled processes obey it too. -/
theorem obeys_handle {E F : Type u} {R : E → Type w} {S' : F → Type v} {α : Type w} {T : Type*} {M : Monitor S E R}
    {M' : Monitor T F S'} (h : (e : E) → Proc F S' (R e)) (image : S → T)
    (hh : ∀ s e, M.ok s e → M'.Obeys (image s) (h e) (fun t r => ∃ s', t = image s' ∧ M.step s e r s'))
    {s : S} {p : Proc E R α} {Q : S → α → Prop} (hp : M.Obeys s p Q) :
    M'.Obeys (image s) (p.handle h) (fun t a => ∃ s', t = image s' ∧ Q s' a) := by
  induction p generalizing s with
  | ret a => exact ⟨s, rfl, hp⟩
  | op e k ih =>
    rw [Proc.handle, obeys_bind]
    refine (hh s e hp.1).mono (fun t r ht => ?_)
    obtain ⟨s', rfl, hstep⟩ := ht
    exact ih r (hp.2 r s' hstep)

/-- The postcondition of a loop body: a left result re-establishes the loop
invariant, a right result the exit condition. -/
def LoopPost (I : σ → S → Prop) (F : S → β → Prop) (s : S) : σ ⊕ β → Prop
  | Sum.inl c => I c s
  | Sum.inr b => F s b

/-- One answered effect of a repeating thread keeps the thread's judgement. -/
theorem obeys_feed [DecidableEq E] {body : σ → Proc E R (σ ⊕ β)} {I : σ → S → Prop} {F : S → β → Prop}
    (hbody : ∀ c s, I c s → M.Obeys s (body c) (LoopPost I F))
    {s t : S} {p q : Proc E R (σ ⊕ β)} {e : E} {r : R e} (hp : M.Obeys s p (LoopPost I F))
    (hf : p.feed e r = some q) (ht : M.step s e r t) : M.Obeys t (q.resume body) (LoopPost I F) := by
  obtain ⟨k, rfl, rfl⟩ := Proc.feed_eq_some.mp hf
  have hk := hp.2 r t ht
  cases hq : k r with
  | ret x =>
    rw [hq] at hk
    cases x with
    | inl c => exact hbody c t hk
    | inr b => exact hk
  | op e' k' =>
    rw [hq] at hk
    exact hk

end Monitor

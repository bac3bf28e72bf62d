import LilitunRemote.Foundation.Chain
import LilitunRemote.Foundation.Transition

/-! # The lists of connections and of threads

`list.c`, which the control server and the projector have in common: items in the heap,
each with a pointer to the one that was added before it. The callers hold a mutex, so that
an operation is one step.
-/
namespace LilitunRemote
namespace ItemList
open Chain

structure State (α : Type*) where
  cells : Cells α
  items : Option ℕ

variable {α : Type*} [DecidableEq α]

def State.empty : State α := ⟨fun _ => none, none⟩

def listAddData (new : Option ℕ) (data : α) (s : State α) : State α × Option ℕ :=
  match new with
  | none => (s, none)
  | some a => (⟨Function.update s.cells a (some ⟨data, s.items⟩), some a⟩, some a)

/-- The loop of `list_remove_data`; no result where it reads an item that is not allocated,
or needs more rounds. -/
def removeLoop (data : α) : ℕ → State α → Option ℕ → Option ℕ → Option (State α × Option ℕ)
  | 0, _, _, _ => none
  | _ + 1, s, _, none => some (s, none)
  | fuel + 1, s, next, some ptr =>
    match s.cells ptr with
    | none => none
    | some item =>
      if item.data = data then
        let tmp := item.prev
        let s := { s with cells := Function.update s.cells ptr none }
        match next with
        | none => some ({ s with items := tmp }, tmp)
        | some n => (s.cells n).map fun c => ({ s with cells := Function.update s.cells n (some { c with prev := tmp }) }, tmp)
      else removeLoop data fuel s (some ptr) item.prev

def listRemoveData (data : α) (fuel : ℕ) (s : State α) : Option (State α × Option ℕ) := removeLoop data fuel s none s.items

def walk (cells : Cells α) : ℕ → Option ℕ → Option (List α)
  | 0, _ => none
  | _ + 1, none => some []
  | fuel + 1, some ptr => (cells ptr).bind fun item => (walk cells fuel item.prev).map (item.data :: ·)

inductive Call (α : Type*)
  | add (new : Option ℕ) (data : α)
  | remove (data : α)

def Call.apply (l : List α) : Call α → List α
  | .add none _ => l
  | .add (some _) data => data :: l
  | .remove data => l.erase data

def State.step (fuel : ℕ) (s : State α) : Call α → Option (State α)
  | .add new data => some (listAddData new data s).1
  | .remove data => (listRemoveData data fuel s).map Prod.fst

def State.Fresh (s : State α) : Call α → Prop
  | .add (some a) _ => s.cells a = none
  | .add none _ | .remove _ => True

def State.Lists (s : State α) (data : List α) : Prop := ∃ l, Holds s.cells s.items l ∧ l.map Prod.snd = data

section Remove
variable {s : State α} {data : α} {before rest : List (ℕ × α)} {ptr : Option ℕ} {fuel : ℕ}

/-- The loop behind some items that are others: it ends, removes the first item with the data,
and returns the item behind it. -/
theorem removeLoop_spec (hholds : Holds s.cells s.items (before ++ rest)) (hptr : Segment s.cells none ptr rest)
    (hfuel : rest.length < fuel) :
    ∃ s' l r, removeLoop data fuel s ((addresses before).getLast?) ptr = some (s', r) ∧ Holds s'.cells s'.items (before ++ l) ∧
      l.map Prod.snd = (rest.map Prod.snd).erase data ∧
        r = (addresses ((rest.dropWhile (fun x => x.2 ≠ data)).tail)).head? := by
  induction rest generalizing before ptr fuel with
  | nil =>
    obtain ⟨fuel, rfl⟩ := Nat.exists_eq_add_one.mpr hfuel
    obtain rfl := segment_nil.mp hptr
    exact ⟨s, [], none, rfl, hholds, rfl, rfl⟩
  | cons x rest ih =>
    obtain ⟨a, d⟩ := x
    obtain ⟨fuel, rfl⟩ := Nat.exists_eq_add_one.mpr (Nat.lt_of_le_of_lt (Nat.zero_le _) hfuel)
    obtain ⟨rfl, next, hcell, hrest⟩ := segment_cons.mp hptr
    simp only [removeLoop, hcell]
    by_cases hd : d = data
    · subst hd
      rw [if_pos rfl]
      have hreturn : next = (addresses ((((a, d) :: rest).dropWhile (fun x => x.2 ≠ d)).tail)).head? := by
        rw [List.dropWhile_cons_of_neg (by simp), List.tail_cons]
        exact hrest.start_eq
      have herase : rest.map Prod.snd = (((a, d) :: rest).map Prod.snd).erase d := by simp
      rcases List.eq_nil_or_concat before with rfl | ⟨front, ⟨b, e⟩, rfl⟩
      · exact ⟨_, rest, next, rfl, hholds.pop hcell, herase, hreturn⟩
      · have hsplit : (front ++ [(b, e)]) ++ (a, d) :: rest = front ++ (b, e) :: (a, d) :: rest := by simp
        have hsplit' : (front ++ [(b, e)]) ++ rest = front ++ (b, e) :: rest := by simp
        rw [List.concat_eq_append, hsplit] at hholds
        obtain ⟨mid, _, hmid⟩ := segment_append.mp hholds.linked
        obtain ⟨_, behind, hb, _⟩ := segment_cons.mp hmid
        have hba : b ≠ a := by
          have hnodup := hholds.nodup
          simp only [addresses, List.map_append, List.map_cons] at hnodup
          have hmem := (List.nodup_cons.mp (List.nodup_middle.mp hnodup)).1
          intro heq
          exact hmem (by simp [heq])
        refine ⟨⟨Function.update (Function.update s.cells a none) b (some ⟨e, next⟩), s.items⟩, rest, next, ?_, ?_, herase, hreturn⟩
        · simp [Function.update_of_ne hba, hb]
        · rw [List.concat_eq_append, hsplit']
          exact hholds.unlink hcell
    · rw [if_neg hd]
      have hlast : (addresses (before ++ [(a, d)])).getLast? = some a := by simp [addresses]
      have hsplit : before ++ (a, d) :: rest = (before ++ [(a, d)]) ++ rest := by simp
      rw [hsplit] at hholds
      obtain ⟨s', l, r, hloop, hholds', hdata, hr⟩ := ih hholds hrest (by simpa using hfuel)
      rw [hlast] at hloop
      refine ⟨s', (a, d) :: l, r, hloop, ?_, ?_, ?_⟩
      · simpa using hholds'
      · simp [hdata, hd]
      · rw [hr, List.dropWhile_cons_of_pos (by simpa using hd)]

theorem listRemoveData_spec {l : List (ℕ × α)} (hholds : Holds s.cells s.items l) (hfuel : l.length < fuel) (data : α) :
    ∃ s' l' r, listRemoveData data fuel s = some (s', r) ∧ Holds s'.cells s'.items l' ∧
      l'.map Prod.snd = (l.map Prod.snd).erase data ∧ r = (addresses ((l.dropWhile (fun x => x.2 ≠ data)).tail)).head? := by
  have hchain : Holds s.cells s.items ([] ++ l) := hholds
  exact removeLoop_spec hchain hholds.linked hfuel

omit [DecidableEq α] in
theorem walk_spec {cells : Cells α} {start : Option ℕ} {l : List (ℕ × α)} (h : Segment cells none start l)
    (hfuel : l.length < fuel) : walk cells fuel start = some (l.map Prod.snd) := by
  induction l generalizing start fuel with
  | nil =>
    obtain ⟨fuel, rfl⟩ := Nat.exists_eq_add_one.mpr hfuel
    obtain rfl := segment_nil.mp h
    rfl
  | cons x l ih =>
    obtain ⟨a, d⟩ := x
    obtain ⟨fuel, rfl⟩ := Nat.exists_eq_add_one.mpr (Nat.lt_of_le_of_lt (Nat.zero_le _) hfuel)
    obtain ⟨rfl, next, hcell, hl⟩ := segment_cons.mp h
    simp [walk, hcell, ih hl (by simpa using hfuel)]

end Remove

section Run
variable {s : State α} {data : List α} {fuel : ℕ}

theorem step_lists (hlists : s.Lists data) (hfuel : data.length < fuel) (call : Call α) (hfresh : s.Fresh call) :
    ∃ s', s.step fuel call = some s' ∧ s'.Lists (call.apply data) := by
  obtain ⟨l, hholds, rfl⟩ := hlists
  cases call with
  | add new d =>
    cases new with
    | none => exact ⟨s, rfl, l, hholds, rfl⟩
    | some a => exact ⟨_, rfl, (a, d) :: l, hholds.push hfresh d, rfl⟩
  | remove d =>
    obtain ⟨s', l', r, hremove, hholds', hdata, -⟩ := listRemoveData_spec hholds (by simpa using hfuel) d
    exact ⟨s', by rw [State.step, hremove]; rfl, l', hholds', hdata⟩

theorem apply_length (data : List α) (call : Call α) : (call.apply data).length ≤ data.length + 1 := by
  cases call with
  | add new d => cases new <;> simp [Call.apply]
  | remove d =>
    have hle := (List.erase_sublist (a := d) (l := data)).length_le
    exact Nat.le_succ_of_le hle

theorem run_lists (calls : List (Call α)) (hlists : s.Lists data) (hfuel : data.length + calls.length < fuel)
    (hfresh : Transition.Guarded (State.step fuel) State.Fresh s calls) :
    ∃ s', Transition.run (State.step fuel) s calls = some s' ∧ s'.Lists (calls.foldl Call.apply data) := by
  induction calls generalizing s data with
  | nil => exact ⟨s, rfl, hlists⟩
  | cons call calls ih =>
    rw [List.length_cons] at hfuel
    have hlength := apply_length data call
    have hroom : data.length < fuel := by omega
    obtain ⟨u, hu, hlists'⟩ := step_lists hlists hroom call hfresh.1
    obtain ⟨s', hs', hlast⟩ := ih hlists' (by omega) (hfresh.2 u hu)
    exact ⟨s', Transition.run_cons.mpr ⟨u, hu, hs'⟩, hlast⟩

end Run

/-- Every sequence of calls ends, touches only items that are allocated, and leaves exactly
the items of the list that adding in front and removing once give; a walk finds their data. -/
theorem calls_refine_list (calls : List (Call α)) {fuel : ℕ} (hfuel : calls.length < fuel)
    (hfresh : Transition.Guarded (State.step fuel) State.Fresh State.empty calls) :
    ∃ s, Transition.run (State.step fuel) State.empty calls = some s ∧ s.Lists (calls.foldl Call.apply []) ∧
      walk s.cells fuel s.items = some (calls.foldl Call.apply []) := by
  have hempty : (State.empty : State α).Lists [] := ⟨[], holds_empty, rfl⟩
  obtain ⟨s, hs, hlists⟩ := run_lists calls hempty (by simpa using hfuel) hfresh
  have hlength : (calls.foldl Call.apply []).length ≤ calls.length := by
    have hgrows : ∀ (calls : List (Call α)) (data : List α), (calls.foldl Call.apply data).length ≤ data.length + calls.length := by
      intro calls
      induction calls with
      | nil => simp
      | cons call calls ih =>
        intro data
        have hcall := apply_length data call
        have hrest := ih (call.apply data)
        rw [List.foldl_cons, List.length_cons]
        omega
    simpa using hgrows calls []
  refine ⟨s, hs, hlists, ?_⟩
  obtain ⟨l, hholds, hdata⟩ := hlists
  rw [← hdata]
  have hl : l.length = (calls.foldl Call.apply []).length := by rw [← hdata, List.length_map]
  exact walk_spec hholds.linked (by omega)

/-- Two items are added and the older one is removed; its memory is used again. -/
def reuseCalls : List (Call ℕ) := [.add (some 8) 1, .add (some 9) 2, .remove 1, .add (some 8) 3]

theorem reuse_refines :
    ∃ s, Transition.run (State.step 5) State.empty reuseCalls = some s ∧ s.Lists [3, 2] ∧ walk s.cells 5 s.items = some [3, 2] :=
  calls_refine_list reuseCalls (by decide) ⟨rfl, fun _ h₁ => Option.some.inj h₁ ▸ ⟨rfl, fun _ h₂ => Option.some.inj h₂ ▸
    ⟨trivial, fun _ h₃ => Option.some.inj h₃ ▸ ⟨rfl, fun _ _ => trivial⟩⟩⟩⟩

end ItemList
end LilitunRemote

import Mathlib.Data.List.Basic
import Mathlib.Tactic.Common

/-! # Lines read through a bounded buffer

A read takes a line, or as much of it as fits. A search through what has been read finds
what a search through the lines finds if the cuts through long lines do no harm.
-/
namespace LineReader
variable {α : Type*}

section Definitions
variable [DecidableEq α] (nl : α)

/-- One read with some room: up to the end of the line, of the text, or of the room. -/
def fgets : ℕ → List α → List α × List α
  | 0, s => ([], s)
  | _ + 1, [] => ([], [])
  | room + 1, c :: s => if c = nl then ([c], s) else (c :: (fgets room s).1, (fgets room s).2)

def readsFrom (room : ℕ) : ℕ → List α → List (List α)
  | 0, _ => []
  | fuel + 1, s => if s = [] then [] else (fgets nl room s).1 :: readsFrom room fuel (fgets nl room s).2

def reads (room : ℕ) (s : List α) : List (List α) := readsFrom nl room s.length s

def lines : List α → List (List α)
  | [] => []
  | c :: s =>
    if c = nl then [c] :: lines s
    else
      match lines s with
      | [] => [[c]]
      | l :: ls => (c :: l) :: ls

end Definitions

section Reads
variable [DecidableEq α] {nl : α} {room : ℕ} {s t : List α}

theorem fgets_split (room : ℕ) (s : List α) : (fgets nl room s).1 ++ (fgets nl room s).2 = s := by
  induction room generalizing s with
  | zero => rfl
  | succ room ih =>
    cases s with
    | nil => rfl
    | cons c s =>
      simp only [fgets]
      split
      · rfl
      · rw [List.cons_append, ih]

theorem fgets_ne_nil (hroom : 0 < room) (hs : s ≠ []) : (fgets nl room s).1 ≠ [] := by
  obtain ⟨room, rfl⟩ := Nat.exists_eq_add_one.mpr hroom
  obtain ⟨c, s, rfl⟩ := List.exists_cons_of_ne_nil hs
  simp only [fgets]
  split <;> simp

/-- A line that fits is read as a whole. -/
theorem fgets_line (hs : nl ∉ s) (hfits : s.length < room) (t : List α) : fgets nl room (s ++ nl :: t) = (s ++ [nl], t) := by
  induction s generalizing room with
  | nil =>
    obtain ⟨room, rfl⟩ := Nat.exists_eq_add_one.mpr hfits
    simp [fgets]
  | cons c s ih =>
    obtain ⟨room, rfl⟩ := Nat.exists_eq_add_one.mpr (Nat.lt_of_le_of_lt (Nat.zero_le _) hfits)
    simp only [List.mem_cons, not_or] at hs
    have hrest := ih hs.2 (by simpa using hfits)
    rw [List.cons_append, fgets, if_neg (fun h => hs.1 h.symm), hrest]
    rfl

theorem fgets_whole (hs : nl ∉ s) (hfits : s.length ≤ room) : fgets nl room s = (s, []) := by
  induction s generalizing room with
  | nil => cases room <;> rfl
  | cons c s ih =>
    obtain ⟨room, rfl⟩ := Nat.exists_eq_add_one.mpr (Nat.lt_of_lt_of_le (Nat.succ_pos _) hfits)
    simp only [List.mem_cons, not_or] at hs
    rw [fgets, if_neg (fun h => hs.1 h.symm), ih hs.2 (Nat.le_of_succ_le_succ hfits)]

/-- Of a line that does not fit the room is filled. -/
theorem fgets_cut (hs : nl ∉ s) (hlong : room ≤ s.length) (t : List α) :
    fgets nl room (s ++ t) = (s.take room, s.drop room ++ t) := by
  induction s generalizing room with
  | nil =>
    obtain rfl := Nat.le_zero.mp hlong
    rfl
  | cons c s ih =>
    cases room with
    | zero => rfl
    | succ room =>
      simp only [List.mem_cons, not_or] at hs
      have hrest := ih hs.2 (Nat.le_of_succ_le_succ hlong)
      rw [List.cons_append, fgets, if_neg (fun h => hs.1 h.symm), hrest]
      rfl

theorem fgets_shrinks (hroom : 0 < room) (hs : s ≠ []) : (fgets nl room s).2.length < s.length := by
  have hpos : 0 < (fgets nl room s).1.length := List.length_pos_iff.mpr (fgets_ne_nil hroom hs)
  have hsplit : ((fgets nl room s).1 ++ (fgets nl room s).2).length = s.length := congrArg List.length (fgets_split room s)
  rw [List.length_append] at hsplit
  omega

theorem readsFrom_eq (hroom : 0 < room) {fuel : ℕ} (h : s.length ≤ fuel) : readsFrom nl room fuel s = reads nl room s := by
  suffices hall : ∀ fuel fuel' (s : List α), s.length ≤ fuel → s.length ≤ fuel' →
      readsFrom nl room fuel s = readsFrom nl room fuel' s from hall _ _ s h (Nat.le_refl _)
  intro fuel
  induction fuel with
  | zero =>
    intro fuel' s hs _
    obtain rfl := List.length_eq_zero_iff.mp (Nat.le_zero.mp hs)
    cases fuel' <;> simp [readsFrom]
  | succ fuel ih =>
    intro fuel' s hs hs'
    cases fuel' with
    | zero =>
      obtain rfl := List.length_eq_zero_iff.mp (Nat.le_zero.mp hs')
      simp [readsFrom]
    | succ fuel' =>
      by_cases hnil : s = []
      · simp [readsFrom, hnil]
      · have hless : (fgets nl room s).2.length < s.length := fgets_shrinks hroom hnil
        rw [readsFrom, readsFrom, if_neg hnil, if_neg hnil, ih fuel' _ (by omega) (by omega)]

@[simp] theorem reads_nil : reads nl room [] = [] := rfl

theorem reads_step (hroom : 0 < room) (hs : s ≠ []) :
    reads nl room s = (fgets nl room s).1 :: reads nl room (fgets nl room s).2 := by
  have hless : (fgets nl room s).2.length < s.length := fgets_shrinks hroom hs
  obtain ⟨fuel, hfuel⟩ := Nat.exists_eq_add_one.mpr (List.length_pos_iff.mpr hs)
  rw [reads, hfuel, readsFrom, if_neg hs, readsFrom_eq hroom (by omega)]

variable (nl) in
/-- Reads on texts, by what one read leaves. -/
theorem reads_induction {P : List α → Prop} (hroom : 0 < room) (nil : P [])
    (step : ∀ s, s ≠ [] → P (fgets nl room s).2 → P s) (s : List α) : P s := by
  induction hn : s.length using Nat.strongRecOn generalizing s with
  | ind n ih =>
    by_cases hs : s = []
    · exact hs ▸ nil
    · exact step s hs (ih _ (hn ▸ fgets_shrinks hroom hs) _ rfl)

theorem reads_flatten (hroom : 0 < room) (s : List α) : (reads nl room s).flatten = s := by
  induction s using reads_induction nl hroom with
  | nil => rfl
  | step s hs ih => rw [reads_step hroom hs, List.flatten_cons, ih, fgets_split]

theorem reads_nonempty (hroom : 0 < room) (s : List α) : ∀ p ∈ reads nl room s, p ≠ [] := by
  induction s using reads_induction nl hroom with
  | nil => simp
  | step s hs ih =>
    rw [reads_step hroom hs, List.forall_mem_cons]
    exact ⟨fgets_ne_nil hroom hs, ih⟩

/-- A line without its end, read alone or before more text. -/
theorem reads_line (hroom : 0 < room) (hs : nl ∉ s) (t : List α) :
    reads nl room (s ++ nl :: t) = reads nl room (s ++ [nl]) ++ reads nl room t := by
  induction hn : s.length using Nat.strongRecOn generalizing s with
  | ind n ih =>
    rcases Nat.lt_or_ge s.length room with hfits | hlong
    · rw [reads_step hroom (by simp), reads_step (s := s ++ [nl]) hroom (by simp), fgets_line hs hfits, fgets_line hs hfits]
      simp
    · have hdrop : nl ∉ s.drop room := fun hmem => hs (List.mem_of_mem_drop hmem)
      have hlength : (s.drop room).length < n := by
        rw [List.length_drop]
        omega
      rw [reads_step hroom (by simp), reads_step (s := s ++ [nl]) hroom (by simp), fgets_cut hs hlong, fgets_cut hs hlong,
        ih _ hlength hdrop rfl, List.cons_append]

@[simp] theorem lines_nil : lines nl [] = [] := rfl

theorem lines_single (hs : nl ∉ s) (hne : s ≠ []) : lines nl s = [s] := by
  induction s with
  | nil => exact absurd rfl hne
  | cons c s ih =>
    simp only [List.mem_cons, not_or] at hs
    rw [lines, if_neg (fun h => hs.1 h.symm)]
    cases s with
    | nil => rfl
    | cons d s => rw [ih hs.2 (by simp)]

theorem lines_cons (hs : nl ∉ s) (t : List α) : lines nl (s ++ nl :: t) = (s ++ [nl]) :: lines nl t := by
  induction s with
  | nil => simp [lines]
  | cons c s ih =>
    simp only [List.mem_cons, not_or] at hs
    rw [List.cons_append, lines, if_neg (fun h => hs.1 h.symm), ih hs.2]
    rfl

variable (nl) in
/-- Texts by their first line. -/
theorem lines_induction {P : List α → Prop} (single : ∀ s, nl ∉ s → P s)
    (more : ∀ s t, nl ∉ s → P t → P (s ++ nl :: t)) (s : List α) : P s := by
  induction hn : s.length using Nat.strongRecOn generalizing s with
  | ind n ih =>
    by_cases hmem : nl ∈ s
    · obtain ⟨s, t, rfl, hs⟩ := List.eq_append_cons_of_mem hmem
      exact more s t hs (ih t.length (by simp at hn; omega) t rfl)
    · exact single s hmem

/-- No read goes beyond a line. -/
theorem reads_eq_flatMap (hroom : 0 < room) (t : List α) : reads nl room t = (lines nl t).flatMap (reads nl room) := by
  induction t using lines_induction nl with
  | single s hs =>
    by_cases hne : s = []
    · simp [hne]
    · rw [lines_single hs hne, List.flatMap_singleton]
  | more s t hs ih => rw [lines_cons hs, List.flatMap_cons, reads_line hroom hs, ih]

theorem lines_nonempty (t : List α) : ∀ l ∈ lines nl t, l ≠ [] := by
  induction t using lines_induction nl with
  | single s hs =>
    by_cases hne : s = []
    · simp [hne]
    · simp [lines_single hs hne, hne]
  | more s t hs ih =>
    rw [lines_cons hs, List.forall_mem_cons]
    exact ⟨by simp, ih⟩

/-- A line that fits is one read. -/
theorem reads_of_fits (hroom : 0 < room) (t : List α) :
    ∀ l ∈ lines nl t, l.length ≤ room → reads nl room l = [l] := by
  induction t using lines_induction nl with
  | single s hs =>
    by_cases hne : s = []
    · simp [hne]
    · rw [lines_single hs hne, List.forall_mem_singleton]
      intro hfits
      rw [reads_step hroom hne, fgets_whole hs hfits, reads_nil]
  | more s t hs ih =>
    rw [lines_cons hs, List.forall_mem_cons]
    refine ⟨fun hfits => ?_, ih⟩
    rw [List.length_append, List.length_singleton] at hfits
    rw [reads_step hroom (by simp), fgets_line hs (by omega), reads_nil]

end Reads

/-! ## Searches -/

section Search
variable {β γ : Type*} {header exact : List α → Bool} {cut : List α → List (List α)} {ls : List (List α)}

/-- Where the first piece that is looked for ends. -/
def firstEnd (p : List α → Bool) : ℕ → List (List α) → Option ℕ
  | _, [] => none
  | pos, b :: bs => if p b then some (pos + b.length) else firstEnd p (pos + b.length) bs

/-- A line is found by its last piece only, or not at all. -/
def Met (header exact : List α → Bool) (pieces : List (List α)) (l : List α) : Prop :=
  if exact l then ∃ front last, pieces = front ++ [last] ∧ (∀ p ∈ front, header p = false) ∧ header last = true
  else ∀ p ∈ pieces, header p = false

theorem firstEnd_append (p : List α → Bool) (pos : ℕ) (as bs : List (List α)) :
    firstEnd p pos (as ++ bs) = (firstEnd p pos as).or (firstEnd p (pos + as.flatten.length) bs) := by
  induction as generalizing pos with
  | nil => simp [firstEnd]
  | cons a as ih =>
    rw [List.cons_append, firstEnd, firstEnd]
    split
    · rfl
    · rw [ih, List.flatten_cons, List.length_append, Nat.add_assoc]

theorem firstEnd_eq_none_iff (p : List α → Bool) (pos : ℕ) (as : List (List α)) :
    firstEnd p pos as = none ↔ ∀ a ∈ as, p a = false := by
  induction as generalizing pos with
  | nil => simp [firstEnd]
  | cons a as ih =>
    rw [firstEnd, List.forall_mem_cons]
    split
    · next ha => simp [ha]
    · next ha => simp [ih, ha]

theorem firstEnd_eq_some_iff {p : List α → Bool} {pos k : ℕ} {as : List (List α)} :
    firstEnd p pos as = some k ↔
      ∃ before a after, as = before ++ a :: after ∧ (∀ b ∈ before, p b = false) ∧ p a = true ∧
        k = pos + (before ++ [a]).flatten.length := by
  constructor
  · intro h
    induction as generalizing pos with
    | nil => cases h
    | cons a as ih =>
      rw [firstEnd] at h
      split at h
      · next ha => exact ⟨[], a, as, rfl, by simp, ha, by simpa using h.symm⟩
      · next ha =>
        obtain ⟨before, b, after, rfl, hbefore, hb, rfl⟩ := ih h
        refine ⟨a :: before, b, after, rfl, List.forall_mem_cons.mpr ⟨by simpa using ha, hbefore⟩, hb, ?_⟩
        rw [List.cons_append, List.flatten_cons, List.length_append, Nat.add_assoc]
  · rintro ⟨before, a, after, rfl, hbefore, ha, rfl⟩
    rw [firstEnd_append, (firstEnd_eq_none_iff p pos before).mpr hbefore, Option.none_or, firstEnd, if_pos ha]
    simp [Nat.add_assoc]

theorem firstEnd_bounds {p : List α → Bool} {pos k : ℕ} {as : List (List α)} (hne : ∀ a ∈ as, a ≠ [])
    (h : firstEnd p pos as = some k) : pos < k ∧ k ≤ pos + as.flatten.length := by
  induction as generalizing pos with
  | nil => cases h
  | cons a as ih =>
    rw [List.forall_mem_cons] at hne
    have hpos := List.length_pos_iff.mpr hne.1
    rw [firstEnd] at h
    rw [List.flatten_cons, List.length_append]
    split at h
    · obtain rfl := Option.some.inj h
      omega
    · obtain ⟨hlow, hhigh⟩ := ih hne.2 h
      omega

/-- The search ends with the last piece. -/
theorem firstEnd_eq_end_iff {p : List α → Bool} {as : List (List α)} (hne : ∀ a ∈ as, a ≠ []) (pos : ℕ) :
    firstEnd p pos as = some (pos + as.flatten.length) ↔
      ∃ front last, as = front ++ [last] ∧ (∀ a ∈ front, p a = false) ∧ p last = true := by
  induction as generalizing pos with
  | nil => simp [firstEnd]
  | cons a as ih =>
    rw [List.forall_mem_cons] at hne
    rw [firstEnd, List.flatten_cons, List.length_append]
    by_cases ha : p a = true
    · rw [if_pos ha, Option.some.injEq]
      constructor
      · intro hlength
        have hnil : as = [] := by
          by_contra has
          obtain ⟨b, bs, rfl⟩ := List.exists_cons_of_ne_nil has
          have hpos := List.length_pos_iff.mpr (hne.2 b List.mem_cons_self)
          rw [List.flatten_cons, List.length_append] at hlength
          omega
        exact ⟨[], a, by rw [hnil]; rfl, by simp, ha⟩
      · rintro ⟨front, last, heq, hfront, -⟩
        cases front with
        | nil =>
          obtain ⟨-, rfl⟩ := List.cons.inj heq
          simp
        | cons b front =>
          obtain ⟨rfl, -⟩ := List.cons.inj heq
          rw [hfront a List.mem_cons_self] at ha
          cases ha
    · rw [if_neg ha, ← Nat.add_assoc, ih hne.2]
      constructor
      · rintro ⟨front, last, rfl, hfront, hlast⟩
        exact ⟨a :: front, last, rfl, List.forall_mem_cons.mpr ⟨by simpa using ha, hfront⟩, hlast⟩
      · rintro ⟨front, last, heq, hfront, hlast⟩
        cases front with
        | nil =>
          obtain ⟨rfl, -⟩ := List.cons.inj heq
          exact absurd hlast ha
        | cons b front =>
          obtain ⟨rfl, rfl⟩ := List.cons.inj heq
          exact ⟨front, last, rfl, (List.forall_mem_cons.mp hfront).2, hlast⟩

/-- What is asked of the lines of a text, one by one up to some line. -/
theorem forall_split_cons {P : List α → List (List α) → Prop} {skip : List α → Prop} {l : List α} :
    (∀ before x after, l :: ls = before ++ x :: after → (∀ y ∈ before, skip y) → P x after) ↔
      P l ls ∧ (skip l → ∀ before x after, ls = before ++ x :: after → (∀ y ∈ before, skip y) → P x after) := by
  constructor
  · intro h
    refine ⟨h [] l ls rfl (by simp), fun hl before x after heq hbefore => ?_⟩
    exact h (l :: before) x after (by rw [heq]; rfl) (List.forall_mem_cons.mpr ⟨hl, hbefore⟩)
  · rintro ⟨hfirst, hrest⟩ before x after heq hbefore
    cases before with
    | nil =>
      obtain ⟨rfl, rfl⟩ := List.cons.inj heq
      exact hfirst
    | cons y before =>
      obtain ⟨rfl, hls⟩ := List.cons.inj heq
      rw [List.forall_mem_cons] at hbefore
      exact hrest hbefore.1 before x after hls hbefore.2

/-- The search through the pieces ends with the line that is looked for exactly if every line
up to that one is met. -/
theorem firstEnd_flatMap_iff (hcut : ∀ l ∈ ls, (cut l).flatten = l ∧ (∀ p ∈ cut l, p ≠ []) ∧ l ≠ []) (pos : ℕ) :
    firstEnd header pos (ls.flatMap cut) = firstEnd exact pos ls ↔
      ∀ before l after, ls = before ++ l :: after → (∀ x ∈ before, exact x = false) → Met header exact (cut l) l := by
  induction ls generalizing pos with
  | nil => simp [firstEnd]
  | cons l ls ih =>
    obtain ⟨⟨hflatten, hpieces, hne⟩, hcut⟩ := List.forall_mem_cons.mp hcut
    have hls : ∀ x ∈ ls, x ≠ [] := fun x hx => (hcut x hx).2.2
    have hrest : ∀ p ∈ ls.flatMap cut, p ≠ [] := by
      intro p hp
      obtain ⟨x, hx, hp⟩ := List.mem_flatMap.mp hp
      exact (hcut x hx).2.1 p hp
    rw [forall_split_cons (P := fun l _ => Met header exact (cut l) l), ← ih hcut (pos + l.length), List.flatMap_cons,
      firstEnd_append, hflatten, firstEnd]
    have hend := firstEnd_eq_end_iff (p := header) hpieces pos
    rw [hflatten] at hend
    unfold Met
    cases hl : exact l with
    | true =>
      rw [if_pos rfl, if_pos rfl, ← hend]
      cases hfirst : firstEnd header pos (cut l) with
      | some k => simp
      | none =>
        refine iff_of_false (fun h => ?_) (fun h => nomatch h.1)
        rw [Option.none_or] at h
        have hlate := (firstEnd_bounds hrest h).1
        omega
    | false =>
      rw [if_neg (by simp), if_neg (by simp), ← firstEnd_eq_none_iff header pos]
      cases hfirst : firstEnd header pos (cut l) with
      | none => simp
      | some k =>
        refine iff_of_false (fun h => ?_) (fun h => nomatch h.1)
        have hearly := (firstEnd_bounds hpieces hfirst).2
        rw [Option.some_or] at h
        have hlate := (firstEnd_bounds hls h.symm).1
        rw [hflatten] at hearly
        omega

/-- A line is torn if what its pieces say is not what it says. -/
def Torn (decide' : List α → Option β) (cut : List α → List (List α)) (l : List α) : Prop :=
  (cut l).findSome? decide' ≠ decide' l

/-- Where no line that the search comes to is torn, it gives the same through the pieces. -/
theorem findSome_flatMap {d : List α → Option β}
    (h : ∀ before l after, ls = before ++ l :: after → (∀ x ∈ before, d x = none) → ¬ Torn d cut l) :
    (ls.flatMap cut).findSome? d = ls.findSome? d := by
  induction ls with
  | nil => rfl
  | cons l ls ih =>
    obtain ⟨hfirst, hrest⟩ := (forall_split_cons (P := fun l _ => ¬ Torn d cut l)).mp h
    rw [List.flatMap_cons, List.findSome?_append, List.findSome?_cons, not_not.mp hfirst]
    cases hl : d l with
    | none => rw [Option.none_or, ih (hrest hl)]
    | some b => rfl

end Search
end LineReader

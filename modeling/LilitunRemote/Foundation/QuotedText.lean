import Mathlib.Data.List.Basic
import Mathlib.Tactic.Common

/-! # Quoted literals

A literal stands between two quotes. In it a doubled quote is a quote of its text, and
every other symbol stands for itself.
-/
namespace QuotedText
variable {α : Type*} [DecidableEq α] (q : α)

/-- The text of a literal from its first symbol on, and what follows the literal. -/
def scan : List α → Option (List α × List α)
  | [] => none
  | c :: s =>
    if c ≠ q then (scan s).map fun r => (c :: r.1, r.2)
    else
      match s with
      | [] => some ([], [])
      | d :: rest => if d = q then (scan rest).map fun r => (q :: r.1, r.2) else some ([], d :: rest)

def literal (s : List α) : Option (List α × List α) :=
  match s with
  | [] => none
  | c :: rest => if c = q then scan q rest else none

def between (s : List α) : List α := q :: (s ++ [q])

section Scan
variable {q : α} {s rest : List α}

theorem scan_cons {c : α} (hc : c ≠ q) (s : List α) : scan q (c :: s) = (scan q s).map fun r => (c :: r.1, r.2) := by
  rw [scan.eq_def]
  exact if_pos hc

theorem scan_end (h : rest.head? ≠ some q) : scan q (q :: rest) = some ([], rest) := by
  cases rest with
  | nil => simp [scan]
  | cons d rest =>
    have hd : d ≠ q := by simpa using h
    simp [scan, hd]

theorem scan_doubled (rest : List α) : scan q (q :: q :: rest) = (scan q rest).map fun r => (q :: r.1, r.2) := by
  simp [scan]

/-- The scan passes over symbols that are no quotes. -/
theorem scan_append (h : q ∉ s) (rest : List α) : scan q (s ++ rest) = (scan q rest).map fun r => (s ++ r.1, r.2) := by
  induction s with
  | nil => simp
  | cons c s ih =>
    simp only [List.mem_cons, not_or] at h
    rw [List.cons_append, scan_cons (fun heq => h.1 heq.symm), ih h.2, Option.map_map]
    rfl

/-- A text without quotes is the text of its literal. -/
theorem scan_self (h : q ∉ s) (hrest : rest.head? ≠ some q) : scan q (s ++ q :: rest) = some (s, rest) := by
  rw [scan_append h, scan_end hrest]
  simp

theorem literal_between (h : q ∉ s) (hrest : rest.head? ≠ some q) :
    literal q (between q s ++ rest) = some (s, rest) := by
  simpa [literal, between] using scan_self h hrest

/-- With a quote behind a text that has none, the literal ends there, or goes on behind a
second quote. -/
theorem scan_cases (h : q ∉ s) {v after : List α} (hscan : scan q (s ++ q :: rest) = some (v, after)) :
    (v = s ∧ after = rest ∧ rest.head? ≠ some q) ∨ ∃ more rest', rest = q :: rest' ∧ v = s ++ q :: more := by
  by_cases hrest : rest.head? = some q
  · obtain ⟨rest', rfl⟩ := List.head?_eq_some_iff.mp hrest
    rw [scan_append h, scan_doubled, Option.map_map] at hscan
    obtain ⟨r, -, hr⟩ := Option.map_eq_some_iff.mp hscan
    cases hr
    exact Or.inr ⟨r.1, rest', rfl, rfl⟩
  · rw [scan_self h hrest] at hscan
    cases hscan
    exact Or.inl ⟨rfl, rfl, hrest⟩

end Scan
end QuotedText

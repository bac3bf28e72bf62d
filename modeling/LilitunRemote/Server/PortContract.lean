import LilitunRemote.Foundation.Pool
import LilitunRemote.Server.Portctrl

/-! # The contract of the port pool

`portctrl.c` as a pool of numbers under arbitrary calls. The search for a free mark ends
at the first one even when its port has the number 0 and stays unmarked, so a range that
starts at 0 and has further ports gives none of them.
-/
namespace LilitunRemote
namespace PortRange
variable (range : PortRange)

def portctrlFreeResult (num : ℕ) : ℕ :=
  let i := (num + 2 ^ 32 - range.base) % 2 ^ 32
  if num ≠ 0 ∧ i < range.max then 1 else 0

def ports : Set UInt32 := {n | range.base ≤ n.toNat ∧ n.toNat < range.base + range.max}

def pool : Pool.Impl UInt32 Marks where
  nothing := 0
  alloc marks := (UInt32.ofNat (range.portctrlAlloc marks).1, (range.portctrlAlloc marks).2)
  free n marks := (range.portctrlFreeResult n.toNat, range.portctrlFree n.toNat marks)
  mark marks n := marks (n.toNat - range.base)

@[simp] theorem pool_nothing : range.pool.nothing = 0 := rfl

def portctrlInit : Marks := fun _ => false

variable {range}

theorem portOf_lt (i : ℕ) : range.portOf i < 2 ^ 32 := Nat.mod_lt _ (by omega)

theorem portOf_of_fits (hfits : range.base + range.max ≤ 65536) {i : ℕ} (hi : i < range.max) :
    range.portOf i = i + range.base := by
  unfold portOf
  omega

def portWord (range : PortRange) (i : ℕ) : UInt32 := UInt32.ofNat (range.portOf i)

theorem portWord_toNat (i : ℕ) : (range.portWord i).toNat = range.portOf i := by
  simp only [portWord, UInt32.toNat_ofNat']
  exact Nat.mod_eq_of_lt (portOf_lt i)

theorem portWord_eq_zero_iff (i : ℕ) : range.portWord i = 0 ↔ range.portOf i = 0 := by
  rw [← UInt32.toNat_inj, portWord_toNat]
  rfl

theorem portWord_inj {i j : ℕ} (hi : i < range.max) (hj : j < range.max) (h : range.portWord i = range.portWord j) : i = j := by
  apply portOf_inj hi hj
  simpa only [portWord_toNat] using congrArg UInt32.toNat h

/-- An allocation finds no free mark, or the first free one has the port 0, or its port is given. -/
theorem alloc_cases (range : PortRange) (marks : Marks) :
    ((∀ i < range.max, marks i = true) ∧ range.pool.alloc marks = (0, marks)) ∨
      ∃ i < range.max, marks i = false ∧ (∀ j < i, marks j = true) ∧
        (range.portWord i = 0 ∧ range.pool.alloc marks = (0, marks) ∨
          range.portWord i ≠ 0 ∧ range.pool.alloc marks = (range.portWord i, Function.update marks i true)) := by
  cases hfind : (List.range range.max).find? (fun i => !marks i) with
  | none =>
    left
    refine ⟨fun i hi => ?_, by simp [pool, portctrlAlloc, hfind]⟩
    simpa using List.find?_eq_none.mp hfind i (List.mem_range.mpr hi)
  | some i =>
    right
    obtain ⟨hfree, hi, hbefore⟩ := List.find?_range_eq_some.mp hfind
    refine ⟨i, List.mem_range.mp hi, by simpa using hfree, by simpa using hbefore, ?_⟩
    by_cases hport : range.portOf i = 0
    · exact Or.inl ⟨(portWord_eq_zero_iff i).mpr hport, by simp [pool, portctrlAlloc, hfind, hport]⟩
    · exact Or.inr ⟨mt (portWord_eq_zero_iff i).mp hport, by simp [pool, portctrlAlloc, hfind, hport, portWord]⟩

section Fits
variable (hfits : range.base + range.max ≤ 65536)
include hfits

theorem portWord_mem {i : ℕ} (hi : i < range.max) : range.portWord i ∈ range.ports := by
  have hport := portOf_of_fits hfits hi
  refine ⟨?_, ?_⟩ <;> rw [portWord_toNat] <;> omega

theorem mem_ports_iff (n : UInt32) : n ∈ range.ports ↔ ∃ i < range.max, n = range.portWord i := by
  constructor
  · rintro ⟨hbase, hmax⟩
    have hi : n.toNat - range.base < range.max := by omega
    refine ⟨n.toNat - range.base, hi, UInt32.toNat_inj.mp ?_⟩
    rw [portWord_toNat, portOf_of_fits hfits hi]
    omega
  · rintro ⟨i, hi, rfl⟩
    exact portWord_mem hfits hi

theorem mark_portWord {i : ℕ} (hi : i < range.max) (marks : Marks) : range.pool.mark marks (range.portWord i) = marks i := by
  have hindex : (range.portWord i).toNat - range.base = i := by
    rw [portWord_toNat, portOf_of_fits hfits hi, Nat.add_sub_cancel]
  simp only [pool, hindex]

/-- The test of `portctrl_free`, wrap-around included, is membership in the range. -/
theorem free_test_iff (n : UInt32) :
    (n.toNat ≠ 0 ∧ (n.toNat + 2 ^ 32 - range.base) % 2 ^ 32 < range.max) ↔ n ≠ 0 ∧ n ∈ range.ports := by
  have hn := n.toNat_lt
  refine and_congr (not_congr (UInt32.toNat_inj (b := 0))) ?_
  change _ ↔ range.base ≤ n.toNat ∧ n.toNat < range.base + range.max
  omega

theorem free_accepts_iff (n : UInt32) (marks : Marks) :
    (range.pool.free n marks).1 = 1 ↔ n ≠ 0 ∧ n ∈ range.ports := by
  rw [← free_test_iff hfits n]
  simp [pool, portctrlFreeResult]

/-- What a call with a number does to the marks: that of the port, if it is one, is taken off. -/
theorem free_marks (n : UInt32) (marks : Marks) {i : ℕ} (hi : i < range.max) :
    (range.pool.free n marks).2 i = if n ≠ 0 ∧ n = range.portWord i then false else marks i := by
  by_cases hn : n ≠ 0 ∧ n ∈ range.ports
  · obtain ⟨hne, hmem⟩ := hn
    obtain ⟨j, hj, rfl⟩ := (mem_ports_iff hfits n).mp hmem
    have hport : range.portOf j ≠ 0 := mt (portWord_eq_zero_iff j).mpr hne
    simp only [pool, portWord_toNat, portctrlFree_portOf hj hport]
    by_cases hij : i = j
    · subst hij
      simp [hne]
    · have hword : range.portWord j ≠ range.portWord i := fun h => hij (portWord_inj hj hi h).symm
      simp [hij, hword]
  · have hkeep : (range.pool.free n marks).2 = marks := if_neg (mt (free_test_iff hfits n).mp hn)
    have hother : ¬ (n ≠ 0 ∧ n = range.portWord i) := by
      rintro ⟨hne, rfl⟩
      exact hn ⟨hne, portWord_mem hfits hi⟩
    rw [hkeep, if_neg hother]

/-- The marks are those of the held ports. -/
def Marked (range : PortRange) (marks : Marks) (held : Set UInt32) : Prop :=
  ∀ i < range.max, marks i = true ↔ range.portWord i ≠ 0 ∧ range.portWord i ∈ held

omit hfits in
theorem marked_init (range : PortRange) : Marked range portctrlInit ∅ := by
  simp [Marked, portctrlInit]

theorem Marked.free {marks : Marks} {held : Set UInt32} (h : Marked range marks held) (n : UInt32) :
    Pool.FreeOk range.pool range.ports n marks ∧ Marked range (range.pool.free n marks).2 (held \ {n}) := by
  refine ⟨⟨free_accepts_iff hfits n marks, ?_⟩, ?_⟩
  · intro m hm hmn
    obtain ⟨i, hi, rfl⟩ := (mem_ports_iff hfits m).mp hm
    rw [mark_portWord hfits hi, mark_portWord hfits hi, free_marks hfits n marks hi, if_neg]
    exact fun h => hmn h.2.symm
  · intro i hi
    rw [free_marks hfits n marks hi]
    split
    · rename_i hn
      simp [← hn.2]
    · rename_i hn
      rw [h i hi]
      refine and_congr_right (fun hne => ⟨fun hmem => ⟨hmem, ?_⟩, And.left⟩)
      rintro rfl
      exact hn ⟨hne, rfl⟩

/-- While no port of the range has the number 0, or none but that one is in it, the first
free mark decides whether there is a port to give. -/
theorem Marked.alloc (hbase : range.base ≠ 0 ∨ range.max ≤ 1) {marks : Marks} {held : Set UInt32}
    (h : Marked range marks held) :
    Pool.AllocOk range.pool range.ports marks held ∧
      Marked range (range.pool.alloc marks).2 (Pool.heldAfterAlloc range.pool marks held) := by
  rcases alloc_cases range marks with ⟨hfull, hnone⟩ | ⟨i, hi, hfree, -, ⟨hzero, hnone⟩ | ⟨hport, hsome⟩⟩
  · refine ⟨Or.inr ⟨congrArg Prod.fst hnone, fun n hn hne => ?_⟩, ?_⟩
    · obtain ⟨i, hi, rfl⟩ := (mem_ports_iff hfits n).mp hn
      exact ((h i hi).mp (hfull i hi)).2
    · simpa [Pool.heldAfterAlloc, hnone] using h
  · -- the port 0 is the only one of its range
    refine ⟨Or.inr ⟨congrArg Prod.fst hnone, fun n hn hne => ?_⟩, ?_⟩
    · obtain ⟨j, hj, rfl⟩ := (mem_ports_iff hfits n).mp hn
      have hsum : i + range.base = 0 := by
        rw [← portOf_of_fits hfits hi]
        exact (portWord_eq_zero_iff i).mp hzero
      have hji : j = i := by omega
      exact absurd (hji ▸ hzero) hne
    · simpa [Pool.heldAfterAlloc, hnone] using h
  · have hunheld : range.portWord i ∉ held := by
      intro hmem
      have := (h i hi).mpr ⟨hport, hmem⟩
      simp [hfree] at this
    refine ⟨Or.inl ?_, ?_⟩
    · rw [hsome]
      exact ⟨hport, portWord_mem hfits hi, hunheld, by simp [mark_portWord hfits hi]⟩
    · intro j hj
      simp only [Pool.heldAfterAlloc, hsome, pool_nothing, if_neg hport, Set.mem_insert_iff]
      by_cases hji : j = i
      · subst hji
        simp [hport]
      · have hword : range.portWord j ≠ range.portWord i := fun hjw => hji (portWord_inj hj hi hjw)
        simpa [hji, hword] using h j hj

/-- A range that starts at 0 and has a further port refuses the first call. -/
theorem alloc_refused (hzero : range.base = 0) (hmax : 1 < range.max) :
    ¬ Pool.AllocOk range.pool range.ports portctrlInit ∅ := by
  have hfirst : range.portWord 0 = 0 := by
    simp [portWord_eq_zero_iff, portOf, hzero]
  have hnone : range.pool.alloc portctrlInit = (0, portctrlInit) := by
    rcases alloc_cases range portctrlInit with ⟨-, hnone⟩ | ⟨i, -, -, hbefore, ⟨-, hnone⟩ | ⟨hport, -⟩⟩
    · exact hnone
    · exact hnone
    · have hi : i = 0 := by
        by_contra hne
        exact absurd (hbefore 0 (by omega)) (by decide)
      exact absurd (hi ▸ hfirst) hport
  rintro (⟨hne, -⟩ | ⟨-, hall⟩)
  · exact hne (congrArg Prod.fst hnone)
  · refine hall _ (portWord_mem hfits hmax) ?_
    simp [portWord_eq_zero_iff, portOf, hzero]

end Fits

/-- The contract holds in all runs exactly if the range does not start with the number 0,
or has no port besides it. -/
theorem pool_contract_iff (range : PortRange) (hfits : range.base + range.max ≤ 65536) :
    (∀ calls, Pool.Contract range.pool range.ports portctrlInit ∅ calls) ↔ range.base ≠ 0 ∨ range.max ≤ 1 := by
  constructor
  · intro h
    by_contra hrange
    push Not at hrange
    exact alloc_refused hfits hrange.1 hrange.2 (h [.alloc]).1
  · intro hbase calls
    exact Pool.contract_of_invariant (Marked range) (fun _ _ h => h.alloc hfits hbase) (fun n _ _ h => h.free hfits n)
      (marked_init range) calls

def defaultRange : PortRange := ⟨7000, 512, by omega, by omega⟩

theorem defaultRange_contract :
    defaultRange.base + defaultRange.max ≤ 65536 ∧
      ∀ calls, Pool.Contract defaultRange.pool defaultRange.ports portctrlInit ∅ calls := by
  have hfits : defaultRange.base + defaultRange.max ≤ 65536 := by simp [defaultRange]
  exact ⟨hfits, (pool_contract_iff defaultRange hfits).mpr (Or.inl (by simp [defaultRange]))⟩

def twoPorts : PortRange := ⟨0, 2, by omega, by omega⟩

/-- Port 1 is free and the first call is refused. -/
theorem twoPorts_refused :
    ¬ ∀ range : PortRange, range.base + range.max ≤ 65536 →
      ∀ calls, Pool.Contract range.pool range.ports portctrlInit ∅ calls := by
  intro h
  have hfits : twoPorts.base + twoPorts.max ≤ 65536 := by simp [twoPorts]
  exact alloc_refused hfits rfl (by simp [twoPorts]) (h twoPorts hfits [.alloc]).1

end PortRange
end LilitunRemote

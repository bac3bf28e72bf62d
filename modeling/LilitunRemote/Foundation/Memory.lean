import Mathlib.Data.List.Basic
import Mathlib.Data.Int.Basic
import Mathlib.Tactic.Ring

/-! # Bounded byte memory and 32-bit integer arithmetic

A buffer is an array of bytes addressed by signed offsets. A load or a store
outside it has no result. Byte copies are listed as offsets, so that a nest of
loops over one buffer is a single list of copies: whether it stays inside both
buffers and what it leaves behind are two separate questions about that list.
-/
namespace Memory

def wrapInt (z : ℤ) : ℤ := (z + 2 ^ 31) % 2 ^ 32 - 2 ^ 31

def wrapChar (z : ℤ) : ℤ := (z + 128) % 256 - 128

theorem wrapInt_of_range {z : ℤ} (h : -2 ^ 31 ≤ z) (h' : z < 2 ^ 31) : wrapInt z = z := by
  unfold wrapInt
  omega

theorem wrapInt_bounds (z : ℤ) : -2 ^ 31 ≤ wrapInt z ∧ wrapInt z < 2 ^ 31 := by
  unfold wrapInt
  omega

def asInt (w : UInt32) : ℤ := wrapInt w.toNat

theorem asInt_bounds (w : UInt32) : -2 ^ 31 ≤ asInt w ∧ asInt w < 2 ^ 31 := wrapInt_bounds _

theorem toNat_ofNat {n : ℕ} (h : n < 2 ^ 32) : (UInt32.ofNat n).toNat = n := by
  rw [UInt32.toNat_ofNat', Nat.mod_eq_of_lt h]

theorem asInt_ofNat {n : ℕ} (h : n < 2 ^ 31) : asInt (UInt32.ofNat n) = n := by
  rw [asInt, toNat_ofNat (by omega)]
  exact wrapInt_of_range (by omega) (by exact_mod_cast h)

def wordOfInt (z : ℤ) : UInt32 := UInt32.ofNat (z % 2 ^ 32).toNat

theorem wordOfInt_natCast {n : ℕ} (h : n < 2 ^ 32) : wordOfInt n = UInt32.ofNat n := by
  have hn : ((n : ℤ) % 2 ^ 32).toNat = n := by omega
  rw [wordOfInt, hn]

theorem asInt_wordOfInt {z : ℤ} (h : -2 ^ 31 ≤ z) (h' : z < 2 ^ 31) : asInt (wordOfInt z) = z := by
  rw [asInt, wordOfInt, toNat_ofNat (by omega)]
  unfold wrapInt
  omega

abbrev Buffer := Array UInt8

def load (m : Buffer) (i : ℤ) : Option UInt8 := if 0 ≤ i then m[i.toNat]? else none

def store (m : Buffer) (i : ℤ) (v : UInt8) : Option Buffer :=
  if 0 ≤ i ∧ i.toNat < m.size then some (m.setIfInBounds i.toNat v) else none

/-- Where a copied byte goes and where it comes from; a missing source is the constant zero. -/
abbrev Copy := ℤ × Option ℤ

def copyByte (src : Buffer) (dst : Buffer) (c : Copy) : Option Buffer :=
  match c.2 with
  | none => store dst c.1 0
  | some i => (load src i).bind (store dst c.1)

def Inside (size : ℕ) (i : ℤ) : Prop := 0 ≤ i ∧ i < size

instance (size : ℕ) (i : ℤ) : Decidable (Inside size i) := inferInstanceAs (Decidable (_ ∧ _))

theorem foldlM_flatMap_option {ι κ β : Type*} (f : β → κ → Option β) (g : ι → List κ) (l : List ι) (b : β) :
    (l.flatMap g).foldlM f b = l.foldlM (fun b i => (g i).foldlM f b) b := by
  induction l generalizing b with
  | nil => rfl
  | cons i l ih =>
    rw [List.flatMap_cons, List.foldlM_append, List.foldlM_cons]
    congr 1
    funext c
    exact ih c

theorem length_flatMap_const {ι κ : Type*} {g : ι → List κ} {n : ℕ} (hg : ∀ i, (g i).length = n) (l : List ι) :
    (l.flatMap g).length = n * l.length := by
  simp [List.length_flatMap, hg, Nat.mul_comm]

/-- Indexing a concatenation of blocks of one length. -/
theorem getElem?_flatMap_const {ι κ : Type*} {g : ι → List κ} {n : ℕ} (hg : ∀ i, (g i).length = n) (l : List ι)
    {i k : ℕ} (hk : k < n) : (l.flatMap g)[n * i + k]? = l[i]?.bind (fun a => (g a)[k]?) := by
  induction l generalizing i with
  | nil => simp
  | cons a l ih =>
    rw [List.flatMap_cons]
    cases i with
    | zero => rw [Nat.mul_zero, Nat.zero_add, List.getElem?_append_left (by rw [hg]; exact hk)]; rfl
    | succ i =>
      have hidx : n * (i + 1) + k - (g a).length = n * i + k := by rw [hg, Nat.mul_add]; omega
      rw [List.getElem?_append_right (by rw [hg, Nat.mul_add]; omega), hidx, ih, List.getElem?_cons_succ]

def CopyInside (srcSize dstSize : ℕ) (c : Copy) : Prop :=
  Inside dstSize c.1 ∧ ∀ i, c.2 = some i → Inside srcSize i

def copyValue (src : Buffer) (c : Copy) : UInt8 :=
  match c.2 with
  | none => 0
  | some i => src.getD i.toNat 0

def copyPure (src : Buffer) (dst : Buffer) (c : Copy) : Buffer :=
  dst.setIfInBounds c.1.toNat (copyValue src c)

@[simp] theorem size_copyPure (src dst : Buffer) (c : Copy) : (copyPure src dst c).size = dst.size := by
  simp [copyPure]

theorem load_eq_some {m : Buffer} {i : ℤ} {v : UInt8} :
    load m i = some v ↔ Inside m.size i ∧ v = m.getD i.toNat 0 := by
  unfold load Inside
  by_cases h : 0 ≤ i
  · rw [if_pos h]
    by_cases hlt : i.toNat < m.size
    · have hi : i < m.size := by omega
      simp only [hlt, getElem?_pos, Option.some.injEq, h, hi, and_self, true_and]
      rw [Array.getD_eq_getD_getElem?, getElem?_pos m i.toNat hlt, Option.getD_some]
      exact eq_comm
    · have hi : ¬ i < m.size := by omega
      simp [hlt, hi]
  · simp [h]

theorem store_eq_some {m m' : Buffer} {i : ℤ} {v : UInt8} :
    store m i v = some m' ↔ Inside m.size i ∧ m' = m.setIfInBounds i.toNat v := by
  unfold store Inside
  by_cases h : 0 ≤ i ∧ i.toNat < m.size
  · have hi : 0 ≤ i ∧ i < m.size := by omega
    simp only [h, hi, and_self, if_true, Option.some.injEq, true_and]
    exact eq_comm
  · have hi : ¬ (0 ≤ i ∧ i < m.size) := by omega
    simp [h, hi]

theorem copyByte_eq_some {src dst dst' : Buffer} {c : Copy} :
    copyByte src dst c = some dst' ↔ CopyInside src.size dst.size c ∧ dst' = copyPure src dst c := by
  obtain ⟨d, s⟩ := c
  cases s with
  | none => simp [copyByte, CopyInside, copyPure, copyValue, store_eq_some]
  | some i =>
    simp only [copyByte, Option.bind_eq_some_iff, load_eq_some, store_eq_some, CopyInside, copyPure, copyValue,
      Option.some.injEq, forall_eq']
    constructor
    · rintro ⟨v, ⟨hi, rfl⟩, hd, rfl⟩
      exact ⟨⟨hd, hi⟩, rfl⟩
    · rintro ⟨⟨hd, hi⟩, rfl⟩
      exact ⟨_, ⟨hi, rfl⟩, hd, rfl⟩

/-- A list of copies runs to its end exactly when every copy is inside. -/
theorem copies_eq_some {src dst dst' : Buffer} {cs : List Copy} :
    cs.foldlM (copyByte src) dst = some dst' ↔
      (∀ c ∈ cs, CopyInside src.size dst.size c) ∧ dst' = cs.foldl (copyPure src) dst := by
  induction cs generalizing dst with
  | nil => simp [eq_comm]
  | cons c cs ih =>
    simp only [List.foldlM_cons, List.forall_mem_cons, List.foldl_cons]
    constructor
    · intro h
      obtain ⟨u, hu, hrest⟩ := Option.bind_eq_some_iff.mp h
      obtain ⟨hc, rfl⟩ := copyByte_eq_some.mp hu
      obtain ⟨hcs, rfl⟩ := ih.mp hrest
      exact ⟨⟨hc, by simpa using hcs⟩, rfl⟩
    · rintro ⟨⟨hc, hcs⟩, rfl⟩
      exact Option.bind_eq_some_iff.mpr
        ⟨_, copyByte_eq_some.mpr ⟨hc, rfl⟩, ih.mpr ⟨by simpa using hcs, rfl⟩⟩

@[simp] theorem size_copies (src dst : Buffer) (cs : List Copy) :
    (cs.foldl (copyPure src) dst).size = dst.size := by
  induction cs generalizing dst with
  | nil => rfl
  | cons c cs ih => rw [List.foldl_cons, ih, size_copyPure]

/-- What a list of copies leaves at one offset, when all its copies to that offset
move the same byte. -/
theorem getElem?_copies {src dst : Buffer} {cs : List Copy} {k : ℕ} (hk : k < dst.size) (v : UInt8)
    (hv : ∀ c ∈ cs, c.1.toNat = k → copyValue src c = v) :
    (cs.foldl (copyPure src) dst)[k]? =
      if ∃ c ∈ cs, c.1.toNat = k then some v else dst[k]? := by
  induction cs generalizing dst with
  | nil => simp
  | cons c cs ih =>
    have hk' : k < (copyPure src dst c).size := by simpa using hk
    have hrest := ih hk' (fun d hd => hv d (List.mem_cons_of_mem _ hd))
    rw [List.foldl_cons, hrest]
    by_cases hcs : ∃ d ∈ cs, d.1.toNat = k
    · obtain ⟨d, hd, hdk⟩ := hcs
      rw [if_pos ⟨d, hd, hdk⟩, if_pos ⟨d, List.mem_cons_of_mem _ hd, hdk⟩]
    · rw [if_neg hcs]
      by_cases hck : c.1.toNat = k
      · rw [if_pos ⟨c, List.mem_cons_self, hck⟩, copyPure, hck, Array.getElem?_setIfInBounds_self_of_lt hk,
          hv c List.mem_cons_self hck]
      · have hne : ¬ ∃ d ∈ c :: cs, d.1.toNat = k := by
          rintro ⟨d, hd, hdk⟩
          rcases List.mem_cons.mp hd with rfl | hd
          · exact hck hdk
          · exact hcs ⟨d, hd, hdk⟩
        rw [if_neg hne, copyPure, Array.getElem?_setIfInBounds_ne hck]

end Memory

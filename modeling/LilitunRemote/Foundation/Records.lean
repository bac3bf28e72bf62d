import Mathlib.Data.List.Basic
import Mathlib.Tactic.Ring

/-! # Reading through a buffer of one record

A source hands out records whole; a reader keeps the rest of the record it took last and
never returns items of two records at once. Whether a read is complete depends only on
where records start.
-/

/-- What is left of the record taken last, and the records not taken yet. -/
structure RecordReader (β : Type*) where
  pending : List β
  records : List (List β)

namespace RecordReader
variable {β : Type*}

def remaining (r : RecordReader β) : List β := r.pending ++ r.records.flatten

def fetch : List β → List (List β) → RecordReader β
  | [], record :: records => fetch record records
  | pending, records => ⟨pending, records⟩

def read (r : RecordReader β) (len : ℕ) : List β × RecordReader β :=
  let t := fetch r.pending r.records
  (t.pending.take len, ⟨t.pending.drop len, t.records⟩)

def startsFrom : ℕ → List (List β) → List ℕ
  | _, [] => []
  | p, record :: records => p :: startsFrom (p + record.length) records

/-- Where the records not taken yet start, for a reader at position `p`. -/
def starts (r : RecordReader β) (p : ℕ) : List ℕ := startsFrom (p + r.pending.length) r.records

def Uncut (starts : List ℕ) (p len : ℕ) : Prop := ∀ c ∈ starts, ¬ (p < c ∧ c < p + len)

instance (starts : List ℕ) (p len : ℕ) : Decidable (Uncut starts p len) := inferInstanceAs (Decidable (∀ _ ∈ _, _))

def Later (starts : List ℕ) (q : ℕ) (later : List ℕ) : Prop := ∀ c, c ∈ later ↔ c ∈ starts ∧ q ≤ c

theorem Later.trans {starts later latest : List ℕ} {q q' : ℕ} (h : Later starts q later) (h' : Later later q' latest)
    (hle : q ≤ q') : Later starts q' latest := by
  intro c
  rw [h' c, h c]
  constructor
  · rintro ⟨⟨hc, _⟩, hq⟩
    exact ⟨hc, hq⟩
  · rintro ⟨hc, hq⟩
    exact ⟨⟨hc, hle.trans hq⟩, hq⟩

theorem Later.mem_iff {starts later : List ℕ} {q c : ℕ} (h : Later starts q later) (hc : q ≤ c) : c ∈ starts ↔ c ∈ later := by
  rw [h c]
  exact ⟨fun hmem => ⟨hmem, hc⟩, And.left⟩

theorem le_of_mem_startsFrom {c p : ℕ} {records : List (List β)} (h : c ∈ startsFrom p records) : p ≤ c := by
  induction records generalizing p with
  | nil => cases h
  | cons record records ih =>
    rcases List.mem_cons.mp h with rfl | h
    · exact le_refl c
    · exact (Nat.le_add_right p _).trans (ih h)

theorem fetch_remaining (pending : List β) (records : List (List β)) :
    (fetch pending records).remaining = pending ++ records.flatten := by
  induction records generalizing pending with
  | nil => cases pending <;> rfl
  | cons record records ih =>
    cases pending with
    | nil => exact ih record
    | cons b pending => rfl

theorem fetch_pending_ne_nil {pending : List β} {records : List (List β)} (h : pending ++ records.flatten ≠ []) :
    (fetch pending records).pending ≠ [] := by
  induction records generalizing pending with
  | nil =>
    cases pending with
    | nil => exact absurd rfl h
    | cons b pending => exact List.cons_ne_nil b pending
  | cons record records ih =>
    cases pending with
    | nil => exact ih h
    | cons b pending => exact List.cons_ne_nil b pending

/-- Only records that start right here are taken. -/
theorem mem_starts_fetch {pending : List β} {records : List (List β)} {p c : ℕ} :
    (c ∈ (fetch pending records).starts p → c ∈ startsFrom (p + pending.length) records) ∧
      (c ∈ startsFrom (p + pending.length) records → p < c → c ∈ (fetch pending records).starts p) := by
  induction records generalizing pending with
  | nil =>
    cases pending with
    | nil => exact ⟨id, fun h _ => h⟩
    | cons b pending => exact ⟨id, fun h _ => h⟩
  | cons record records ih =>
    cases pending with
    | nil =>
      constructor
      · intro h
        exact List.mem_cons_of_mem _ (ih.1 h)
      · intro h hlt
        rcases List.mem_cons.mp h with rfl | h
        · exact absurd hlt (lt_irrefl _)
        · exact ih.2 h hlt
    | cons b pending => exact ⟨id, fun h _ => h⟩

theorem exists_start_iff {r : RecordReader β} {p : ℕ} : (∃ c ∈ r.starts p, p ≤ c) ↔ r.records ≠ [] := by
  obtain ⟨pending, records⟩ := r
  cases records with
  | nil => simp [starts, startsFrom]
  | cons record records =>
    simp only [starts, startsFrom, List.mem_cons, ne_eq, reduceCtorEq, not_false_eq_true, iff_true]
    exact ⟨_, Or.inl rfl, Nat.le_add_right _ _⟩

section Read
variable {r : RecordReader β} {p len : ℕ}

/-- A read that no record start cuts is complete. -/
theorem read_whole (hlen : 0 < len) (henough : len ≤ r.remaining.length) (huncut : Uncut (r.starts p) p len) :
    (r.read len).1 = r.remaining.take len ∧ (r.read len).2.remaining = r.remaining.drop len ∧
      Later (r.starts p) (p + len) ((r.read len).2.starts (p + len)) := by
  obtain ⟨t, ht⟩ : ∃ t, fetch r.pending r.records = t := ⟨_, rfl⟩
  have hall : t.remaining = r.remaining := by
    rw [← ht]
    exact fetch_remaining _ _
  have hmem := @mem_starts_fetch β r.pending r.records p
  rw [ht] at hmem
  have hfits : len ≤ t.pending.length := by
    by_contra hshort
    cases hrec : t.records with
    | nil =>
      have hlast := congrArg List.length hall
      rw [remaining, hrec, List.flatten_nil, List.append_nil] at hlast
      omega
    | cons record records =>
      have hstart : p + t.pending.length ∈ t.starts p := by
        rw [starts, hrec]
        exact List.mem_cons_self
      have hne : t.pending ≠ [] := by
        rw [← ht]
        apply fetch_pending_ne_nil
        intro hnil
        rw [remaining, hnil] at henough
        exact absurd henough (by rw [List.length_nil]; omega)
      have hpos := List.length_pos_iff.mpr hne
      exact huncut _ (hmem.1 hstart) ⟨by omega, by omega⟩
  simp only [read, ht]
  refine ⟨?_, ?_, ?_⟩
  · rw [← hall, remaining, List.take_append_of_le_length hfits]
  · rw [← hall]
    exact (List.drop_append_of_le_length hfits).symm
  · intro c
    have hsame : starts ⟨t.pending.drop len, t.records⟩ (p + len) = t.starts p := by
      simp only [starts, List.length_drop]
      congr 1
      omega
    rw [hsame]
    constructor
    · intro hc
      have hle := le_of_mem_startsFrom hc
      exact ⟨hmem.1 hc, by omega⟩
    · rintro ⟨hc, hle⟩
      exact hmem.2 hc (by omega)

/-- A read that a record start cuts ends there. -/
theorem read_cut (hcut : ¬ Uncut (r.starts p) p len) : (r.read len).1.length < len := by
  simp only [Uncut, not_forall, not_not] at hcut
  obtain ⟨c, hc, hlt, hle⟩ := hcut
  have hlast := le_of_mem_startsFrom (mem_starts_fetch.2 hc hlt)
  have htake := List.length_take_le' len (fetch r.pending r.records).pending
  simp only [read]
  omega

/-- The next items are read whole. -/
theorem read_front {front rest : List β} (hrem : r.remaining = front ++ rest) (hne : front ≠ [])
    (huncut : Uncut (r.starts p) p front.length) :
    ∃ t, r.read front.length = (front, t) ∧ t.remaining = rest ∧
      Later (r.starts p) (p + front.length) (t.starts (p + front.length)) := by
  have henough : front.length ≤ r.remaining.length := by
    rw [hrem, List.length_append]
    omega
  obtain ⟨hgot, hrest, hstarts⟩ := read_whole (List.length_pos_iff.mpr hne) henough huncut
  rw [hrem, List.take_left] at hgot
  rw [hrem, List.drop_left] at hrest
  exact ⟨(r.read front.length).2, Prod.ext hgot rfl, hrest, hstarts⟩

/-- One item is never cut. -/
theorem read_one {b : β} {rest : List β} (hrem : r.remaining = b :: rest) :
    ∃ t, r.read 1 = ([b], t) ∧ t.remaining = rest ∧ Later (r.starts p) (p + 1) (t.starts (p + 1)) :=
  @read_front β r p [b] rest hrem (List.cons_ne_nil b []) (fun c _ hcut => by
    simp only [List.length_singleton] at hcut
    omega)

/-- A read that may take more than there is takes all of it if it is in one record. -/
theorem read_all_iff {text : List β} (hrem : r.remaining = text) (hne : text ≠ []) (hlen : text.length ≤ len) :
    (r.read len).1 = text ↔ Uncut (r.starts p) p text.length := by
  constructor
  · intro hall
    by_contra hcut
    have hshort := read_cut hcut
    have hfront := congrArg (List.take text.length) hall
    simp only [read, List.take_take, Nat.min_eq_left hlen, List.take_length] at hfront hshort
    rw [hfront] at hshort
    exact absurd hshort (lt_irrefl _)
  · intro huncut
    have hwhole := (read_whole (List.length_pos_iff.mpr hne) (by rw [hrem]) huncut).1
    have hfetched := congrArg List.length (fetch_remaining r.pending r.records)
    change _ = r.remaining.length at hfetched
    rw [hrem, List.take_length] at hwhole
    rw [hrem, remaining, List.length_append] at hfetched
    simp only [read] at hwhole ⊢
    rw [List.take_of_length_le (by omega)] at hwhole ⊢
    exact hwhole

end Read

/-! ## Fields -/

/-- No record starts inside one of the fields that follow each other from `p` on. -/
def FieldsUncut (starts : List ℕ) : ℕ → List ℕ → Prop
  | _, [] => True
  | p, len :: fields => Uncut starts p len ∧ FieldsUncut starts (p + len) fields

@[simp] theorem fieldsUncut_nil {starts : List ℕ} {p : ℕ} : FieldsUncut starts p [] ↔ True := Iff.rfl

@[simp] theorem fieldsUncut_cons {starts : List ℕ} {p len : ℕ} {fields : List ℕ} :
    FieldsUncut starts p (len :: fields) ↔ Uncut starts p len ∧ FieldsUncut starts (p + len) fields := Iff.rfl

instance decidableFieldsUncut (starts : List ℕ) : (p : ℕ) → (fields : List ℕ) → Decidable (FieldsUncut starts p fields)
  | _, [] => isTrue trivial
  | p, len :: fields =>
    have := decidableFieldsUncut starts (p + len) fields
    inferInstanceAs (Decidable (Uncut starts p len ∧ FieldsUncut starts (p + len) fields))

theorem fieldsUncut_append {starts : List ℕ} {p : ℕ} {fields more : List ℕ} :
    FieldsUncut starts p (fields ++ more) ↔ FieldsUncut starts p fields ∧ FieldsUncut starts (p + fields.sum) more := by
  induction fields generalizing p with
  | nil => simp
  | cons len fields ih => simp only [List.cons_append, fieldsUncut_cons, ih, List.sum_cons, Nat.add_assoc, and_assoc]

/-- Only the records that start after `p` matter for what follows `p`. -/
theorem uncut_congr {starts later : List ℕ} {p len : ℕ} (h : ∀ c, p ≤ c → (c ∈ starts ↔ c ∈ later)) :
    Uncut starts p len ↔ Uncut later p len := by
  constructor
  · intro huncut c hc hcut
    exact huncut c ((h c hcut.1.le).mpr hc) hcut
  · intro huncut c hc hcut
    exact huncut c ((h c hcut.1.le).mp hc) hcut

theorem fieldsUncut_congr {starts later : List ℕ} {p : ℕ} {fields : List ℕ} (h : ∀ c, p ≤ c → (c ∈ starts ↔ c ∈ later)) :
    FieldsUncut starts p fields ↔ FieldsUncut later p fields := by
  induction fields generalizing p with
  | nil => exact Iff.rfl
  | cons len fields ih =>
    rw [fieldsUncut_cons, fieldsUncut_cons, uncut_congr h, ih (fun c hc => h c (by omega))]

end RecordReader

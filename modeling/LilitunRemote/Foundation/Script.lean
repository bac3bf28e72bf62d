import LilitunRemote.Foundation.Process
import LilitunRemote.Foundation.Transition
import Mathlib.Data.List.Infix

/-! # Two parties that follow scripts

Two processes talk over a pair of channels that keep the boundaries of the frames
written to them. A read returns a piece of the frame it is in, and nothing for an empty
frame. A script is the list of what a party reads, writes and calls; when each party
follows a script and the frames of one are those the other waits for, every run keeps
the channels between the two, and with scripts that never wait for each other every run
comes to the ends of both. A party that takes its words in one read each is in its script
up to the first one that is cut, and gives up there.
-/
namespace Script
variable {β E : Type} {R : E → Type}

/-- The effects of a party: its channel, and calls of its own. A `take` is a read by one
who has no use for less than he asks for. -/
inductive Io (β E : Type)
  | read (n : ℕ)
  | take (n : ℕ)
  | write (frame : List β)
  | call (e : E)
  deriving DecidableEq

@[reducible] def Io.Response (R : E → Type) : Io β E → Type
  | .read _ | .take _ => List β
  | .write _ => Bool
  | .call e => R e

/-- Something has come, but not all that was to be taken. -/
def Io.Cut {R : E → Type} : (e : Io β E) → e.Response R → Prop
  | .take n, got => got ≠ [] ∧ got.length < n
  | .read _, _ | .write _, _ | .call _, _ => False

def Io.Patient : Io β E → Prop
  | .take _ => False
  | .read _ | .write _ | .call _ => True

theorem Io.Patient.not_cut {R : E → Type} {e : Io β E} (h : e.Patient) (r : e.Response R) : ¬ e.Cut r := by
  cases e with
  | take n => exact h.elim
  | read _ | write _ | call _ => exact id

abbrev Action (β : Type) {E : Type} (R : E → Type) := Proc (Io β E) (Io.Response R)

/-! ## Channels -/

/-- The frames that are not read yet; of the first one a part may be read. -/
abbrev Channel (β : Type) := List (List β)

def consume : List β → Channel β → Channel β
  | [], frames => frames
  | b :: rest, frames => (b :: rest) :: frames

/-- A read of up to `n` items waits for a frame and does not go beyond it. -/
def read [DecidableEq β] : Channel β → ℕ → List β → Option (Channel β)
  | [], _, _ => none
  | [] :: frames, _, got => if got = [] then some frames else none
  | frame :: frames, n, got =>
    if got ≠ [] ∧ got.length ≤ n ∧ got <+: frame then some (consume (frame.drop got.length) frames) else none

theorem read_cases [DecidableEq β] {c c' : Channel β} {n : ℕ} {got : List β} (h : read c n got = some c') :
    ∃ frame frames, c = frame :: frames ∧ (frame = [] ∧ got = [] ∧ c' = frames ∨
      got ≠ [] ∧ got.length ≤ n ∧ got <+: frame ∧ c' = consume (frame.drop got.length) frames) := by
  match c with
  | [] => cases h
  | [] :: frames =>
    simp only [read, Option.ite_none_right_eq_some, Option.some.injEq] at h
    exact ⟨[], frames, rfl, Or.inl ⟨rfl, h.1, h.2.symm⟩⟩
  | (b :: frame) :: frames =>
    simp only [read, Option.ite_none_right_eq_some, Option.some.injEq] at h
    obtain ⟨⟨hne, hle, hprefix⟩, rfl⟩ := h
    exact ⟨b :: frame, frames, rfl, Or.inr ⟨hne, hle, hprefix, rfl⟩⟩

/-- A read waits only while there is no frame. -/
theorem read_isSome [DecidableEq β] {c : Channel β} {n : ℕ} (hn : 0 < n) (hc : c ≠ []) : ∃ got c', read c n got = some c' := by
  match c with
  | [] => exact absurd rfl hc
  | [] :: frames => exact ⟨[], frames, rfl⟩
  | (b :: frame) :: frames =>
    have hpiece : [b] ≠ [] ∧ [b].length ≤ n ∧ [b] <+: b :: frame := ⟨by simp, hn, frame, rfl⟩
    exact ⟨[b], _, if_pos hpiece⟩

theorem consume_eq (rest : List β) (frames : Channel β) : consume rest frames = (if rest.isEmpty then [] else [rest]) ++ frames := by
  cases rest <;> rfl

/-- A read from frames that are not empty takes a first piece of what is in them. -/
theorem read_frames [DecidableEq β] {frames more c : Channel β} {n : ℕ} {got : List β} (hframes : [] ∉ frames)
    (hne : frames ≠ []) (h : read (frames ++ more) n got = some c) :
    got ≠ [] ∧ got.length ≤ n ∧ got <+: frames.flatten ∧
      ∃ left, c = left ++ more ∧ left.flatten = frames.flatten.drop got.length ∧ [] ∉ left := by
  obtain ⟨frame, later, happend, hcases⟩ := read_cases h
  obtain ⟨frame', frames', rfl⟩ := List.exists_cons_of_ne_nil hne
  obtain ⟨rfl, rfl⟩ := List.cons.inj happend
  rw [List.mem_cons, not_or] at hframes
  rcases hcases with ⟨rfl, _, _⟩ | ⟨hgot, hle, hprefix, rfl⟩
  · exact absurd rfl hframes.1
  · refine ⟨hgot, hle, hprefix.trans (List.prefix_append _ _), ?_⟩
    refine ⟨consume (frame'.drop got.length) frames', ?_, ?_, ?_⟩
    · simp only [consume_eq, List.append_assoc, List.append_eq]
    · rw [List.flatten_cons, List.drop_append_of_le_length hprefix.length_le, consume_eq]
      cases frame'.drop got.length <;> simp
    · rw [consume_eq]
      cases frame'.drop got.length with
      | nil => exact hframes.2
      | cons b rest => simpa using hframes.2

/-! ## Scripts -/

/-- One line of a script. A `wait` is the end of it: a read for which nothing comes. -/
inductive Item (β E : Type)
  | put (frame : List β)
  | get (frame : List β)
  | call (e : E)
  | wait
  deriving DecidableEq

inductive Tag
  | put | get | call | wait
  deriving DecidableEq

def Item.tag : Item β E → Tag
  | put _ => .put
  | get _ => .get
  | call _ => .call
  | wait => .wait

def puts : List (Item β E) → Channel β
  | [] | .wait :: _ => []
  | .put frame :: s => frame :: puts s
  | .get _ :: s | .call _ :: s => puts s

def gets : List (Item β E) → Channel β
  | [] | .wait :: _ => []
  | .get frame :: s => frame :: gets s
  | .put _ :: s | .call _ :: s => gets s

def calls : List (Item β E) → List E
  | [] | .wait :: _ => []
  | .call e :: s => e :: calls s
  | .put _ :: s | .get _ :: s => calls s

def size : List (Item β E) → ℕ
  | [] => 0
  | .get frame :: s => frame.length + 1 + size s
  | _ :: s => 1 + size s

def resumeGet : List β → List (Item β E) → List (Item β E)
  | [], s => s
  | b :: rest, s => .get (b :: rest) :: s

/-- What a party may do: a read does not ask for more than the frame has. -/
def Allows : List (Item β E) → Io β E → Prop
  | .get frame :: _, .read n | .get frame :: _, .take n => 0 < n ∧ (frame = [] ∨ n ≤ frame.length)
  | .wait :: _, .read n | .wait :: _, .take n => 0 < n
  | .put frame :: _, .write frame' => frame' = frame
  | .call e :: _, .call e' => e' = e
  | _, _ => False

/-- How the script goes on with a response that is not cut; `good` are the answers to calls. -/
def Moves (good : (e : E) → R e → Bool) : List (Item β E) → (e : Io β E) → e.Response R → List (Item β E) → Prop
  | .get frame :: s, .read n, got, s' =>
    frame = [] ∧ got = [] ∧ s' = s ∨
      got ≠ [] ∧ got.length ≤ n ∧ got <+: frame ∧ s' = resumeGet (frame.drop got.length) s
  | .get frame :: s, .take n, got, s' =>
    frame = [] ∧ got = [] ∧ s' = s ∨
      got ≠ [] ∧ got.length = n ∧ got <+: frame ∧ s' = resumeGet (frame.drop got.length) s
  | .put _ :: s, .write _, sent, s' => sent = true ∧ s' = s
  | .call _ :: s, .call e, r, s' => good e r = true ∧ s' = s
  | _, _, _, _ => False

def monitor (good : (e : E) → R e → Bool) : Monitor (List (Item β E)) (Io β E) (Io.Response R) where
  ok := Allows
  step := Moves good

section Rest
variable (d : List β) (s : List (Item β E))

theorem resumeGet_of_ne_nil {d : List β} (h : d ≠ []) (s : List (Item β E)) : resumeGet d s = .get d :: s := by
  cases d with
  | nil => exact absurd rfl h
  | cons b d => rfl

theorem gets_resumeGet : gets (resumeGet d s) = consume d (gets s) := by
  cases d <;> rfl

theorem puts_resumeGet : puts (resumeGet d s) = puts s := by
  cases d <;> rfl

theorem calls_resumeGet : calls (resumeGet d s) = calls s := by
  cases d <;> rfl

theorem size_resumeGet : size (resumeGet d s) ≤ d.length + 1 + size s := by
  cases d with
  | nil => exact Nat.le_add_left _ _
  | cons b d => exact Nat.le_refl _

end Rest

/-! ## Reading in pieces -/

section Read
variable {good : (e : E) → R e → Bool}

/-- Read until `len` items have come or a read returns nothing. Each round reads at
least one, so `len` rounds are enough. -/
def readLoop (R : E → Type) (len : ℕ) : ℕ → List β → Action β R (List β)
  | 0, buf => .ret buf
  | fuel + 1, buf =>
    if buf.length = len then .ret buf
    else .op (.read (len - buf.length)) fun got =>
      if got.length ≤ 0 then .ret buf else readLoop R len fuel (buf ++ got)

/-- A reading loop that wants no more than the rest of a frame gets what it wants. -/
theorem readLoop_obeys {len fuel : ℕ} {buf frame : List β} {s : List (Item β E)} (hbuf : buf.length ≤ len)
    (hfuel : len - buf.length ≤ fuel) (hframe : len - buf.length ≤ frame.length) :
    (monitor good).Obeys (resumeGet frame s) (readLoop R len fuel buf) (fun s' out =>
      s' = resumeGet (frame.drop (len - buf.length)) s ∧ out = buf ++ frame.take (len - buf.length)) := by
  induction fuel generalizing buf frame with
  | zero =>
    have hzero : len - buf.length = 0 := by omega
    simp [readLoop, hzero]
  | succ fuel ih =>
    unfold readLoop
    by_cases hlen : buf.length = len
    · simp [hlen]
    · rw [if_neg hlen]
      cases frame with
      | nil => exact absurd hframe (by rw [List.length_nil]; omega)
      | cons b frame =>
        refine ⟨⟨by omega, Or.inr hframe⟩, ?_⟩
        rintro got _ (⟨hnil, -⟩ | ⟨hne, hgot, ⟨tail, htail⟩, rfl⟩)
        · cases hnil
        · have hpos := List.length_pos_iff.mpr hne
          have hlength := congrArg List.length htail
          rw [List.length_append] at hlength
          have hstep := @ih (buf ++ got) tail (by rw [List.length_append]; omega)
            (by rw [List.length_append]; omega) (by rw [List.length_append]; omega)
          dsimp only
          rw [if_neg (by omega), ← htail, List.drop_left]
          apply hstep.mono
          rintro s' out ⟨rfl, rfl⟩
          have hsplit : len - buf.length = got.length + (len - (buf ++ got).length) := by
            rw [List.length_append]
            omega
          rw [hsplit, List.drop_length_add_append, List.take_length_add_append, List.append_assoc]
          exact ⟨rfl, rfl⟩

end Read

/-! ## Giving up -/

section GiveUp

/-- Watches for the first read that is cut, behind which it accepts no effect. -/
def watch : Monitor Prop (Io β E) (Io.Response R) where
  ok cut _ := ¬ cut
  step _ e r cut := cut = e.Cut r

/-- A process that ends at once with a value of a kind if a read of its is cut. -/
def GivesUp {α : Type} (P : α → Prop) (p : Action β R α) : Prop := watch.Obeys False p fun cut a => cut → P a

variable {α γ σ : Type} {P : α → Prop} {Q : γ → Prop}

theorem GivesUp.bind {p : Action β R α} {f : α → Action β R γ} (hp : GivesUp P p) (hf : ∀ a, GivesUp Q (f a))
    (hcut : ∀ a, P a → ∃ b, f a = .ret b ∧ Q b) : GivesUp Q (p >>= f) := by
  refine Monitor.obeys_bind.mpr (hp.mono fun cut a hpost => ?_)
  rcases Classical.propComplete cut with rfl | rfl
  · obtain ⟨b, hb, hQ⟩ := hcut a (hpost trivial)
    rw [hb]
    exact fun _ => hQ
  · exact hf a

theorem GivesUp.of_patient {p : Action β R α} (h : p.Uses Io.Patient) : GivesUp P p := by
  refine (Monitor.obeys_of_uses h (fun _ _ => id) ?_).mono ?_
  · rintro e r cut hpatient rfl
    exact eq_false (hpatient.not_cut r)
  · rintro cut a rfl hfalse
    exact hfalse.elim

/-- One answered effect of a repeating thread that gives up. -/
theorem GivesUp.feed [DecidableEq β] [DecidableEq E] {body : σ → Action β R (σ ⊕ α)} {failed : α}
    (hbody : ∀ c, GivesUp (· = Sum.inr failed) (body c)) {p q : Action β R (σ ⊕ α)} {e : Io β E} {r : e.Response R}
    (h : GivesUp (· = Sum.inr failed) p) (hfeed : p.feed e r = some q) :
    (¬ e.Cut r → GivesUp (· = Sum.inr failed) (q.resume body)) ∧ (e.Cut r → q.resume body = .ret (Sum.inr failed)) := by
  obtain ⟨k, rfl, rfl⟩ := Proc.feed_eq_some.mp hfeed
  have hnext := h.2 r (e.Cut r) rfl
  constructor
  · intro hwhole
    rw [eq_false hwhole] at hnext
    cases hk : k r with
    | op e' k' =>
      rw [hk] at hnext
      exact hnext
    | ret x =>
      cases x with
      | inl c => exact hbody c
      | inr a => exact fun hfalse => hfalse.elim
  · intro hcut
    rw [eq_true hcut] at hnext
    cases hk : k r with
    | op e' k' =>
      rw [hk] at hnext
      exact absurd trivial hnext.1
    | ret x =>
      rw [hk] at hnext
      rw [hnext trivial]
      rfl

end GiveUp

/-! ## A party and its script -/

/-- What a party does in each round of its loop, and the answers its calls get. -/
structure Role (β : Type) (R : E → Type) (σ α : Type) where
  body : σ → Action β R (σ ⊕ α)
  good : (e : E) → R e → Bool

structure Party (β : Type) (R : E → Type) (σ α : Type) where
  thread : Action β R (σ ⊕ α)
  inbox : Channel β
  log : List E

def Ended {σ α : Type} (F : List (Item β E) → α → Prop) (p : Party β R σ α) (s : List (Item β E)) : Prop :=
  (∃ a, p.thread = .ret (Sum.inr a) ∧ F s a) ∨ ∃ s', s = .wait :: s'

theorem Ended.nothing_left {σ α : Type} {F : List (Item β E) → α → Prop} {p : Party β R σ α} {s : List (Item β E)}
    (hF : ∀ s a, F s a → s = []) (h : Ended F p s) : gets s = [] ∧ puts s = [] ∧ calls s = [] := by
  rcases h with ⟨a, -, ha⟩ | ⟨s', rfl⟩
  · rw [hF s a ha]
    exact ⟨rfl, rfl, rfl⟩
  · exact ⟨rfl, rfl, rfl⟩

section Party
variable [DecidableEq β] [DecidableEq E] {σ α : Type}

def Role.step (role : Role β R σ α) (p : Party β R σ α) (e : Io β E) (r : e.Response R) :
    Option (Party β R σ α × Channel β) :=
  (p.thread.feed e r).bind fun t =>
    match e, r with
    | .read n, got | .take n, got => (read p.inbox n got).map fun inbox => (⟨t.resume role.body, inbox, p.log⟩, [])
    | .write frame, sent => if sent = true then some (⟨t.resume role.body, p.inbox, p.log⟩, [frame]) else none
    | .call e, r => if role.good e r = true then some (⟨t.resume role.body, p.inbox, p.log ++ [e]⟩, []) else none

theorem Role.step_thread {role : Role β R σ α} {p p' : Party β R σ α} {e : Io β E} {r : e.Response R} {sent : Channel β}
    (h : role.step p e r = some (p', sent)) : ∃ t, p.thread.feed e r = some t ∧ p'.thread = t.resume role.body := by
  obtain ⟨t, hfeed, hstep⟩ := Option.bind_eq_some_iff.mp h
  refine ⟨t, hfeed, ?_⟩
  cases e with
  | read n | take n =>
    obtain ⟨inbox, -, hout⟩ := Option.map_eq_some_iff.mp hstep
    exact (Prod.mk.inj hout).1 ▸ rfl
  | write frame | call e =>
    obtain ⟨-, hout⟩ := Option.ite_none_right_eq_some.mp hstep
    exact (Prod.mk.inj (Option.some.inj hout)).1 ▸ rfl

theorem Role.sent_of_cut {role : Role β R σ α} {p p' : Party β R σ α} {e : Io β E} {r : e.Response R} {sent : Channel β}
    (h : role.step p e r = some (p', sent)) (hcut : e.Cut r) : sent = [] := by
  cases e with
  | take n =>
    obtain ⟨t, -, hstep⟩ := Option.bind_eq_some_iff.mp h
    obtain ⟨inbox, -, hout⟩ := Option.map_eq_some_iff.mp hstep
    exact (Prod.mk.inj hout).2.symm
  | read _ | write _ | call _ => exact hcut.elim

/-- The party is where `s` is what remains of its script `s₀`. -/
structure Follows (role : Role β R σ α) (I : σ → List (Item β E) → Prop) (F : List (Item β E) → α → Prop)
    (s₀ : List (Item β E)) (p : Party β R σ α) (s : List (Item β E)) : Prop where
  obeys : (monitor role.good).Obeys s p.thread (Monitor.LoopPost I F)
  moving : ∀ c, p.thread ≠ .ret (Sum.inl c)
  log : p.log ++ calls s = calls s₀
  shape : s.map Item.tag <:+ s₀.map Item.tag

variable {role : Role β R σ α} {I : σ → List (Item β E) → Prop} {F : List (Item β E) → α → Prop}
  {s₀ s : List (Item β E)} {p p' : Party β R σ α} {e : Io β E} {r : e.Response R} {sent : Channel β}

theorem suffix_of_cons {tag : Tag} {tags tags₀ : List Tag} (h : tag :: tags <:+ tags₀) : tags <:+ tags₀ :=
  (List.suffix_cons tag tags).trans h

omit [DecidableEq E] in
/-- A read takes the party on in the frame it is to read next. -/
theorem Follows.got {frame : List β} {inbox extra future : Channel β} {n : ℕ} {got : List β} {t : Action β R (σ ⊕ α)}
    (h : Follows role I F s₀ p (.get frame :: s)) (hin : gets (.get frame :: s) ++ extra = p.inbox ++ future)
    (hread : read p.inbox n got = some inbox) (hmoving : ∀ c, t ≠ .ret (Sum.inl c))
    (hgo : ∀ s', frame = [] ∧ got = [] ∧ s' = s ∨
        got ≠ [] ∧ got.length ≤ n ∧ got <+: frame ∧ s' = resumeGet (frame.drop got.length) s →
      (monitor role.good).Obeys s' t (Monitor.LoopPost I F)) :
    ∃ s', Follows role I F s₀ ⟨t, inbox, p.log⟩ s' ∧ gets s' ++ extra = inbox ++ future ∧ puts s = puts s' ∧
      (.wait ∈ s' → .wait ∈ s) ∧ size s' < size (.get frame :: s) := by
  have hlog := h.log
  have hshape := h.shape
  obtain ⟨frame', frames, hinbox, hcases⟩ := read_cases hread
  rw [gets, hinbox, List.cons_append, List.cons_append] at hin
  obtain ⟨rfl, hrest⟩ := List.cons.inj hin
  rcases hcases with ⟨rfl, rfl, rfl⟩ | ⟨hne, hle, hprefix, rfl⟩
  · exact ⟨s, ⟨hgo s (Or.inl ⟨rfl, rfl, rfl⟩), hmoving, hlog, suffix_of_cons hshape⟩, hrest, rfl, id, by simp [size]⟩
  · have hpos := List.length_pos_iff.mpr hne
    have hlen := hprefix.length_le
    have hsize := size_resumeGet (frame.drop got.length) s
    refine ⟨_, ⟨hgo _ (Or.inr ⟨hne, hle, hprefix, rfl⟩), hmoving, ?_, ?_⟩, ?_, ?_, ?_, ?_⟩
    · rw [calls_resumeGet]
      exact hlog
    · cases frame.drop got.length with
      | nil => exact suffix_of_cons hshape
      | cons b rest => exact hshape
    · rw [gets_resumeGet]
      cases frame.drop got.length with
      | nil => exact hrest
      | cons b rest => exact congrArg ((b :: rest) :: ·) hrest
    · rw [puts_resumeGet]
    · intro hmem
      cases hd : frame.drop got.length with
      | nil =>
        rw [hd] at hmem
        exact hmem
      | cons b rest =>
        rw [hd] at hmem
        exact (List.mem_cons.mp hmem).resolve_left (by simp)
    · rw [List.length_drop] at hsize
      simp only [size]
      omega

omit [DecidableEq E] in
/-- Nothing comes for a party that waits. -/
theorem read_of_wait {inbox inbox' extra future : Channel β} {n : ℕ} {got : List β}
    (hin : gets (.wait :: s) ++ extra = inbox ++ future) (hwait : .wait ∈ .wait :: s → extra = [])
    (hread : read inbox n got = some inbox') : False := by
  rw [hwait List.mem_cons_self] at hin
  obtain ⟨frame, frames, hinbox, -⟩ := read_cases hread
  rw [hinbox] at hin
  cases hin

/-- One step of a party whose reads are not cut goes on in its script: its channel still
holds the frames it is to read next, before those that are to come, and it has sent what
the script says. -/
theorem step_follows (hbody : ∀ c s, I c s → (monitor role.good).Obeys s (role.body c) (Monitor.LoopPost I F))
    (hrest : ∀ c d, role.body c ≠ .ret (Sum.inl d)) {extra future : Channel β} (h : Follows role I F s₀ p s)
    (hin : gets s ++ extra = p.inbox ++ future) (hwait : .wait ∈ s → extra = [])
    (hstep : role.step p e r = some (p', sent)) (hwhole : ¬ e.Cut r) :
    ∃ s', Follows role I F s₀ p' s' ∧ gets s' ++ extra = p'.inbox ++ future ∧ puts s = sent ++ puts s' ∧
      (.wait ∈ s' → .wait ∈ s) ∧ size s' < size s := by
  obtain ⟨t, hfeed, hstep⟩ := Option.bind_eq_some_iff.mp hstep
  obtain ⟨k, hk, _⟩ := Proc.feed_eq_some.mp hfeed
  have hok : Allows s e := by
    have hobeys := h.obeys
    rw [hk] at hobeys
    exact hobeys.1
  have hgo : ∀ s', Moves role.good s e r s' → (monitor role.good).Obeys s' (t.resume role.body) (Monitor.LoopPost I F) :=
    fun s' hmoves => Monitor.obeys_feed hbody h.obeys hfeed hmoves
  have hmoving := Proc.resume_ne_inl hrest t
  have hlog := h.log
  have hshape := h.shape
  match s, e, r with
  | .get frame :: s, .read n, got =>
    obtain ⟨inbox, hread, hout⟩ := Option.map_eq_some_iff.mp hstep
    obtain ⟨rfl, rfl⟩ := Prod.mk.inj hout
    obtain ⟨s', hfollows, hin', hputs, hwait', hsize⟩ := h.got hin hread hmoving hgo
    exact ⟨s', hfollows, hin', hputs, fun hmem => List.mem_cons_of_mem _ (hwait' hmem), hsize⟩
  | .get frame :: s, .take n, got =>
    obtain ⟨inbox, hread, hout⟩ := Option.map_eq_some_iff.mp hstep
    obtain ⟨rfl, rfl⟩ := Prod.mk.inj hout
    obtain ⟨s', hfollows, hin', hputs, hwait', hsize⟩ := h.got hin hread hmoving (fun s' hmoves => by
      refine hgo s' (hmoves.imp_right ?_)
      rintro ⟨hne, hle, hprefix, hs'⟩
      exact ⟨hne, Nat.le_antisymm hle (Nat.le_of_not_lt fun hlt => hwhole ⟨hne, hlt⟩), hprefix, hs'⟩)
    exact ⟨s', hfollows, hin', hputs, fun hmem => List.mem_cons_of_mem _ (hwait' hmem), hsize⟩
  | .put frame :: s, .write frame', sent' =>
    obtain rfl : frame' = frame := hok
    simp only [Option.ite_none_right_eq_some, Option.some.injEq, Prod.mk.injEq] at hstep
    obtain ⟨hsent, rfl, rfl⟩ := hstep
    refine ⟨s, ⟨hgo s ⟨hsent, rfl⟩, hmoving, hlog, suffix_of_cons hshape⟩, hin, rfl, List.mem_cons_of_mem _, ?_⟩
    simp [size]
  | .call e₀ :: s, .call e, r =>
    obtain rfl : e = e₀ := hok
    simp only [Option.ite_none_right_eq_some, Option.some.injEq, Prod.mk.injEq] at hstep
    obtain ⟨hgood, rfl, rfl⟩ := hstep
    refine ⟨s, ⟨hgo s ⟨hgood, rfl⟩, hmoving, ?_, suffix_of_cons hshape⟩, hin, rfl, List.mem_cons_of_mem _, ?_⟩
    · rw [← hlog, calls, List.append_assoc, List.singleton_append]
    · simp [size]
  | .wait :: s, .read n, got | .wait :: s, .take n, got =>
    obtain ⟨inbox, hread, -⟩ := Option.map_eq_some_iff.mp hstep
    exact (read_of_wait hin hwait hread).elim

theorem size_pos_of_step (h : Follows role I F s₀ p s) (hstep : role.step p e r = some (p', sent)) : 0 < size s := by
  obtain ⟨t, hfeed, -⟩ := Role.step_thread hstep
  obtain ⟨k, hk, -⟩ := Proc.feed_eq_some.mp hfeed
  have hobeys := h.obeys
  rw [hk] at hobeys
  cases s with
  | nil => exact hobeys.1.elim
  | cons i s => cases i <;> (simp only [size]; omega)

/-- A party that cannot move has ended, or waits for a frame. -/
theorem stuck_cases (hanswers : ∀ e, ∃ r, role.good e r = true) (h : Follows role I F s₀ p s)
    (hstuck : ∀ e r, role.step p e r = none) :
    Ended F p s ∨ ∃ frame s', s = .get frame :: s' ∧ p.inbox = [] := by
  have hobeys := h.obeys
  cases hthread : p.thread with
  | ret x =>
    rw [hthread] at hobeys
    cases x with
    | inl c => exact absurd hthread (h.moving c)
    | inr a => exact Or.inl (Or.inl ⟨a, hthread, hobeys⟩)
  | op e k =>
    rw [hthread] at hobeys
    have hfeed : ∀ r, p.thread.feed e r = some (k r) := fun r => Proc.feed_eq_some.mpr ⟨k, hthread, rfl⟩
    have hnone := hstuck e
    match s, e, hobeys.1 with
    | .get frame :: s, .read n, hok | .get frame :: s, .take n, hok =>
      refine Or.inr ⟨frame, s, rfl, ?_⟩
      by_contra hne
      obtain ⟨got, inbox, hread⟩ := read_isSome hok.1 hne
      have hnone := hnone got
      simp [Role.step, hfeed, hread] at hnone
    | .put frame :: s, .write frame', _ =>
      have hnone := hnone true
      simp [Role.step, hfeed] at hnone
    | .call _ :: s, .call e, _ =>
      obtain ⟨r, hr⟩ := hanswers e
      have hnone := hnone r
      simp [Role.step, hfeed, hr] at hnone
    | .wait :: s, .read n, _ | .wait :: s, .take n, _ => exact Or.inl (Or.inr ⟨s, rfl⟩)

end Party

/-! ## Two parties -/

/-- The frames of a script up to its end, counted by its tags. -/
def countTag (tag : Tag) : List Tag → ℕ
  | [] | .wait :: _ => 0
  | t :: tags => (if t = tag then 1 else 0) + countTag tag tags

theorem gets_length (s : List (Item β E)) : (gets s).length = countTag .get (s.map Item.tag) := by
  induction s with
  | nil => rfl
  | cons i s ih => cases i <;> simp [gets, countTag, Item.tag, ih, Nat.add_comm]

theorem puts_length (s : List (Item β E)) : (puts s).length = countTag .put (s.map Item.tag) := by
  induction s with
  | nil => rfl
  | cons i s ih => cases i <;> simp [puts, countTag, Item.tag, ih, Nat.add_comm]

/-- There are no two points of the scripts at which both parties wait for frames of each
other and have written all that is before these points. -/
def NeverBothWait (tags tags' : List Tag) : Prop :=
  ∀ s ∈ tags.tails, ∀ t ∈ tags'.tails, s.head? = some .get → t.head? = some .get →
    countTag .get s = countTag .put t → countTag .get t ≠ countTag .put s

instance (tags tags' : List Tag) : Decidable (NeverBothWait tags tags') :=
  inferInstanceAs (Decidable (∀ s ∈ tags.tails, ∀ t ∈ tags'.tails, _))

structure Pair (β : Type) {E E' : Type} (R : E → Type) (R' : E' → Type) (σ σ' α α' : Type) where
  left : Party β R σ α
  right : Party β R' σ' α'

inductive Turn (β : Type) {E E' : Type} (R : E → Type) (R' : E' → Type)
  | left (e : Io β E) (r : e.Response R)
  | right (e : Io β E') (r : e.Response R')

def Turn.Cut {E E' : Type} {R : E → Type} {R' : E' → Type} : Turn β R R' → Prop
  | .left e r => e.Cut r
  | .right e r => e.Cut r

section Pair
variable [DecidableEq β] [DecidableEq E] {E' : Type} {R' : E' → Type} [DecidableEq E'] {σ σ' α α' : Type}
  (left : Role β R σ α) (right : Role β R' σ' α')

def step (x : Pair β R R' σ σ' α α') : Turn β R R' → Option (Pair β R R' σ σ' α α')
  | .left e r => (left.step x.left e r).map fun out =>
    ⟨out.1, { x.right with inbox := x.right.inbox ++ out.2 }⟩
  | .right e r => (right.step x.right e r).map fun out =>
    ⟨{ x.left with inbox := x.left.inbox ++ out.2 }, out.1⟩

/-- Both parties are in their scripts, and their channels hold what the scripts leave
between them. The right party may send the frames `extra` that the left one does not
read, and wait for the frames `never` that the left one does not send. -/
structure Between (I : σ → List (Item β E) → Prop) (F : List (Item β E) → α → Prop)
    (I' : σ' → List (Item β E') → Prop) (F' : List (Item β E') → α' → Prop) (s₀ : List (Item β E))
    (t₀ : List (Item β E')) (extra never : Channel β) (x : Pair β R R' σ σ' α α') (s : List (Item β E))
    (t : List (Item β E')) : Prop where
  left : Follows left I F s₀ x.left s
  right : Follows right I' F' t₀ x.right t
  toLeft : gets s ++ extra = x.left.inbox ++ puts t
  toRight : gets t = x.right.inbox ++ (puts s ++ never)
  noWait : .wait ∈ s → extra = []

/-- The left party has ended, and the right one is still in its script. -/
structure Orphaned (I' : σ' → List (Item β E') → Prop) (F' : List (Item β E') → α' → Prop) (t₀ : List (Item β E'))
    (failed : α) (x : Pair β R R' σ σ' α α') (t : List (Item β E')) : Prop where
  left : x.left.thread = .ret (Sum.inr failed)
  right : Follows right I' F' t₀ x.right t
  toRight : ∃ future, gets t = x.right.inbox ++ future

variable {left right} {I : σ → List (Item β E) → Prop} {F : List (Item β E) → α → Prop}
  {I' : σ' → List (Item β E') → Prop} {F' : List (Item β E') → α' → Prop} {s₀ : List (Item β E)}
  {t₀ : List (Item β E')} {extra never : Channel β}
  (hbody : ∀ c s, I c s → (monitor left.good).Obeys s (left.body c) (Monitor.LoopPost I F))
  (hrest : ∀ c d, left.body c ≠ .ret (Sum.inl d))
  (hbody' : ∀ c s, I' c s → (monitor right.good).Obeys s (right.body c) (Monitor.LoopPost I' F'))
  (hrest' : ∀ c d, right.body c ≠ .ret (Sum.inl d))

include hbody hrest hbody' hrest' in
/-- One step that is not cut keeps the parties in their scripts, and takes them further. -/
theorem step_between {x x' : Pair β R R' σ σ' α α'} {turn : Turn β R R'} {s : List (Item β E)} {t : List (Item β E')}
    (h : Between left right I F I' F' s₀ t₀ extra never x s t) (hstep : step left right x turn = some x')
    (hwhole : ¬ turn.Cut) :
    ∃ s' t', Between left right I F I' F' s₀ t₀ extra never x' s' t' ∧ size s' + size t' < size s + size t := by
  cases turn with
  | left e r =>
    obtain ⟨⟨p, sent⟩, hp, rfl⟩ := Option.map_eq_some_iff.mp hstep
    obtain ⟨s', hfollows, hin, hputs, hwait, hsize⟩ := step_follows hbody hrest h.left h.toLeft h.noWait hp hwhole
    refine ⟨s', t, ⟨hfollows, ⟨h.right.obeys, h.right.moving, h.right.log, h.right.shape⟩, hin, ?_, ?_⟩, by omega⟩
    · rw [h.toRight, hputs, List.append_assoc, List.append_assoc]
    · exact fun hmem => h.noWait (hwait hmem)
  | right e r =>
    obtain ⟨⟨p, sent⟩, hp, rfl⟩ := Option.map_eq_some_iff.mp hstep
    have htoRight : gets t ++ [] = x.right.inbox ++ (puts s ++ never) := by
      rw [List.append_nil]
      exact h.toRight
    obtain ⟨t', hfollows, hin, hputs, _, hsize⟩ := step_follows hbody' hrest' h.right htoRight (fun _ => rfl) hp hwhole
    rw [List.append_nil] at hin
    refine ⟨s, t', ⟨⟨h.left.obeys, h.left.moving, h.left.log, h.left.shape⟩, hfollows, ?_, hin, h.noWait⟩, by omega⟩
    rw [h.toLeft, hputs, List.append_assoc]

variable {failed : α} (hpatient : ∀ c, (right.body c).Uses Io.Patient)

include hpatient in
/-- A step that is not cut keeps what the parties do when one is. -/
theorem step_threads {x x' : Pair β R R' σ σ' α α'} {turn : Turn β R R'}
    (hgives : ∀ c, GivesUp (· = Sum.inr failed) (left.body c)) (hleft : GivesUp (· = Sum.inr failed) x.left.thread)
    (hright : x.right.thread.Uses Io.Patient) (hstep : step left right x turn = some x') (hwhole : ¬ turn.Cut) :
    GivesUp (· = Sum.inr failed) x'.left.thread ∧ x'.right.thread.Uses Io.Patient := by
  cases turn with
  | left e r =>
    obtain ⟨⟨p, sent⟩, hp, rfl⟩ := Option.map_eq_some_iff.mp hstep
    obtain ⟨q, hfeed, hthread⟩ := Role.step_thread hp
    refine ⟨?_, hright⟩
    rw [hthread]
    exact (hleft.feed hgives hfeed).1 hwhole
  | right e r =>
    obtain ⟨⟨p, sent⟩, hp, rfl⟩ := Option.map_eq_some_iff.mp hstep
    obtain ⟨q, hfeed, hthread⟩ := Role.step_thread hp
    refine ⟨hleft, ?_⟩
    rw [hthread]
    exact (Proc.Uses.feed hpatient hright hfeed).2

include hbody' hrest' hpatient in
/-- A party that is left alone ends with its script. -/
theorem run_orphaned {x x' : Pair β R R' σ σ' α α'} {turns : List (Turn β R R')} {t : List (Item β E')}
    (h : Orphaned right I' F' t₀ failed x t) (hreads : x.right.thread.Uses Io.Patient)
    (hrun : Transition.run (step left right) x turns = some x') :
    turns.length ≤ size t ∧ x'.left.thread = .ret (Sum.inr failed) := by
  induction turns generalizing x t with
  | nil => exact ⟨Nat.zero_le _, Option.some.inj hrun ▸ h.left⟩
  | cons turn turns ih =>
    obtain ⟨y, hstep, hlater⟩ := Transition.run_cons.mp hrun
    cases turn with
    | left e r =>
      obtain ⟨out, hp, -⟩ := Option.map_eq_some_iff.mp hstep
      obtain ⟨q, hfeed, -⟩ := Role.step_thread hp
      rw [h.left] at hfeed
      cases hfeed
    | right e r =>
      obtain ⟨⟨p, sent⟩, hp, rfl⟩ := Option.map_eq_some_iff.mp hstep
      obtain ⟨q, hfeed, hthread⟩ := Role.step_thread hp
      obtain ⟨hpiece, hreads'⟩ := Proc.Uses.feed hpatient hreads hfeed
      obtain ⟨future, hfuture⟩ := h.toRight
      have hin : gets t ++ [] = x.right.inbox ++ future := by
        rw [List.append_nil]
        exact hfuture
      obtain ⟨t', hfollows, hin', -, -, hsize⟩ := step_follows hbody' hrest' h.right hin (fun _ => rfl) hp (hpiece.not_cut r)
      rw [List.append_nil] at hin'
      have horphaned : Orphaned right I' F' t₀ failed
          (⟨{ x.left with inbox := x.left.inbox ++ sent }, p⟩ : Pair β R R' σ σ' α α') t' :=
        ⟨h.left, hfollows, future, hin'⟩
      rw [← hthread] at hreads'
      obtain ⟨hlength, hended⟩ := ih horphaned hreads' hlater
      exact ⟨by rw [List.length_cons]; omega, hended⟩

include hbody hrest hbody' hrest' hpatient in
/-- Every run is no longer than the scripts. It keeps the parties in them, or a read of the
left one is cut and this has given up. -/
theorem run_between {x x' : Pair β R R' σ σ' α α'} {turns : List (Turn β R R')} {s : List (Item β E)} {t : List (Item β E')}
    (hgives : ∀ c, GivesUp (· = Sum.inr failed) (left.body c)) (h : Between left right I F I' F' s₀ t₀ extra never x s t)
    (hleft : GivesUp (· = Sum.inr failed) x.left.thread) (hright : x.right.thread.Uses Io.Patient)
    (hrun : Transition.run (step left right) x turns = some x') :
    turns.length ≤ size s + size t ∧
      ((∀ turn ∈ turns, ¬ turn.Cut) ∧ (∃ s' t', Between left right I F I' F' s₀ t₀ extra never x' s' t') ∨
        (∃ turn ∈ turns, turn.Cut) ∧ x'.left.thread = .ret (Sum.inr failed)) := by
  induction turns generalizing x s t with
  | nil =>
    obtain rfl := Option.some.inj hrun
    exact ⟨Nat.zero_le _, Or.inl ⟨fun turn hturn => absurd hturn List.not_mem_nil, s, t, h⟩⟩
  | cons turn turns ih =>
    obtain ⟨y, hstep, hlater⟩ := Transition.run_cons.mp hrun
    by_cases hcut : turn.Cut
    · cases turn with
      | left e r =>
        obtain ⟨⟨p, sent⟩, hp, rfl⟩ := Option.map_eq_some_iff.mp hstep
        obtain ⟨q, hfeed, hthread⟩ := Role.step_thread hp
        obtain rfl : sent = [] := Role.sent_of_cut hp hcut
        have hended := (hleft.feed hgives hfeed).2 hcut
        have horphaned : Orphaned right I' F' t₀ failed
            (⟨p, { x.right with inbox := x.right.inbox ++ [] }⟩ : Pair β R R' σ σ' α α') t :=
          ⟨hthread.trans hended, ⟨h.right.obeys, h.right.moving, h.right.log, h.right.shape⟩, puts s ++ never, by
            rw [List.append_nil]
            exact h.toRight⟩
        obtain ⟨hlength, hfailed⟩ := run_orphaned hbody' hrest' hpatient horphaned hright hlater
        have hsize := size_pos_of_step h.left hp
        exact ⟨by rw [List.length_cons]; omega, Or.inr ⟨⟨_, List.mem_cons_self, hcut⟩, hfailed⟩⟩
      | right e r =>
        obtain ⟨out, hp, -⟩ := Option.map_eq_some_iff.mp hstep
        obtain ⟨q, hfeed, -⟩ := Role.step_thread hp
        exact absurd hcut ((Proc.Uses.feed hpatient hright hfeed).1.not_cut r)
    · obtain ⟨s', t', hbetween, hsize⟩ := step_between hbody hrest hbody' hrest' h hstep hcut
      obtain ⟨hleft', hright'⟩ := step_threads hpatient hgives hleft hright hstep hcut
      obtain ⟨hlength, hcases⟩ := ih hbetween hleft' hright' hlater
      refine ⟨by rw [List.length_cons]; omega, hcases.imp ?_ ?_⟩
      · rintro ⟨hwhole, hin⟩
        exact ⟨List.forall_mem_cons.mpr ⟨hcut, hwhole⟩, hin⟩
      · rintro ⟨⟨turn', hturn, hcut'⟩, hfailed⟩
        exact ⟨⟨turn', List.mem_cons_of_mem _ hturn, hcut'⟩, hfailed⟩

/-- Parties that cannot move have come to the ends of their scripts, and nothing is left
between them. -/
theorem ended_of_stuck (hanswers : ∀ e, ∃ r, left.good e r = true) (hanswers' : ∀ e, ∃ r, right.good e r = true)
    (hF : ∀ s a, F s a → s = []) (hF' : ∀ t a, F' t a → t = [])
    (hwaits : NeverBothWait (s₀.map Item.tag) (t₀.map Item.tag)) {x : Pair β R R' σ σ' α α'} {s : List (Item β E)}
    {t : List (Item β E')} (h : Between left right I F I' F' s₀ t₀ [] [] x s t)
    (hstuck : ∀ turn, step left right x turn = none) :
    Ended F x.left s ∧ Ended F' x.right t ∧ x.left.inbox = [] ∧ x.right.inbox = [] := by
  have htoLeft := h.toLeft
  have htoRight := h.toRight
  rw [List.append_nil] at htoLeft htoRight
  have hleft := stuck_cases hanswers h.left (fun e r => Option.map_eq_none_iff.mp (hstuck (.left e r)))
  have hright := stuck_cases hanswers' h.right (fun e r => Option.map_eq_none_iff.mp (hstuck (.right e r)))
  have hended : Ended F x.left s ∧ Ended F' x.right t := by
    rcases hleft with hleft | ⟨frame, s', rfl, hinbox⟩
    · rcases hright with hright | ⟨frame', t', rfl, hinbox'⟩
      · exact ⟨hleft, hright⟩
      · rw [hinbox', (hleft.nothing_left hF).2.1] at htoRight
        cases htoRight
    · rw [hinbox, List.nil_append] at htoLeft
      rcases hright with hright | ⟨frame', t', rfl, hinbox'⟩
      · rw [(hright.nothing_left hF').2.1] at htoLeft
        cases htoLeft
      · -- each waits for a frame the other has not written
        rw [hinbox', List.nil_append] at htoRight
        have hcount := congrArg List.length htoLeft
        have hcount' := congrArg List.length htoRight
        rw [gets_length, puts_length] at hcount hcount'
        exact absurd hcount' (hwaits _ (List.mem_tails _ _ |>.mpr h.left.shape) _ (List.mem_tails _ _ |>.mpr h.right.shape)
          rfl rfl hcount)
  obtain ⟨hgets, hputs, -⟩ := hended.1.nothing_left hF
  obtain ⟨hgets', hputs', -⟩ := hended.2.nothing_left hF'
  rw [hgets, hputs', List.append_nil] at htoLeft
  rw [hgets', hputs, List.append_nil] at htoRight
  exact ⟨hended.1, hended.2, htoLeft.symm, htoRight.symm⟩

end Pair

end Script

import LilitunRemote.Server.LockDiscipline

/-! # Interleavings of the connection thread and its callers

The shared state is the owner of the mutex, the input queue and the stop flag. An
unlock releases the mutex whoever makes it, as a default mutex does.
-/
namespace LilitunRemote
namespace Connection

inductive Tid
  | connection
  | caller (k : ℕ)
  deriving DecidableEq

inductive MutexEvent
  | locked (t : Tid)
  | unlocked (t : Tid)
  deriving DecidableEq

def mutexStep : Option Tid → MutexEvent → Option (Option Tid)
  | none, .locked t => some (some t)
  | some t, .unlocked u => if t = u then some none else none
  | _, _ => none

structure System where
  owner : Option Tid
  queue : InputQueue
  stopReq : Bool
  threads : Tid → Option Thread
  /-- What each thread is doing, as its own effects tell. -/
  hold : Tid → Hold
  mutexLog : List MutexEvent

def System.initial (v : Vars) : System where
  owner := none
  queue := InputQueue.initial
  stopReq := false
  threads := fun t => if t = .connection then some ((remoteConnectionThread v).resume body) else none
  hold := fun _ => .free
  mutexLog := []

/-- The shared state after an effect, if the answer fits it. A lock waits for the
mutex, and a store outside the array has no result. -/
def System.shared (s : System) (t : Tid) : (e : Effect) → Response e → Option System
  | .lock, _ =>
    if s.owner = none then some { s with owner := some t, mutexLog := s.mutexLog ++ [.locked t] } else none
  | .unlock, _ => some { s with owner := none, mutexLog := s.mutexLog ++ [.unlocked t] }
  | .overflowing, full =>
    if full = decide (s.queue.inputEventsCounter ≥ InputQueue.sizeofInputEvents - InputQueue.sizeofUpdatePointer) then some s
    else none
  | .addInputEvent data, _ => (s.queue.addInputEvent data).map (fun q => { s with queue := q })
  | .oldButtons, old => if old = s.queue.pointerOld.buttons then some s else none
  | .setPointerOld p, _ => some { s with queue := { s.queue with pointerOld := p } }
  | .sendQueued i, more =>
    match s.queue.queued[i]?, more with
    | some w, true => some { s with queue := { s.queue with sent := s.queue.sent ++ [w] } }
    | none, false => some s
    | _, _ => none
  | .resetQueue, _ =>
    some { s with queue := { s.queue with
      inputEventsCounter := 0, pointerOld := { s.queue.pointerOld with buttons := 0xFFFFFFFF } } }
  | .stopRequested, stop => if stop = s.stopReq then some s else none
  | .requestStop, _ => some { s with stopReq := true }
  | _, _ => some s

inductive Step
  | call (k : ℕ) (c : Call)
  | perform (t : Tid) (e : Effect) (r : Response e)

def returned : Option Thread → Bool
  | none | some (.ret _) => true
  | _ => false

def System.step (s : System) : Step → Option System
  | .call k c =>
    if returned (s.threads (.caller k)) then
      some { s with threads := Function.update s.threads (.caller k) (some c.thread) }
    else none
  | .perform t e r => do
    let p ← s.threads t
    let q ← p.feed e r
    let s' ← s.shared t e r
    some { s' with
      threads := Function.update s'.threads t (some (q.resume body))
      hold := Function.update s'.hold t ((s.hold t).next e r) }

def SingleRegion (_ : System) : Step → Prop
  | .perform _ (.regionsLeft regions first) _ => first = false → regions = 0
  | _ => True

/-! ## The invariant -/

def QueueOk : Hold → InputQueue → Prop
  | .free, q => Whole q.sent ∧ Whole q.queued
  | .adding part, q => Whole q.sent ∧ ∃ whole, Whole whole ∧ q.queued = whole ++ part
  | .sending i, q => Whole q.queued ∧ ∃ whole, Whole whole ∧ q.sent = whole ++ q.queued.take i
  | .sentAll _, q => Whole q.sent ∧ Whole q.queued

structure SystemOk (s : System) : Prop where
  obeys : ∀ t p, s.threads t = some p → discipline.Obeys (s.hold t) p AtRest
  absent : ∀ t, s.threads t = none → s.hold t = .free
  owned : ∀ t, s.hold t ≠ .free ↔ s.owner = some t
  queue : QueueOk (s.owner.elim .free s.hold) s.queue
  log : Transition.run mutexStep none s.mutexLog = some s.owner

theorem systemOk_initial (v : Vars) : SystemOk (System.initial v) where
  obeys := by
    intro t p hp
    simp only [System.initial] at hp
    split at hp
    · obtain rfl := Option.some.inj hp
      have hstart : (remoteConnectionThread v).resume body = remoteConnectionThread v := rfl
      rw [hstart]
      exact remoteConnectionThread_obeys v
    · cases hp
  absent := fun _ _ => rfl
  owned := fun t => by simp [System.initial]
  queue := ⟨Whole.nil, Whole.nil⟩
  log := rfl

section Shared
variable {s s' : System} {t : Tid} {e : Effect} {r : Response e}

theorem shared_threads (h : s.shared t e r = some s') : s'.threads = s.threads ∧ s'.hold = s.hold := by
  cases e with
  | lock | overflowing | oldButtons | stopRequested =>
    simp only [System.shared] at h
    split at h
    · cases h
      exact ⟨rfl, rfl⟩
    · cases h
  | addInputEvent data =>
    obtain ⟨q, _, rfl⟩ := Option.map_eq_some_iff.mp h
    exact ⟨rfl, rfl⟩
  | sendQueued i =>
    simp only [System.shared] at h
    split at h
    · cases h
      exact ⟨rfl, rfl⟩
    · cases h
      exact ⟨rfl, rfl⟩
    · cases h
  | _ =>
    cases h
    exact ⟨rfl, rfl⟩

theorem shared_mutex (h : s.shared t e r = some s') (hlock : e ≠ .lock) (hunlock : e ≠ .unlock) :
    s'.owner = s.owner ∧ s'.mutexLog = s.mutexLog := by
  cases e with
  | lock => exact absurd rfl hlock
  | unlock => exact absurd rfl hunlock
  | overflowing | oldButtons | stopRequested =>
    simp only [System.shared] at h
    split at h
    · cases h
      exact ⟨rfl, rfl⟩
    · cases h
  | addInputEvent data =>
    obtain ⟨q, _, rfl⟩ := Option.map_eq_some_iff.mp h
    exact ⟨rfl, rfl⟩
  | sendQueued i =>
    simp only [System.shared] at h
    split at h
    · cases h
      exact ⟨rfl, rfl⟩
    · cases h
      exact ⟨rfl, rfl⟩
    · cases h
  | _ =>
    cases h
    exact ⟨rfl, rfl⟩

theorem shared_lock {r : Response .lock} (h : s.shared t .lock r = some s') :
    s.owner = none ∧ s'.owner = some t ∧ s'.queue = s.queue ∧ s'.mutexLog = s.mutexLog ++ [.locked t] := by
  simp only [System.shared] at h
  split at h
  · next hnone =>
    cases h
    exact ⟨hnone, rfl, rfl, rfl⟩
  · cases h

theorem shared_queue_free (hallow : Hold.free.Allows e) (hlock : e ≠ .lock) (h : s.shared t e r = some s') :
    s'.queue = s.queue ∧ Hold.free.next e r = .free := by
  cases e with
  | lock => exact absurd rfl hlock
  | unlock | overflowing | addInputEvent | oldButtons | setPointerOld | sendQueued | resetQueue => exact absurd hallow id
  | stopRequested =>
    simp only [System.shared] at h
    split at h
    · cases h
      exact ⟨rfl, rfl⟩
    · cases h
  | _ =>
    cases h
    exact ⟨rfl, rfl⟩

theorem shared_sendQueued {i : ℕ} {more : Bool} (h : s.shared t (.sendQueued i) more = some s') :
    (more = true ∧ i < s.queue.queued.length ∧ s'.queue.queued = s.queue.queued ∧
      ∃ w, s.queue.queued[i]? = some w ∧ s'.queue.sent = s.queue.sent ++ [w]) ∨
    (more = false ∧ s.queue.queued.length ≤ i ∧ s'.queue = s.queue) := by
  simp only [System.shared] at h
  split at h
  · next w hw =>
    cases h
    exact Or.inl ⟨rfl, (List.getElem?_eq_some_iff.mp hw).1, rfl, w, hw, rfl⟩
  · next hw =>
    cases h
    exact Or.inr ⟨rfl, List.getElem?_eq_none_iff.mp hw, rfl⟩
  · cases h

theorem shared_queue_held {h : Hold} (hheld : h ≠ .free) (hallow : h.Allows e) (hq : QueueOk h s.queue)
    (hs : s.shared t e r = some s') : QueueOk (h.next e r) s'.queue := by
  cases h with
  | free => exact absurd rfl hheld
  | adding part =>
    obtain ⟨hsent, whole, hwhole, hqueued⟩ := hq
    cases e with
    | lock | resetQueue => exact absurd hallow id
    | unlock =>
      cases hs
      refine ⟨hsent, ?_⟩
      rw [hqueued]
      rcases hallow with rfl | hrecord
      · simpa using hwhole
      · exact hwhole.append hrecord.whole
    | addInputEvent data =>
      obtain ⟨q, hadd, rfl⟩ := Option.map_eq_some_iff.mp hs
      obtain ⟨_, _, hqueued', _, hsent'⟩ := InputQueue.addInputEvent_eq_some hadd
      refine ⟨hsent'.symm ▸ hsent, whole, hwhole, ?_⟩
      rw [hqueued', hqueued, List.append_assoc]
    | sendQueued i =>
      obtain ⟨rfl, rfl⟩ := hallow
      rw [List.append_nil] at hqueued
      rcases shared_sendQueued hs with ⟨rfl, _, hqueued', w, hw, hsent'⟩ | ⟨rfl, _, hsame⟩
      · refine ⟨by rw [hqueued', hqueued]; exact hwhole, s.queue.sent, hsent, ?_⟩
        rw [hsent', hqueued', List.take_add_one, hw]
        rfl
      · exact ⟨by rw [hsame]; exact hsent, by rw [hsame, hqueued]; exact hwhole⟩
    | overflowing | oldButtons | stopRequested =>
      simp only [System.shared] at hs
      split at hs
      · cases hs
        exact ⟨hsent, whole, hwhole, hqueued⟩
      · cases hs
    | setPointerOld p =>
      cases hs
      exact ⟨hsent, whole, hwhole, hqueued⟩
    | _ =>
      cases hs
      exact ⟨hsent, whole, hwhole, hqueued⟩
  | sending i =>
    obtain ⟨hqueued, whole, hwhole, hsent⟩ := hq
    cases e with
    | sendQueued j =>
      obtain rfl : j = i := hallow
      rcases shared_sendQueued hs with ⟨rfl, _, hqueued', w, hw, hsent'⟩ | ⟨rfl, hlen, hsame⟩
      · refine ⟨by rw [hqueued']; exact hqueued, whole, hwhole, ?_⟩
        rw [hsent', hsent, hqueued', List.take_add_one, hw, List.append_assoc]
        rfl
      · refine ⟨?_, by rw [hsame]; exact hqueued⟩
        rw [hsame, hsent, List.take_of_length_le hlen]
        exact hwhole.append hqueued
    | _ => exact absurd hallow id
  | sentAll i =>
    obtain ⟨hsent, _⟩ := hq
    cases e with
    | resetQueue =>
      cases hs
      refine ⟨hsent, [], Whole.nil, ?_⟩
      simp [InputQueue.queued]
    | _ => exact absurd hallow id

theorem next_ne_free {h : Hold} (hheld : h ≠ .free) (hunlock : e ≠ .unlock) : h.next e r ≠ .free := by
  cases h with
  | free => exact absurd rfl hheld
  | adding part =>
    cases e with
    | unlock => exact absurd rfl hunlock
    | sendQueued i => cases r <;> simp [Hold.next]
    | _ => simp [Hold.next]
  | sending i =>
    cases e with
    | unlock => exact absurd rfl hunlock
    | sendQueued i => cases r <;> simp [Hold.next]
    | _ => simp [Hold.next]
  | sentAll i =>
    cases e with
    | unlock => exact absurd rfl hunlock
    | _ => simp [Hold.next]

end Shared

/-! ## Steps and runs -/

theorem step_cases {s s' : System} {a : Step} (h : s.step a = some s') :
    (∃ k c, a = .call k c ∧ returned (s.threads (.caller k)) = true ∧
      s' = { s with threads := Function.update s.threads (.caller k) (some c.thread) }) ∨
    ∃ t e r p q u, a = .perform t e r ∧ s.threads t = some p ∧ p.feed e r = some q ∧ s.shared t e r = some u ∧
      s' = { u with
        threads := Function.update u.threads t (some (q.resume body))
        hold := Function.update u.hold t ((s.hold t).next e r) } := by
  cases a with
  | call k c =>
    simp only [System.step] at h
    split at h
    · next hret => exact Or.inl ⟨k, c, rfl, hret, (Option.some.inj h).symm⟩
    · cases h
  | perform t e r =>
    obtain ⟨p, hp, h⟩ := Option.bind_eq_some_iff.mp h
    obtain ⟨q, hq, h⟩ := Option.bind_eq_some_iff.mp h
    obtain ⟨u, hu, h⟩ := Option.bind_eq_some_iff.mp h
    exact Or.inr ⟨t, e, r, p, q, u, rfl, hp, hq, hu, (Option.some.inj h).symm⟩

theorem SystemOk.free_of_returned {s : System} (hs : SystemOk s) {t : Tid} (hret : returned (s.threads t) = true)
    (hend : ∀ l, s.threads t ≠ some (.ret (Sum.inl l))) : s.hold t = .free := by
  cases hp : s.threads t with
  | none => exact hs.absent t hp
  | some p =>
    have hobeys := hs.obeys t p hp
    cases p with
    | ret x =>
      cases x with
      | inl l => exact absurd hp (hend l)
      | inr u => exact hobeys
    | op e k =>
      rw [hp] at hret
      cases hret

theorem queued_length_le (q : InputQueue) : q.queued.length ≤ 1024 := by
  simp only [InputQueue.queued, List.length_take, Vector.length_toList]
  omega

/-- The mutex after a disciplined effect: its owner is the thread that holds it, and
the log is one of locks and unlocks in turn. -/
theorem mutex_after {s u : System} {t : Tid} {e : Effect} {r : Response e} (hs : SystemOk s)
    (hallow : (s.hold t).Allows e) (hu : s.shared t e r = some u) :
    (∀ d, Function.update s.hold t ((s.hold t).next e r) d ≠ .free ↔ u.owner = some d) ∧
      QueueOk (u.owner.elim .free (Function.update s.hold t ((s.hold t).next e r))) u.queue ∧
      Transition.run mutexStep none u.mutexLog = some u.owner := by
  have hown := hs.owned
  by_cases hfree : s.hold t = .free
  · by_cases hlock : e = .lock
    · -- the mutex was free, so everybody was
      subst hlock
      obtain ⟨hnone, howner, hqueue, hlog⟩ := shared_lock hu
      have hall : ∀ d, s.hold d = .free := by
        intro d
        by_contra hd
        have howned := (hown d).mp hd
        rw [hnone] at howned
        cases howned
      have hq := hs.queue
      rw [hnone] at hq
      refine ⟨fun d => ?_, ?_, ?_⟩
      · by_cases hd : d = t
        · subst hd
          simp [hfree, Hold.next, howner]
        · have hd' : t ≠ d := fun h => hd h.symm
          simp [Function.update_of_ne hd, hall d, howner, hd']
      · rw [howner, hqueue]
        simp only [Option.elim_some, Function.update_self, hfree, Hold.next]
        exact ⟨hq.1, s.queue.queued, hq.2, (List.append_nil _).symm⟩
      · rw [hlog, howner]
        exact Transition.run_concat.mpr ⟨none, hnone ▸ hs.log, rfl⟩
    · have hunlock : e ≠ .unlock := by
        rintro rfl
        rw [hfree] at hallow
        exact hallow
      rw [hfree] at hallow
      obtain ⟨hqueue, hnext⟩ := shared_queue_free (r := r) hallow hlock hu
      obtain ⟨howner, hlog⟩ := shared_mutex hu hlock hunlock
      have hsame : Function.update s.hold t ((s.hold t).next e r) = s.hold := by
        rw [hfree, hnext, ← hfree, Function.update_eq_self]
      rw [hsame, howner, hqueue, hlog]
      exact ⟨hown, hs.queue, hs.log⟩
  · have howner : s.owner = some t := (hown t).mp hfree
    have hothers : ∀ d, d ≠ t → s.hold d = .free := by
      intro d hd
      by_contra hne
      have := (hown d).mp hne
      rw [howner] at this
      exact hd (Option.some.inj this).symm
    have hq := hs.queue
    rw [howner] at hq
    have hqueue := shared_queue_held hfree hallow hq hu
    by_cases hunlock : e = .unlock
    · subst hunlock
      have hnext : (s.hold t).next .unlock r = .free := by
        cases hh : s.hold t <;> rfl
      rw [hnext] at hqueue ⊢
      cases hu
      refine ⟨fun d => ?_, hqueue, ?_⟩
      · by_cases hd : d = t
        · subst hd
          simp
        · simp [Function.update_of_ne hd, hothers d hd]
      · exact Transition.run_concat.mpr ⟨some t, howner ▸ hs.log, if_pos rfl⟩
    · have hlock : e ≠ .lock := by
        rintro rfl
        cases hh : s.hold t <;> rw [hh] at hallow hfree
        · exact hfree rfl
        all_goals exact hallow
      obtain ⟨howner', hlog⟩ := shared_mutex hu hlock hunlock
      rw [howner', howner, hlog]
      refine ⟨fun d => ?_, ?_, howner ▸ hs.log⟩
      · by_cases hd : d = t
        · subst hd
          simp [next_ne_free hfree hunlock]
        · have hd' : t ≠ d := fun h => hd h.symm
          simp [Function.update_of_ne hd, hothers d hd, hd']
      · simpa only [Option.elim_some, Function.update_self] using hqueue

theorem body_ne_inl (c d : Loop) : body c ≠ .ret (Sum.inl d) := by
  cases c <;> nofun

/-- No thread waits between two rounds. -/
def NeverBetween (s : System) : Prop := ∀ t l, s.threads t ≠ some (.ret (Sum.inl l))

theorem step_ok {s s' : System} {a : Step} (hs : SystemOk s ∧ NeverBetween s) (hsingle : SingleRegion s a)
    (h : s.step a = some s') : SystemOk s' ∧ NeverBetween s' := by
  obtain ⟨hs, hbetween⟩ := hs
  rcases step_cases h with ⟨k, c, rfl, hret, rfl⟩ | ⟨t, e, r, p, q, u, rfl, hp, hfeed, hu, rfl⟩
  · have hfree := hs.free_of_returned hret (hbetween (.caller k))
    refine ⟨⟨fun t p hp => ?_, fun t ht => ?_, hs.owned, hs.queue, hs.log⟩, fun t l ht => ?_⟩
    · by_cases htk : t = .caller k
      · subst htk
        simp only [Function.update_self] at hp
        obtain rfl := Option.some.inj hp
        simp only [hfree]
        exact call_obeys c
      · simp only [Function.update_of_ne htk] at hp
        exact hs.obeys t p hp
    · by_cases htk : t = .caller k
      · subst htk
        simp only [Function.update_self] at ht
        cases ht
      · simp only [Function.update_of_ne htk] at ht
        exact hs.absent t ht
    · by_cases htk : t = .caller k
      · subst htk
        simp only [Function.update_self, Option.some.injEq] at ht
        cases c <;> cases ht
      · simp only [Function.update_of_ne htk] at ht
        exact hbetween t l ht
  · have hobeys := hs.obeys t p hp
    obtain ⟨k, hk, _⟩ := Proc.feed_eq_some.mp hfeed
    have hallow : (s.hold t).Allows e := by
      rw [hk] at hobeys
      exact hobeys.1
    have hexp : Expected e r := by
      cases e with
      | sendQueued i =>
        intro hmore
        rcases shared_sendQueued hu with ⟨_, hlt, _⟩ | ⟨hno, _⟩
        · exact Nat.lt_of_lt_of_le hlt (queued_length_le _)
        · rw [hmore] at hno
          cases hno
      | regionsLeft regions first => exact hsingle
      | _ => trivial
    have hthread := Monitor.obeys_feed body_obeys hobeys hfeed ⟨rfl, hexp⟩
    obtain ⟨hthreads, hhold⟩ := shared_threads hu
    obtain ⟨hown, hqueue, hlog⟩ := mutex_after hs hallow hu
    simp only [hthreads, hhold]
    refine ⟨⟨fun d p' hp' => ?_, fun d hd => ?_, hown, hqueue, hlog⟩, fun d l hd => ?_⟩
    · by_cases hdt : d = t
      · subst hdt
        simp only [Function.update_self] at hp' ⊢
        obtain rfl := Option.some.inj hp'
        exact hthread
      · simp only [Function.update_of_ne hdt] at hp' ⊢
        exact hs.obeys d p' hp'
    · by_cases hdt : d = t
      · subst hdt
        simp only [Function.update_self] at hd
        cases hd
      · simp only [Function.update_of_ne hdt] at hd ⊢
        exact hs.absent d hd
    · by_cases hdt : d = t
      · subst hdt
        simp only [Function.update_self, Option.some.injEq] at hd
        exact Proc.resume_ne_inl body_ne_inl q l hd
      · simp only [Function.update_of_ne hdt] at hd
        exact hbetween d l hd

/-- The property of every state: the log of the mutex shows each unlock made by the
thread that locked it, once; no thread ends with the mutex; at most one thread is at
the queue; what has been sent is a concatenation of whole records, up to the rest
that a thread inside `send_input_events` is still sending. -/
structure Disciplined (s : System) : Prop where
  balanced : Transition.run mutexStep none s.mutexLog = some s.owner
  released : ∀ t, s.threads t = some (.ret (Sum.inr ())) → s.owner ≠ some t
  exclusive : ∀ t u, s.hold t ≠ .free → s.hold u ≠ .free → t = u
  sentWhole : (∀ t i, s.hold t ≠ .sending i) → Whole s.queue.sent
  sentPart : ∃ rest, Whole (s.queue.sent ++ rest)

theorem SystemOk.disciplined {s : System} (hs : SystemOk s) : Disciplined s where
  balanced := hs.log
  released := by
    intro t ht howner
    have hfree : s.hold t = .free := hs.obeys t _ ht
    exact (hs.owned t).mpr howner hfree
  exclusive := by
    intro t u ht hu
    have howner := ((hs.owned t).mp ht).symm.trans ((hs.owned u).mp hu)
    exact Option.some.inj howner
  sentWhole := by
    intro hidle
    have hq := hs.queue
    cases howner : s.owner with
    | none =>
      rw [howner] at hq
      exact hq.1
    | some t =>
      rw [howner, Option.elim_some] at hq
      cases hh : s.hold t with
      | sending i => exact absurd hh (hidle t i)
      | free | adding | sentAll =>
        rw [hh] at hq
        exact hq.1
  sentPart := by
    have hq := hs.queue
    cases howner : s.owner with
    | none =>
      rw [howner] at hq
      exact ⟨[], by simpa using hq.1⟩
    | some t =>
      rw [howner, Option.elim_some] at hq
      cases hh : s.hold t with
      | sending i =>
        rw [hh] at hq
        obtain ⟨hqueued, whole, hwhole, hsent⟩ := hq
        refine ⟨s.queue.queued.drop i, ?_⟩
        rw [hsent, List.append_assoc, List.take_append_drop]
        exact hwhole.append hqueued
      | free | adding | sentAll =>
        rw [hh] at hq
        exact ⟨[], by simpa using hq.1⟩

theorem neverBetween_initial (v : Vars) : NeverBetween (System.initial v) := by
  intro t l ht
  simp only [System.initial] at ht
  split at ht
  · exact Proc.resume_ne_inl body_ne_inl _ l (Option.some.inj ht)
  · cases ht

/-- In every interleaving in which no update goes on to a second region, the mutex is
released only by its holder, once for each lock, and only whole records are sent. -/
theorem single_region_disciplined (v : Vars) (steps : List Step) (s : System)
    (hsingle : Transition.Guarded System.step SingleRegion (System.initial v) steps)
    (hrun : Transition.run System.step (System.initial v) steps = some s) : Disciplined s := by
  have hinv : SystemOk s ∧ NeverBetween s :=
    Transition.run_preserves_guarded (I := fun s => SystemOk s ∧ NeverBetween s)
      (fun _ _ _ hs ha h => step_ok hs ha h) ⟨systemOk_initial v, neverBetween_initial v⟩ hsingle hrun
  exact hinv.1.disciplined

/-! ## One region, and two -/

def exampleVars : Vars := ⟨5901, 5902, List.replicate 12 120⟩

def connects : List Step :=
  [.perform .connection .connectionUpgrade true,
    .perform .connection (.tcpReadAll 33) (some (remoteId ++ [0])), .perform .connection (.tcpWrite (serverId ++ [0])) true,
    .perform .connection (.sendUint32 1) true, .perform .connection .recvUint32 (some 1),
    .perform .connection .recvUint32 (some 16), .perform .connection .recvUint32 (some 16),
    .perform .connection .recvUint32 (some 32), .perform .connection .recvUint32 (some 0),
    .perform .connection .lock (),
    .perform .connection (.sendUint32 7) true, .perform .connection .recvUint32 (some 7),
    .perform .connection .recvUint32 (some 1), .perform .connection (.tcpReadAll 1) (some [97]),
    .perform .connection (.sendUint32 8) true, .perform .connection .recvUint32 (some 8),
    .perform .connection .recvUint32 (some 1), .perform .connection (.tcpReadAll 1) (some [115]),
    .perform .connection (.sendUint32 9) true, .perform .connection .recvUint32 (some 9),
    .perform .connection .recvUint32 (some 1), .perform .connection (.tcpReadAll 1) (some [104]),
    .perform .connection (.sendUint32 5) true, .perform .connection (.sendUint32 5901) true,
    .perform .connection (.sendUint32 5902) true,
    .perform .connection (.sendUint32 6) true, .perform .connection (.sendUint32 12) true,
    .perform .connection (.tcpWrite (List.replicate 12 120)) true,
    .perform .connection .translatorInit true, .perform .connection .messageSend true,
    .perform .connection .unlock ()]

/-- The next update is asked for, with nothing to send, and announces regions. -/
def updateOf (regions : UInt32) : List Step :=
  [.perform .connection .isNotExit true, .perform .connection .lock (), .perform .connection .stopRequested false,
    .perform .connection (.sendQueued 0) false, .perform .connection .resetQueue (),
    .perform .connection (.sendUint32 2) true, .perform .connection .recvUint32 (some 2),
    .perform .connection .recvUint32 (some regions)]

def regionOf (regions : UInt32) (first : Bool) : List Step :=
  [.perform .connection (.regionsLeft regions first) (),
    .perform .connection .recvUint32 (some 0), .perform .connection .recvUint32 (some 0),
    .perform .connection .recvUint32 (some 1), .perform .connection .recvUint32 (some 1),
    .perform .connection .recvUint32 (some 1), .perform .connection .recvUint32 (some 4),
    .perform .connection (.tcpReadAll 4) (some [1, 2, 3, 4]), .perform .connection .unlock (),
    .perform .connection (.drawRegion ⟨0, 0, 1, 1, 1, 4, [1, 2, 3, 4]⟩) true]

def keyBegun : List Step :=
  [.call 0 (.keyboard 1 0x61), .perform (.caller 0) .lock (), .perform (.caller 0) .overflowing false,
    .perform (.caller 0) (.addInputEvent 3) ()]

theorem one_region_disciplined :
    ∃ s, Transition.run System.step (System.initial exampleVars) (connects ++ updateOf 1 ++ regionOf 1 true ++ keyBegun) =
      some s ∧ Disciplined s := by
  have hrun : (Transition.run System.step (System.initial exampleVars)
      (connects ++ updateOf 1 ++ regionOf 1 true ++ keyBegun)).isSome = true := by decide +kernel
  obtain ⟨s, hs⟩ := Option.isSome_iff_exists.mp hrun
  refine ⟨s, hs, single_region_disciplined exampleVars _ s (Transition.Guarded.of_forall ?_ _) hs⟩
  simp only [connects, updateOf, regionOf, keyBegun, List.cons_append, List.nil_append, List.forall_mem_cons, SingleRegion,
    List.not_mem_nil, false_imp_iff, implies_true, and_self, Bool.true_eq_false]

/-- The first region of an update releases the mutex, the second one releases it
again from under the key press, and the next flush sends the first word of its record. -/
def recordSplit : List Step :=
  connects ++ updateOf 2 ++ regionOf 2 true ++ keyBegun ++ regionOf 1 false ++
    [.perform .connection (.regionsLeft 0 false) (), .perform .connection .isNotExit true, .perform .connection .lock (),
      .perform .connection .stopRequested false, .perform .connection (.sendQueued 0) true,
      .perform .connection (.sendQueued 1) false]

theorem second_region_splits_record :
    ∃ s, Transition.run System.step (System.initial exampleVars) recordSplit = some s ∧ s.queue.sent = [3] ∧
      ¬ Disciplined s := by
  have hrun : ((Transition.run System.step (System.initial exampleVars) recordSplit).map (fun s =>
      decide (s.queue.sent = [3] ∧ Transition.run mutexStep none s.mutexLog = none))) = some true := by decide +kernel
  obtain ⟨s, hs, hbad⟩ := Option.map_eq_some_iff.mp hrun
  obtain ⟨hsent, hlog⟩ := of_decide_eq_true hbad
  refine ⟨s, hs, hsent, fun hd => ?_⟩
  have hbalanced := hd.balanced
  rw [hlog] at hbalanced
  cases hbalanced

end Connection
end LilitunRemote

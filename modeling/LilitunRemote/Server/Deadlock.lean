import LilitunRemote.Server.MutexUse
import LilitunRemote.Server.Threads

/-! # No deadlock between the threads of the control server

The mutexes are ordered: the list of connections, the framebuffer, the projector's channel. The end
of a `server_thread` ranks between the first two: a connection thread joins it without a mutex,
unless `pthread_create` has failed and there is no thread to wait for.
-/
namespace LilitunRemote
namespace Threads

def rank : Mutex ⊕ Tid → ℕ
  | .inl .list => 0
  | .inr _ => 1
  | .inl (.framebuffer _) => 2
  | .inl (.projectorIo _) => 3
  | .inl .ports => 3

/-- The mutexes a thread holds by its own account, and whether it has created a `server_thread`. -/
structure Held where
  locks : List Mutex
  created : Bool

def Held.Allows (t : Tid) (h : Held) : Effect → Prop
  | .lock m => (∀ n ∈ h.locks, rank (.inl n) < rank (.inl m)) ∧ (t = .server t.conn → rank (.inr t) < rank (.inl m))
  | .create conn => t = .connection conn ∧ h.created = false
  | .join conn => t = .connection conn ∧ (h.locks = [] ∨ h.created = false)
  | .hasTranslator _ => h.locks = []
  | _ => True

def Held.next (h : Held) : (e : Effect) → Response e → Held
  | .lock m, _ => { h with locks := m :: h.locks }
  | .unlock m, _ => { h with locks := h.locks.erase m }
  | .create _, created => { h with created := created }
  | _, _ => h

/-- A thread waits only for what ranks above all it holds. -/
def ordered (t : Tid) : Monitor Held Effect Response where
  ok := Held.Allows t
  step h e r h' := h' = h.next e r

def Effect.Local : Effect → Prop
  | .lock _ | .unlock _ | .create _ | .join _ | .hasTranslator _ => False
  | _ => True

def image (conn : ℕ) (s : Connection.Progress) : Held := ⟨if s.locked then [.projectorIo conn] else [], s.created⟩

def AtLoop (t : Tid) : Loop → Held → Prop
  | .connection l, h => t = .connection t.conn ∧ ∃ s, h = image t.conn s ∧ Connection.AtLoopReleased l s
  | .server, h => h.locks = []
  | .serverIdle, h => h.locks = []
  | .item _, h => h.locks = [.list] ∧ t ≠ .server t.conn

def AtEnd (h : Held) (_ : Unit) : Prop := h.locks = []

abbrev AtRest (t : Tid) : Held → Loop ⊕ Unit → Prop := Monitor.LoopPost (AtLoop t) AtEnd

section Ordered
variable {t : Tid} {h : Held} {conn : ℕ} {α β : Type}

theorem ordered_local {p : Action α} {f : α → Action β} {Q : Held → β → Prop} (hp : p.Uses Effect.Local)
    (hf : ∀ a, (ordered t).Obeys h (f a) Q) : (ordered t).Obeys h (p >>= f) Q := by
  rw [Monitor.obeys_bind]
  have hkeep : (ordered t).Obeys h p (fun h' _ => h' = h) := by
    apply Monitor.obeys_of_uses hp
    · intro e he
      cases e <;> trivial
    · intro e r h' he hstep
      cases e <;> first | exact hstep | exact he.elim
  apply hkeep.mono
  intro h' a hh
  rw [hh]
  exact hf a

theorem ordered_act (e : Effect) (he : e.Local) {f : Response e → Action β} {Q : Held → β → Prop}
    (hf : ∀ r, (ordered t).Obeys h (f r) Q) : (ordered t).Obeys h (act e >>= f) Q :=
  ordered_local (Proc.uses_perform.mpr he) hf

theorem ordered_lock {m : Mutex} {f : Unit → Action β} {Q : Held → β → Prop}
    (hrank : ∀ n ∈ h.locks, rank (.inl n) < rank (.inl m)) (hserver : t = .server t.conn → 1 < rank (.inl m))
    (hf : (ordered t).Obeys ⟨m :: h.locks, h.created⟩ (f ()) Q) : (ordered t).Obeys h (lock m >>= f) Q := by
  rw [Monitor.obeys_bind]
  refine ⟨⟨hrank, hserver⟩, fun r h' hstep => ?_⟩
  rw [show h' = ⟨m :: h.locks, h.created⟩ from hstep]
  exact hf

theorem ordered_unlock {m : Mutex} {f : Unit → Action β} {Q : Held → β → Prop}
    (hf : (ordered t).Obeys ⟨h.locks.erase m, h.created⟩ (f ()) Q) : (ordered t).Obeys h (unlock m >>= f) Q := by
  rw [Monitor.obeys_bind]
  refine ⟨trivial, fun r h' hstep => ?_⟩
  rw [show h' = ⟨h.locks.erase m, h.created⟩ from hstep]
  exact hf

/-- The mutex taken last is released. -/
theorem unlock_taken {m : Mutex} : (ordered t).Obeys ⟨m :: h.locks, h.created⟩ (unlock m) (fun h' _ => h' = h) := by
  refine ⟨trivial, fun r h' hstep => ?_⟩
  rw [show h' = ⟨(m :: h.locks).erase m, h.created⟩ from hstep, List.erase_cons_head]
  exact rfl

/-- A mutex taken, used and released. -/
theorem ordered_section {m : Mutex} {p : Action α} {f : Unit → Action β} {Q : Held → β → Prop}
    (hrank : ∀ n ∈ h.locks, rank (.inl n) < rank (.inl m)) (hserver : t = .server t.conn → 1 < rank (.inl m))
    (hp : (ordered t).Obeys ⟨m :: h.locks, h.created⟩ p (fun h' _ => h' = ⟨m :: h.locks, h.created⟩))
    (hf : (ordered t).Obeys h (f ()) Q) :
    (ordered t).Obeys h (lock m >>= fun _ => p >>= fun _ => unlock m >>= f) Q := by
  apply ordered_lock hrank hserver
  rw [Monitor.obeys_bind]
  apply hp.mono
  intro h' _ hh
  rw [hh]
  apply ordered_unlock
  rw [List.erase_cons_head]
  exact hf

theorem ordered_portctrl {f : Unit → Action β} {Q : Held → β → Prop} (hlocks : h.locks = [])
    (hf : (ordered (.connection conn)).Obeys h (f ()) Q) : (ordered (.connection conn)).Obeys h (portctrl >>= f) Q := by
  have hnone : ∀ n ∈ h.locks, rank (.inl n) < rank (.inl .ports) := by
    rw [hlocks]
    simp
  unfold portctrl
  rw [Proc.bind_assoc]
  apply ordered_lock hnone (by simp)
  apply ordered_unlock
  rw [List.erase_cons_head]
  exact hf

theorem ordered_finish (hlocks : h.locks = []) :
    (ordered (.connection conn)).Obeys h (finish conn) (fun h' _ => h' = h) := by
  have hend : (ordered (.connection conn)).Obeys h (do
      act (.call .close)
      lock .list
      act (.listRemove conn)
      unlock .list) (fun h' _ => h' = h) := by
    apply ordered_act (.call .close) trivial
    intro _
    apply ordered_lock
    · rw [hlocks]
      simp
    · simp
    apply ordered_act (.listRemove conn) trivial
    intro _
    exact unlock_taken
  unfold finish
  rw [Monitor.obeys_bind]
  refine ⟨hlocks, fun r h' hstep => ?_⟩
  rw [show h' = h from hstep, Monitor.obeys_ret]
  split
  · apply ordered_act (.call .messageSend) trivial
    intro _
    apply ordered_portctrl hlocks
    apply ordered_portctrl hlocks
    unfold translatorFinish
    rw [Monitor.obeys_bind]
    refine ⟨⟨rfl, Or.inl hlocks⟩, fun _ h'' hstep' => ?_⟩
    rw [show h'' = h from hstep']
    exact hend
  · exact hend

/-! ## The handler -/

theorem image_released {s : Connection.Progress} (hlocked : s.locked = false) : (image conn s).locks = [] := by
  rw [image, hlocked]
  rfl

theorem uses_handler {e : Connection.Effect} (he : e.Plain) : (handler conn e).Uses Effect.Local := by
  cases e <;> first | exact Proc.uses_perform.mpr trivial | exact he.elim

theorem uses_handle {p : Connection.Action α} (hp : p.Uses Connection.Effect.Plain) :
    (p.handle (handler conn)).Uses Effect.Local := hp.handle (fun _ => uses_handler)

theorem drawRegion_ordered (r : RegionData) {s : Connection.Progress} (hlocked : s.locked = false) :
    (ordered (.connection conn)).Obeys (image conn s) (drawRegion conn r) (fun h' _ => h' = image conn s) := by
  have hlocks : (image conn s).locks = [] := image_released hlocked
  unfold drawRegion
  apply ordered_act (.call (.drawRegion r)) trivial
  intro decoded
  split
  · rfl
  · apply ordered_section (p := act (.blit conn r))
    · rw [hlocks]
      simp
    · simp
    · exact ⟨trivial, fun _ _ hstep => hstep⟩
    · rfl

theorem translatorInit_ordered {s : Connection.Progress} (hcreated : s.created = false) :
    (ordered (.connection conn)).Obeys (image conn s) (translatorInit conn)
      (fun h' created => h' = image conn { s with created := created }) := by
  have hsame : image conn s = image conn { s with created := false } := by
    rw [← hcreated]
  unfold translatorInit
  apply ordered_act (.call .translatorInit) trivial
  intro ready
  split
  · exact hsame
  · rw [Monitor.obeys_bind]
    refine ⟨⟨rfl, hcreated⟩, fun created h' hstep => ?_⟩
    rw [show h' = image conn { s with created := created } from hstep, Monitor.obeys_ret]
    cases created with
    | true => exact rfl
    | false =>
      -- the thread to join does not exist
      refine ⟨⟨rfl, Or.inr rfl⟩, fun _ h'' hstep' => ?_⟩
      exact hstep'

/-- The mutexes below the effects of a connection thread follow the order. -/
theorem handler_ordered (conn : ℕ) (s : Connection.Progress) (e : Connection.Effect) (he : Connection.releases.ok s e) :
    (ordered (.connection conn)).Obeys (image conn s) (handler conn e)
      (fun h' r => ∃ s', h' = image conn s' ∧ Connection.releases.step s e r s') := by
  cases e with
  | lock =>
    have hlocked : s.locked = false := he
    refine ⟨⟨?_, by simp⟩, fun r h' hstep => ⟨_, ?_, rfl⟩⟩
    · rw [image, hlocked]
      simp
    · rw [show h' = _ from hstep, image, hlocked]
      rfl
  | unlock =>
    refine ⟨trivial, fun r h' hstep => ⟨_, ?_, rfl⟩⟩
    rw [show h' = _ from hstep, image]
    cases hlocked : s.locked with
    | true => simp [Held.next, image, Connection.Progress.next]
    | false => simp [Held.next, image, Connection.Progress.next]
  | drawRegion r => exact (drawRegion_ordered r he).mono (fun h' drawn hh => ⟨s, hh, rfl⟩)
  | translatorInit => exact (translatorInit_ordered he).mono (fun h' created hh => ⟨_, hh, rfl⟩)
  | close =>
    exact (ordered_finish (image_released he)).mono (fun h' _ hh => ⟨s, hh, rfl⟩)
  | _ => exact ⟨trivial, fun r h' hstep => ⟨s, hstep, rfl⟩⟩

/-! ## The rounds of the threads -/

/-- `keyboard_event` and `pointer_event` take the channel's mutex alone or below the framebuffer's. -/
theorem event_ordered (event : VncEvent) (hbelow : ∀ n ∈ h.locks, n = .framebuffer conn) :
    (ordered t).Obeys h (event.run conn) (fun h' _ => h' = h) := by
  have hrank : ∀ n ∈ h.locks, rank (.inl n) < rank (.inl (.projectorIo conn)) := by
    intro n hn
    rw [hbelow n hn]
    simp [rank]
  have hlock : ∀ {f : Unit → Connection.Action Unit},
      (ordered t).Obeys ⟨.projectorIo conn :: h.locks, h.created⟩ ((f ()).handle (handler conn)) (fun h' _ => h' = h) →
      (ordered t).Obeys h ((Connection.lock >>= f).handle (handler conn)) (fun h' _ => h' = h) := by
    intro f hf
    rw [Proc.handle_bind]
    exact ordered_lock hrank (by simp [rank]) hf
  have hplain : ∀ {γ : Type} {p : Connection.Action γ} {f : γ → Connection.Action Unit} {h' : Held},
      p.Uses Connection.Effect.Plain →
      (∀ a, (ordered t).Obeys h' ((f a).handle (handler conn)) (fun h' _ => h' = h)) →
      (ordered t).Obeys h' ((p >>= f).handle (handler conn)) (fun h' _ => h' = h) := by
    intro γ p f h' hp hf
    rw [Proc.handle_bind]
    exact ordered_local (uses_handle hp) hf
  have hunlock : (ordered t).Obeys ⟨.projectorIo conn :: h.locks, h.created⟩ (Connection.unlock.handle (handler conn))
      (fun h' _ => h' = h) := unlock_taken
  cases event with
  | keyboard down key =>
    apply hlock
    apply hplain Connection.uses_flushOnOverflow
    intro _
    apply hplain (Connection.uses_addAll _)
    intro _
    exact hunlock
  | pointer buttons x y =>
    apply hlock
    apply hplain Connection.uses_flushOnOverflow
    intro _
    apply hplain (p := Connection.act .oldButtons) (Proc.uses_perform.mpr trivial)
    intro old
    split
    · apply hplain (Connection.uses_addAll _)
      intro _
      apply hplain (p := Connection.act (.setPointerOld _)) (Proc.uses_perform.mpr trivial)
      intro _
      exact hunlock
    · exact hunlock

theorem runAll_ordered (events : List VncEvent) (hbelow : ∀ n ∈ h.locks, n = .framebuffer conn) :
    (ordered t).Obeys h (runAll conn events) (fun h' _ => h' = h) := by
  induction events with
  | nil => exact rfl
  | cons event events ih =>
    unfold runAll
    rw [Monitor.obeys_bind]
    apply (event_ordered event hbelow).mono
    intro h' _ hh
    rw [hh]
    exact ih

theorem ordered_processEvents {f : Unit → Action β} {Q : Held → β → Prop}
    (hbelow : ∀ n ∈ h.locks, n = .framebuffer conn) (hf : (ordered t).Obeys h (f ()) Q) :
    (ordered t).Obeys h (rfbProcessEvents conn >>= f) Q := by
  unfold rfbProcessEvents
  rw [Proc.bind_assoc]
  apply ordered_act (.rfbProcessEvents conn) trivial
  intro events
  rw [Monitor.obeys_bind]
  apply (runAll_ordered events hbelow).mono
  intro h' _ hh
  rw [hh]
  exact hf

theorem updateScreen_ordered (hlocks : h.locks = []) : (ordered t).Obeys h (updateScreen conn) (fun h' _ => h' = h) := by
  unfold updateScreen
  apply ordered_lock
  · rw [hlocks]
    simp
  · simp [rank]
  apply ordered_act (.compare conn) trivial
  intro marked
  have hend : (ordered t).Obeys ⟨.framebuffer conn :: h.locks, h.created⟩ (unlock (.framebuffer conn))
      (fun h' _ => h' = h) := unlock_taken
  split
  · apply ordered_processEvents
    · rw [hlocks]
      simp
    · exact hend
  · exact hend

theorem server_ordered (hlocks : h.locks = []) : (ordered t).Obeys h (body conn .server) (AtRest t) := by
  apply ordered_act (.isRunning conn) trivial
  intro running
  split
  · exact hlocks
  · exact hlocks

theorem serverIdle_ordered (hlocks : h.locks = []) : (ordered t).Obeys h (body conn .serverIdle) (AtRest t) := by
  have hbelow : ∀ n ∈ h.locks, n = .framebuffer conn := by
    rw [hlocks]
    simp
  have hround : ∀ running : Bool, (ordered t).Obeys h (if running then do
      rfbProcessEvents conn
      return .inl .serverIdle
    else do
      rfbProcessEvents conn
      updateScreen conn
      return .inl .server) (AtRest t) := by
    intro running
    split
    · apply ordered_processEvents hbelow
      exact hlocks
    · apply ordered_processEvents hbelow
      rw [Monitor.obeys_bind]
      apply (updateScreen_ordered hlocks).mono
      intro h' _ hh
      rw [hh]
      exact hlocks
  apply ordered_act (.hasClient conn) trivial
  intro client
  split
  · exact hround false
  · apply ordered_act (.isRunning conn) trivial
    exact hround

theorem item_ordered (i : ℕ) (hlocks : h.locks = [.list]) (ht : t ≠ .server t.conn) :
    (ordered t).Obeys h (body conn (.item i)) (AtRest t) := by
  apply ordered_act (.listItem i) trivial
  intro item
  cases item with
  | none =>
    apply ordered_unlock
    rw [hlocks]
    exact rfl
  | some conn =>
    apply ordered_lock
    · rw [hlocks]
      simp [rank]
    · intro hserver
      exact absurd hserver ht
    apply ordered_act (.sameSession conn) trivial
    intro same
    split
    · apply ordered_act (.setStopReq conn) trivial
      intro _
      apply ordered_unlock
      rw [List.erase_cons_head]
      apply ordered_unlock
      rw [hlocks]
      exact rfl
    · apply ordered_unlock
      rw [List.erase_cons_head]
      exact ⟨hlocks, ht⟩

theorem connection_ordered (l : Connection.Loop) {s : Connection.Progress} (hloop : Connection.AtLoopReleased l s) :
    (ordered (.connection conn)).Obeys (image conn s) (body conn (.connection l)) (AtRest (.connection conn)) := by
  have hround := Monitor.obeys_handle (handler conn) (image conn) (handler_ordered conn) (Connection.body_releases l hloop)
  unfold body asThread
  rw [Monitor.obeys_bind]
  apply hround.mono
  rintro h' result ⟨s', rfl, hrest⟩
  cases result with
  | inl l' => exact ⟨rfl, s', rfl, hrest⟩
  | inr _ => exact image_released hrest

/-- Every round of every thread follows the order. -/
theorem body_ordered (t : Tid) (loop : Loop) (h : Held) (hloop : AtLoop t loop h) :
    (ordered t).Obeys h (body t.conn loop) (AtRest t) := by
  cases loop with
  | connection l =>
    obtain ⟨ht, s, rfl, hs⟩ := hloop
    rw [ht]
    exact connection_ordered l hs
  | server => exact server_ordered hloop
  | serverIdle => exact serverIdle_ordered hloop
  | item i => exact item_ordered i hloop.1 hloop.2

theorem finishing_ordered (hlocks : h.locks = []) : (ordered (.connection conn)).Obeys h (do
    finish conn
    return .inr () : Thread) (AtRest (.connection conn)) := by
  rw [Monitor.obeys_bind]
  apply (ordered_finish hlocks).mono
  intro h' _ hh
  rw [hh]
  exact hlocks

theorem remoteConnectionThread_ordered (conn : ℕ) (v : Connection.Vars) :
    (ordered (.connection conn)).Obeys ⟨[], false⟩ (remoteConnectionThread conn v) (AtRest (.connection conn)) := by
  have hfinish : (ordered (.connection conn)).Obeys ⟨[], false⟩ (do
      finish conn
      return .inr () : Thread) (AtRest (.connection conn)) := finishing_ordered rfl
  unfold remoteConnectionThread
  apply ordered_act (.call .connectionUpgrade) trivial
  intro upgraded
  split
  · exact rfl
  · apply ordered_lock (by simp) (by simp)
    apply ordered_act (.listAdd conn) trivial
    intro _
    apply ordered_unlock
    apply ordered_local (uses_handle (Connection.uses_checkRemoteSig.mono Connection.Effect.Talks.plain))
    intro known
    split
    · exact hfinish
    · apply ordered_local (uses_handle (Connection.uses_doReqScreenInfo.mono Connection.Effect.Talks.plain))
      intro info
      split
      · exact hfinish
      · apply ordered_portctrl rfl
        apply ordered_portctrl rfl
        apply ordered_lock (by simp) (by simp)
        rw [Monitor.obeys_bind]
        have hsetup : Connection.releases.Obeys ⟨true, false⟩ (Connection.introduce v) (fun s _ => s.locked = true) :=
          Connection.introduce_releases v rfl rfl
        apply (Monitor.obeys_handle (handler conn) (image conn) (handler_ordered conn) hsetup).mono
        rintro h' alive ⟨s, rfl, hlocked⟩
        apply ordered_unlock
        have hreleased : (image conn s).locks.erase (.projectorIo conn) = [] := by
          rw [image, hlocked]
          simp
        rw [hreleased]
        split
        · exact ⟨rfl, ⟨false, s.created⟩, rfl, rfl⟩
        · exact finishing_ordered rfl

theorem stopSharing_ordered (ht : t ≠ .server t.conn) : (ordered t).Obeys ⟨[], false⟩ stopSharing (AtRest t) := by
  apply ordered_lock (by simp)
  · intro hserver
    exact absurd hserver ht
  · exact ⟨rfl, ht⟩

end Ordered
/-! ## Reachable states -/

/-- A thread follows the order, holds no more than it thinks, and a connection thread that
has not created its `server_thread` has none. -/
structure ThreadOk (s : System) (t : Tid) (p : Thread) (h : Held) : Prop where
  obeys : (ordered t).Obeys h p (AtRest t)
  owns : ∀ m, s.owner m = some t → m ∈ h.locks
  created : ∀ conn, t = .connection conn → h.created = false → s.threads (.server conn) = none

structure SystemOk (s : System) : Prop where
  thread : ∀ t p, s.threads t = some p → ∃ h, ThreadOk s t p h
  absent : ∀ t m, s.threads t = none → s.owner m ≠ some t
  server : ∀ conn, s.threads (.connection conn) = none → s.threads (.server conn) = none

theorem initial_ok : SystemOk System.initial where
  thread := by
    intro t p hp
    cases hp
  absent := by
    intro t m _ howner
    cases howner
  server := by
    intro conn _
    rfl

section System
variable {s u : System} {t d : Tid} {p : Thread} {h : Held}

/-- A thread is not affected by what another one does to the rest. -/
theorem ThreadOk.frame (hok : ThreadOk s d p h) (howner : ∀ m, u.owner m = some d → s.owner m = some d)
    (hserver : ∀ conn, d = .connection conn → s.threads (.server conn) = none → u.threads (.server conn) = none) :
    ThreadOk u d p h where
  obeys := hok.obeys
  owns := fun m hm => hok.owns m (howner m hm)
  created := by
    intro conn hd hcreated
    exact hserver conn hd (hok.created conn hd hcreated)

theorem spawn_self (s : System) (t : Tid) (q : Thread) : (s.spawn t q).threads t = some (q.resume (body t.conn)) :=
  Function.update_self _ _ _

theorem spawn_other (s : System) (q : Thread) (hd : d ≠ t) : (s.spawn t q).threads d = s.threads d :=
  Function.update_of_ne hd _ _

/-- A connection thread or a control connection starts with nothing. -/
theorem spawn_ok (hs : SystemOk s) (hnew : s.threads t = none) (ht : ∀ conn, t ≠ .server conn) {q : Thread}
    (hq : (ordered t).Obeys ⟨[], false⟩ (q.resume (body t.conn)) (AtRest t)) : SystemOk (s.spawn t q) where
  thread := by
    intro d p hp
    have hserver : ∀ conn, (s.spawn t q).threads (.server conn) = s.threads (.server conn) :=
      fun conn => spawn_other s q (fun h => ht conn h.symm)
    by_cases hd : d = t
    · subst hd
      rw [spawn_self] at hp
      obtain rfl := Option.some.inj hp
      refine ⟨⟨[], false⟩, hq, fun m hm => absurd hm (hs.absent d m hnew), ?_⟩
      intro conn hconn _
      rw [hserver]
      exact hs.server conn (hconn ▸ hnew)
    · rw [spawn_other s q hd] at hp
      obtain ⟨h, hok⟩ := hs.thread d p hp
      refine ⟨h, hok.frame (fun _ hm => hm) (fun conn _ hnone => ?_)⟩
      rw [hserver]
      exact hnone
  absent := by
    intro d m hd
    by_cases hdt : d = t
    · rw [hdt, spawn_self] at hd
      cases hd
    · rw [spawn_other s q hdt] at hd
      exact hs.absent d m hd
  server := by
    intro conn hconn
    rw [spawn_other s q (fun h => ht conn h.symm)]
    by_cases hdt : .connection conn = t
    · rw [hdt, spawn_self] at hconn
      cases hconn
    · rw [spawn_other s q hdt] at hconn
      exact hs.server conn hconn

theorem spawn_none (hp : s.threads t = some p) (q : Thread) (d : Tid) :
    (s.spawn t q).threads d = none ↔ s.threads d = none := by
  by_cases hd : d = t
  · rw [hd, spawn_self, hp]
    simp
  · rw [spawn_other s q hd]

/-- A thread moves on; the threads stay and no other thread gains a mutex. -/
theorem advance_ok (hs : SystemOk s) (hp : s.threads t = some p) {q : Thread} (hthreads : u.threads = s.threads)
    (howner : ∀ m d, d ≠ t → u.owner m = some d → s.owner m = some d)
    (hok : ThreadOk u t (q.resume (body t.conn)) h) : SystemOk (u.spawn t q) := by
  have hsame : ∀ d, (u.spawn t q).threads d = none ↔ u.threads d = none := spawn_none (hthreads ▸ hp) q
  refine ⟨fun d p' hp' => ?_, fun d m hd => ?_, fun conn hconn => ?_⟩
  · by_cases hd : d = t
    · subst hd
      rw [spawn_self] at hp'
      obtain rfl := Option.some.inj hp'
      exact ⟨h, hok.frame (fun _ hm => hm) (fun conn _ hnone => (hsame _).mpr hnone)⟩
    · rw [spawn_other u q hd, hthreads] at hp'
      obtain ⟨h', hok'⟩ := hs.thread d p' hp'
      refine ⟨h', hok'.frame (fun m hm => howner m d hd hm) (fun conn _ hnone => ?_)⟩
      rw [hsame, hthreads]
      exact hnone
  · rw [hsame, hthreads] at hd
    intro hm
    have hdt : d ≠ t := by
      rintro rfl
      rw [hp] at hd
      cases hd
    exact hs.absent d m hd (howner m d hdt hm)
  · rw [hsame, hthreads] at hconn ⊢
    exact hs.server conn hconn

/-- A connection thread creates its `server_thread`. -/
theorem create_ok {conn : ℕ} {locks : List Mutex} (hs : SystemOk s) (hp : s.threads (.connection conn) = some p)
    (hnone : s.threads (.server conn) = none) {q : Thread}
    (hq : (ordered (.connection conn)).Obeys ⟨locks, true⟩ (q.resume (body conn)) (AtRest (.connection conn)))
    (howns : ∀ m, s.owner m = some (.connection conn) → m ∈ locks) :
    SystemOk ((s.spawn (.server conn) (.ret (.inl .server))).spawn (.connection conn) q) := by
  have hp' : (s.spawn (.server conn) (.ret (.inl .server))).threads (.connection conn) = some p := by
    rw [spawn_other _ _ (by simp), hp]
  refine ⟨fun d p' hd => ?_, fun d m hd => ?_, fun conn' hconn => ?_⟩
  · by_cases hdc : d = .connection conn
    · subst hdc
      rw [spawn_self] at hd
      obtain rfl := Option.some.inj hd
      refine ⟨⟨locks, true⟩, hq, howns, ?_⟩
      intro _ _ hcreated
      cases hcreated
    · rw [spawn_other _ _ hdc] at hd
      by_cases hds : d = .server conn
      · subst hds
        rw [spawn_self] at hd
        obtain rfl := Option.some.inj hd
        refine ⟨⟨[], false⟩, server_ordered rfl, fun m hm => absurd hm (hs.absent _ m hnone), ?_⟩
        intro conn' hne
        cases hne
      · rw [spawn_other _ _ hds] at hd
        obtain ⟨h, hok⟩ := hs.thread d p' hd
        refine ⟨h, hok.frame (fun _ hm => hm) (fun conn' hconn' hnone' => ?_)⟩
        rw [spawn_none hp', spawn_other _ _ (by rw [hconn'] at hdc; simpa using hdc)]
        exact hnone'
  · rw [spawn_none hp'] at hd
    by_cases hds : d = .server conn
    · rw [hds, spawn_self] at hd
      cases hd
    · rw [spawn_other _ _ hds] at hd
      exact hs.absent d m hd
  · rw [spawn_none hp', spawn_other _ _ (by simp)] at hconn
    have hne : conn' ≠ conn := by
      rintro rfl
      rw [hp] at hconn
      cases hconn
    rw [spawn_none hp', spawn_other _ _ (by simpa using hne)]
    exact hs.server conn' hconn

/-- The effects that change neither the mutexes nor the threads. -/
def Effect.Quiet : Effect → Prop
  | .lock _ | .unlock _ | .create _ => False
  | _ => True

theorem shared_quiet (e : Effect) (he : e.Quiet) {r : Response e} (hu : s.shared t e r = some u) :
    u.owner = s.owner ∧ u.threads = s.threads ∧ h.next e r = h := by
  cases e with
  | lock | unlock | create => exact he.elim
  | join conn | hasTranslator conn | listItem i =>
    simp only [System.shared] at hu
    split at hu
    · obtain rfl := Option.some.inj hu
      exact ⟨rfl, rfl, rfl⟩
    · cases hu
  | _ =>
    obtain rfl := Option.some.inj hu
    exact ⟨rfl, rfl, rfl⟩

theorem lock_ok (hs : SystemOk s) (hp : s.threads t = some p) (hok : ThreadOk s t p h) {m : Mutex} {q : Thread}
    (hq : (ordered t).Obeys ⟨m :: h.locks, h.created⟩ (q.resume (body t.conn)) (AtRest t)) :
    SystemOk (System.spawn { s with owner := Function.update s.owner m (some t) } t q) := by
  apply advance_ok (u := { s with owner := Function.update s.owner m (some t) }) hs hp rfl
  · intro n d hd hn
    by_cases hnm : n = m
    · rw [hnm] at hn
      simp only [Function.update_self, Option.some.injEq] at hn
      exact absurd hn.symm hd
    · simpa only [Function.update_of_ne hnm] using hn
  · refine ⟨hq, fun n hn => ?_, hok.created⟩
    by_cases hnm : n = m
    · rw [hnm]
      exact List.mem_cons_self
    · simp only [Function.update_of_ne hnm] at hn
      exact List.mem_cons_of_mem _ (hok.owns n hn)

theorem unlock_ok (hs : SystemOk s) (hp : s.threads t = some p) (hok : ThreadOk s t p h) {m : Mutex} {q : Thread}
    (hq : (ordered t).Obeys ⟨h.locks.erase m, h.created⟩ (q.resume (body t.conn)) (AtRest t)) :
    SystemOk (System.spawn { s with owner := Function.update s.owner m none } t q) := by
  have hkept : ∀ n d, Function.update s.owner m none n = some d → n ≠ m ∧ s.owner n = some d := by
    intro n d hn
    by_cases hnm : n = m
    · rw [hnm, Function.update_self] at hn
      cases hn
    · rw [Function.update_of_ne hnm] at hn
      exact ⟨hnm, hn⟩
  apply advance_ok (u := { s with owner := Function.update s.owner m none }) hs hp rfl
  · exact fun n d _ hn => (hkept n d hn).2
  · refine ⟨hq, fun n hn => ?_, hok.created⟩
    exact (List.mem_erase_of_ne (hkept n t hn).1).mpr (hok.owns n (hkept n t hn).2)

theorem quiet_ok (hs : SystemOk s) (hp : s.threads t = some p) (hok : ThreadOk s t p h) {q : Thread}
    (howner : u.owner = s.owner) (hthreads : u.threads = s.threads)
    (hq : (ordered t).Obeys h (q.resume (body t.conn)) (AtRest t)) : SystemOk (u.spawn t q) := by
  apply advance_ok hs hp hthreads
  · intro m d _ hm
    rw [howner] at hm
    exact hm
  · refine ⟨hq, fun m hm => ?_, fun conn hconn hcreated => ?_⟩
    · rw [howner] at hm
      exact hok.owns m hm
    · rw [hthreads]
      exact hok.created conn hconn hcreated

theorem perform_ok (hs : SystemOk s) {e : Effect} {r : Response e} {q : Thread} (hp : s.threads t = some p)
    (hfeed : p.feed e r = some q) (hu : s.shared t e r = some u) : SystemOk (u.spawn t q) := by
  obtain ⟨h, hok⟩ := hs.thread t p hp
  have hallow : h.Allows t e := by
    obtain ⟨k, rfl, _⟩ := Proc.feed_eq_some.mp hfeed
    exact hok.obeys.1
  have hnext : (ordered t).Obeys (h.next e r) (q.resume (body t.conn)) (AtRest t) :=
    Monitor.obeys_feed (body_ordered t) hok.obeys hfeed rfl
  cases e with
  | lock m =>
    simp only [System.shared] at hu
    split at hu
    · obtain rfl := Option.some.inj hu
      exact lock_ok hs hp hok hnext
    · cases hu
  | unlock m =>
    obtain rfl := Option.some.inj hu
    exact unlock_ok hs hp hok hnext
  | create conn =>
    obtain ⟨rfl, hcreated⟩ := hallow
    cases r with
    | true =>
      obtain rfl := Option.some.inj hu
      exact create_ok hs hp (hok.created conn rfl hcreated) hnext hok.owns
    | false =>
      obtain rfl := Option.some.inj hu
      apply advance_ok hs hp rfl (fun _ _ _ hm => hm)
      exact ⟨hnext, hok.owns, fun conn' hconn _ => hok.created conn' hconn hcreated⟩
  | _ =>
    obtain ⟨howner, hthreads, hsame⟩ := shared_quiet (h := h) _ (by trivial) hu
    rw [hsame] at hnext
    exact quiet_ok hs hp hok howner hthreads hnext

/-- Every step of every thread keeps the invariant. -/
theorem step_ok (s : System) (a : Step) (s' : System) (hs : SystemOk s) (hstep : s.step a = some s') : SystemOk s' := by
  cases a with
  | accept conn v =>
    simp only [System.step] at hstep
    split at hstep
    · next hnone =>
      obtain rfl := Option.some.inj hstep
      apply spawn_ok hs (Option.isNone_iff_eq_none.mp hnone) (by simp)
      exact remoteConnectionThread_ordered conn v
    · cases hstep
  | control k =>
    simp only [System.step] at hstep
    split at hstep
    · next hnone =>
      obtain rfl := Option.some.inj hstep
      apply spawn_ok hs (Option.isNone_iff_eq_none.mp hnone) (by simp)
      exact stopSharing_ordered (by simp [Tid.conn])
    · cases hstep
  | perform t e r =>
    obtain ⟨p, hp, hstep⟩ := Option.bind_eq_some_iff.mp hstep
    obtain ⟨q, hq, hstep⟩ := Option.bind_eq_some_iff.mp hstep
    obtain ⟨u, hu, rfl⟩ := Option.map_eq_some_iff.mp hstep
    exact perform_ok hs hp hq hu

/-! ## No deadlock -/

theorem awaited_eq_lock {p : Thread} {m : Mutex} (hwants : awaited (some p) = some (.inl m)) :
    ∃ k, p = .op (.lock m) k := by
  cases p with
  | ret _ => cases hwants
  | op e k =>
    cases e with
    | lock n =>
      obtain rfl := Sum.inl.inj (Option.some.inj hwants)
      exact ⟨k, rfl⟩
    | join conn => cases hwants
    | _ => cases hwants

theorem awaited_eq_join {p : Thread} (hwants : awaited (some p) = some (.inr d)) :
    ∃ conn k, d = .server conn ∧ p = .op (.join conn) k := by
  cases p with
  | ret _ => cases hwants
  | op e k =>
    cases e with
    | join conn =>
      obtain rfl := Sum.inr.inj (Option.some.inj hwants)
      exact ⟨conn, k, rfl, rfl⟩
    | lock n => cases hwants
    | _ => cases hwants

theorem SystemOk.waits (hs : SystemOk s) {x : Mutex ⊕ Tid} (hwaits : s.waitGraph.Waits t x) :
    ∃ p h, s.threads t = some p ∧ ThreadOk s t p h ∧ awaited (some p) = some x := by
  have hwants : awaited (s.threads t) = some x := hwaits.1
  cases hp : s.threads t with
  | none =>
    rw [hp] at hwants
    cases hwants
  | some p =>
    rw [hp] at hwants
    obtain ⟨h, hok⟩ := hs.thread t p hp
    exact ⟨p, h, rfl, hok, hwants⟩

/-- A thread that joins a running one holds nothing. -/
theorem SystemOk.joins_free (hs : SystemOk s) (hwaits : s.waitGraph.Waits t (.inr d)) :
    (∃ conn, t = .connection conn ∧ d = .server conn) ∧ ∀ m, s.owner m ≠ some t := by
  obtain ⟨p, h, hp, hok, hwants⟩ := hs.waits hwaits
  obtain ⟨conn, k, rfl, rfl⟩ := awaited_eq_join hwants
  obtain ⟨rfl, hfree⟩ := hok.obeys.1
  refine ⟨⟨conn, rfl, rfl⟩, fun m hm => ?_⟩
  have hheld : m ∈ h.locks := hok.owns m hm
  rcases hfree with hnone | hcreated
  · rw [hnone] at hheld
    cases hheld
  · have hrunning : ended (s.threads (.server conn)) = false := hwaits.2 (.server conn) rfl
    rw [hok.created conn rfl hcreated] at hrunning
    cases hrunning

theorem SystemOk.ordered (hs : SystemOk s) : s.waitGraph.Ordered rank where
  held := by
    intro t l x howner hwaits
    cases x with
    | inl m =>
      obtain ⟨p, h, _, hok, hwants⟩ := hs.waits hwaits
      obtain ⟨k, rfl⟩ := awaited_eq_lock hwants
      exact hok.obeys.1.1 l (hok.owns l howner)
    | inr d => exact absurd howner ((hs.joins_free hwaits).2 l)
  joined := by
    intro t d x hjoin hwaits
    obtain ⟨⟨conn, _, rfl⟩, _⟩ := hs.joins_free hjoin
    cases x with
    | inl m =>
      obtain ⟨p, h, _, hok, hwants⟩ := hs.waits hwaits
      obtain ⟨k, rfl⟩ := awaited_eq_lock hwants
      exact hok.obeys.1.2 rfl
    | inr d =>
      -- a `server_thread` joins no thread
      obtain ⟨⟨conn', hserver, _⟩, _⟩ := hs.joins_free hwaits
      cases hserver

/-- The thread has left its setup or update loop and tests `conn->translator`. -/
def atFinish : Option Thread → Bool
  | some (.op (.hasTranslator _) _) => true
  | _ => false

theorem SystemOk.free_at_finish (hs : SystemOk s) (hfinish : atFinish (s.threads t) = true) (m : Mutex) :
    s.owner m ≠ some t := by
  intro howner
  cases hp : s.threads t with
  | none => exact hs.absent t m hp howner
  | some p =>
    obtain ⟨h, hok⟩ := hs.thread t p hp
    rw [hp] at hfinish
    cases p with
    | ret _ => cases hfinish
    | op e k =>
      cases e with
      | hasTranslator conn =>
        have hnone : h.locks = [] := hok.obeys.1
        have hheld : m ∈ h.locks := hok.owns m howner
        rw [hnone] at hheld
        cases hheld
      | _ => cases hfinish

end System

/-- In no reachable state do threads wait for each other in a cycle, and a connection thread
leaves its setup or update loop without a mutex. -/
theorem deadlock_free (steps : List Step) (s : System)
    (hrun : Transition.run System.step System.initial steps = some s) :
    (∀ t, ¬ Relation.TransGen s.waitGraph.WaitsFor t t) ∧
      ∀ conn, atFinish (s.threads (.connection conn)) = true → ∀ m, s.owner m ≠ some (.connection conn) := by
  have hok : SystemOk s := Transition.run_preserves step_ok initial_ok hrun
  constructor
  · exact hok.ordered.acyclic
  · intro conn hfinish
    exact hok.free_at_finish hfinish

/-! ## A stop request during a key press -/

def calls (e : Connection.Effect) (r : Connection.Response e) : Step := .perform (.connection 0) (.call e) r

def locks (t : Tid) (m : Mutex) : Step := .perform t (.lock m) ()
def unlocks (t : Tid) (m : Mutex) : Step := .perform t (.unlock m) ()

def connects : List Step :=
  [.accept 0 ⟨5901, 5902, [120]⟩, calls .connectionUpgrade true,
    locks (.connection 0) .list, .perform (.connection 0) (.listAdd 0) (), unlocks (.connection 0) .list,
    calls (.tcpReadAll 33) (some (remoteId ++ [0])), calls (.tcpWrite (serverId ++ [0])) true,
    calls (.sendUint32 1) true, calls .recvUint32 (some 1),
    calls .recvUint32 (some 16), calls .recvUint32 (some 16), calls .recvUint32 (some 32), calls .recvUint32 (some 0),
    locks (.connection 0) .ports, unlocks (.connection 0) .ports, locks (.connection 0) .ports, unlocks (.connection 0) .ports,
    locks (.connection 0) (.projectorIo 0),
    calls (.sendUint32 7) true, calls .recvUint32 (some 7), calls .recvUint32 (some 1), calls (.tcpReadAll 1) (some [97]),
    calls (.sendUint32 8) true, calls .recvUint32 (some 8), calls .recvUint32 (some 1), calls (.tcpReadAll 1) (some [115]),
    calls (.sendUint32 9) true, calls .recvUint32 (some 9), calls .recvUint32 (some 1), calls (.tcpReadAll 1) (some [104]),
    calls (.sendUint32 5) true, calls (.sendUint32 5901) true, calls (.sendUint32 5902) true,
    calls (.sendUint32 6) true, calls (.sendUint32 1) true, calls (.tcpWrite [120]) true,
    calls .translatorInit true, .perform (.connection 0) (.create 0) true, calls .messageSend true,
    unlocks (.connection 0) (.projectorIo 0)]

/-- `stop_sharing` finds the connection, which leaves its loop; a second one waits for the key press. -/
def stops : List Step :=
  [.control 0, locks (.control 0) .list, .perform (.control 0) (.listItem 0) (some 0), locks (.control 0) (.projectorIo 0),
    .perform (.control 0) (.sameSession 0) true, .perform (.control 0) (.setStopReq 0) (),
    unlocks (.control 0) (.projectorIo 0), unlocks (.control 0) .list,
    calls .isNotExit true, locks (.connection 0) (.projectorIo 0), calls .stopRequested true, calls (.sendUint32 11) true,
    .perform (.server 0) (.isRunning 0) true, .perform (.server 0) (.hasClient 0) true,
    .perform (.server 0) (.rfbProcessEvents 0) [], locks (.server 0) (.framebuffer 0), .perform (.server 0) (.compare 0) true,
    .perform (.server 0) (.rfbProcessEvents 0) [.keyboard 1 0x61],
    unlocks (.connection 0) (.projectorIo 0), locks (.server 0) (.projectorIo 0),
    .control 1, locks (.control 1) .list, .perform (.control 1) (.listItem 0) (some 0)]

theorem stop_during_key_press : ∃ s, Transition.run System.step System.initial (connects ++ stops) = some s ∧
    s.waitGraph.WaitsFor (.control 1) (.server 0) ∧ atFinish (s.threads (.connection 0)) = true ∧
    (∀ t, ¬ Relation.TransGen s.waitGraph.WaitsFor t t) ∧
      ∀ conn, atFinish (s.threads (.connection conn)) = true → ∀ m, s.owner m ≠ some (.connection conn) := by
  have hrun : ((Transition.run System.step System.initial (connects ++ stops)).map (fun s =>
      decide (awaited (s.threads (.control 1)) = some (.inl (.projectorIo 0)) ∧
        s.owner (.projectorIo 0) = some (.server 0) ∧ atFinish (s.threads (.connection 0)) = true))) = some true := by
    decide +kernel
  obtain ⟨s, hs, hobserved⟩ := Option.map_eq_some_iff.mp hrun
  obtain ⟨hwants, howner, hfinish⟩ := of_decide_eq_true hobserved
  exact ⟨s, hs, Or.inl ⟨.projectorIo 0, hwants, howner⟩, hfinish, deadlock_free _ s hs⟩

end Threads
end LilitunRemote

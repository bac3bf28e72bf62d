import LilitunRemote.Server.Lifecycle

/-! # The session ids that `stop_sharing` compares

A connection is on the list from before its session id exists until after it has been
released. `stop_sharing` takes the `projector_io_mutex` of each entry it visits, which
keeps it out of the part of the setup that runs under this mutex, and out of no other.
-/
namespace LilitunRemote
namespace Lifecycle
open AppServer

namespace Point

def isBeforeSetup : Point → Bool
  | upgrade | lockList | addToList | unlockList | checkRemoteSig | screenInfo | allocPort | allocIpv6Port => true
  | lockSetup => true
  | _ => false

def isLockedSetup : Point → Bool
  | appserverHost | sessionId | hostname | userConnection | userPassword | translatorInit | sendStart | unlockSetup => true
  | _ => false

def isReleased : Point → Bool
  | tcpClose | lockListToRemove | removeFromList | unlockRemoved | freeConn | returned => true
  | _ => false

end Point

/-- The connection has begun its setup, its request for the session id has not failed,
and its teardown has not released the id. -/
def Conn.Visitable (conn : Conn) : Prop :=
  conn.point.isBeforeSetup = false ∧ conn.point.isReleased = false ∧
    (conn.point.isLockedSetup = false → conn.answered = true)

def Server.ComparesWith (P : Conn → Prop) (s : Server) : Step → Prop
  | .stop k => ∀ call ∈ s.stops k, ∀ c items, call.point = .compare c items → ∃ conn ∈ s.conns c, P conn
  | _ => True

def Conn.IsLive (conn : Conn) : Prop := conn.sessionId.isLive = true

/-! ## The life of the pointer -/

/-- Before the answer to the request, between it and the release, and after that. -/
inductive IdPart
  | unanswered
  | kept
  | released
  deriving DecidableEq, Repr

def Point.idPart : Point → IdPart
  | upgrade | lockList | addToList | unlockList | checkRemoteSig | screenInfo | allocPort | allocIpv6Port => .unanswered
  | lockSetup | appserverHost | sessionId => .unanswered
  | tcpClose | lockListToRemove | removeFromList | unlockRemoved | freeConn | returned => .released
  | _ => .kept

def IdPart.Fits (conn : Conn) : IdPart → Prop
  | unanswered => conn.answered = false ∧ conn.sessionId = .null
  | kept => (conn.answered = false ∧ conn.sessionId = .null) ∨ (conn.answered = true ∧ conn.sessionId.isLive = true)
  | released => conn.sessionId.isLive = false

def Conn.IdFits (conn : Conn) : Prop := conn.point.idPart.Fits conn

theorem Conn.IdFits.at {conn : Conn} (h : conn.IdFits) {point : Point} (hpoint : conn.point = point) :
    point.idPart.Fits conn := hpoint ▸ h

section Pointer
variable {setting : Setting} {s t : Server} {conn : Conn}

theorem next_idFits (a : Answer) (h : conn.IdFits) : (s.next setting conn a).IdFits := by
  unfold Server.next
  cases hpoint : conn.point with
  | upgrade =>
    have hnull := (h.at hpoint).2
    dsimp only
    split
    · exact (by rw [hnull]; rfl : conn.sessionId.isLive = false)
    · exact h.at hpoint
  | checkRemoteSig | screenInfo | appserverHost =>
    dsimp only
    split
    · exact Or.inl (h.at hpoint)
    · exact h.at hpoint
  | lockList | addToList | unlockList | allocPort | allocIpv6Port | lockSetup => exact h.at hpoint
  | sessionId =>
    cases a with
    | string t => exact Or.inr ⟨rfl, rfl⟩
    | fail | ok | count n => exact Or.inl (h.at hpoint)
  | hostname =>
    cases a <;> exact h.at hpoint
  | userConnection | userPassword | translatorInit | update | checkStop | screenUpdate | teardown | region left =>
    dsimp only
    split <;> exact h.at hpoint
  | drawRegion left =>
    dsimp only
    split
    · exact h.at hpoint
    · cases left <;> exact h.at hpoint
  | sendStart | unlockSetup | lockUpdate | doReqStop | unlockIdle | giveUp | sendStop | freePort | freeIpv6Port
  | translatorFinish | unlockRegion left => exact h.at hpoint
  | freeSessionId =>
    have hfree : conn.sessionId.free.isLive = false := by cases conn.sessionId <;> rfl
    exact hfree
  | tcpClose | lockListToRemove | removeFromList | unlockRemoved | freeConn | returned => exact h.at hpoint

theorem idPart_cases {point : Point} (hunlocked : point.isLockedSetup = false) :
    (point.idPart = .unanswered ∧ point.isBeforeSetup = true) ∨
      (point.idPart = .kept ∧ point.isBeforeSetup = false ∧ point.isReleased = false) ∨
      (point.idPart = .released ∧ point.isReleased = true) := by
  cases point <;> simp [Point.idPart, Point.isBeforeSetup, Point.isReleased, Point.isLockedSetup] at hunlocked ⊢

theorem isLive_iff (h : conn.IdFits) (hunlocked : conn.point.isLockedSetup = false) : conn.IsLive ↔ conn.Visitable := by
  unfold Conn.IsLive Conn.Visitable
  unfold Conn.IdFits at h
  rcases idPart_cases hunlocked with ⟨hpart, hbefore⟩ | ⟨hpart, hbefore, hreleased⟩ | ⟨hpart, hreleased⟩ <;> rw [hpart] at h
  · simp [h.2, hbefore, SessionId.isLive]
  · rcases h with ⟨hanswered, hnull⟩ | ⟨hanswered, hlive⟩
    · simp [hanswered, hnull, hunlocked, SessionId.isLive]
    · simp [hanswered, hlive, hbefore, hreleased]
  · have hfreed : conn.sessionId.isLive = false := h
    simp [hfreed, hreleased]

theorem visitable_of_isLive (h : conn.IdFits) (hlive : conn.IsLive) : conn.Visitable := by
  cases hlocked : conn.point.isLockedSetup with
  | false => exact (isLive_iff h hlocked).mp hlive
  | true =>
    refine ⟨?_, ?_, fun hunlocked => ?_⟩
    · revert hlocked
      cases conn.point <;> simp [Point.isBeforeSetup, Point.isLockedSetup]
    · revert hlocked
      cases conn.point <;> simp [Point.isReleased, Point.isLockedSetup]
    · rw [hlocked] at hunlocked
      cases hunlocked

end Pointer

/-! ## The mutex during the setup -/

def StopPoint.holds : StopPoint → ℕ → Bool
  | compare c _, d | unlockIo c _ _, d => c = d
  | _, _ => false

/-- Up to the end of its setup the mutex of a connection has one holder: the thread in
the locked part, or the call that visits it. -/
structure Server.SetupLocked (s : Server) : Prop where
  locked : ∀ c conn, s.conns c = some conn → conn.point.isLockedSetup = true → s.ioMutex c = some (.conn c)
  visited : ∀ c k call, (∀ conn ∈ s.conns c, conn.point.isBeforeSetup = true ∨ conn.point.isLockedSetup = true) →
    s.stops k = some call → call.point.holds c = true → s.ioMutex c = some (.stop k)

section Setup
variable {setting : Setting} {s t : Server}

theorem shared_ioMutex {c : ℕ} {conn : Conn} {u : Server} (h : s.shared setting c conn = some u) :
    u.stops = s.stops ∧ (∀ d, d ≠ c → u.ioMutex d = s.ioMutex d) ∧
      match conn.point with
      | .lockSetup | .lockUpdate => s.ioMutex c = none ∧ u.ioMutex c = some (.conn c)
      | .unlockSetup | .unlockRegion _ | .unlockIdle | .giveUp => u.ioMutex c = none
      | _ => u.ioMutex c = s.ioMutex c := by
  unfold Server.shared at h
  cases hpoint : conn.point <;> rw [hpoint] at h
  case lockSetup | lockUpdate =>
    simp only [Server.lockIo, Option.ite_none_right_eq_some, Option.some.injEq] at h
    obtain ⟨hfree, rfl⟩ := h
    exact ⟨rfl, fun d hd => Function.update_of_ne hd .., hfree, Function.update_self ..⟩
  case unlockSetup | unlockRegion | unlockIdle | giveUp =>
    obtain rfl := Option.some.inj h
    exact ⟨rfl, fun d hd => Function.update_of_ne hd .., Function.update_self ..⟩
  case lockList | lockListToRemove =>
    simp only [Server.lockList, Option.ite_none_right_eq_some, Option.some.injEq] at h
    obtain ⟨_, rfl⟩ := h
    exact ⟨rfl, fun _ _ => rfl, rfl⟩
  case returned => cases h
  all_goals
    obtain rfl := Option.some.inj h
    exact ⟨rfl, fun _ _ => rfl, rfl⟩

theorem next_isLockedSetup {conn : Conn} {a : Answer} (h : (s.next setting conn a).point.isLockedSetup = true) :
    conn.point = .lockSetup ∨ (conn.point.isLockedSetup = true ∧ conn.point ≠ .unlockSetup) := by
  unfold Server.next at h
  cases hpoint : conn.point <;> simp only [hpoint] at h <;>
    first
    | exact Or.inl rfl
    | exact Or.inr (by decide)
    | (exfalso; revert h; decide)
    | (exfalso; revert h; (repeat' split) <;> simp [Point.isLockedSetup])

theorem next_isBeforeSetup {conn : Conn} {a : Answer} (h : (s.next setting conn a).point.isBeforeSetup = true) :
    conn.point.isBeforeSetup = true ∧ conn.point ≠ .lockSetup := by
  unfold Server.next at h
  cases hpoint : conn.point <;> simp only [hpoint] at h <;>
    first
    | decide
    | (exfalso; revert h; decide)
    | (exfalso; revert h; (repeat' split) <;> simp [Point.isBeforeSetup])

/-- The mutex of a connection over a step of its own before the end of its setup. -/
theorem setup_ioMutex {c : ℕ} {conn : Conn} {u : Server} (h : s.shared setting c conn = some u)
    (hpoint : conn.point.isBeforeSetup = true ∨ conn.point.isLockedSetup = true) (hlock : conn.point ≠ .lockSetup)
    (hunlock : conn.point ≠ .unlockSetup) : u.ioMutex c = s.ioMutex c := by
  have hio := (shared_ioMutex h).2.2
  cases hp : conn.point <;> simp only [hp] at hio hpoint hlock hunlock <;>
    first
    | exact hio
    | exact absurd rfl hlock
    | exact absurd rfl hunlock
    | (rcases hpoint with hbefore | hlocked
       · cases hbefore
       · cases hlocked)

theorem connStep_setupLocked {d : ℕ} {conn : Conn} {x : Answer} {u : Server} (hs : s.SetupLocked)
    (hold : s.conns d = some conn) (hshared : s.shared setting d conn = some u)
    : (u.put d (s.next setting conn x)).SetupLocked := by
  obtain ⟨hstops, hothers, hio⟩ := shared_ioMutex hshared
  obtain ⟨_, _, _, hu⟩ := shared_eq hshared
  have hconns : u.conns = s.conns := by rw [hu]
  refine ⟨fun c conn' hconn' hlocked => ?_, fun c k call hunserved hcall hholds => ?_⟩
  · change Function.update u.conns d _ c = some conn' at hconn'
    change u.ioMutex c = some (.conn c)
    by_cases hc : c = d
    · subst hc
      rw [Function.update_self] at hconn'
      obtain rfl := Option.some.inj hconn'
      rcases next_isLockedSetup hlocked with hlock | ⟨hstill, hunlock⟩
      · rw [hlock] at hio
        exact hio.2
      · rw [setup_ioMutex hshared (Or.inr hstill) (by rintro hp; rw [hp] at hstill; cases hstill) hunlock]
        exact hs.locked c conn hold hstill
    · rw [Function.update_of_ne hc, hconns] at hconn'
      rw [hothers c hc]
      exact hs.locked c conn' hconn' hlocked
  · change ∀ conn' ∈ Function.update u.conns d _ c, _ at hunserved
    change u.ioMutex c = some (.stop k)
    change u.stops k = some call at hcall
    rw [hstops] at hcall
    by_cases hc : c = d
    · subst hc
      rw [Function.update_self] at hunserved
      have hbefore : conn.point.isBeforeSetup = true ∨ conn.point.isLockedSetup = true →
          s.ioMutex c = some (.stop k) := by
        intro hpoint
        refine hs.visited c k call (fun conn' hconn' => ?_) hcall hholds
        rw [hold] at hconn'
        exact Option.some.inj hconn' ▸ hpoint
      rcases hunserved _ rfl with hb | hl
      · obtain ⟨hb, hlock⟩ := next_isBeforeSetup hb
        rw [setup_ioMutex hshared (Or.inl hb) hlock (by rintro hp; rw [hp] at hb; cases hb)]
        exact hbefore (Or.inl hb)
      · rcases next_isLockedSetup hl with hlock | ⟨hstill, hunlock⟩
        · -- the mutex was free when the thread took it, so no call was visiting
          have hvisited := hbefore (Or.inl (by rw [hlock]; rfl))
          rw [hlock] at hio
          rw [hio.1] at hvisited
          cases hvisited
        · rw [setup_ioMutex hshared (Or.inr hstill) (by rintro hp; rw [hp] at hstill; cases hstill) hunlock]
          exact hbefore (Or.inr hstill)
    · rw [Function.update_of_ne hc, hconns] at hunserved
      rw [hothers c hc]
      exact hs.visited c k call hunserved hcall hholds

/-- What a call does: it leaves the mutexes of the connections alone, takes one that is
free, or releases the one it has. -/
theorem stopStep_ioMutex {k : ℕ} {call : StopCall} (h : s.stopStep k call = some t) :
    ∃ point, t.stops = Function.update s.stops k (some { call with point := point }) ∧
      (t.ioMutex = s.ioMutex ∧ (∀ c, point.holds c = true → call.point.holds c = true) ∨
        (∃ c, s.ioMutex c = none ∧ t.ioMutex = Function.update s.ioMutex c (some (.stop k)) ∧
          ∀ d, point.holds d = true → d = c) ∨
        ∃ c, call.point.holds c = true ∧ t.ioMutex = Function.update s.ioMutex c none ∧ ∀ d, point.holds d = false) := by
  unfold Server.stopStep at h
  simp only at h
  split at h
  · simp only [Server.lockList, Option.map_eq_some_iff, Option.ite_none_right_eq_some, Option.some.injEq] at h
    obtain ⟨_, ⟨_, rfl⟩, rfl⟩ := h
    exact ⟨_, rfl, Or.inl ⟨rfl, fun _ hh => absurd hh Bool.false_ne_true⟩⟩
  · obtain rfl := Option.some.inj h
    exact ⟨_, rfl, Or.inl ⟨rfl, fun _ hh => absurd hh Bool.false_ne_true⟩⟩
  · obtain rfl := Option.some.inj h
    exact ⟨_, rfl, Or.inl ⟨rfl, fun _ hh => absurd hh Bool.false_ne_true⟩⟩
  · next c items _ =>
    simp only [Server.lockIo, Option.map_eq_some_iff, Option.ite_none_right_eq_some, Option.some.injEq] at h
    obtain ⟨_, ⟨hfree, rfl⟩, rfl⟩ := h
    exact ⟨_, rfl, Or.inr (Or.inl ⟨c, hfree, rfl, fun d hd => (of_decide_eq_true hd).symm⟩)⟩
  · next c items hpoint =>
    split at h
    · cases h
    · split at h
      · obtain rfl := Option.some.inj h
        exact ⟨_, rfl, Or.inl ⟨rfl, fun d hd => by rw [hpoint]; exact hd⟩⟩
      · obtain rfl := Option.some.inj h
        exact ⟨_, rfl, Or.inl ⟨rfl, fun d hd => by rw [hpoint]; exact hd⟩⟩
  · next c found items hpoint =>
    obtain rfl := Option.some.inj h
    refine ⟨_, rfl, Or.inr (Or.inr ⟨c, by rw [hpoint]; exact decide_eq_true rfl, rfl, fun d => ?_⟩)⟩
    cases found <;> rfl
  · obtain rfl := Option.some.inj h
    exact ⟨_, rfl, Or.inl ⟨rfl, fun _ hh => absurd hh Bool.false_ne_true⟩⟩
  · cases h

theorem stopStep_setupLocked {k : ℕ} {call : StopCall} (hs : s.SetupLocked) (hcall : s.stops k = some call)
    (h : s.stopStep k call = some t) : t.SetupLocked := by
  have hpoints : ∀ c conn, t.conns c = some conn → ∃ old, s.conns c = some old ∧ old.point = conn.point := by
    intro c conn hconn
    rcases (stopStep_quiet h).2.2.2 c with hsame | ⟨old, hold, hnew⟩
    · exact ⟨conn, hsame ▸ hconn, rfl⟩
    · rw [hnew] at hconn
      exact ⟨old, hold, by rw [← Option.some.inj hconn]⟩
  have hunserved : ∀ c, (∀ conn ∈ t.conns c, conn.point.isBeforeSetup = true ∨ conn.point.isLockedSetup = true) →
      ∀ conn ∈ s.conns c, conn.point.isBeforeSetup = true ∨ conn.point.isLockedSetup = true := by
    intro c ht conn hconn
    rcases (stopStep_quiet h).2.2.2 c with hsame | ⟨old, hold, hnew⟩
    · exact ht conn (hsame ▸ hconn)
    · obtain rfl : old = conn := by
        rw [hold] at hconn
        exact Option.some.inj hconn
      have hthere := ht _ (Option.mem_def.mpr hnew)
      exact hthere
  obtain ⟨point, hstops, hio⟩ := stopStep_ioMutex h
  have hcalls : ∀ l call', t.stops l = some call' → (l = k ∧ call'.point = point) ∨ (l ≠ k ∧ s.stops l = some call') := by
    intro l call' hl
    rw [hstops] at hl
    by_cases hlk : l = k
    · subst hlk
      rw [Function.update_self] at hl
      exact Or.inl ⟨rfl, by rw [← Option.some.inj hl]⟩
    · rw [Function.update_of_ne hlk] at hl
      exact Or.inr ⟨hlk, hl⟩
  rcases hio with ⟨hio, hholds⟩ | ⟨c, hfree, hio, hholds⟩ | ⟨c, hheld, hio, hholds⟩
  · refine ⟨fun d conn hconn hlocked => ?_, fun d l call' hd hl hh => ?_⟩
    · obtain ⟨old, hold, hpoint⟩ := hpoints d conn hconn
      rw [hio]
      exact hs.locked d old hold (hpoint ▸ hlocked)
    · rw [hio]
      rcases hcalls l call' hl with ⟨rfl, hpoint⟩ | ⟨_, hl⟩
      · exact hs.visited d l call (hunserved d hd) hcall (hholds d (hpoint ▸ hh))
      · exact hs.visited d l call' (hunserved d hd) hl hh
  · refine ⟨fun d conn hconn hlocked => ?_, fun d l call' hd hl hh => ?_⟩
    · obtain ⟨old, hold, hpoint⟩ := hpoints d conn hconn
      have hmutex := hs.locked d old hold (hpoint ▸ hlocked)
      have hdc : d ≠ c := by
        rintro rfl
        rw [hfree] at hmutex
        cases hmutex
      rw [hio, Function.update_of_ne hdc]
      exact hmutex
    · rcases hcalls l call' hl with ⟨rfl, hpoint⟩ | ⟨_, hl⟩
      · obtain rfl := hholds d (hpoint ▸ hh)
        rw [hio, Function.update_self]
      · have hmutex := hs.visited d l call' (hunserved d hd) hl hh
        have hdc : d ≠ c := by
          rintro rfl
          rw [hfree] at hmutex
          cases hmutex
        rw [hio, Function.update_of_ne hdc]
        exact hmutex
  · refine ⟨fun d conn hconn hlocked => ?_, fun d l call' hd hl hh => ?_⟩
    · obtain ⟨old, hold, hpoint⟩ := hpoints d conn hconn
      have hmutex := hs.locked d old hold (hpoint ▸ hlocked)
      have hdc : d ≠ c := by
        rintro rfl
        have hvisited := hs.visited d k call (fun conn' hconn' => ?_) hcall hheld
        · rw [hmutex] at hvisited
          cases hvisited
        · rw [hold] at hconn'
          exact Option.some.inj hconn' ▸ Or.inr (hpoint ▸ hlocked)
      rw [hio, Function.update_of_ne hdc]
      exact hmutex
    · rcases hcalls l call' hl with ⟨rfl, hpoint⟩ | ⟨hlk, hl⟩
      · rw [hpoint, hholds d] at hh
        cases hh
      · have hmutex := hs.visited d l call' (hunserved d hd) hl hh
        have hdc : d ≠ c := by
          rintro rfl
          have hvisited := hs.visited d k call (hunserved d hd) hcall hheld
          rw [hmutex] at hvisited
          exact hlk (by cases hvisited; rfl)
        rw [hio, Function.update_of_ne hdc]
        exact hmutex

theorem step_setupLocked {a : Step} (hs : s.SetupLocked) (h : s.step setting a = some t) : t.SetupLocked := by
  cases a with
  | accept d passwd =>
    simp only [Server.step, Option.ite_none_right_eq_some, Option.some.injEq] at h
    obtain ⟨hnone, rfl⟩ := h
    rw [Option.isNone_iff_eq_none] at hnone
    refine ⟨fun c conn hconn hlocked => ?_, fun c k call hunserved hcall hholds => ?_⟩
    · change Function.update s.conns d _ c = some conn at hconn
      by_cases hc : c = d
      · subst hc
        rw [Function.update_self] at hconn
        obtain rfl := Option.some.inj hconn
        cases hlocked
      · rw [Function.update_of_ne hc] at hconn
        exact hs.locked c conn hconn hlocked
    · change ∀ conn ∈ Function.update s.conns d _ c, _ at hunserved
      refine hs.visited c k call (fun conn hconn => ?_) hcall hholds
      have hc : c ≠ d := by
        rintro rfl
        rw [hnone] at hconn
        cases hconn
      rw [Function.update_of_ne hc] at hunserved
      exact hunserved conn hconn
  | conn d x =>
    obtain ⟨conn, hold, hstep⟩ := Option.bind_eq_some_iff.mp h
    obtain ⟨u, hu, rfl⟩ := Option.map_eq_some_iff.mp hstep
    exact connStep_setupLocked hs hold hu
  | stopSharing k sessionId =>
    simp only [Server.step, Option.ite_none_right_eq_some, Option.some.injEq] at h
    obtain ⟨_, rfl⟩ := h
    refine ⟨hs.locked, fun c l call hunserved hcall hholds => ?_⟩
    change Function.update s.stops k _ l = some call at hcall
    by_cases hl : l = k
    · subst hl
      rw [Function.update_self] at hcall
      rw [← Option.some.inj hcall] at hholds
      cases hholds
    · rw [Function.update_of_ne hl] at hcall
      exact hs.visited c l call hunserved hcall hholds
  | stop k =>
    obtain ⟨call, hcall, hstep⟩ := Option.bind_eq_some_iff.mp h
    exact stopStep_setupLocked hs hcall hstep
  | exit =>
    obtain rfl := Option.some.inj h
    exact ⟨hs.locked, hs.visited⟩

end Setup

/-! ## The comparisons of a run -/

structure Server.IdsOk (s : Server) : Prop where
  idFits : ∀ c conn, s.conns c = some conn → conn.IdFits
  setup : s.SetupLocked

theorem compares_iff {s : Server} {a : Step} (hs : s.IdsOk) :
    s.ComparesWith Conn.IsLive a ↔ s.ComparesWith Conn.Visitable a := by
  cases a with
  | stop k =>
    refine forall_congr' fun call => forall_congr' fun hcall => forall_congr' fun c => forall_congr' fun items =>
      forall_congr' fun hpoint => ?_
    constructor
    · rintro ⟨conn, hconn, hlive⟩
      exact ⟨conn, hconn, visitable_of_isLive (hs.idFits c conn hconn) hlive⟩
    · rintro ⟨conn, hconn, hvisitable⟩
      refine ⟨conn, hconn, (isLive_iff (hs.idFits c conn hconn) ?_).mpr hvisitable⟩
      -- the call holds the mutex, so the thread is not in the locked part
      by_contra hlocked
      have hlocked : conn.point.isLockedSetup = true := by simpa using hlocked
      have hthread := hs.setup.locked c conn hconn hlocked
      have hcaller := hs.setup.visited c k call (fun conn' hconn' => ?_) hcall (by rw [hpoint]; exact decide_eq_true rfl)
      · rw [hthread] at hcaller
        cases hcaller
      · rw [hconn] at hconn'
        exact Option.some.inj hconn' ▸ Or.inr hlocked
  | accept _ _ | conn _ _ | stopSharing _ _ | exit => exact Iff.rfl

/-- Over every run: `stop_sharing` compares live session ids only, exactly when each
entry it compares is past the beginning of its setup with its request for the id not
failed, and its teardown has not released the id. -/
theorem compares_live_iff (setting : Setting) (store : Store) (steps : List Step) :
    Transition.Guarded (Server.step setting) (Server.ComparesWith Conn.IsLive) (.initial store) steps ↔
      Transition.Guarded (Server.step setting) (Server.ComparesWith Conn.Visitable) (.initial store) steps := by
  have hstart : (Server.initial store).IdsOk :=
    ⟨(fun _ _ h => nomatch h), (fun _ _ h => nomatch h), (fun _ _ _ _ h => nomatch h)⟩
  have hstep : ∀ (s : Server) a t, s.IdsOk → s.step setting a = some t → t.IdsOk := by
    intro s a t hs ht
    refine ⟨?_, step_setupLocked hs.setup ht⟩
    exact forall_conn_step (fun _ => ⟨rfl, rfl⟩) (fun _ x _ _ _ hfits => next_idFits x hfits) (fun _ hfits => hfits) ht
      hs.idFits
  have hiff : ∀ (s : Server) a, s.IdsOk → (s.ComparesWith Conn.IsLive a ↔ s.ComparesWith Conn.Visitable a) :=
    fun _ _ hs => compares_iff hs
  exact Transition.guarded_congr hstep hiff hstart steps

/-- A control message arrives while a connection is in the signature exchange. -/
def earlyStop : List Step :=
  [.accept 0 [], .conn 0 .ok, .conn 0 .ok, .conn 0 .ok, .conn 0 .ok, .stopSharing 0 (asciiBytes "s"), .stop 0, .stop 0,
    .stop 0]

/-- The call holds the mutex and is about to compare the id of a connection that has none. -/
theorem earlyStop_compares_null :
    ∃ s, Transition.run (Server.step fourPorts) (.initial .empty) earlyStop = some s ∧
      s.stops 0 = some ⟨asciiBytes "s", .compare 0 []⟩ ∧ s.ioMutex 0 = some (.stop 0) ∧
      (s.conns 0).map Conn.sessionId = some .null ∧ (s.step fourPorts (.stop 0)).isSome = true ∧
      ¬ s.ComparesWith Conn.IsLive (.stop 0) := by
  have hrun : (Transition.run (Server.step fourPorts) (.initial .empty) earlyStop).map
      (fun s => (s.stops 0, s.ioMutex 0, (s.conns 0).map Conn.sessionId, (s.step fourPorts (.stop 0)).isSome)) =
        some (some ⟨asciiBytes "s", .compare 0 []⟩, some (.stop 0), some .null, true) := by decide +kernel
  obtain ⟨s, hs, hdata⟩ := Option.map_eq_some_iff.mp hrun
  simp only [Prod.mk.injEq] at hdata
  obtain ⟨hstop, hmutex, hid, hstep⟩ := hdata
  refine ⟨s, hs, hstop, hmutex, hid, hstep, fun hcompares => ?_⟩
  obtain ⟨conn, hconn, hlive⟩ := hcompares _ hstop 0 [] rfl
  rw [Option.mem_def.mp hconn, Option.map_some] at hid
  unfold Conn.IsLive at hlive
  rw [Option.some.inj hid] at hlive
  cases hlive

end Lifecycle
end LilitunRemote

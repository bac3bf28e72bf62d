import LilitunRemote.AppServer.Store
import LilitunRemote.Foundation.Memory
import LilitunRemote.Foundation.Transition
import LilitunRemote.Server.Portctrl

/-! # The life of the projector connections

`remote_connection_thread` from its creation to its end, for any number of connections,
and `stop_sharing`, which walks the list of all of them. The network requests are taken
by their outcome; what the connections share is the list with its mutex, the ports, the
`projector_io_mutex` of each, and the tables of the application server.
-/
namespace LilitunRemote
namespace Lifecycle
open AppServer Memory

inductive Point
  | upgrade
  | lockList
  | addToList
  | unlockList
  | checkRemoteSig
  | screenInfo
  | allocPort
  | allocIpv6Port
  | lockSetup
  | appserverHost
  | sessionId
  | hostname
  | userConnection
  | userPassword
  | translatorInit
  | sendStart
  | unlockSetup
  | update
  | lockUpdate
  | checkStop
  | doReqStop
  | screenUpdate
  | region (left : ℕ)
  | unlockRegion (left : ℕ)
  | drawRegion (left : ℕ)
  | unlockIdle
  | giveUp
  | teardown
  | sendStop
  | freePort
  | freeIpv6Port
  | translatorFinish
  | freeSessionId
  | tcpClose
  | lockListToRemove
  | removeFromList
  | unlockRemoved
  | freeConn
  | returned
  deriving DecidableEq, Repr

inductive SessionId
  | null
  | live (text : Bytes)
  | freed (text : Bytes)
  deriving DecidableEq, Repr

namespace SessionId

def isLive : SessionId → Bool
  | live _ => true
  | _ => false

def free : SessionId → SessionId
  | live t => freed t
  | other => other

def text : SessionId → Bytes
  | null => []
  | live t | freed t => t

end SessionId

/-- The pointer `translator`, and whether `translator_finish` has returned. -/
inductive Translator
  | none
  | running
  | finished
  deriving DecidableEq, Repr

/-- A connection with its thread; `answered` and `accepted` record whether
`do_req_session_id` returned a string and whether the application server accepted the
start. -/
structure Conn where
  point : Point
  port : ℕ
  ipv6port : ℕ
  passwd : Bytes
  sessionId : SessionId
  hostname : Bytes
  translator : Translator
  threadAlive : Bool
  stopReq : Bool
  answered : Bool
  accepted : Bool
  deriving DecidableEq, Repr

def Conn.start (passwd : Bytes) : Conn :=
  ⟨.upgrade, 0, 0, passwd, .null, [], .none, false, false, false, false⟩

/-- A call of `stop_sharing`, with the list items it has still to visit. -/
inductive StopPoint
  | lockList
  | visit (items : List ℕ)
  | lockIo (c : ℕ) (items : List ℕ)
  | compare (c : ℕ) (items : List ℕ)
  | unlockIo (c : ℕ) (found : Bool) (items : List ℕ)
  | unlockList
  | done
  deriving DecidableEq, Repr

structure StopCall where
  sessionId : Bytes
  point : StopPoint
  deriving DecidableEq, Repr

inductive Holder
  | conn (c : ℕ)
  | stop (k : ℕ)
  deriving DecidableEq, Repr

/-- The shared state; `ids` are the connections accepted so far. -/
structure Server where
  ids : List ℕ
  conns : ℕ → Option Conn
  stops : ℕ → Option StopCall
  isNotExit : Bool
  ports : PortRange.Marks
  list : List ℕ
  listMutex : Option Holder
  ioMutex : ℕ → Option Holder
  store : Store

def Server.initial (store : Store) : Server :=
  ⟨[], fun _ => none, fun _ => none, true, fun _ => false, [], none, fun _ => none, store⟩

/-! ## Messages to the application server -/

def messageText (fields : List (String × Bytes)) : Bytes :=
  asciiBytes "\x7b" ++
    [0x2c].intercalate (fields.map (fun f => asciiBytes "\"" ++ asciiBytes f.1 ++ asciiBytes "\":\"" ++ f.2 ++ asciiBytes "\"")) ++
    asciiBytes "\x7d"

/-- A text that means itself in a JSON string and in an SQL literal. -/
def isPlainText (t : Bytes) : Bool :=
  t.all (fun b => 0x20 ≤ b && b ≤ 0x7e && b ≠ 0x22 && b ≠ 0x27 && b ≠ 0x5c)

def isPlainMessage (fields : List (String × Bytes)) : Bool :=
  fields.all (fun f => isPlainText f.2) && (messageText fields).length ≤ 1023

/-- What surrounds the server: the range of its ports, and how PHP and SQLite read
messages and statements with texts that are not plain. -/
structure Setting where
  range : PortRange
  decode : Bytes → Json
  sqlite : Sqlite

def Setting.received (setting : Setting) (fields : List (String × Bytes)) : Json :=
  if isPlainMessage fields then .object (fields.map (fun f => (asciiBytes f.1, .text f.2)))
  else setting.decode ((messageText fields).take 1023)

def Setting.message (setting : Setting) (store : Store) (fields : List (String × Bytes)) : AppServer.Reply × Store :=
  (messagePlan (setting.received fields)).run setting.sqlite store

def decimal (port : ℕ) : Bytes := asciiBytes (toString (wrapInt port))

def Conn.startFields (conn : Conn) : List (String × Bytes) :=
  [("requestType", remoteControlStart), ("sessionId", conn.sessionId.text), ("hostname", conn.hostname),
    ("port", decimal conn.port), ("ipv6port", decimal conn.ipv6port), ("password", conn.passwd)]

def Conn.stopFields (conn : Conn) : List (String × Bytes) :=
  [("requestType", remoteControlStop), ("sessionId", conn.sessionId.text)]

/-! ## The steps of a connection -/

/-- The outcome of a request: it fails, or succeeds, with a string or a count where it
returns one. -/
inductive Answer
  | fail
  | ok
  | string (t : Bytes)
  | count (n : ℕ)
  deriving DecidableEq, Repr

namespace Server

def put (s : Server) (c : ℕ) (conn : Conn) : Server := { s with conns := Function.update s.conns c (some conn) }

def lockList (s : Server) (h : Holder) : Option Server :=
  if s.listMutex = none then some { s with listMutex := some h } else none

def lockIo (s : Server) (c : ℕ) (h : Holder) : Option Server :=
  if s.ioMutex c = none then some { s with ioMutex := Function.update s.ioMutex c (some h) } else none

/-- An unlock releases the mutex whoever makes it, as a default mutex does. -/
def unlockIo (s : Server) (c : ℕ) : Server := { s with ioMutex := Function.update s.ioMutex c none }

variable (setting : Setting)

def shared (s : Server) (c : ℕ) (conn : Conn) : Option Server :=
  match conn.point with
  | .lockList | .lockListToRemove => s.lockList (.conn c)
  | .addToList => some { s with list := c :: s.list }
  | .removeFromList => some { s with list := s.list.erase c }
  | .unlockList | .unlockRemoved => some { s with listMutex := none }
  | .lockSetup | .lockUpdate => s.lockIo c (.conn c)
  | .unlockSetup | .unlockRegion _ | .unlockIdle | .giveUp => some (s.unlockIo c)
  | .allocPort | .allocIpv6Port => some { s with ports := (setting.range.portctrlAlloc s.ports).2 }
  | .freePort => some { s with ports := setting.range.portctrlFree conn.port s.ports }
  | .freeIpv6Port => some { s with ports := setting.range.portctrlFree conn.ipv6port s.ports }
  | .sendStart => some { s with store := (setting.message s.store conn.startFields).2 }
  | .sendStop => some { s with store := (setting.message s.store conn.stopFields).2 }
  | .returned => none
  | _ => some s

/-- The connection after the step of its thread. A failed request of the setup skips the
rest of it, and a failure in the update loop clears `thread_alive`. -/
def next (s : Server) (conn : Conn) (a : Answer) : Conn :=
  let goTo (point : Point) : Conn := { conn with point := point }
  let onFail (failed passed : Point) : Conn := goTo (if a = .fail then failed else passed)
  match conn.point with
  | .upgrade => onFail .returned .lockList
  | .lockList => goTo .addToList
  | .addToList => goTo .unlockList
  | .unlockList => goTo .checkRemoteSig
  | .checkRemoteSig => onFail .teardown .screenInfo
  | .screenInfo => onFail .update .allocPort
  | .allocPort => { conn with point := .allocIpv6Port, port := (setting.range.portctrlAlloc s.ports).1 }
  | .allocIpv6Port => { conn with point := .lockSetup, ipv6port := (setting.range.portctrlAlloc s.ports).1 }
  | .lockSetup => goTo .appserverHost
  | .appserverHost => onFail .unlockSetup .sessionId
  | .sessionId =>
    match a with
    | .string t => { conn with point := .hostname, sessionId := .live (t.takeWhile (· ≠ 0)), answered := true }
    | _ => goTo .unlockSetup
  | .hostname =>
    match a with
    | .string t => { conn with point := .userConnection, hostname := t.takeWhile (· ≠ 0) }
    | _ => goTo .unlockSetup
  | .userConnection => onFail .unlockSetup .userPassword
  | .userPassword => onFail .unlockSetup .translatorInit
  | .translatorInit =>
    if a = .fail then goTo .unlockSetup
    else { conn with point := .sendStart, translator := .running, threadAlive := true }
  | .sendStart =>
    let ok := decide ((setting.message s.store conn.startFields).1 = .ok)
    { conn with point := .unlockSetup, accepted := ok, threadAlive := ok && decide (a ≠ .fail) }
  | .unlockSetup => goTo .update
  | .update => goTo (if s.isNotExit && conn.threadAlive then .lockUpdate else .teardown)
  | .lockUpdate => goTo .checkStop
  | .checkStop => goTo (if conn.stopReq then .doReqStop else .screenUpdate)
  | .doReqStop => goTo .giveUp
  | .screenUpdate =>
    match a with
    | .count 0 => goTo .unlockIdle
    | .count (n + 1) => goTo (.region n)
    | _ => goTo .giveUp
  | .region left => onFail .giveUp (.unlockRegion left)
  | .unlockRegion left => goTo (.drawRegion left)
  | .drawRegion left =>
    if a = .fail then { conn with point := .update, threadAlive := false }
    else goTo (match left with
      | 0 => .update
      | n + 1 => .region n)
  | .unlockIdle => goTo .update
  | .giveUp => { conn with point := .update, threadAlive := false }
  | .teardown => goTo (if conn.translator = .none then .freeSessionId else .sendStop)
  | .sendStop => goTo .freePort
  | .freePort => goTo .freeIpv6Port
  | .freeIpv6Port => goTo .translatorFinish
  | .translatorFinish => { conn with point := .freeSessionId, translator := .finished }
  | .freeSessionId => { conn with point := .tcpClose, sessionId := conn.sessionId.free }
  | .tcpClose => goTo .lockListToRemove
  | .lockListToRemove => goTo .removeFromList
  | .removeFromList => goTo .unlockRemoved
  | .unlockRemoved => goTo .freeConn
  | .freeConn | .returned => goTo .returned

def connStep (s : Server) (c : ℕ) (conn : Conn) (a : Answer) : Option Server :=
  (s.shared setting c conn).map (·.put c (s.next setting conn a))

def stopStep (s : Server) (k : ℕ) (call : StopCall) : Option Server :=
  let goTo (t : Server) (point : StopPoint) : Server :=
    { t with stops := Function.update t.stops k (some { call with point := point }) }
  match call.point with
  | .lockList => (s.lockList (.stop k)).map (fun t => goTo t (.visit s.list))
  | .visit [] => some (goTo s .unlockList)
  | .visit (c :: items) => some (goTo s (.lockIo c items))
  | .lockIo c items => (s.lockIo c (.stop k)).map (fun t => goTo t (.compare c items))
  | .compare c items =>
    match s.conns c with
    | none => none
    | some conn =>
      if conn.sessionId = .live call.sessionId then
        some (goTo (s.put c { conn with stopReq := true }) (.unlockIo c true items))
      else some (goTo s (.unlockIo c false items))
  | .unlockIo c found items => some (goTo (s.unlockIo c) (if found then .unlockList else .visit items))
  | .unlockList => some (goTo { s with listMutex := none } .done)
  | .done => none

end Server

/-- The actions: a connection is accepted, one of the threads makes a step, a control
message arrives, or the server is told to exit. -/
inductive Step
  | accept (c : ℕ) (passwd : Bytes)
  | conn (c : ℕ) (a : Answer)
  | stopSharing (k : ℕ) (sessionId : Bytes)
  | stop (k : ℕ)
  | exit

def Server.step (setting : Setting) (s : Server) : Step → Option Server
  | .accept c passwd => if (s.conns c).isNone then some ({ s with ids := c :: s.ids }.put c (.start passwd)) else none
  | .conn c a => (s.conns c).bind (fun conn => s.connStep setting c conn a)
  | .stopSharing k sessionId =>
    if (s.stops k).all (·.point = .done) then
      some { s with stops := Function.update s.stops k (some ⟨sessionId.takeWhile (· ≠ 0), .lockList⟩) }
    else none
  | .stop k => (s.stops k).bind (s.stopStep k)
  | .exit => some { s with isNotExit := false }

/-! ## What a thread's point tells about its connection -/

/-- The parts of a thread's life: before the ports are allocated, between the two
allocations, before the translator is started, before the start is sent, until the
teardown, during the shutdown of the translator, and after it. -/
inductive Part
  | early
  | half
  | setup
  | starting
  | opened
  | stopping
  | releasing
  deriving DecidableEq, Repr

def Point.part : Point → Part
  | upgrade | lockList | addToList | unlockList | checkRemoteSig | screenInfo | allocPort => .early
  | allocIpv6Port => .half
  | lockSetup | appserverHost | sessionId | hostname | userConnection | userPassword | translatorInit => .setup
  | sendStart => .starting
  | sendStop | freePort | freeIpv6Port | translatorFinish => .stopping
  | freeSessionId | tcpClose | lockListToRemove | removeFromList | unlockRemoved | freeConn | returned => .releasing
  | _ => .opened

def Part.Fits (conn : Conn) : Part → Prop
  | early => conn.port = 0 ∧ conn.ipv6port = 0 ∧ conn.translator = .none ∧ conn.threadAlive = false
  | half => conn.ipv6port = 0 ∧ conn.translator = .none ∧ conn.threadAlive = false
  | setup => conn.translator = .none ∧ conn.threadAlive = false
  | starting => conn.translator = .running
  | opened => conn.translator ≠ .finished ∧ (conn.threadAlive = true → conn.translator = .running)
  | stopping => conn.translator = .running
  | releasing => conn.translator ≠ .running

def Conn.Fits (conn : Conn) : Prop := conn.point.part.Fits conn

theorem Conn.Fits.at {conn : Conn} (h : conn.Fits) {point : Point} (hpoint : conn.point = point) :
    point.part.Fits conn := hpoint ▸ h

theorem fits_failed {conn : Conn} (h : conn.translator = .none ∧ conn.threadAlive = false) : Part.opened.Fits conn := by
  refine ⟨?_, fun halive => ?_⟩
  · rw [h.1]
    decide
  · rw [h.2] at halive
    cases halive

theorem next_fits {setting : Setting} {s : Server} {conn : Conn} (h : conn.Fits) (a : Answer) :
    (s.next setting conn a).Fits := by
  unfold Conn.Fits at h
  unfold Server.next
  cases hpoint : conn.point with
  | upgrade =>
    rw [hpoint] at h
    by_cases ha : a = .fail
    · simp only [ha, if_true]
      exact (by rw [h.2.2.1]; decide : conn.translator ≠ .running)
    · simp only [ha, if_false]
      exact h
  | checkRemoteSig | screenInfo =>
    rw [hpoint] at h
    by_cases ha : a = .fail
    · simp only [ha, if_true]
      exact fits_failed h.2.2
    · simp only [ha, if_false]
      exact h
  | lockList | addToList | unlockList | lockSetup =>
    rw [hpoint] at h
    exact h
  | allocPort =>
    rw [hpoint] at h
    exact h.2
  | allocIpv6Port =>
    rw [hpoint] at h
    exact h.2
  | appserverHost | userConnection | userPassword =>
    rw [hpoint] at h
    by_cases ha : a = .fail
    · simp only [ha, if_true]
      exact fits_failed h
    · simp only [ha, if_false]
      exact h
  | sessionId | hostname =>
    rw [hpoint] at h
    cases a with
    | string t => exact h
    | fail | ok | count n => exact fits_failed h
  | translatorInit =>
    rw [hpoint] at h
    by_cases ha : a = .fail
    · simp only [ha, if_true]
      exact fits_failed h
    · simp only [ha, if_false]
      exact (rfl : Translator.running = .running)
  | sendStart =>
    rw [hpoint] at h
    have hrunning : conn.translator = .running := h
    exact ⟨by rw [hrunning]; decide, fun _ => hrunning⟩
  | unlockSetup | lockUpdate | doReqStop | unlockRegion left | unlockIdle =>
    rw [hpoint] at h
    exact h
  | checkStop =>
    rw [hpoint] at h
    simp only
    split <;> exact h
  | update =>
    rw [hpoint] at h
    simp only
    split <;> exact h
  | screenUpdate =>
    rw [hpoint] at h
    simp only
    split <;> exact h
  | region left =>
    rw [hpoint] at h
    simp only
    split <;> exact h
  | drawRegion left =>
    rw [hpoint] at h
    simp only
    split
    · exact ⟨h.1, fun halive => nomatch halive⟩
    · cases left <;> exact h
  | giveUp =>
    rw [hpoint] at h
    exact ⟨h.1, fun halive => nomatch halive⟩
  | teardown =>
    rw [hpoint] at h
    simp only
    split
    · next hnone => exact (by rw [hnone]; decide : conn.translator ≠ .running)
    · next hsome =>
      have hrunning : conn.translator = .running := by
        cases htr : conn.translator with
        | none => exact absurd htr hsome
        | running => rfl
        | finished => exact absurd htr h.1
      exact hrunning
  | sendStop | freePort | freeIpv6Port =>
    rw [hpoint] at h
    exact h
  | translatorFinish => exact (by decide : Translator.finished ≠ .running)
  | freeSessionId | tcpClose | lockListToRemove | removeFromList | unlockRemoved | freeConn | returned =>
    rw [hpoint] at h
    exact h

/-! ## The fields of a connection over a step -/

section Fields
variable {setting : Setting} {s : Server} {conn : Conn}

theorem next_port (a : Answer) : (s.next setting conn a).port =
    match conn.point with
    | .allocPort => (setting.range.portctrlAlloc s.ports).1
    | _ => conn.port := by
  unfold Server.next
  cases conn.point <;> first | rfl | (dsimp only; split <;> rfl)

theorem next_ipv6port (a : Answer) : (s.next setting conn a).ipv6port =
    match conn.point with
    | .allocIpv6Port => (setting.range.portctrlAlloc s.ports).1
    | _ => conn.ipv6port := by
  unfold Server.next
  cases conn.point <;> first | rfl | (dsimp only; split <;> rfl)

theorem next_translator (a : Answer) : (s.next setting conn a).translator =
    match conn.point with
    | .translatorInit => if a = .fail then conn.translator else .running
    | .translatorFinish => .finished
    | _ => conn.translator := by
  unfold Server.next
  cases conn.point <;> first | rfl | (dsimp only; split <;> rfl)

theorem next_freeIpv6Port (a : Answer) :
    (s.next setting conn a).point = .freeIpv6Port ↔ conn.point = .freePort := by
  unfold Server.next
  cases conn.point <;> dsimp only <;> first | decide | (repeat' split) <;> simp_all

theorem next_translatorFinish (a : Answer) :
    (s.next setting conn a).point = .translatorFinish ↔ conn.point = .freeIpv6Port := by
  unfold Server.next
  cases conn.point <;> dsimp only <;> first | decide | (repeat' split) <;> simp_all

def Point.failsSetup : Point → Answer → Bool
  | .appserverHost, a | .userConnection, a | .userPassword, a | .translatorInit, a => a = .fail
  | .sessionId, .string _ | .hostname, .string _ => false
  | .sessionId, _ | .hostname, _ => true
  | _, _ => false

theorem next_part {a : Answer} (h : (s.next setting conn a).point.part = .opened ∨
      (s.next setting conn a).point.part = .releasing) :
    conn.point.failsSetup a = true ∨
      conn.point ≠ .allocPort ∧ conn.point.part ≠ .half ∧ conn.point.part ≠ .setup := by
  unfold Server.next at h
  cases hpoint : conn.point <;> simp only [hpoint] at h <;>
    first
    | exact Or.inr (by decide)
    | (exfalso; revert h; decide)
    | (cases a <;> simp_all [Point.part, Point.failsSetup])

end Fields

/-! ## What a step does -/

section Steps
variable {setting : Setting} {s t u : Server} {c : ℕ} {conn : Conn}

def Server.portsAfter (setting : Setting) (s : Server) (conn : Conn) : PortRange.Marks :=
  match conn.point with
  | .allocPort | .allocIpv6Port => (setting.range.portctrlAlloc s.ports).2
  | .freePort => setting.range.portctrlFree conn.port s.ports
  | .freeIpv6Port => setting.range.portctrlFree conn.ipv6port s.ports
  | _ => s.ports

def Server.storeAfter (setting : Setting) (s : Server) (conn : Conn) : Store :=
  match conn.point with
  | .sendStart => (setting.message s.store conn.startFields).2
  | .sendStop => (setting.message s.store conn.stopFields).2
  | _ => s.store

theorem shared_eq (h : s.shared setting c conn = some u) :
    ∃ list listMutex ioMutex, u = { s with
      list := list, listMutex := listMutex, ioMutex := ioMutex,
      ports := s.portsAfter setting conn, store := s.storeAfter setting conn } := by
  unfold Server.shared at h
  unfold Server.portsAfter Server.storeAfter
  cases hpoint : conn.point <;> rw [hpoint] at h <;>
    first
    | (obtain rfl := Option.some.inj h; exact ⟨_, _, _, rfl⟩)
    | (simp only [Server.lockList, Server.lockIo, Option.ite_none_right_eq_some, Option.some.injEq] at h
       obtain ⟨_, rfl⟩ := h
       exact ⟨_, _, _, rfl⟩)
    | cases h

/-- The steps that are not a connection's own change nothing of it but `stop_req`, and
neither the ports nor the tables. -/
def Server.Quiet (s t : Server) : Prop :=
  t.ports = s.ports ∧ t.store = s.store ∧ t.ids = s.ids ∧
    ∀ c, t.conns c = s.conns c ∨ ∃ conn, s.conns c = some conn ∧ t.conns c = some { conn with stopReq := true }

theorem stopStep_quiet {k : ℕ} {call : StopCall} (h : s.stopStep k call = some t) : s.Quiet t := by
  unfold Server.stopStep at h
  simp only at h
  split at h
  · simp only [Server.lockList, Option.map_eq_some_iff, Option.ite_none_right_eq_some, Option.some.injEq] at h
    obtain ⟨_, ⟨_, rfl⟩, rfl⟩ := h
    exact ⟨rfl, rfl, rfl, fun _ => Or.inl rfl⟩
  · obtain rfl := Option.some.inj h
    exact ⟨rfl, rfl, rfl, fun _ => Or.inl rfl⟩
  · obtain rfl := Option.some.inj h
    exact ⟨rfl, rfl, rfl, fun _ => Or.inl rfl⟩
  · simp only [Server.lockIo, Option.map_eq_some_iff, Option.ite_none_right_eq_some, Option.some.injEq] at h
    obtain ⟨_, ⟨_, rfl⟩, rfl⟩ := h
    exact ⟨rfl, rfl, rfl, fun _ => Or.inl rfl⟩
  · next c items _ =>
    split at h
    · cases h
    · next conn hconn =>
      split at h
      · obtain rfl := Option.some.inj h
        refine ⟨rfl, rfl, rfl, fun d => ?_⟩
        by_cases hd : d = c
        · subst hd
          exact Or.inr ⟨conn, hconn, Function.update_self ..⟩
        · exact Or.inl (Function.update_of_ne hd ..)
      · obtain rfl := Option.some.inj h
        exact ⟨rfl, rfl, rfl, fun _ => Or.inl rfl⟩
  · obtain rfl := Option.some.inj h
    exact ⟨rfl, rfl, rfl, fun _ => Or.inl rfl⟩
  · obtain rfl := Option.some.inj h
    exact ⟨rfl, rfl, rfl, fun _ => Or.inl rfl⟩
  · cases h

theorem step_cases {a : Step} (h : s.step setting a = some t) :
    (∃ d passwd, s.conns d = none ∧ t.conns = Function.update s.conns d (some (.start passwd)) ∧ t.ids = d :: s.ids ∧
        t.ports = s.ports ∧ t.store = s.store) ∨
      (∃ d x conn, a = .conn d x ∧ s.conns d = some conn ∧ t.conns = Function.update s.conns d (some (s.next setting conn x)) ∧
        t.ids = s.ids ∧ t.ports = s.portsAfter setting conn ∧ t.store = s.storeAfter setting conn) ∨
      s.Quiet t := by
  cases a with
  | accept d passwd =>
    simp only [Server.step, Option.ite_none_right_eq_some, Option.some.injEq] at h
    obtain ⟨hnone, rfl⟩ := h
    exact Or.inl ⟨d, passwd, Option.isNone_iff_eq_none.mp hnone, rfl, rfl, rfl, rfl⟩
  | conn d x =>
    obtain ⟨conn, hconn, hstep⟩ := Option.bind_eq_some_iff.mp h
    obtain ⟨u, hu, rfl⟩ := Option.map_eq_some_iff.mp hstep
    obtain ⟨list, listMutex, ioMutex, rfl⟩ := shared_eq hu
    exact Or.inr (Or.inl ⟨d, x, conn, rfl, hconn, rfl, rfl, rfl, rfl⟩)
  | stopSharing k sessionId =>
    simp only [Server.step, Option.ite_none_right_eq_some, Option.some.injEq] at h
    obtain ⟨_, rfl⟩ := h
    exact Or.inr (Or.inr ⟨rfl, rfl, rfl, fun _ => Or.inl rfl⟩)
  | stop k =>
    obtain ⟨call, _, hstep⟩ := Option.bind_eq_some_iff.mp h
    exact Or.inr (Or.inr (stopStep_quiet hstep))
  | exit =>
    obtain rfl := Option.some.inj h
    exact Or.inr (Or.inr ⟨rfl, rfl, rfl, fun _ => Or.inl rfl⟩)

/-- A property of single connections that the threads' own steps keep, and that does not
look at `stop_req`, holds along every run. -/
theorem forall_conn_step {P : Conn → Prop} {a : Step} (hstart : ∀ passwd, P (.start passwd))
    (hnext : ∀ c x conn, a = .conn c x → s.conns c = some conn → P conn → P (s.next setting conn x))
    (hstop : ∀ conn, P conn → P { conn with stopReq := true }) (h : s.step setting a = some t)
    (hs : ∀ c conn, s.conns c = some conn → P conn) : ∀ c conn, t.conns c = some conn → P conn := by
  intro c conn hconn
  rcases step_cases h with ⟨d, passwd, -, hconns, -⟩ | ⟨d, x, old, ha, hold, hconns, -⟩ | ⟨-, -, -, hquiet⟩
  · rw [hconns] at hconn
    by_cases hc : c = d
    · subst hc
      rw [Function.update_self] at hconn
      exact Option.some.inj hconn ▸ hstart passwd
    · rw [Function.update_of_ne hc] at hconn
      exact hs c conn hconn
  · rw [hconns] at hconn
    by_cases hc : c = d
    · subst hc
      rw [Function.update_self] at hconn
      exact Option.some.inj hconn ▸ hnext c x old ha hold (hs c old hold)
    · rw [Function.update_of_ne hc] at hconn
      exact hs c conn hconn
  · rcases hquiet c with hsame | ⟨old, hold, hnew⟩
    · exact hs c conn (hsame ▸ hconn)
    · rw [hnew] at hconn
      exact Option.some.inj hconn ▸ hstop old (hs c old hold)

/-- What holds of every reachable state: the connections are known and fit their points. -/
structure Server.Consistent (s : Server) : Prop where
  known : ∀ c conn, s.conns c = some conn → c ∈ s.ids
  fits : ∀ c conn, s.conns c = some conn → conn.Fits

theorem start_fits (passwd : Bytes) : (Conn.start passwd).Fits := ⟨rfl, rfl, rfl, rfl⟩

theorem initial_consistent (store : Store) : (Server.initial store).Consistent :=
  ⟨(fun _ _ h => nomatch h), (fun _ _ h => nomatch h)⟩

theorem step_consistent {a : Step} (hs : s.Consistent) (h : s.step setting a = some t) : t.Consistent := by
  refine ⟨?_, forall_conn_step start_fits (fun _ x _ _ _ hfits => next_fits hfits x) (fun _ hfits => hfits) h hs.fits⟩
  intro c conn hconn
  rcases step_cases h with ⟨d, passwd, -, hconns, hids, -⟩ | ⟨d, x, old, -, hold, hconns, hids, -⟩ | ⟨-, -, hids, hquiet⟩
  · rw [hids]
    by_cases hc : c = d
    · exact hc ▸ List.mem_cons_self
    · rw [hconns, Function.update_of_ne hc] at hconn
      exact List.mem_cons_of_mem _ (hs.known c conn hconn)
  · rw [hids]
    by_cases hc : c = d
    · exact hc ▸ hs.known d old hold
    · rw [hconns, Function.update_of_ne hc] at hconn
      exact hs.known c conn hconn
  · rw [hids]
    rcases hquiet c with hsame | ⟨old, hold, _⟩
    · exact hs.known c conn (hsame ▸ hconn)
    · exact hs.known c old hold

end Steps

def fourPorts : Setting := ⟨⟨5900, 4, by decide, by decide⟩, fun _ => .null, fun _ _ => none⟩

/-- The steps of connection `c` from the upgrade up to the request for the host of the
application server, and from there to the running translator. -/
def connects (c : ℕ) : List Step := .accept c (asciiBytes "password1234") :: List.replicate 9 (.conn c .ok)

def starts (c : ℕ) : List Step :=
  [.conn c .ok, .conn c (.string (asciiBytes "s")), .conn c (.string (asciiBytes "pc")), .conn c .ok, .conn c .ok, .conn c .ok]

end Lifecycle
end LilitunRemote

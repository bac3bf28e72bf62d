import LilitunRemote.Foundation.LockOrder
import LilitunRemote.Foundation.Transition
import LilitunRemote.Server.Connection
import Mathlib.Logic.Function.Basic

/-! # The threads of the control server and their mutexes

Every connection has its `remote_connection_thread` and, once its translator is up, the
`server_thread` of libvncserver, which calls `keyboard_event` and `pointer_event` out of
`rfbProcessEvents`. Control connections call `stop_sharing`. Each connection has its
`projector_io_mutex` and `framebuffer_mutex`; the list of connections and the ports have one each.
-/
namespace LilitunRemote
namespace Threads

inductive Mutex
  | list
  | ports
  | framebuffer (conn : ℕ)
  | projectorIo (conn : ℕ)
  deriving DecidableEq, Repr

inductive VncEvent
  | keyboard (down : Int8) (key : UInt32)
  | pointer (buttons x y : Int32)
  deriving DecidableEq, Repr

inductive Effect
  | lock (m : Mutex)
  | unlock (m : Mutex)
  | create (conn : ℕ)
  | join (conn : ℕ)
  | hasTranslator (conn : ℕ)
  | listAdd (conn : ℕ)
  | listRemove (conn : ℕ)
  | listItem (i : ℕ)
  | sameSession (conn : ℕ)
  | setStopReq (conn : ℕ)
  | blit (conn : ℕ) (r : RegionData)
  | isRunning (conn : ℕ)
  | hasClient (conn : ℕ)
  | rfbProcessEvents (conn : ℕ)
  | compare (conn : ℕ)
  | call (e : Connection.Effect)
  deriving DecidableEq

/-- The answers: `listItem i` gives the connection at place `i` of the list, `rfbProcessEvents` the
events it has callbacks for, `compare` whether a rectangle has to be marked. -/
@[reducible] def Response : Effect → Type
  | .create _ | .hasTranslator _ | .sameSession _ | .isRunning _ | .hasClient _ | .compare _ => Bool
  | .listItem _ => Option ℕ
  | .rfbProcessEvents _ => List VncEvent
  | .call e => Connection.Response e
  | _ => Unit

abbrev Action := Proc Effect Response

def act (e : Effect) : Action (Response e) := Proc.perform e

def lock (m : Mutex) : Action Unit := act (.lock m)
def unlock (m : Mutex) : Action Unit := act (.unlock m)

def portctrl : Action Unit := do
  lock .ports
  unlock .ports

/-! ## The connection thread -/

/-- `translator_finish`; libvncserver is shut down after the join. -/
def translatorFinish (conn : ℕ) : Action Unit := act (.join conn)

/-- `translator_init`: libvncserver is set up, then its thread is created. -/
def translatorInit (conn : ℕ) : Action Bool := do
  if !(← act (.call .translatorInit)) then return false
  if !(← act (.create conn)) then
    translatorFinish conn
    return false
  return true

def finish (conn : ℕ) : Action Unit := do
  if (← act (.hasTranslator conn)) then
    let _ ← act (.call .messageSend)
    portctrl
    portctrl
    translatorFinish conn
  act (.call .close)
  lock .list
  act (.listRemove conn)
  unlock .list

def drawRegion (conn : ℕ) (r : RegionData) : Action Bool := do
  let decoded ← act (.call (.drawRegion r))
  if !decoded then return false
  lock (.framebuffer conn)
  act (.blit conn r)
  unlock (.framebuffer conn)
  return true

def handler (conn : ℕ) : (e : Connection.Effect) → Action (Connection.Response e)
  | .lock => lock (.projectorIo conn)
  | .unlock => unlock (.projectorIo conn)
  | .drawRegion r => drawRegion conn r
  | .translatorInit => translatorInit conn
  | .close => finish conn
  | e => act (.call e)

/-! ## The threads -/

/-- Where a thread goes round: the loops of the connection thread, the two loops of
`server_thread`, and the walk of `stop_sharing` at a place of the list. -/
inductive Loop
  | connection (l : Connection.Loop)
  | server
  | serverIdle
  | item (i : ℕ)

abbrev Thread := Action (Loop ⊕ Unit)

def asThread (p : Action (Connection.Loop ⊕ Unit)) : Thread := do
  match ← p with
  | .inl l => return .inl (.connection l)
  | .inr () => return .inr ()

def remoteConnectionThread (conn : ℕ) (v : Connection.Vars) : Thread := do
  if !(← act (.call .connectionUpgrade)) then
    return .inr ()
  lock .list
  act (.listAdd conn)
  unlock .list
  if !(← Connection.checkRemoteSig.handle (handler conn)) then
    finish conn
    return .inr ()
  else if !(← Connection.doReqScreenInfo.handle (handler conn)) then
    finish conn
    return .inr ()
  else
    portctrl
    portctrl
    lock (.projectorIo conn)
    let alive ← (Connection.introduce v).handle (handler conn)
    unlock (.projectorIo conn)
    if alive then return .inl (.connection .update)
    finish conn
    return .inr ()

def VncEvent.run (conn : ℕ) : VncEvent → Action Unit
  | .keyboard down key => (Connection.keyboardEvent down key).handle (handler conn)
  | .pointer buttons x y => (Connection.pointerEvent buttons x y).handle (handler conn)

def runAll (conn : ℕ) : List VncEvent → Action Unit
  | [] => pure ()
  | event :: events => do
    event.run conn
    runAll conn events

def rfbProcessEvents (conn : ℕ) : Action Unit := do
  let events ← act (.rfbProcessEvents conn)
  runAll conn events

def updateScreen (conn : ℕ) : Action Unit := do
  lock (.framebuffer conn)
  if (← act (.compare conn)) then rfbProcessEvents conn
  unlock (.framebuffer conn)

def body (conn : ℕ) : Loop → Thread
  | .connection l => asThread ((Connection.body l).handle (handler conn))
  | .server => do
    if !(← act (.isRunning conn)) then return .inr ()
    return .inl .serverIdle
  | .serverIdle => do
    let client ← act (.hasClient conn)
    let running ← if client then pure false else act (.isRunning conn)
    if running then
      rfbProcessEvents conn
      return .inl .serverIdle
    else
      rfbProcessEvents conn
      updateScreen conn
      return .inl .server
  | .item i => do
    match ← act (.listItem i) with
    | none =>
      unlock .list
      return .inr ()
    | some conn =>
      lock (.projectorIo conn)
      if (← act (.sameSession conn)) then
        act (.setStopReq conn)
        unlock (.projectorIo conn)
        unlock .list
        return .inr ()
      else
        unlock (.projectorIo conn)
        return .inl (.item (i + 1))

def stopSharing : Thread := do
  lock .list
  return .inl (.item 0)

/-! ## Interleavings -/

inductive Tid
  | connection (conn : ℕ)
  | server (conn : ℕ)
  | control (k : ℕ)
  deriving DecidableEq, Repr

/-- The connection a thread belongs to; a control connection goes round without one. -/
def Tid.conn : Tid → ℕ
  | connection conn => conn
  | server conn => conn
  | control _ => 0

structure System where
  owner : Mutex → Option Tid
  threads : Tid → Option Thread
  connections : List ℕ

def System.initial : System := ⟨fun _ => none, fun _ => none, []⟩

def System.spawn (s : System) (t : Tid) (p : Thread) : System :=
  { s with threads := Function.update s.threads t (some (p.resume (body t.conn))) }

def ended : Option Thread → Bool
  | some (.op _ _) => false
  | _ => true

/-- What an effect does to the shared state, if it can give this answer. A mutex is released
whoever holds it. -/
def System.shared (s : System) (t : Tid) : (e : Effect) → Response e → Option System
  | .lock m, _ => if s.owner m = none then some { s with owner := Function.update s.owner m (some t) } else none
  | .unlock m, _ => some { s with owner := Function.update s.owner m none }
  | .create conn, created => if created then some (s.spawn (.server conn) (.ret (.inl .server))) else some s
  | .join conn, _ => if ended (s.threads (.server conn)) then some s else none
  | .hasTranslator conn, r => if r = (s.threads (.server conn)).isSome then some s else none
  | .listAdd conn, _ => some { s with connections := conn :: s.connections }
  | .listRemove conn, _ => some { s with connections := s.connections.erase conn }
  | .listItem i, r => if r = s.connections[i]? then some s else none
  | _, _ => some s

inductive Step
  | accept (conn : ℕ) (v : Connection.Vars)
  | control (k : ℕ)
  | perform (t : Tid) (e : Effect) (r : Response e)

def System.step (s : System) : Step → Option System
  | .accept conn v =>
    if (s.threads (.connection conn)).isNone then some (s.spawn (.connection conn) (remoteConnectionThread conn v)) else none
  | .control k => if (s.threads (.control k)).isNone then some (s.spawn (.control k) stopSharing) else none
  | .perform t e r =>
    (s.threads t).bind (fun p => (p.feed e r).bind (fun q => (s.shared t e r).map (fun u => u.spawn t q)))

def awaited : Option Thread → Option (Mutex ⊕ Tid)
  | some (.op (.lock m) _) => some (.inl m)
  | some (.op (.join conn) _) => some (.inr (.server conn))
  | _ => none

def System.waitGraph (s : System) : WaitGraph Tid Mutex where
  owner := s.owner
  wants := fun t => awaited (s.threads t)
  running := fun t => ended (s.threads t) = false

end Threads
end LilitunRemote

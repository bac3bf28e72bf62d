import LilitunRemote.Foundation.Process
import LilitunRemote.Screen.Encoding
import LilitunRemote.Server.InputEvents

/-! # The threads around one projector connection

`remote_connection_thread` and the callers of `keyboard_event`, `pointer_event` and
`stop_sharing` as processes. They share `projector_io_mutex` and the input queue;
the channel belongs to the connection thread while it talks to the projector.
-/
namespace LilitunRemote
namespace Connection

inductive Effect
  | lock
  | unlock
  | overflowing
  | addInputEvent (data : UInt32)
  | oldButtons
  | setPointerOld (p : UpdatePointer)
  | sendQueued (i : ℕ)
  | resetQueue
  | stopRequested
  | requestStop
  | isNotExit
  | connectionUpgrade
  | sendUint32 (data : UInt32)
  | recvUint32
  | tcpReadAll (len : UInt32)
  | tcpWrite (data : Bytes)
  | regionsLeft (regions : UInt32) (first : Bool)
  | drawRegion (r : RegionData)
  | translatorInit
  | messageSend
  | close
  deriving DecidableEq

/-- The answers: `tcp_read_all` returns the bytes only if all of them came, and
`sendQueued i` tells whether there was a word at index `i` to send. -/
@[reducible] def Response : Effect → Type
  | .overflowing | .sendQueued _ | .stopRequested | .isNotExit | .connectionUpgrade => Bool
  | .sendUint32 _ | .tcpWrite _ | .drawRegion _ | .translatorInit | .messageSend => Bool
  | .oldButtons => UInt32
  | .recvUint32 => Option UInt32
  | .tcpReadAll _ => Option Bytes
  | _ => Unit

abbrev Action := Proc Effect Response

def act (e : Effect) : Action (Response e) := Proc.perform e

def lock : Action Unit := act .lock
def unlock : Action Unit := act .unlock
def addInputEvent (data : UInt32) : Action Unit := act (.addInputEvent data)
def sendUint32 (data : UInt32) : Action Bool := act (.sendUint32 data)
def recvUint32 : Action (Option UInt32) := act .recvUint32
def tcpReadAll (len : UInt32) : Action (Option Bytes) := act (.tcpReadAll len)

/-- The loop of `send_input_events`; the counter never passes the array, so 1025
tests are enough. -/
def sendLoop : ℕ → ℕ → Action Unit
  | 0, _ => pure ()
  | fuel + 1, i => do
    let more ← act (.sendQueued i)
    if more then sendLoop fuel (i + 1) else pure ()

def sendInputEvents : Action Unit := do
  sendLoop 1025 0
  act .resetQueue

/-! ## Callers -/

def flushOnOverflow : Action Unit := do
  let full ← act .overflowing
  if full then sendInputEvents else pure ()

def addAll : List UInt32 → Action Unit
  | [] => pure ()
  | w :: words => do
    addInputEvent w
    addAll words

def keyboardEvent (down : Int8) (key : UInt32) : Action Unit := do
  lock
  flushOnOverflow
  addAll (InputQueue.keyboardWords down key)
  unlock

def pointerEvent (buttons x y : Int32) : Action Unit := do
  lock
  flushOnOverflow
  let old ← act .oldButtons
  if old ≠ buttons.toUInt32 then
    addAll (InputQueue.pointerWords buttons x y)
    act (.setPointerOld ⟨buttons.toUInt32, x.toUInt32, y.toUInt32, 0⟩)
  unlock

def stopSharing : Action Unit := do
  lock
  act .requestStop
  unlock

inductive Call
  | keyboard (down : Int8) (key : UInt32)
  | pointer (buttons x y : Int32)
  | stop

def Call.run : Call → Action Unit
  | keyboard down key => keyboardEvent down key
  | pointer buttons x y => pointerEvent buttons x y
  | stop => stopSharing

/-! ## The connection thread -/

structure Vars where
  port : UInt32
  ipv6port : UInt32
  password : Bytes

def checkRemoteSig : Action Bool := do
  match ← tcpReadAll (UInt32.ofNat (remoteId.length + 1)) with
  | none => return false
  | some buf =>
    if buf.takeWhile (· ≠ 0) ≠ remoteId then return false
    act (.tcpWrite (serverId ++ [0]))

def doReqInitial (req : Req) : Action Bool := do
  if !(← sendUint32 req.code) then return false
  match ← recvUint32 with
  | none => return false
  | some tmp => return tmp = req.code

def doReqString (req : Req) : Action (Option Bytes) := do
  if !(← doReqInitial req) then return none
  match ← recvUint32 with
  | none => return none
  | some len => tcpReadAll len

def recvWords : ℕ → Action (Option (List UInt32))
  | 0 => pure (some [])
  | n + 1 => do
    match ← recvUint32 with
    | none => return none
    | some w =>
      match ← recvWords n with
      | none => return none
      | some ws => return some (w :: ws)

def doReqScreenInfo : Action Bool := do
  if !(← doReqInitial .screenInfo) then return false
  match ← recvWords 4 with
  | none => return false
  | some _ => return true

def doReqScreenUpdate : Action (Option UInt32) := do
  if !(← doReqInitial .screenUpdate) then return none
  recvUint32

def doReqScreenUpdateRegion : Action (Option RegionData) := do
  match ← recvWords 6 with
  | some [x, y, width, height, pixfmt, length] => return some ⟨x, y, width, height, pixfmt, length, []⟩
  | _ => return none

def sendUserConnection (v : Vars) : Action Bool := do
  if !(← sendUint32 Req.userConnection.code) then return false
  if !(← sendUint32 v.port) then return false
  sendUint32 v.ipv6port

def sendUserPassword (v : Vars) : Action Bool := do
  if !(← sendUint32 Req.userPassword.code) then return false
  if !(← sendUint32 (UInt32.ofNat v.password.length)) then return false
  act (.tcpWrite v.password)

/-- The questions asked under the mutex before the loop: `thread_alive` afterwards. -/
def introduce (v : Vars) : Action Bool := do
  match ← doReqString .appserverHost with
  | none => return false
  | some _ =>
    match ← doReqString .sessionId with
    | none => return false
    | some _ =>
      match ← doReqString .hostname with
      | none => return false
      | some _ =>
        if !(← sendUserConnection v) then return false
        if !(← sendUserPassword v) then return false
        if !(← act .translatorInit) then return false
        act .messageSend

/-- The loop states: the update loop with `thread_alive` set, and the region loop
with the value of `regions` before its test. -/
inductive Loop
  | update
  | regions (regions : UInt32) (first : Bool)

abbrev Thread := Action (Loop ⊕ Unit)

def finish : Thread := do
  act .close
  return Sum.inr ()

/-- A failed read inside the update loop: `thread_alive` is cleared, the mutex
released and the loop left. -/
def giveUp : Thread := do
  unlock
  finish

def regionRound (regions : UInt32) : Thread := do
  match ← doReqScreenUpdateRegion with
  | none => giveUp
  | some r =>
    if r.length = 0 then
      unlock
      return Sum.inl (.regions (regions - 1) false)
    else
      match ← tcpReadAll r.length with
      | none => giveUp
      | some pixdata =>
        unlock
        let drawn ← act (.drawRegion { r with data := pixdata })
        if !drawn then finish
        else return Sum.inl (.regions (regions - 1) false)

def body : Loop → Thread
  | .update => do
    if !(← act .isNotExit) then
      finish
    else
      lock
      let stop ← act .stopRequested
      if stop then
        let _ ← sendUint32 Req.stop.code
        giveUp
      else
        sendInputEvents
        match ← doReqScreenUpdate with
        | none => giveUp
        | some regions =>
          if regions = 0 then unlock
          return Sum.inl (.regions regions true)
  | .regions regions first => do
    act (.regionsLeft regions first)
    if regions = 0 then return Sum.inl .update
    else regionRound regions

def remoteConnectionThread (v : Vars) : Thread := do
  if !(← act .connectionUpgrade) then
    return Sum.inr ()
  else if !(← checkRemoteSig) then
    finish
  else if !(← doReqScreenInfo) then
    finish
  else
    lock
    let alive ← introduce v
    unlock
    if alive then return Sum.inl .update else finish

/-! ## Talking to the projector -/

def Effect.Talks : Effect → Prop
  | .sendUint32 _ | .recvUint32 | .tcpReadAll _ | .tcpWrite _ => True
  | _ => False

section Talks

theorem uses_sendUint32 (data : UInt32) : (sendUint32 data).Uses Effect.Talks := ⟨trivial, fun _ => trivial⟩
theorem uses_recvUint32 : recvUint32.Uses Effect.Talks := ⟨trivial, fun _ => trivial⟩
theorem uses_tcpReadAll (len : UInt32) : (tcpReadAll len).Uses Effect.Talks := ⟨trivial, fun _ => trivial⟩
theorem uses_tcpWrite (data : Bytes) : (act (.tcpWrite data)).Uses Effect.Talks := ⟨trivial, fun _ => trivial⟩

theorem uses_doReqInitial (req : Req) : (doReqInitial req).Uses Effect.Talks := by
  apply (uses_sendUint32 _).bind
  intro sent
  split
  · exact Proc.uses_ret _ _
  · apply uses_recvUint32.bind
    intro tmp
    cases tmp <;> exact Proc.uses_ret _ _

theorem uses_doReqString (req : Req) : (doReqString req).Uses Effect.Talks := by
  apply (uses_doReqInitial req).bind
  intro ok
  split
  · exact Proc.uses_ret _ _
  · apply uses_recvUint32.bind
    intro len
    cases len with
    | none => exact Proc.uses_ret _ _
    | some len => exact uses_tcpReadAll len

theorem uses_recvWords (n : ℕ) : (recvWords n).Uses Effect.Talks := by
  induction n with
  | zero => exact Proc.uses_ret _ _
  | succ n ih =>
    apply uses_recvUint32.bind
    intro w
    cases w with
    | none => exact Proc.uses_ret _ _
    | some w =>
      apply ih.bind
      intro ws
      cases ws <;> exact Proc.uses_ret _ _

theorem uses_doReqScreenInfo : doReqScreenInfo.Uses Effect.Talks := by
  apply (uses_doReqInitial _).bind
  intro ok
  split
  · exact Proc.uses_ret _ _
  · apply (uses_recvWords 4).bind
    intro ws
    cases ws <;> exact Proc.uses_ret _ _

theorem uses_doReqScreenUpdate : doReqScreenUpdate.Uses Effect.Talks := by
  apply (uses_doReqInitial _).bind
  intro ok
  split
  · exact Proc.uses_ret _ _
  · exact uses_recvUint32

theorem uses_doReqScreenUpdateRegion : doReqScreenUpdateRegion.Uses Effect.Talks := by
  apply (uses_recvWords 6).bind
  intro ws
  split <;> exact Proc.uses_ret _ _

theorem uses_checkRemoteSig : checkRemoteSig.Uses Effect.Talks := by
  apply (uses_tcpReadAll _).bind
  intro buf
  cases buf with
  | none => exact Proc.uses_ret _ _
  | some buf =>
    dsimp only
    split
    · exact Proc.uses_ret _ _
    · exact uses_tcpWrite _

theorem uses_sendUserConnection (v : Vars) : (sendUserConnection v).Uses Effect.Talks := by
  apply (uses_sendUint32 _).bind
  intro ok
  split
  · exact Proc.uses_ret _ _
  · apply (uses_sendUint32 _).bind
    intro ok
    split
    · exact Proc.uses_ret _ _
    · exact uses_sendUint32 _

theorem uses_sendUserPassword (v : Vars) : (sendUserPassword v).Uses Effect.Talks := by
  apply (uses_sendUint32 _).bind
  intro ok
  split
  · exact Proc.uses_ret _ _
  · apply (uses_sendUint32 _).bind
    intro ok
    split
    · exact Proc.uses_ret _ _
    · exact uses_tcpWrite _

end Talks

end Connection
end LilitunRemote

import LilitunRemote.Foundation.Process
import LilitunRemote.Protocol.StringRead
import LilitunRemote.Screen.Encoding

/-! # The projector's threads

`projector_thread` and `http_thread` as processes. Every `tcp_read`, `tcp_write`
and `tcp_close` goes through the shared `projector->channel`, so each of them is an
effect of its own, and so is the dispatch of a request. The unbounded loops, the
request loop and the read of a user password of any length, are loop states.
-/
namespace LilitunRemote
namespace Projector
open Memory

/-- The parts of the answers to requests. An update names the number of its regions
first, and a part of a region how many regions come after it (`region_count`). -/
inductive Answer
  | screenInfo
  | stringHeader (req : Req)
  | stringText (req : Req)
  | screenUpdate (regions : ℕ)
  | regionHeader (left : ℕ)
  | regionData (left : ℕ)
  deriving DecidableEq, Repr

/-- What a `tcp_write` carries: the two parts of the reply to the signature, the
status word of an authorization, or a part of the answer to a request. -/
inductive WriteKind
  | signatureLength
  | signature
  | authorizationStatus (accepted : Bool)
  | answer (part : Answer)
  deriving DecidableEq, Repr

def WriteKind.isAnswer : WriteKind → Bool
  | answer _ => true
  | _ => false

inductive Effect
  | isStarted
  | tcpRead (len : ℕ)
  | tcpWrite (kind : WriteKind) (data : Bytes)
  | tcpClose
  | dispatch (req : UInt32)
  | grabScreen
  | keyboardEvent (down key : UInt32)
  | mouseEvent (buttons x y : UInt32)
  | userPassword (password : Bytes)
  | userConnection (port ipv6port : UInt32)
  | setStatus (status : Status)
  | stop
  | connectionUpgrade
  | answerHttp
  | setConnected (connected : Bool)
  | assignChannel
  deriving DecidableEq, Repr

/-- The answers: a read returns the bytes it got, a write whether all bytes went
out, a grab the regions `update_screen` found if it was called at all. -/
@[reducible] def Response : Effect → Type
  | .isStarted => Bool
  | .tcpRead _ => Bytes
  | .tcpWrite _ _ => Bool
  | .grabScreen => Option (List RegionData)
  | .connectionUpgrade => Bool
  | _ => Unit

abbrev Action := Proc Effect Response

def act (e : Effect) : Action (Response e) := Proc.perform e

def isStarted : Action Bool := act .isStarted
def tcpRead (len : ℕ) : Action Bytes := act (.tcpRead len)
def tcpWriteAll (kind : WriteKind) (data : Bytes) : Action Bool := act (.tcpWrite kind data)
def grabScreen : Action (Option (List RegionData)) := act .grabScreen
def connectionUpgrade : Action Bool := act .connectionUpgrade
def setStatus (status : Status) : Action Unit := act (.setStatus status)

/-- The loop of `tcp_read_all` for a length that is not negative: each round reads
at least one byte, so `len` rounds are enough. -/
def readLoop (len : ℕ) : ℕ → Bytes → Action Bytes
  | 0, buf => pure buf
  | fuel + 1, buf =>
    if buf.length = len then pure buf
    else do
      let got ← tcpRead (len - buf.length)
      if got.length ≤ 0 then pure buf else readLoop len fuel (buf ++ got)

def tcpReadAll (len : ℕ) : Action Bytes := readLoop len len []

def sendUint32 (kind : WriteKind) (data : UInt32) : Action Bool := tcpWriteAll kind (htonl data)

def recvUint32 : Action (Option UInt32) := do
  let tmp ← tcpReadAll 4
  if tmp.length ≠ 4 then return none
  return some (ntohl tmp)

def cString (buf : Bytes) : Bytes := buf.takeWhile (· ≠ 0)

/-- `strcmp` and `strncmp` as tests for equality. -/
def strcmp (a b : Bytes) : Bool := cString a = cString b
def strncmp (a b : Bytes) (n : ℕ) : Bool := (cString a).take n = (cString b).take n

def checkRemoteSig (server : Bool) : Action Bool := do
  if server then
    match ← recvUint32 with
    | none => return false
    | some word =>
      let buf ← tcpReadAll (min word.toNat 256)
      if buf.length = min word.toNat 256 && strncmp buf clientId (min word.toNat 256) then
        if !(← sendUint32 .signatureLength (UInt32.ofNat remoteId.length)) then return false
        if !(← tcpWriteAll .signature remoteId) then return false
        return true
      else
        return false
  else
    if !(← tcpWriteAll .signature (remoteId ++ [0])) then return false
    let buf ← tcpReadAll (serverId.length + 1)
    return buf.length = serverId.length + 1 && strcmp buf serverId

/-- The configuration a thread reads: `projector_thread_vars` and the fields of the
projector that do not change. -/
structure Vars where
  /-- `connect_type` is `TCP_SERVER` or `TCP_SSL_SERVER`. -/
  server : Bool
  /-- `connect_method` is `CONNECTION_METHOD_WS`. -/
  ws : Bool
  screen : Geometry
  apphost : Bytes
  sessionId : Bytes
  hostname : Bytes

section Requests
variable (v : Vars)

def regionHeaderBytes (r : RegionData) : Bytes :=
  htonl r.x ++ htonl r.y ++ htonl r.width ++ htonl r.height ++ htonl r.pixfmt ++ htonl r.length

def screenRegionsBytes (regions : ℕ) : Bytes := htonl Req.screenUpdate.code ++ htonl (UInt32.ofNat regions)

def screenInfoBytes : Bytes :=
  htonl Req.screenInfo.code ++ htonl (UInt32.ofNat v.screen.scrWidth) ++ htonl (UInt32.ofNat v.screen.scrHeight) ++
    htonl 32 ++ htonl 0

def stringHeaderBytes (req : Req) (text : Bytes) : Bytes := htonl req.code ++ htonl (UInt32.ofNat text.length)

def sendScreenUpdateHeader (left : ℕ) (r : RegionData) : Action Bool :=
  tcpWriteAll (.answer (.regionHeader left)) (regionHeaderBytes r)

/-- The sending half of `update_screen`; failed region writes are only logged. -/
def sendRegions : List RegionData → Action Unit
  | [] => pure ()
  | r :: regions => do
    let _ ← sendScreenUpdateHeader regions.length r
    let _ ← tcpWriteAll (.answer (.regionData regions.length)) r.data
    sendRegions regions

def updateScreenSend (regions : List RegionData) : Action Unit := do
  if !(← tcpWriteAll (.answer (.screenUpdate regions.length)) (screenRegionsBytes regions.length)) then return ()
  sendRegions regions

def sendReqScreenInfo : Action Bool := tcpWriteAll (.answer .screenInfo) (screenInfoBytes v)

/-- `send_req_screen_update` succeeds whatever the grab and the writes do. -/
def sendReqScreenUpdate : Action Bool := do
  match ← grabScreen with
  | none => return true
  | some regions =>
    updateScreenSend regions
    return true

def sendString (req : Req) (text : Bytes) : Action Bool := do
  if !(← tcpWriteAll (.answer (.stringHeader req)) (stringHeaderBytes req text)) then return false
  tcpWriteAll (.answer (.stringText req)) text

def sendReqAppserverHost : Action Bool := sendString .appserverHost v.apphost
def sendReqSessionId : Action Bool := sendString .sessionId v.sessionId
def sendReqHostname : Action Bool := sendString .hostname v.hostname

def recvAuthorization : Action (Option Bytes) := do
  match ← recvUint32 with
  | none => return none
  | some word =>
    let buf ← tcpReadAll (min word.toNat 255)
    if buf.length ≠ min word.toNat 255 then return none
    return some buf

def recvUserConnection : Action Bool := do
  match ← recvUint32 with
  | none => return false
  | some port =>
    match ← recvUint32 with
    | none => return false
    | some ipv6port =>
      act (.userConnection port ipv6port)
      return true

def recvKeyboard : Action Bool := do
  match ← recvUint32 with
  | none => return false
  | some down =>
    match ← recvUint32 with
    | none => return false
    | some key =>
      act (.keyboardEvent down key)
      return true

def recvPointer : Action Bool := do
  match ← recvUint32 with
  | none => return false
  | some buttons =>
    match ← recvUint32 with
    | none => return false
    | some x =>
      match ← recvUint32 with
      | none => return false
      | some y =>
        match ← recvUint32 with
        | none => return false
        | some _ =>
          act (.mouseEvent buttons x y)
          return true

end Requests

/-- The loop states of a thread: the head of the request loop, and the read of a
user password with its length and running total. -/
inductive Loop
  | serve (authorized : Bool)
  | password (authorized : Bool) (len total : ℤ) (buf : Bytes)

abbrev Thread := Action (Loop ⊕ Unit)

def finish (v : Vars) : Thread := do
  act .tcpClose
  if v.server then act (.setConnected false)
  return Sum.inr ()

def leave (v : Vars) (status : Status) : Thread := do
  setStatus status
  finish v

def proceed (v : Vars) (authorized : Bool) (request : Action Bool) : Thread := do
  if ← request then return Sum.inl (.serve authorized)
  leave v .connectionError

def dispatchRequest (v : Vars) (authorized : Bool) (req : UInt32) : Thread := do
  if !authorized && req ≠ Req.authorization.code then
    leave v .notAuthorized
  else
    act (.dispatch req)
    match Req.ofCode req with
    | some .authorization =>
      match ← recvAuthorization with
      | none => leave v .connectionError
      | some clientSessionId =>
        if !strcmp v.sessionId clientSessionId then
          setStatus .notAuthorized
          let _ ← sendUint32 (.authorizationStatus false) 1
          finish v
        else
          let sent ← sendUint32 (.authorizationStatus true) 0
          if !sent then leave v .connectionError
          else return Sum.inl (.serve true)
    | some .screenInfo => proceed v authorized (sendReqScreenInfo v)
    | some .appserverHost => proceed v authorized (sendReqAppserverHost v)
    | some .sessionId => proceed v authorized (sendReqSessionId v)
    | some .hostname => proceed v authorized (sendReqHostname v)
    | some .screenUpdate => proceed v authorized sendReqScreenUpdate
    | some .userPassword =>
      match ← recvUint32 with
      | none => leave v .connectionError
      | some length => return Sum.inl (.password authorized (asInt length) 0 [])
    | some .userConnection => proceed v authorized recvUserConnection
    | some .keyboard => proceed v authorized recvKeyboard
    | some .pointer => proceed v authorized recvPointer
    | some .stop => finish v
    | some .error | none =>
      setStatus .unsupportedRequest
      return Sum.inl (.serve authorized)

def body (v : Vars) : Loop → Thread
  | .serve authorized => do
    if !(← isStarted) then
      finish v
    else
      match ← recvUint32 with
      | none => leave v .connectionError
      | some req => dispatchRequest v authorized req
  | .password authorized len total buf =>
    if total = len then do
      act (.userPassword buf)
      return Sum.inl (.serve authorized)
    else do
      let got ← tcpRead (sizeT (wrapInt (len - total)))
      if got.length ≤ 0 then leave v .connectionError
      else return Sum.inl (.password authorized len (wrapInt (total + got.length)) (buf ++ got))

theorem body_ne_inl (v : Vars) (c d : Loop) : body v c ≠ .ret (Sum.inl d) := by
  intro h
  cases c with
  | serve a => cases h
  | password a len total buf =>
    simp only [body] at h
    split at h <;> cases h

def projectorThread (v : Vars) : Thread := do
  if ← checkRemoteSig v.server then
    return Sum.inl (.serve (!v.server))
  else
    setStatus .versionError
    act .stop
    finish v

/-- `http_thread`: a client that does not upgrade gets a page and no session. -/
def httpThread (v : Vars) : Thread := do
  let upgraded ← if v.ws then connectionUpgrade else pure true
  if !upgraded then
    act .answerHttp
    return Sum.inr ()
  else
    act (.setConnected true)
    act .assignChannel
    projectorThread v

end Projector
end LilitunRemote

import LilitunRemote.Foundation.Memory
import LilitunRemote.Protocol.Wire

/-! # The browser's client

`start_client` of `lilitun-remote-client.js` as a state machine over the events of its
socket, its timers and its input devices. A handler runs to its end before the next one,
and its calls of `socket.send` are what it returns. Numbers that `htonl` makes words of
are words here, and what is drawn is only recorded.
-/
namespace LilitunRemote
namespace Browser

inductive Request
  | code (req : Req)
  | signature
  deriving DecidableEq, Repr

def Request.word : Request → UInt32
  | code req => req.code
  | signature => 128

inductive State
  | readUint32 | readData | readAck | readRegionHeader | readRegionData
  deriving DecidableEq, Repr

structure ScreenInfo where
  width : ℤ
  height : ℤ
  depth : ℤ
  pixelformat : ℤ
  deriving DecidableEq, Repr

structure RegionHeader where
  x : ℤ
  y : ℤ
  width : ℤ
  height : ℤ
  depth : ℤ
  size : ℤ
  deriving DecidableEq, Repr

/-- The variables of `start_client`; `timeouts` counts the timers that have not fired, and
`drawn` the regions handed to the canvas. -/
structure Client where
  request : Request
  state : State
  dataLen : ℤ
  regions : ℤ
  screenInfo : ScreenInfo
  regionHeader : RegionHeader
  remoteHost : Bytes
  inputEvents : List InputEvent
  inputDevices : Bool
  timeouts : ℕ
  drawn : List (RegionHeader × Bytes)
  deriving DecidableEq, Repr

def Client.start : Client :=
  ⟨.code .error, .readUint32, 0, 0, ⟨0, 0, 0, 0⟩, ⟨0, 0, 0, 0, 0, 0⟩, asciiBytes "Unknown", [], false, 0, []⟩

/-! ## Sending -/

inductive Send
  | string (text : Bytes)
  | password (text : Bytes)
  | request (request : Request)
  | inputEvent (event : InputEvent)
  deriving DecidableEq, Repr

def Send.frames : Send → List Bytes
  | string text => [htonl (UInt32.ofNat text.length), text]
  | password text => [htonl Req.authorization.code ++ htonl (UInt32.ofNat text.length), text]
  | request r => [htonl r.word]
  | inputEvent event => [event.bytes]

/-! ## Handlers -/

/-- `ntohl` of four bytes from `offset` on: a signed number, in which a missing byte
counts as 0. -/
def ntohlAt (data : Bytes) (offset : ℕ) : ℤ :=
  Memory.wrapInt ((data.getD offset 0).toNat * 2 ^ 24 + (data.getD (offset + 1) 0).toNat * 2 ^ 16 +
    (data.getD (offset + 2) 0).toNat * 2 ^ 8 + (data.getD (offset + 3) 0).toNat)

namespace Client

def onopen (b : Client) : Client × List Send :=
  ({ b with state := .readUint32, request := .signature }, [.string clientId])

/-- The end of an update: the queued input events are sent, and the next request is put
off for 50 ms. -/
def completeUpdate (b : Client) : Client × List Send :=
  ({ b with inputEvents := [], request := .code .screenUpdate, state := .readAck, timeouts := b.timeouts + 1 },
    b.inputEvents.map .inputEvent)

def ask (b : Client) (req : Req) : Client × List Send :=
  ({ b with request := .code req, state := .readAck }, [.request (.code req)])

/-- `socket.onmessage`. The length of the host's name is read from a number and is
always 0; without that number the handler throws. -/
def onmessage (password : Bytes) (b : Client) (data : Bytes) : Client × List Send :=
  match b.request, b.state with
  | .signature, .readUint32 => ({ b with dataLen := ntohlAt data 0, state := .readData }, [])
  | .signature, .readData =>
    if data.length ≠ b.dataLen then (b, [])
    else ({ b with request := .code .authorization, state := .readAck }, [.password password])
  | .code .authorization, .readAck => b.ask .screenInfo
  | .code .screenInfo, .readAck =>
    { b with screenInfo := ⟨ntohlAt data 4, ntohlAt data 8, ntohlAt data 12, ntohlAt data 16⟩ }.ask .hostname
  | .code .hostname, .readAck => if data.length ≤ 4 then (b, []) else ({ b with dataLen := 0, state := .readData }, [])
  | .code .hostname, .readData => { b with remoteHost := data, inputDevices := true }.ask .screenUpdate
  | .code .screenUpdate, .readAck =>
    let b : Client := { b with regions := ntohlAt data 4, state := .readRegionHeader }
    if b.regions = 0 then b.completeUpdate else (b, [])
  | .code .screenUpdate, .readRegionHeader =>
    let b : Client := { b with
      regions := b.regions - 1,
      regionHeader := ⟨ntohlAt data 0, ntohlAt data 4, ntohlAt data 8, ntohlAt data 12, ntohlAt data 16, ntohlAt data 20⟩ }
    if b.regionHeader.size > 0 then ({ b with state := .readRegionData }, [])
    else if b.regions = 0 then b.completeUpdate
    else (b, [])
  | .code .screenUpdate, .readRegionData =>
    let b : Client := { b with drawn := b.drawn ++ [(b.regionHeader, data)] }
    if b.regions > 0 then ({ b with state := .readRegionHeader }, []) else b.completeUpdate
  | _, _ => (b, [])

/-- The callback of the timer sends the `request` of the moment it fires. -/
def ontimeout (b : Client) : Option (Client × List Send) :=
  if b.timeouts = 0 then none else some ({ b with timeouts := b.timeouts - 1 }, [.request b.request])

/-- The handlers of the input devices, between `start_input_devices` and
`stop_input_devices`. -/
def oninput (b : Client) (events : List InputEvent) : Client :=
  if b.inputDevices then { b with inputEvents := b.inputEvents ++ events } else b

def onclose (b : Client) : Client := { b with inputDevices := false }

end Client

theorem ntohlAt_htonl (before : Bytes) (w : UInt32) (after : Bytes) :
    ntohlAt (before ++ (htonl w ++ after)) before.length = Memory.asInt w := by
  have hget : ∀ k, (before ++ (htonl w ++ after)).getD (before.length + k) 0 = (htonl w ++ after).getD k 0 := by
    intro k
    rw [List.getD_eq_getElem?_getD, List.getD_eq_getElem?_getD, List.getElem?_append_right (Nat.le_add_right _ _),
      Nat.add_sub_cancel_left]
  have hw := w.toNat_lt
  unfold ntohlAt Memory.asInt
  rw [hget 1, hget 2, hget 3]
  have hget0 := hget 0
  rw [Nat.add_zero] at hget0
  rw [hget0]
  simp only [htonl, List.cons_append, List.getD_cons_zero, List.getD_cons_succ, UInt8.toNat_ofNat']
  congr 1
  omega

end Browser
end LilitunRemote

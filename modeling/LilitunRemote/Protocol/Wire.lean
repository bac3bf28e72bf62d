import Mathlib.Data.List.Basic
import Mathlib.Tactic.Ring

/-! # Words, request codes and identifiers of the wire protocol

The constants of `Common/protos.h` and the byte order of `htonl` and `ntohl`.
-/
namespace LilitunRemote

abbrev Bytes := List UInt8

def htonl (w : UInt32) : Bytes :=
  [UInt8.ofNat (w.toNat / 2 ^ 24), UInt8.ofNat (w.toNat / 2 ^ 16), UInt8.ofNat (w.toNat / 2 ^ 8),
    UInt8.ofNat w.toNat]

/-- The word four received bytes stand for; the callers never pass another length. -/
def ntohl : Bytes → UInt32
  | [a, b, c, d] => UInt32.ofNat (a.toNat * 2 ^ 24 + b.toNat * 2 ^ 16 + c.toNat * 2 ^ 8 + d.toNat)
  | _ => 0

@[simp] theorem htonl_length (w : UInt32) : (htonl w).length = 4 := rfl

theorem htonl_ne_nil (w : UInt32) : htonl w ≠ [] := by simp [htonl]

@[simp] theorem ntohl_htonl (w : UInt32) : ntohl (htonl w) = w := by
  apply UInt32.toNat_inj.mp
  have hw := w.toNat_lt
  simp only [htonl, ntohl, UInt8.toNat_ofNat', UInt32.toNat_ofNat']
  omega

theorem htonl_ntohl {bytes : Bytes} (h : bytes.length = 4) : htonl (ntohl bytes) = bytes := by
  match bytes, h with
  | [a, b, c, d], _ =>
    have ha := a.toNat_lt
    have hb := b.toNat_lt
    have hc := c.toNat_lt
    have hd := d.toNat_lt
    simp only [htonl, ntohl, UInt32.toNat_ofNat', List.cons.injEq, ← UInt8.toNat_inj, UInt8.toNat_ofNat', and_true]
    omega

/-- Request codes, in the order of the enumeration of `protos.h`. -/
inductive Req
  | error | screenInfo | screenUpdate | keyboard | pointer | userConnection | userPassword
  | appserverHost | sessionId | hostname | authorization | stop
  deriving DecidableEq, Repr

namespace Req

def code : Req → UInt32
  | error => 0
  | screenInfo => 1
  | screenUpdate => 2
  | keyboard => 3
  | pointer => 4
  | userConnection => 5
  | userPassword => 6
  | appserverHost => 7
  | sessionId => 8
  | hostname => 9
  | authorization => 10
  | stop => 11

def ofCode (w : UInt32) : Option Req :=
  [error, screenInfo, screenUpdate, keyboard, pointer, userConnection, userPassword, appserverHost,
    sessionId, hostname, authorization, stop].find? (fun q => q.code == w)

@[simp] theorem ofCode_code (q : Req) : ofCode q.code = some q := by
  cases q <;> rfl

end Req

inductive Pix
  | rawRgba | rawBgra | jpegRgba | jpegBgra | lz4Rgba | lz4Bgra
  deriving DecidableEq, Repr

namespace Pix

def code : Pix → UInt32
  | rawRgba => 0
  | rawBgra => 1
  | jpegRgba => 2
  | jpegBgra => 3
  | lz4Rgba => 4
  | lz4Bgra => 5

def ofCode (w : UInt32) : Option Pix :=
  [rawRgba, rawBgra, jpegRgba, jpegBgra, lz4Rgba, lz4Bgra].find? (fun q => q.code == w)

@[simp] theorem ofCode_code (q : Pix) : ofCode q.code = some q := by
  cases q <;> rfl

end Pix

def asciiBytes (s : String) : Bytes := s.toList.map (fun c => UInt8.ofNat c.toNat)

/-- A literal is the text of its characters, so its bytes are known without decoding it. -/
theorem asciiBytes_ofList (l : List Char) : asciiBytes (String.ofList l) = l.map fun c => UInt8.ofNat c.toNat := by
  rw [asciiBytes, String.toList_ofList]

def remoteId : Bytes := asciiBytes "Remote access application 1.0   "
def serverId : Bytes := asciiBytes "Remote sharing server 1.0       "
def clientId : Bytes := asciiBytes "Remote client application 1.0   "

/-- The words of a record in the order they are sent. -/
def wordBytes (words : List UInt32) : Bytes := words.flatMap htonl

@[simp] theorem wordBytes_nil : wordBytes [] = [] := rfl
@[simp] theorem wordBytes_cons (w : UInt32) (words : List UInt32) : wordBytes (w :: words) = htonl w ++ wordBytes words := rfl

theorem wordBytes_flatMap {α : Type*} (f : α → List UInt32) (xs : List α) :
    wordBytes (xs.flatMap f) = xs.flatMap (fun x => wordBytes (f x)) := List.flatMap_assoc

inductive InputEvent
  | keyboard (down key : UInt32)
  | pointer (buttons x y wheel : UInt32)
  deriving DecidableEq, Repr

namespace InputEvent

def req : InputEvent → Req
  | keyboard _ _ => .keyboard
  | pointer _ _ _ _ => .pointer

/-- The words of `req_keyboard` and `req_update_pointer` after the request code. -/
def payload : InputEvent → List UInt32
  | keyboard down key => [down, key]
  | pointer buttons x y wheel => [buttons, x, y, wheel]

def words (e : InputEvent) : List UInt32 := e.req.code :: e.payload

def bytes (e : InputEvent) : Bytes := wordBytes e.words

def isKeyboard : InputEvent → Bool
  | keyboard _ _ => true
  | pointer _ _ _ _ => false

end InputEvent

inductive Status
  | ok | versionError | connectionRejected | connectionError | unsupportedRequest | urlParseError
  | urlSchemeUnknown | urlPortError | notAuthorized
  deriving DecidableEq, Repr

end LilitunRemote

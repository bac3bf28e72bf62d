import LilitunRemote.Browser.Client
import LilitunRemote.Projector.Dialogue

/-! # The answers of a projector as the browser takes them

`socket.onmessage` on the messages of an answer. The messages of the projector carry the
call that wrote them, so that it can be said in which state of the browser each of them is
meant to arrive.
-/
namespace LilitunRemote
namespace BrowserSession
open Projector Browser
open Memory (asInt)

def Meant : WriteKind → Request → State → ℤ → Prop
  | .signatureLength, request, state, _ => request = .signature ∧ state = .readUint32
  | .signature, request, state, _ => request = .signature ∧ state = .readData
  | .authorizationStatus _, request, state, _ => request = .code .authorization ∧ state = .readAck
  | .answer .screenInfo, request, state, _ => request = .code .screenInfo ∧ state = .readAck
  | .answer (.stringHeader req), request, state, _ => req = .hostname ∧ request = .code .hostname ∧ state = .readAck
  | .answer (.stringText req), request, state, _ => req = .hostname ∧ request = .code .hostname ∧ state = .readData
  | .answer (.screenUpdate _), request, state, _ => request = .code .screenUpdate ∧ state = .readAck
  | .answer (.regionHeader left), request, state, regions =>
    request = .code .screenUpdate ∧ state = .readRegionHeader ∧ regions = left + 1
  | .answer (.regionData left), request, state, regions =>
    request = .code .screenUpdate ∧ state = .readRegionData ∧ regions = left

def completes : WriteKind → Bool
  | .answer (.screenUpdate 0) | .answer (.regionData 0) => true
  | _ => false

def toSend : Record → Send
  | .hello => .string clientId
  | .password text => .password text
  | .request req => .request (.code req)
  | .input event => .inputEvent event

/-! ## Expected answers -/

/-- The record that asks for an exchange, and the variables of the browser that waits for
the first message of the answer. -/
def question (v : Vars) : Exchange → Record
  | .signature => .hello
  | .authorization => .password v.sessionId
  | .screenInfo => .request .screenInfo
  | .hostname => .request .hostname
  | .screenUpdate => .request .screenUpdate

def requestOf : Exchange → Request
  | .signature => .signature
  | .authorization => .code .authorization
  | .screenInfo => .code .screenInfo
  | .hostname => .code .hostname
  | .screenUpdate => .code .screenUpdate

def firstState : Exchange → State
  | .signature => .readUint32
  | _ => .readAck

def At (x : Exchange) (b : Client) : Prop := b.request = requestOf x ∧ b.state = firstState x

def Answers (v : Vars) : Exchange → List Message → Prop
  | .authorization, ms => ms = reply v .authorization ∨ ms = [(.authorizationStatus false, htonl 1)]
  | .screenUpdate, ms => ∃ regions, Sendable regions ∧ ms = updateMessages regions
  | x, ms => ms = reply v x

/-- The rest of an answer, and the variables of the browser that waits for it. -/
inductive Expects (v : Vars) (b : Client) : Exchange → List Message → Prop
  | first {x : Exchange} {ms : List Message} (hat : At x b) (h : Answers v x ms) : Expects v b x ms
  | signature (hrequest : b.request = .signature) (hstate : b.state = .readData) (hlen : b.dataLen = remoteId.length) :
    Expects v b .signature [(.signature, remoteId)]
  | hostname (hrequest : b.request = .code .hostname) (hstate : b.state = .readData) :
    Expects v b .hostname [(.answer (.stringText .hostname), v.hostname)]
  | header {r : RegionData} {regions : List RegionData} (hrequest : b.request = .code .screenUpdate)
    (hstate : b.state = .readRegionHeader) (hregions : b.regions = regions.length + 1) (h : Sendable (r :: regions)) :
    Expects v b .screenUpdate (regionMessages (r :: regions))
  | data {r : RegionData} {regions : List RegionData} (hrequest : b.request = .code .screenUpdate)
    (hstate : b.state = .readRegionData) (hregions : b.regions = regions.length) (h : Sendable regions) :
    Expects v b .screenUpdate ((.answer (.regionData regions.length), r.data) :: regionMessages regions)

/-- What a message of an expected answer comes to: the rest of the answer is expected, the
next exchange is begun, or the update is complete. -/
inductive Outcome (v : Vars) (b : Client) (x : Exchange) (ms : List Message) (out : Client × List Send) : Prop
  | more (hms : ms ≠ []) (hsends : out.2 = []) (hexpects : Expects v out.1 x ms)
    (hevents : out.1.inputEvents = b.inputEvents) (htimeouts : out.1.timeouts = b.timeouts) : Outcome v b x ms out
  | next (hms : ms = []) (hx : x ≠ .screenUpdate) (hsends : out.2 = [toSend (question v x.next)]) (hat : At x.next out.1)
    (hevents : out.1.inputEvents = b.inputEvents) (htimeouts : out.1.timeouts = b.timeouts) : Outcome v b x ms out
  | complete (hms : ms = []) (hx : x = .screenUpdate) (hsends : out.2 = b.inputEvents.map .inputEvent)
    (hat : At .screenUpdate out.1) (hevents : out.1.inputEvents = []) (htimeouts : out.1.timeouts = b.timeouts + 1) :
    Outcome v b x ms out

section Browser
variable {v : Vars} {b : Client} {x : Exchange} {m : Message} {ms : List Message}

theorem Expects.congr {b' : Client} (h : Expects v b x ms) (hrequest : b'.request = b.request) (hstate : b'.state = b.state)
    (hdataLen : b'.dataLen = b.dataLen) (hregions : b'.regions = b.regions) : Expects v b' x ms := by
  cases h with
  | first hat h => exact .first ⟨hrequest.trans hat.1, hstate.trans hat.2⟩ h
  | signature hr hs hl => exact .signature (hrequest.trans hr) (hstate.trans hs) (hdataLen.trans hl)
  | hostname hr hs => exact .hostname (hrequest.trans hr) (hstate.trans hs)
  | header hr hs hn h => exact .header (hrequest.trans hr) (hstate.trans hs) (hregions.trans hn) h
  | data hr hs hn h => exact .data (hrequest.trans hr) (hstate.trans hs) (hregions.trans hn) h

/-- Every message of an expected answer is met in the state that is meant for it. -/
theorem Expects.meant (h : Expects v b x (m :: ms)) : Meant m.1 b.request b.state b.regions := by
  cases h with
  | first hat h =>
    cases x with
    | signature | screenInfo =>
      cases h
      exact hat
    | authorization =>
      rcases h with h | h
      · cases h
        exact hat
      · cases h
        exact hat
    | hostname =>
      cases h
      exact ⟨rfl, hat.1, hat.2⟩
    | screenUpdate =>
      obtain ⟨regions, _, h⟩ := h
      cases h
      exact hat
  | signature hr hs _ => exact ⟨hr, hs⟩
  | hostname hr hs => exact ⟨rfl, hr, hs⟩
  | header hr hs hn _ => exact ⟨hr, hs, hn⟩
  | data hr hs hn _ => exact ⟨hr, hs, hn⟩

theorem Expects.completes (h : Expects v b x (m :: ms)) : completes m.1 = decide (x = .screenUpdate ∧ ms = []) := by
  cases h with
  | first hat h =>
    cases x with
    | signature | screenInfo | hostname =>
      cases h
      rfl
    | authorization =>
      rcases h with h | h
      · cases h
        rfl
      · cases h
        rfl
    | screenUpdate =>
      obtain ⟨regions, _, h⟩ := h
      cases h
      cases regions with
      | nil => rfl
      | cons r regions => rfl
  | signature hr hs _ => rfl
  | hostname hr hs => rfl
  | header hr hs hn _ => rfl
  | @data r regions hr hs hn _ =>
    cases regions with
    | nil => rfl
    | cons r' regions => rfl

theorem completeUpdate_outcome {b' : Client} (hevents : b'.inputEvents = b.inputEvents) (htimeouts : b'.timeouts = b.timeouts) :
    Outcome v b .screenUpdate [] b'.completeUpdate := by
  refine .complete rfl rfl ?_ ⟨rfl, rfl⟩ rfl ?_
  · rw [← hevents]
    rfl
  · rw [← htimeouts]
    rfl

theorem ntohlAt_word {data : Bytes} {offset : ℕ} (before : Bytes) (w : UInt32) (after : Bytes)
    (hdata : data = before ++ (htonl w ++ after)) (hlen : before.length = offset) : ntohlAt data offset = asInt w := by
  rw [hdata, ← hlen]
  exact ntohlAt_htonl before w after

theorem sendable_tail {r : RegionData} {regions : List RegionData} (h : Sendable (r :: regions)) : Sendable regions :=
  ⟨Nat.lt_trans (Nat.lt_succ_self _) h.1, fun r' hr' => h.2 r' (List.mem_cons_of_mem r hr')⟩

theorem ntohlAt_size {r : RegionData} {regions : List RegionData} (h : Sendable (r :: regions)) :
    ntohlAt (regionHeaderBytes r) 20 = r.data.length := by
  obtain ⟨_, hlt, hlen⟩ := h.2 r List.mem_cons_self
  rw [← Memory.asInt_ofNat hlt, ← hlen]
  refine ntohlAt_word (htonl r.x ++ htonl r.y ++ htonl r.width ++ htonl r.height ++ htonl r.pixfmt) _ [] ?_ rfl
  rw [List.append_nil]
  rfl

theorem ntohlAt_regions {regions : List RegionData} (h : Sendable regions) :
    ntohlAt (screenRegionsBytes regions.length) 4 = regions.length := by
  rw [← Memory.asInt_ofNat h.1]
  refine ntohlAt_word (htonl Req.screenUpdate.code) _ [] ?_ rfl
  rw [List.append_nil]
  rfl

theorem onmessage_outcome (h : Expects v b x (m :: ms)) : Outcome v b x ms (b.onmessage v.sessionId m.2) := by
  cases h with
  | first hat h =>
    obtain ⟨hrequest, hstate⟩ := hat
    cases x with
    | signature =>
      cases h
      simp only [requestOf, firstState] at hrequest hstate
      simp only [Client.onmessage, hrequest, hstate]
      refine .more (by simp) rfl (.signature rfl rfl ?_) rfl rfl
      have hlen : remoteId.length = 32 := by decide
      rw [← Memory.asInt_ofNat (show remoteId.length < 2 ^ 31 by omega)]
      exact ntohlAt_word [] _ [] (List.append_nil _).symm rfl
    | authorization =>
      have hms : ms = [] := by
        rcases h with h | h
        · exact (List.cons.inj h).2
        · exact (List.cons.inj h).2
      simp only [requestOf, firstState] at hrequest hstate
      simp only [Client.onmessage, hrequest, hstate]
      exact .next hms (by simp) rfl ⟨rfl, rfl⟩ rfl rfl
    | screenInfo =>
      cases h
      simp only [requestOf, firstState] at hrequest hstate
      simp only [Client.onmessage, hrequest, hstate]
      exact .next rfl (by simp) rfl ⟨rfl, rfl⟩ rfl rfl
    | hostname =>
      cases h
      have hlen : ¬ (stringHeaderBytes .hostname v.hostname).length ≤ 4 := by
        simp [stringHeaderBytes]
      simp only [requestOf, firstState] at hrequest hstate
      simp only [Client.onmessage, hrequest, hstate, if_neg hlen]
      exact .more (by simp) rfl (.hostname rfl rfl) rfl rfl
    | screenUpdate =>
      obtain ⟨regions, hsendable, h⟩ := h
      cases h
      simp only [requestOf, firstState] at hrequest hstate
      simp only [Client.onmessage, hrequest, hstate, ntohlAt_regions hsendable]
      cases regions with
      | nil => exact completeUpdate_outcome rfl rfl
      | cons r regions =>
        have hsome : ¬ ((r :: regions).length : ℤ) = 0 := by
          rw [List.length_cons]
          omega
        rw [if_neg hsome]
        exact .more (by simp [regionMessages]) rfl (.header rfl rfl (by simp) hsendable) rfl rfl
  | signature hrequest hstate hlen =>
    have hsame : ¬ (remoteId.length : ℤ) ≠ b.dataLen := not_not.mpr hlen.symm
    simp only [Client.onmessage, hrequest, hstate, if_neg hsame]
    exact .next rfl (by simp) rfl ⟨rfl, rfl⟩ rfl rfl
  | hostname hrequest hstate =>
    simp only [Client.onmessage, hrequest, hstate]
    exact .next rfl (by simp) rfl ⟨rfl, rfl⟩ rfl rfl
  | @header r regions hrequest hstate hregions hsendable =>
    have hpos : (r.data.length : ℤ) > 0 := Int.natCast_pos.mpr (hsendable.2 r List.mem_cons_self).1
    simp only [Client.onmessage, hrequest, hstate, ntohlAt_size hsendable, if_pos hpos]
    exact .more (by simp) rfl (.data rfl rfl (by simp only [hregions]; omega) (sendable_tail hsendable)) rfl rfl
  | @data r regions hrequest hstate hregions hsendable =>
    simp only [Client.onmessage, hrequest, hstate, hregions]
    cases regions with
    | nil => exact completeUpdate_outcome rfl rfl
    | cons r' regions =>
      have hsome : ((r' :: regions).length : ℤ) > 0 := by
        rw [List.length_cons]
        omega
      rw [if_pos hsome]
      exact .more (by simp [regionMessages]) rfl (.header rfl rfl (by simp) hsendable) rfl rfl

end Browser

end BrowserSession
end LilitunRemote

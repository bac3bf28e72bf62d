import LilitunRemote.Projector.Thread

/-! # The authorization gate of one thread

In server mode a thread opens its session by assigning its client to the shared
channel, may use the channel until it closes it, and has to be authorized for
everything but the signature and the authorization itself.
-/
namespace LilitunRemote
namespace Projector
open Memory

inductive Phase
  | before
  | running (authorized : Bool)
  | closed
  deriving DecidableEq, Repr

def gatedRequests : List Req :=
  [.screenInfo, .screenUpdate, .hostname, .sessionId, .appserverHost, .keyboard, .pointer]

def Gated (req : UInt32) : Prop := ∃ q ∈ gatedRequests, req = q.code

namespace Phase

def Allows : Phase → Effect → Prop
  | before, .tcpRead _ | before, .tcpWrite _ _ | before, .tcpClose | before, .dispatch _ => False
  | running a, .tcpWrite kind _ => a = true ∨ kind.isAnswer = false
  | running a, .dispatch req => a = true ∨ ¬ Gated req
  | running _, .assignChannel => False
  | closed, .tcpRead _ | closed, .tcpWrite _ _ | closed, .tcpClose | closed, .dispatch _ => False
  | closed, .assignChannel => False
  | _, _ => True

def next : Phase → (e : Effect) → Response e → Phase
  | before, .assignChannel, _ => running false
  | running a, .tcpWrite (.authorizationStatus true) _, ok => running (a || ok)
  | running _, .tcpClose, _ => closed
  | p, _, _ => p

end Phase

def gate : Monitor Phase Effect Response where
  ok := Phase.Allows
  step p e r q := q = p.next e r

def AtLoop : Loop → Phase → Prop
  | .serve a, p => p = .running a
  | .password a _ _ _, p => p = .running a

def AtEnd (p : Phase) (_ : Unit) : Prop := ∀ a, p ≠ .running a

abbrev AtRest : Phase → Loop ⊕ Unit → Prop := Monitor.LoopPost AtLoop AtEnd

/-! ## Reads and writes inside a session -/

section Session
variable {a : Bool} {α : Type}

def Keeps (a : Bool) (p : Action α) : Prop := gate.Obeys (.running a) p (fun q _ => q = .running a)

theorem Keeps.bind {β : Type} {p : Action α} {f : α → Action β} {Q : Phase → β → Prop} (hp : Keeps a p)
    (hf : ∀ x, gate.Obeys (.running a) (f x) Q) : gate.Obeys (.running a) (p >>= f) Q := by
  rw [Monitor.obeys_bind]
  refine hp.mono (fun t x ht => ?_)
  rw [ht]
  exact hf x

theorem keeps_pure (x : α) : Keeps a (pure x : Action α) := rfl

theorem keeps_act {e : Effect} (hok : (Phase.running a).Allows e) (hstep : ∀ r, (Phase.running a).next e r = .running a) :
    Keeps a (act e) := ⟨hok, fun r _ ht => ht.trans (hstep r)⟩

theorem keeps_isStarted : Keeps a isStarted := keeps_act trivial (fun _ => rfl)
theorem keeps_tcpRead (len : ℕ) : Keeps a (tcpRead len) := keeps_act trivial (fun _ => rfl)
theorem keeps_setStatus (status : Status) : Keeps a (setStatus status) := keeps_act trivial (fun _ => rfl)
theorem keeps_grabScreen : Keeps a grabScreen := keeps_act trivial (fun _ => rfl)
theorem keeps_signatureLength (data : Bytes) : Keeps a (tcpWriteAll .signatureLength data) :=
  keeps_act (Or.inr rfl) (fun _ => rfl)
theorem keeps_signature (data : Bytes) : Keeps a (tcpWriteAll .signature data) :=
  keeps_act (Or.inr rfl) (fun _ => rfl)
theorem keeps_answer (part : Answer) (data : Bytes) : Keeps true (tcpWriteAll (.answer part) data) :=
  keeps_act (Or.inl rfl) (fun _ => rfl)

theorem keeps_readLoop (len fuel : ℕ) (buf : Bytes) : Keeps a (readLoop len fuel buf) := by
  induction fuel generalizing buf with
  | zero => exact keeps_pure buf
  | succ fuel ih =>
    unfold readLoop
    split
    · exact keeps_pure buf
    · refine (keeps_tcpRead _).bind (fun got => ?_)
      split
      · exact keeps_pure buf
      · exact ih (buf ++ got)

theorem keeps_tcpReadAll (len : ℕ) : Keeps a (tcpReadAll len) := keeps_readLoop len len []

theorem keeps_recvUint32 : Keeps a recvUint32 := by
  refine (keeps_tcpReadAll 4).bind (fun tmp => ?_)
  split <;> exact keeps_pure _

theorem keeps_recvAuthorization : Keeps a recvAuthorization := by
  refine keeps_recvUint32.bind (fun word => ?_)
  cases word with
  | none => exact keeps_pure _
  | some word =>
    refine (keeps_tcpReadAll _).bind (fun buf => ?_)
    split <;> exact keeps_pure _

theorem keeps_checkRemoteSig : Keeps a (checkRemoteSig true) := by
  refine keeps_recvUint32.bind (fun word => ?_)
  cases word with
  | none => exact keeps_pure _
  | some word =>
    refine (keeps_tcpReadAll _).bind (fun buf => ?_)
    split
    · refine (keeps_signatureLength _).bind (fun sent => ?_)
      split
      · exact keeps_pure _
      · refine (keeps_signature _).bind (fun sent => ?_)
        split <;> exact keeps_pure _
    · exact keeps_pure _

theorem keeps_recvWord {f : Option UInt32 → Action Bool} (hnone : Keeps a (f none))
    (hsome : ∀ w, Keeps a (f (some w))) : Keeps a (recvUint32 >>= f) := by
  refine keeps_recvUint32.bind (fun word => ?_)
  cases word with
  | none => exact hnone
  | some w => exact hsome w

theorem keeps_recvUserConnection : Keeps a recvUserConnection :=
  keeps_recvWord (keeps_pure _) (fun port => keeps_recvWord (keeps_pure _)
    (fun ipv6port => (keeps_act (e := .userConnection port ipv6port) trivial (fun _ => rfl)).bind
      (fun _ => keeps_pure _)))

theorem keeps_recvKeyboard : Keeps a recvKeyboard :=
  keeps_recvWord (keeps_pure _) (fun down => keeps_recvWord (keeps_pure _)
    (fun key => (keeps_act (e := .keyboardEvent down key) trivial (fun _ => rfl)).bind (fun _ => keeps_pure _)))

theorem keeps_recvPointer : Keeps a recvPointer :=
  keeps_recvWord (keeps_pure _) (fun buttons => keeps_recvWord (keeps_pure _) (fun x =>
    keeps_recvWord (keeps_pure _) (fun y => keeps_recvWord (keeps_pure _) (fun _ =>
      (keeps_act (e := .mouseEvent buttons x y) trivial (fun _ => rfl)).bind (fun _ => keeps_pure _)))))

theorem keeps_sendString (req : Req) (text : Bytes) : Keeps true (sendString req text) := by
  refine (keeps_answer _ _).bind (fun sent => ?_)
  split
  · exact keeps_pure _
  · exact keeps_answer _ _

theorem keeps_sendRegions (regions : List RegionData) : Keeps true (sendRegions regions) := by
  induction regions with
  | nil => exact keeps_pure ()
  | cons r regions ih => exact (keeps_answer _ _).bind (fun _ => (keeps_answer _ _).bind (fun _ => ih))

theorem keeps_sendReqScreenUpdate : Keeps true sendReqScreenUpdate := by
  refine keeps_grabScreen.bind (fun regions => ?_)
  cases regions with
  | none => exact keeps_pure true
  | some regions =>
    have hsend : Keeps true (updateScreenSend regions) := by
      refine (keeps_answer _ _).bind (fun sent => ?_)
      split
      · exact keeps_pure ()
      · exact keeps_sendRegions regions
    exact hsend.bind (fun _ => keeps_pure true)

end Session

/-! ## The thread -/

section Thread
variable {v : Vars} {a : Bool}

theorem finish_obeys : gate.Obeys (.running a) (finish v) AtRest := by
  have hclosed : ∀ b, (Phase.closed : Phase) ≠ .running b := by simp
  unfold finish
  cases v.server with
  | true => exact ⟨trivial, fun _ t ht => ht ▸ ⟨trivial, fun _ u hu => hu ▸ hclosed⟩⟩
  | false => exact ⟨trivial, fun _ t ht => ht ▸ hclosed⟩

theorem leave_obeys (status : Status) : gate.Obeys (.running a) (leave v status) AtRest :=
  (keeps_setStatus status).bind (fun _ => finish_obeys)

theorem proceed_obeys {request : Action Bool} (h : Keeps a request) :
    gate.Obeys (.running a) (proceed v a request) AtRest := by
  refine h.bind (fun ok => ?_)
  split
  · exact (rfl : (Phase.running a) = .running a)
  · exact leave_obeys _

theorem not_gated_authorization : ¬ Gated Req.authorization.code := by
  rintro ⟨q, hq, he⟩
  simp only [gatedRequests, List.mem_cons, List.not_mem_nil, or_false] at hq
  rcases hq with rfl | rfl | rfl | rfl | rfl | rfl | rfl <;> exact absurd he (by decide)

theorem authorization_obeys :
    gate.Obeys (.running a) (recvAuthorization >>= fun received =>
      match received with
      | none => leave v .connectionError
      | some clientSessionId =>
        if (!strcmp v.sessionId clientSessionId) = true then do
          setStatus .notAuthorized
          let _ ← sendUint32 (.authorizationStatus false) 1
          finish v
        else do
          let sent ← sendUint32 (.authorizationStatus true) 0
          if (!sent) = true then leave v .connectionError
          else pure (Sum.inl (Loop.serve true))) AtRest := by
  refine keeps_recvAuthorization.bind (fun received => ?_)
  cases received with
  | none => exact leave_obeys _
  | some clientSessionId =>
    dsimp only
    split
    · refine (keeps_setStatus _).bind (fun _ => ?_)
      have hsend : Keeps a (sendUint32 (.authorizationStatus false) 1) := keeps_act (Or.inr rfl) (fun _ => rfl)
      exact hsend.bind (fun _ => finish_obeys)
    · rw [Monitor.obeys_bind]
      refine ⟨Or.inr rfl, fun sent t ht => ?_⟩
      rw [show t = .running (a || sent) from ht]
      cases sent with
      | false => exact leave_obeys _
      | true => exact congrArg Phase.running (Bool.or_true a)

theorem dispatchRequest_obeys (req : UInt32) : gate.Obeys (.running a) (dispatchRequest v a req) AtRest := by
  unfold dispatchRequest
  split
  · exact leave_obeys _
  · next hgate =>
    -- from here on the client is authorized or authorizes now
    have hallowed : a = true ∨ req = Req.authorization.code := by
      cases a with
      | true => exact Or.inl rfl
      | false =>
        right
        simpa using hgate
    have hdispatch : Keeps a (act (.dispatch req)) := by
      refine keeps_act ?_ (fun _ => rfl)
      rcases hallowed with ha | hreq
      · exact Or.inl ha
      · exact Or.inr (hreq ▸ not_gated_authorization)
    refine hdispatch.bind (fun _ => ?_)
    rcases hallowed with rfl | rfl
    · cases Req.ofCode req with
      | none => exact (keeps_setStatus _).bind (fun _ => rfl)
      | some q =>
        cases q with
        | authorization => exact authorization_obeys
        | screenInfo => exact proceed_obeys (keeps_answer _ _)
        | appserverHost => exact proceed_obeys (keeps_sendString _ _)
        | sessionId => exact proceed_obeys (keeps_sendString _ _)
        | hostname => exact proceed_obeys (keeps_sendString _ _)
        | screenUpdate => exact proceed_obeys keeps_sendReqScreenUpdate
        | userPassword =>
          refine keeps_recvUint32.bind (fun word => ?_)
          cases word with
          | none => exact leave_obeys _
          | some length => exact (rfl : (Phase.running true) = .running true)
        | userConnection => exact proceed_obeys keeps_recvUserConnection
        | keyboard => exact proceed_obeys keeps_recvKeyboard
        | pointer => exact proceed_obeys keeps_recvPointer
        | stop => exact finish_obeys
        | error => exact (keeps_setStatus _).bind (fun _ => rfl)
    · exact authorization_obeys

theorem body_obeys (loop : Loop) (p : Phase) (h : AtLoop loop p) : gate.Obeys p (body v loop) AtRest := by
  cases loop with
  | serve a =>
    rw [show p = .running a from h]
    refine keeps_isStarted.bind (fun started => ?_)
    split
    · exact finish_obeys
    · refine keeps_recvUint32.bind (fun word => ?_)
      cases word with
      | none => exact leave_obeys _
      | some req => exact dispatchRequest_obeys req
  | password a len total buf =>
    rw [show p = .running a from h]
    simp only [body]
    split
    · exact (keeps_act (e := .userPassword buf) trivial (fun _ => rfl)).bind
        (fun _ => (rfl : (Phase.running a) = .running a))
    · refine (keeps_tcpRead _).bind (fun got => ?_)
      split
      · exact leave_obeys _
      · exact (rfl : (Phase.running a) = .running a)

theorem projectorThread_obeys (hserver : v.server = true) :
    gate.Obeys (.running false) (projectorThread v) AtRest := by
  unfold projectorThread
  rw [hserver]
  refine keeps_checkRemoteSig.bind (fun accepted => ?_)
  split
  · exact (rfl : (Phase.running false) = .running false)
  · exact (keeps_setStatus _).bind (fun _ => (keeps_act (e := .stop) trivial (fun _ => rfl)).bind (fun _ => finish_obeys))

theorem httpThread_obeys (hserver : v.server = true) : gate.Obeys .before (httpThread v) AtRest := by
  have hsession : gate.Obeys .before (do
      act (.setConnected true)
      act .assignChannel
      projectorThread v) AtRest :=
    ⟨trivial, fun _ t ht => ht ▸ ⟨trivial, fun _ u hu => hu ▸ projectorThread_obeys hserver⟩⟩
  have hhttp : gate.Obeys .before (do
      act .answerHttp
      return Sum.inr () : Thread) AtRest := by
    have hbefore : ∀ a, (Phase.before : Phase) ≠ .running a := by simp
    exact ⟨trivial, fun _ t ht => ht ▸ hbefore⟩
  unfold httpThread
  cases v.ws with
  | true =>
    refine ⟨trivial, fun upgraded t ht => ?_⟩
    rw [show t = .before from ht]
    cases upgraded with
    | true => exact hsession
    | false => exact hhttp
  | false => exact hsession

end Thread
end Projector
end LilitunRemote

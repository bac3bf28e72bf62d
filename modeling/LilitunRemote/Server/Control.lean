import LilitunRemote.Foundation.Terminated
import LilitunRemote.Projector.Thread
import LilitunRemote.Protocol.JsonFields
import LilitunRemote.Server.ControlRequest

/-! # The control port

`control_connection_thread` over the bytes of one connection. The action, the type of the
request, the session id and the response may all be missing, as null pointers.
-/
namespace LilitunRemote
namespace Control
open Projector (cString strncmp)
open JsonFields Jsmn

/-- The bytes that come in until the connection is closed, and how many of them the read
of the body finds. -/
structure Received where
  bytes : Bytes
  arrived : ℕ

/-- What `tcp_read` takes for the body: at least a byte, unless there is none. -/
def Received.body (r : Received) (rest : Bytes) : Bytes := rest.take (min (max r.arrived 1) 1023)

/-- A null pointer in place of a string, or a token that is not set. -/
inductive Fault
  | nullString | unsetToken
  deriving DecidableEq, Repr

structure Outcome where
  response : Option Bytes
  stopped : Option ℕ
  deriving DecidableEq, Repr

def forbidden : Bytes := asciiBytes "HTTP/1.1 403 Forbidden\r\n\r\n"
def ok : Bytes := asciiBytes "HTTP/1.1 200 OK"

def strcmp (s : Option Bytes) (t : Bytes) : Except Fault Bool :=
  match s with
  | none => .error .nullString
  | some s => .ok (s = t)

def stopSharing (sessionId : Bytes) : List (Option Bytes) → Except Fault (Option ℕ)
  | [] => .ok none
  | conn :: conns => do
    if ← strcmp conn sessionId then return some 0
    return (← stopSharing sessionId conns).map (· + 1)

def answerMessage (req : Bytes) (conns : List (Option Bytes)) : Except Fault Outcome :=
  match extract controlNames req with
  | .refused => .ok ⟨some forbidden, none⟩
  | .fields none => .error .unsetToken
  | .fields (some f) => do
    let stop ← strcmp (f (asciiBytes "requestType")) (asciiBytes "stopSharing")
    match f (asciiBytes "sessionId") with
    | some sessionId => if stop then return ⟨some ok, ← stopSharing sessionId conns⟩ else return ⟨some ok, none⟩
    | none => return ⟨some ok, none⟩

def writeResponse (o : Outcome) : Except Fault Outcome :=
  match o.response with
  | none => .error .nullString
  | some _ => .ok o

def answerRequest (action : Option Bytes) (body : Bytes) (conns : List (Option Bytes)) : Except Fault Outcome := do
  if ← strcmp action (asciiBytes "message") then
    if body = [] then writeResponse ⟨none, none⟩ else writeResponse (← answerMessage (cString body) conns)
  else writeResponse ⟨some forbidden, none⟩

def controlConnectionThread (r : Received) (conns : List (Option Bytes)) : Except Fault Outcome :=
  match getHttpHeader r.bytes with
  | none => .ok ⟨none, none⟩
  | some (req, rest) =>
    if strncmp req (asciiBytes "POST /") 5 then
      answerRequest (requestParse (cString (req.drop 5)) (asciiBytes "action")) (r.body rest) conns
    else .ok ⟨none, none⟩

def Survives (r : Received) (conns : List (Option Bytes)) : Prop :=
  ∃ o, controlConnectionThread r conns = .ok o ∧ (asciiBytes "POST /" <+: r.bytes → o.response ≠ none)

/-! ## What the parts need -/

def Comparable (sessionId : Bytes) (conns : List (Option Bytes)) : Prop :=
  ∀ before after, conns = before ++ none :: after → some sessionId ∈ before

/-- The walk does not take the last token, takes one for the type of the request, and has
the session ids it compares. -/
structure Answerable (req : Bytes) (ts : List Token) (conns : List (Option Bytes)) : Prop where
  last : ∀ name ∈ controlNames, ∀ i, i + 1 = ts.length → ¬ Taken controlNames req ts name i
  requestType : ∃ i, Taken controlNames req ts (asciiBytes "requestType") i
  sessions : LastValue controlNames req ts (asciiBytes "requestType") (asciiBytes "stopSharing") →
    ∀ sessionId, LastValue controlNames req ts (asciiBytes "sessionId") sessionId → Comparable sessionId conns

section Message
variable {sessionId req : Bytes} {conns : List (Option Bytes)}

theorem comparable_cons {s : Bytes} (h : s ≠ sessionId) : Comparable sessionId (some s :: conns) ↔ Comparable sessionId conns := by
  constructor
  · rintro hcomparable before after rfl
    exact (List.mem_cons.mp (hcomparable (some s :: before) after rfl)).resolve_left (fun heq => h (Option.some.inj heq).symm)
  · intro hcomparable before after heq
    cases before with
    | nil => cases heq
    | cons conn before =>
      obtain ⟨_, hconns⟩ := List.cons.inj heq
      exact List.mem_cons_of_mem _ (hcomparable before after hconns)

theorem exists_ok_map {α β : Type} {x : Except Fault α} (g : α → β) : (∃ b, x.map g = .ok b) ↔ ∃ a, x = .ok a := by
  cases x with
  | error e => exact iff_of_false (fun h => nomatch h.choose_spec) (fun h => nomatch h.choose_spec)
  | ok a => exact iff_of_true ⟨g a, rfl⟩ ⟨a, rfl⟩

/-- `stop_sharing` gets no null pointer if the connections are comparable. -/
theorem stopSharing_iff : (∃ stopped, stopSharing sessionId conns = .ok stopped) ↔ Comparable sessionId conns := by
  induction conns with
  | nil => exact iff_of_true ⟨none, rfl⟩ (fun before after heq => by simp at heq)
  | cons conn conns ih =>
    cases conn with
    | none => exact iff_of_false (fun h => nomatch h.choose_spec) (fun h => nomatch h [] conns rfl)
    | some s =>
      by_cases heq : s = sessionId
      · refine iff_of_true ⟨some 0, by simp [stopSharing, strcmp, heq]; rfl⟩ (fun before after hsplit => ?_)
        cases before with
        | nil => cases hsplit
        | cons conn before =>
          obtain ⟨rfl, _⟩ := List.cons.inj hsplit
          exact heq ▸ List.mem_cons_self
      · have hnext : stopSharing sessionId (some s :: conns) = (stopSharing sessionId conns).map (·.map (· + 1)) := by
          simp [stopSharing, strcmp, heq]
          rfl
        rw [comparable_cons heq, ← ih, hnext]
        exact exists_ok_map _

theorem answerMessage_fields {f : Fields} (hf : extract controlNames req = .fields (some f)) :
    (∃ o, answerMessage req conns = .ok o) ↔
      f (asciiBytes "requestType") ≠ none ∧
        (f (asciiBytes "requestType") = some (asciiBytes "stopSharing") →
          ∀ sessionId, f (asciiBytes "sessionId") = some sessionId → Comparable sessionId conns) := by
  unfold answerMessage
  rw [hf]
  dsimp only
  cases f (asciiBytes "requestType") with
  | none => exact iff_of_false (fun h => nomatch h.choose_spec) (fun h => h.1 rfl)
  | some requestType =>
    cases f (asciiBytes "sessionId") with
    | none => exact iff_of_true ⟨_, rfl⟩ ⟨nofun, fun _ sessionId h => nomatch h⟩
    | some sessionId =>
      by_cases hstop : requestType = asciiBytes "stopSharing"
      · subst hstop
        simp only [Option.some.injEq, forall_eq', ne_eq, reduceCtorEq, not_false_eq_true, true_and, forall_const]
        have hcompare : strcmp (some (asciiBytes "stopSharing")) (asciiBytes "stopSharing") = .ok true :=
          congrArg Except.ok (decide_eq_true rfl)
        rw [← stopSharing_iff, hcompare]
        exact exists_ok_map (fun stopped => (⟨some ok, stopped⟩ : Outcome))
      · have hcompare : strcmp (some requestType) (asciiBytes "stopSharing") = .ok false :=
          congrArg Except.ok (decide_eq_false hstop)
        rw [hcompare]
        exact iff_of_true ⟨_, rfl⟩ ⟨nofun, fun heq => absurd (Option.some.inj heq) hstop⟩

theorem requestType_mem : asciiBytes "requestType" ∈ controlNames := List.mem_cons_self

theorem sessionId_mem : asciiBytes "sessionId" ∈ controlNames := List.mem_cons_of_mem _ List.mem_cons_self

theorem answerMessage_object {root : Token} {ts : List Token} (hparse : jsmnParse req 16 = .ok (root :: ts))
    (hroot : root.type = .object) : (∃ o, answerMessage req conns = .ok o) ↔ Answerable req ts conns := by
  have hextract := @extract_object controlNames _ _ _ hparse hroot
  cases hwalk : walk controlNames req ts Fields.unset with
  | none =>
    rw [hwalk] at hextract
    have hfault : answerMessage req conns = .error .unsetToken := by rw [answerMessage, hextract]
    rw [hfault]
    refine iff_of_false (fun h => nomatch h.choose_spec) (fun h => ?_)
    obtain ⟨f, hf⟩ := walk_ends h.last
    rw [hwalk] at hf
    cases hf
  | some f =>
    rw [hwalk] at hextract
    have hlast := walk_last hwalk
    have hwalked := walked_of_walk hwalk
    have htype : f (asciiBytes "requestType") ≠ none ↔ ∃ i, Taken controlNames req ts (asciiBytes "requestType") i := by
      rw [Ne, hwalked.unset _ requestType_mem, not_forall]
      simp only [not_not]
      exact exists_congr fun i => ⟨fun h => h.1, fun h => h.valued (hlast _ requestType_mem)⟩
    rw [answerMessage_fields hextract, htype, hwalked.fields _ requestType_mem]
    simp only [hwalked.fields _ sessionId_mem]
    exact ⟨fun h => ⟨hlast, h.1, h.2⟩, fun h => ⟨h.requestType, h.sessions⟩⟩

theorem answerMessage_iff :
    (∃ o, answerMessage req conns = .ok o) ↔
      ∀ root ts, jsmnParse req 16 = .ok (root :: ts) → root.type = .object → Answerable req ts conns := by
  by_cases hobject : ∃ root ts, jsmnParse req 16 = .ok (root :: ts) ∧ root.type = .object
  · obtain ⟨root, ts, hparse, hroot⟩ := hobject
    rw [answerMessage_object hparse hroot]
    constructor
    · intro h root' ts' hparse' _
      rw [hparse, Except.ok.injEq, List.cons.injEq] at hparse'
      exact hparse'.2 ▸ h
    · exact fun h => h root ts hparse hroot
  · have hrefused : extract controlNames req = .refused := by
      unfold extract
      split
      · rfl
      · rfl
      · next root ts hparse =>
        rw [if_pos]
        exact fun hroot => hobject ⟨root, ts, hparse, hroot⟩
    refine iff_of_true ⟨⟨some forbidden, none⟩, by rw [answerMessage, hrefused]⟩ (fun root ts hparse hroot => ?_)
    exact absurd ⟨root, ts, hparse, hroot⟩ hobject

/-- An answer to a message has a response. -/
theorem response_of_answerMessage {o : Outcome} (h : answerMessage req conns = .ok o) : o.response ≠ none := by
  unfold answerMessage at h
  split at h
  · cases h
    nofun
  · cases h
  · next f _ =>
    cases htype : f (asciiBytes "requestType") with
    | none =>
      rw [htype] at h
      cases h
    | some requestType =>
      rw [htype] at h
      cases hid : f (asciiBytes "sessionId") with
      | none =>
        rw [hid] at h
        cases h
        nofun
      | some sessionId =>
        rw [hid] at h
        by_cases hstop : requestType = asciiBytes "stopSharing"
        · cases hstopped : stopSharing sessionId conns with
          | error e => simp [strcmp, hstop, hstopped] at h; cases h
          | ok stopped => simp [strcmp, hstop, hstopped] at h; cases h; nofun
        · simp [strcmp, hstop] at h
          cases h
          nofun

end Message

/-! ## The thread -/

section Thread
variable {r : Received} {conns : List (Option Bytes)} {head rest : Bytes}

theorem strncmp_post : strncmp head (asciiBytes "POST /") 5 = true ↔ asciiBytes "POST " <+: head := by
  have hfive : (cString (asciiBytes "POST /")).take 5 = asciiBytes "POST " := by decide
  rw [strncmp, decide_eq_true_iff, hfive]
  constructor
  · intro h
    rw [← h]
    exact (List.take_prefix 5 _).trans (List.takeWhile_prefix _)
  · rintro ⟨rest, rfl⟩
    have hnul : 0 ∉ asciiBytes "POST " := by decide +kernel
    rw [cString, Terminated.takeWhile_append_left hnul]
    rfl

/-- A head that begins the bytes of a POST request is long enough to show it. -/
theorem IsHead.post (h : IsHead r.bytes head rest) (hpost : asciiBytes "POST /" <+: r.bytes) : asciiBytes "POST " <+: head := by
  have hbytes : asciiBytes "POST " <+: r.bytes := List.IsPrefix.trans ⟨[47], rfl⟩ hpost
  refine (List.prefix_or_prefix_of_prefix hbytes ⟨rest, h.split.symm⟩).resolve_right (fun hshort => ?_)
  -- no part of the first five bytes ends a head
  have hline : (10 : UInt8) ∉ head := fun hmem => absurd (hshort.subset hmem) (by decide)
  rcases h.ended with hcrlf | hlf | hfull
  · exact hline (hcrlf.subset (by decide))
  · exact hline (hlf.subset (by decide))
  · have hle := hshort.length_le
    rw [hfull] at hle
    exact absurd hle (by decide)

theorem writeResponse_of_ne {o : Outcome} (h : o.response ≠ none) : writeResponse o = .ok o := by
  unfold writeResponse
  cases hresponse : o.response with
  | none => exact absurd hresponse h
  | some resp => rfl

/-- What a request needs behind its head. -/
def Completed (action : Option Bytes) (body : Bytes) (conns : List (Option Bytes)) : Prop :=
  ∃ a, action = some a ∧
    (a = asciiBytes "message" → body ≠ [] ∧
      ∀ root ts, jsmnParse (cString body) 16 = .ok (root :: ts) → root.type = .object → Answerable (cString body) ts conns)

theorem answerRequest_message {body : Bytes} (hbody : body ≠ []) :
    answerRequest (some (asciiBytes "message")) body conns = answerMessage (cString body) conns := by
  have hcompare : strcmp (some (asciiBytes "message")) (asciiBytes "message") = .ok true :=
    congrArg Except.ok (decide_eq_true rfl)
  rw [answerRequest, hcompare]
  change (if body = [] then _ else (answerMessage (cString body) conns >>= writeResponse)) = _
  rw [if_neg hbody]
  cases hanswer : answerMessage (cString body) conns with
  | error e => rfl
  | ok o => exact writeResponse_of_ne (response_of_answerMessage hanswer)

theorem answerRequest_other {a body : Bytes} (ha : a ≠ asciiBytes "message") :
    answerRequest (some a) body conns = .ok ⟨some forbidden, none⟩ := by
  have hcompare : strcmp (some a) (asciiBytes "message") = .ok false := congrArg Except.ok (decide_eq_false ha)
  rw [answerRequest, hcompare]
  rfl

theorem answerRequest_closed : answerRequest (some (asciiBytes "message")) [] conns = .error .nullString := rfl

theorem response_of_answerRequest {action : Option Bytes} {body : Bytes} {o : Outcome}
    (h : answerRequest action body conns = .ok o) : o.response ≠ none := by
  cases action with
  | none => cases h
  | some a =>
    by_cases ha : a = asciiBytes "message"
    · subst ha
      by_cases hbody : body = []
      · rw [hbody, answerRequest_closed] at h
        cases h
      · rw [answerRequest_message hbody] at h
        exact response_of_answerMessage h
    · rw [answerRequest_other ha] at h
      cases h
      nofun

theorem answerRequest_iff {action : Option Bytes} {body : Bytes} :
    (∃ o, answerRequest action body conns = .ok o) ↔ Completed action body conns := by
  cases action with
  | none => exact iff_of_false (fun h => nomatch h.choose_spec) (fun h => nomatch h.choose_spec.1)
  | some a =>
    unfold Completed
    simp only [Option.some.injEq, exists_eq_left']
    by_cases ha : a = asciiBytes "message"
    · subst ha
      rw [forall_prop_of_true rfl]
      by_cases hbody : body = []
      · rw [hbody, answerRequest_closed]
        exact iff_of_false (fun h => nomatch h.choose_spec) (fun h => h.1 rfl)
      · rw [answerRequest_message hbody, answerMessage_iff]
        exact (and_iff_right hbody).symm
    · rw [answerRequest_other ha]
      exact iff_of_true ⟨_, rfl⟩ (fun heq => absurd heq ha)

end Thread

/-- The head of a request arrives, and behind one that is taken for a POST request the action,
and with a message the body and what its walk needs. -/
def Survivable (r : Received) (conns : List (Option Bytes)) : Prop :=
  (asciiBytes "POST /" <+: r.bytes → ∃ head rest, IsHead r.bytes head rest) ∧
    ∀ head rest, IsHead r.bytes head rest → asciiBytes "POST " <+: head →
      Completed (valueOf (asciiBytes "action") (query (cString (head.drop 5)))) (r.body rest) conns

/-- The control port survives exactly the complete requests. -/
theorem control_survives_iff (r : Received) (conns : List (Option Bytes)) : Survives r conns ↔ Survivable r conns := by
  unfold Survives Survivable controlConnectionThread
  simp only [← getHttpHeader_iff]
  cases hhead : getHttpHeader r.bytes with
  | none =>
    constructor
    · rintro ⟨o, ho, hresponse⟩
      obtain rfl := Except.ok.inj ho
      exact ⟨fun hpost => absurd rfl (hresponse hpost), nofun⟩
    · rintro ⟨hcomplete, _⟩
      exact ⟨_, rfl, fun hpost => nomatch (hcomplete hpost).choose_spec.choose_spec⟩
  | some parts =>
    obtain ⟨head, rest⟩ := parts
    have hishead := getHttpHeader_iff.mp hhead
    have hone : ∀ head' rest', some (head, rest) = some (head', rest') → head = head' ∧ rest = rest' :=
      fun head' rest' heq => Prod.mk.inj (Option.some.inj heq)
    dsimp only
    by_cases hpost : asciiBytes "POST " <+: head
    · rw [if_pos (strncmp_post.mpr hpost), requestParse_eq (by decide)]
      constructor
      · rintro ⟨o, ho, _⟩
        refine ⟨fun _ => ⟨head, rest, rfl⟩, fun head' rest' heq _ => ?_⟩
        obtain ⟨rfl, rfl⟩ := hone head' rest' heq
        exact answerRequest_iff.mp ⟨o, ho⟩
      · rintro ⟨_, hcompleted⟩
        obtain ⟨o, ho⟩ := answerRequest_iff.mpr (hcompleted head rest rfl hpost)
        exact ⟨o, ho, fun _ => response_of_answerRequest ho⟩
    · rw [if_neg (mt strncmp_post.mp hpost)]
      refine iff_of_true ⟨_, rfl, fun h => absurd (hishead.post h) hpost⟩ ⟨fun _ => ⟨head, rest, rfl⟩, fun head' rest' heq h => ?_⟩
      obtain ⟨rfl, rfl⟩ := hone head' rest' heq
      exact absurd h hpost

/-- A request without an action. -/
def plainPost : Received := ⟨asciiBytes "POST / HTTP/1.1\r\n\r\n", 0⟩

theorem plain_post_fatal : controlConnectionThread plainPost [] = .error .nullString ∧ ¬ Survives plainPost [] := by
  have hfault : controlConnectionThread plainPost [] = .error .nullString := by
    have hhead : getHttpHeader plainPost.bytes = some (plainPost.bytes, []) := by decide +kernel
    rw [controlConnectionThread, hhead]
    rfl
  refine ⟨hfault, ?_⟩
  rintro ⟨o, ho, _⟩
  rw [hfault] at ho
  cases ho

end Control
end LilitunRemote

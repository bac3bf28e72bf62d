import LilitunRemote.Foundation.Script
import LilitunRemote.Session.BrowserAnswers
import LilitunRemote.Session.InputDelivery

/-! # A browser and a projector

The session of `lilitun-remote-client.js` with `projector_thread`. The projector reads a
stream of words and the browser whole messages; each keeps its own idea of what comes
next. `Stands` ties the two to the records the browser has sent and the messages on their
way, and every step of either keeps it.
-/
namespace LilitunRemote
namespace BrowserSession
open Projector Browser

/-! ## The system -/

/-- What the browser sends, receives and queues, in this order. A received message is
recorded with the state it is met in. -/
inductive Event
  | sent (send : Send)
  | received (kind : WriteKind) (request : Request) (state : State) (regions : ℤ)
  | queued (event : InputEvent)
  deriving DecidableEq, Repr

/-- `up` are the frames on their way to the projector, `down` the messages on their way
to the browser, and `log` what the projector dispatched and decoded. -/
structure Session where
  thread : Thread
  up : Script.Channel UInt8
  down : List Message
  log : List Effect
  opened : Bool
  client : Client
  history : List Event

def Session.start (v : Vars) : Session := ⟨projectorThread v, [], [], [], false, .start, []⟩

/-- An action: the projector's thread goes on with a response, or a handler of the
browser runs. -/
inductive Action
  | projector (e : Effect) (r : Response e)
  | onopen
  | onmessage
  | ontimeout
  | oninput (events : List InputEvent)
  | onclose

def Action.carriesOn : Action → Bool
  | oninput _ | onclose => false
  | _ => true

instance (regions : List RegionData) : Decidable (Sendable regions) :=
  inferInstanceAs (Decidable (_ ∧ ∀ r ∈ regions, _))

namespace Session

/-- The channels after a response to the projector: reads stay inside a frame, writes and
grabs succeed. -/
def channels (s : Session) : (e : Effect) → Response e → Option (Script.Channel UInt8 × List Message)
  | .tcpRead n, got => (Script.read s.up n got).map (·, s.down)
  | .tcpWrite kind data, sent => if sent = true then some (s.up, s.down ++ [(kind, data)]) else none
  | .grabScreen, some regions => if Sendable regions then some (s.up, s.down) else none
  | .grabScreen, none => none
  | _, _ => some (s.up, s.down)

def react (s : Session) (out : Client × List Send) : Session :=
  { s with client := out.1, up := s.up ++ out.2.flatMap Send.frames, history := s.history ++ out.2.map .sent }

def step (v : Vars) (password : Bytes) (s : Session) : Action → Option Session
  | .projector e r => do
    let p ← s.thread.feed e r
    let c ← s.channels e r
    some { s with thread := p.resume (body v), up := c.1, down := c.2, log := s.log ++ Receiver.logged e }
  | .onopen => if s.opened then none else some ({ s with opened := true }.react s.client.onopen)
  | .onmessage =>
    match s.down with
    | [] => none
    | (kind, data) :: down =>
      let met := Event.received kind s.client.request s.client.state s.client.regions
      some ({ s with down := down, history := s.history ++ [met] }.react (s.client.onmessage password data))
  | .ontimeout => s.client.ontimeout.map s.react
  | .oninput events =>
    some { s with
      client := s.client.oninput events,
      history := s.history ++ if s.client.inputDevices then events.map .queued else [] }
  | .onclose => some { s with client := s.client.onclose }

end Session

/-! ## What is to hold -/

def Event.Meant : Event → Prop
  | received kind request state regions => BrowserSession.Meant kind request state regions
  | _ => True

inductive Turn
  | fresh | outstanding | completed
  deriving DecidableEq, Repr

/-- The order of updates and input events: a request while one is outstanding, or an
input event other than between an update and the next request, is refused. -/
def Turn.step : Turn → Event → Option Turn
  | outstanding, .sent (.request (.code .screenUpdate)) => none
  | _, .sent (.request (.code .screenUpdate)) => some outstanding
  | completed, .sent (.inputEvent _) => some completed
  | _, .sent (.inputEvent _) => none
  | turn, .received kind _ _ _ => if completes kind then some completed else some turn
  | turn, _ => some turn

def Event.send? : Event → Option Send
  | sent send => some send
  | _ => none

def Event.queued? : Event → Option InputEvent
  | queued event => some event
  | _ => none

def inputOf : Record → Option InputEvent
  | .input event => some event
  | _ => none

def handled : Record → List Effect
  | .hello => []
  | .input event => Receiver.handled event
  | q => [.dispatch q.word]

/-! ## The two together -/

/-- Where the browser is in its exchanges: it has sent a question, is in the middle of an
answer, or waits for the timer after an update. -/
inductive Phase
  | unopened
  | waiting (x : Exchange)
  | answered (x : Exchange) (ms : List Message)
  | paused

namespace Phase

def messages : Phase → List Message
  | answered _ ms => ms
  | _ => []

def turn : Phase → Turn
  | waiting .screenUpdate | answered .screenUpdate _ => .outstanding
  | paused => .completed
  | _ => .fresh

def Fits (v : Vars) (opened : Bool) (b : Client) : Phase → Prop
  | unopened => opened = false ∧ b.timeouts = 0
  | waiting x => opened = true ∧ At x b ∧ b.timeouts = 0
  | answered x ms => opened = true ∧ ms ≠ [] ∧ Expects v b x ms ∧ b.timeouts = 0
  | paused => opened = true ∧ At .screenUpdate b ∧ b.timeouts = 1

end Phase

inductive Pending (v : Vars) : Exchange → List Record → Phase → Prop
  | unopened : Pending v .signature [] .unopened
  | asked {x : Exchange} (inputs : List InputEvent) (h : inputs = [] ∨ x = .screenUpdate) :
    Pending v x (inputs.map .input ++ [question v x]) (.waiting x)
  | answered (x : Exchange) (ms : List Message) : Pending v x.next [] (.answered x ms)
  | paused (inputs : List InputEvent) : Pending v .screenUpdate (inputs.map .input) .paused

/-- An empty password is an empty frame, which is left for the next read. -/
def stale (v : Vars) : Exchange → Script.Channel UInt8
  | .screenInfo => if v.sessionId = [] then [[]] else []
  | _ => []

def framesOf (records : List Record) : Script.Channel UInt8 := records.flatMap fun q => (toSend q).frames

inductive Stands (v : Vars) (records : List Record) :
    Position → Phase → Script.Channel UInt8 → List Message → List Effect → Prop
  | idle {x : Exchange} (polled : Bool) {done todo : List Record} {phase : Phase} (hrecords : records = done ++ todo)
    (hpending : Pending v x todo phase) :
    Stands v records (.idle x polled) phase (stale v x ++ framesOf todo) phase.messages (done.flatMap handled)
  | reading {x : Exchange} {q : Record} (d : Bool) {done todo : List Record} {phase : Phase} {left : Script.Channel UInt8}
    (hrecords : records = done ++ q :: todo) (hpending : Pending v x (q :: todo) phase) (hleft : [] ∉ left)
    (hd : d = true → x ≠ .signature) :
    Stands v records (.reading x q d left.flatten) phase (left ++ (stale v x.next ++ framesOf todo)) []
      (done.flatMap handled ++ if d then [.dispatch q.word] else [])
  | writing {x : Exchange} {down left : List Message} (hleft : left ≠ []) :
    Stands v records (.writing x left) (.answered x (down ++ left)) (stale v x.next) down (records.flatMap handled)
  | ended {phase : Phase} {up : Script.Channel UInt8} {log : List Effect} (hlog : log <+: records.flatMap handled) :
    Stands v records .ended phase up phase.messages log

section Records
variable {v : Vars} {x : Exchange} {q : Record} {todo : List Record} {phase : Phase}

theorem Pending.asks (h : Pending v x (q :: todo) phase) : Asks v x q := by
  generalize hall : q :: todo = all at h
  cases h with
  | unopened | answered => cases hall
  | asked inputs hx =>
    cases inputs with
    | nil =>
      obtain rfl := (List.cons.inj hall).1
      cases x with
      | signature | authorization | screenInfo | hostname => rfl
      | screenUpdate => exact Or.inl rfl
    | cons event inputs =>
      obtain rfl := (List.cons.inj hall).1
      rcases hx with hx | rfl
      · cases hx
      · exact Or.inr ⟨event, rfl⟩
  | paused inputs =>
    cases inputs with
    | nil => cases hall
    | cons event inputs =>
      obtain rfl := (List.cons.inj hall).1
      exact Or.inr ⟨event, rfl⟩

theorem Pending.messages_eq_nil (h : Pending v x (q :: todo) phase) : phase.messages = [] := by
  generalize hall : q :: todo = all at h
  cases h with
  | answered => cases hall
  | unopened | asked | paused => rfl

theorem Pending.tail {event : InputEvent} (h : Pending v x (.input event :: todo) phase) :
    x = .screenUpdate ∧ Pending v x todo phase := by
  generalize hall : Record.input event :: todo = all at h
  cases h with
  | unopened | answered => cases hall
  | asked inputs hx =>
    cases inputs with
    | nil =>
      have hq := (List.cons.inj hall).1
      cases x with
      | signature | authorization | screenInfo | hostname | screenUpdate => cases hq
    | cons event inputs =>
      obtain rfl := (List.cons.inj hall).2
      rcases hx with hx | rfl
      · cases hx
      · exact ⟨rfl, .asked inputs (Or.inr rfl)⟩
  | paused inputs =>
    cases inputs with
    | nil => cases hall
    | cons event inputs =>
      obtain rfl := (List.cons.inj hall).2
      exact ⟨rfl, .paused inputs⟩

theorem Pending.last (h : Pending v x (q :: todo) phase) (hq : ∀ event, q ≠ .input event) :
    q = question v x ∧ todo = [] ∧ phase = .waiting x := by
  generalize hall : q :: todo = all at h
  cases h with
  | unopened | answered => cases hall
  | asked inputs hx =>
    cases inputs with
    | nil =>
      obtain ⟨rfl, rfl⟩ := List.cons.inj hall
      exact ⟨rfl, rfl, rfl⟩
    | cons event inputs => exact absurd (List.cons.inj hall).1 (hq event)
  | paused inputs =>
    cases inputs with
    | nil => cases hall
    | cons event inputs => exact absurd (List.cons.inj hall).1 (hq event)

theorem frames_ne_nil (q : Record) : (toSend q).frames ≠ [] := by
  cases q <;> simp [toSend, Send.frames]

/-- The frames of a record: its bytes, and the empty frame of an empty password. -/
theorem frames_eq (h : Asks v x q) :
    ∃ frames, (toSend q).frames = frames ++ stale v x.next ∧ frames.flatten = q.bytes ∧ [] ∉ frames := by
  have hword : ∀ w : UInt32, [] ≠ htonl w := fun w => (htonl_ne_nil w).symm
  cases x with
  | signature =>
    obtain rfl : q = .hello := h
    refine ⟨[htonl (UInt32.ofNat clientId.length), clientId], rfl, by simp [Record.bytes, Record.word, Record.payload], ?_⟩
    intro hmem
    rcases List.mem_pair.mp hmem with heq | heq
    · exact hword _ heq
    · exact absurd heq (by decide)
  | authorization =>
    obtain rfl : q = .password v.sessionId := h
    have hhead : [] ≠ htonl Req.authorization.code ++ htonl (UInt32.ofNat v.sessionId.length) := by simp [htonl]
    by_cases hempty : v.sessionId = []
    · refine ⟨[htonl Req.authorization.code ++ htonl (UInt32.ofNat v.sessionId.length)], ?_, ?_, by simpa using hhead⟩
      · simp [toSend, Send.frames, Exchange.next, stale, hempty]
      · simp [Record.bytes, Record.word, Record.payload, hempty]
    · refine ⟨[htonl Req.authorization.code ++ htonl (UInt32.ofNat v.sessionId.length), v.sessionId], ?_, ?_, ?_⟩
      · simp [toSend, Send.frames, Exchange.next, stale, hempty]
      · simp [Record.bytes, Record.word, Record.payload]
      · intro hmem
        rcases List.mem_pair.mp hmem with heq | heq
        · exact hhead heq
        · exact hempty heq.symm
  | screenInfo =>
    obtain rfl : q = .request .screenInfo := h
    exact ⟨[htonl Req.screenInfo.code], rfl, rfl, by simpa using hword _⟩
  | hostname =>
    obtain rfl : q = .request .hostname := h
    exact ⟨[htonl Req.hostname.code], rfl, rfl, by simpa using hword _⟩
  | screenUpdate =>
    rcases h with rfl | ⟨event, rfl⟩
    · exact ⟨[htonl Req.screenUpdate.code], rfl, rfl, by simpa using hword _⟩
    · refine ⟨[event.bytes], rfl, by simp [Receiver.record_bytes], ?_⟩
      have hlen := Receiver.bytes_length event
      rintro hmem
      rw [← List.mem_singleton.mp hmem] at hlen
      cases hlen

end Records

/-! ## Steps of the projector -/

section Projector
variable {v : Vars} {records : List Record} {x : Exchange} {phase : Phase}

theorem stands_after {down left : List Message} :
    Stands v records (.after x left) (.answered x (down ++ left)) (stale v x.next) down (records.flatMap handled) := by
  cases left with
  | nil =>
    have hidle := @Stands.idle v records x.next false records [] _ (List.append_nil _).symm (.answered x down)
    simpa [Position.after, framesOf, Phase.messages] using hidle
  | cons m left => exact .writing (List.cons_ne_nil _ _)

theorem handled_of_dispatched {q : Record} {d : Bool} (h : d = true → q ≠ .hello) :
    (if d then [Effect.dispatch q.word] else []) <+: handled q := by
  cases d with
  | false => exact List.nil_prefix
  | true =>
    cases q with
    | hello => exact absurd rfl (h rfl)
    | password text => exact List.prefix_rfl
    | request req => exact List.prefix_rfl
    | input event => exact ⟨[effectOf event], rfl⟩

/-- How the phase of the browser moves with a step of the projector: an answer begins. -/
def Begins (v : Vars) (phase phase' : Phase) : Prop :=
  phase' = phase ∨ ∃ x ms, phase = .waiting x ∧ phase' = .answered x ms ∧ ms ≠ [] ∧ Answers v x ms

theorem stands_idle {polled : Bool} {done todo : List Record} {s : Session} {e : Effect} {r : Response e}
    {c : Script.Channel UInt8 × List Message} (hrecords : records = done ++ todo) (hpending : Pending v x todo phase)
    (hup : s.up = stale v x ++ framesOf todo) (hdown : s.down = phase.messages)
    (hok : (Position.idle x polled).Allows v e) (hc : s.channels e r = some c) :
    ∃ p', (Position.idle x polled).Moves v e r p' ∧
      Stands v records p' phase c.1 c.2 (done.flatMap handled ++ Receiver.logged e) := by
  have hprefix : done.flatMap handled <+: records.flatMap handled := by
    rw [hrecords, List.flatMap_append]
    exact List.prefix_append _ _
  cases polled with
  | false =>
    cases e with
    | isStarted =>
      obtain rfl : (s.up, s.down) = c := Option.some.inj hc
      refine ⟨_, rfl, ?_⟩
      rw [Receiver.logged_isStarted, List.append_nil, hup, hdown]
      cases r with
      | false => exact .ended hprefix
      | true => exact .idle true hrecords hpending
    | _ => exact absurd hok id
  | true =>
    cases e with
    | tcpRead n =>
      obtain rfl : n = 4 := hok
      obtain ⟨up, hread, rfl⟩ := Option.map_eq_some_iff.mp hc
      rw [hup] at hread
      rw [Receiver.logged_tcpRead, List.append_nil, hdown]
      by_cases hstale : stale v x = []
      · rw [hstale, List.nil_append] at hread
        cases todo with
        | nil => cases hread
        | cons q todo =>
          obtain ⟨frames, hframes, hbytes, hempty⟩ := frames_eq hpending.asks
          have hsplit : framesOf (q :: todo) = frames ++ (stale v x.next ++ framesOf todo) := by
            rw [framesOf, List.flatMap_cons, hframes, List.append_assoc]
            rfl
          have hne : frames ≠ [] := by
            rintro rfl
            have hlen := congrArg List.length hbytes
            rw [Record.bytes, List.length_append, htonl_length, List.flatten_nil, List.length_nil] at hlen
            omega
          rw [hsplit] at hread
          obtain ⟨hgot, hle, hpiece, left, rfl, hleft, hempty'⟩ := Script.read_frames hempty hne hread
          rw [hbytes] at hpiece hleft
          refine ⟨_, Or.inl ⟨q, hpending.asks, hgot, hle, hpiece, rfl⟩, ?_⟩
          have hreading := @Stands.reading v records x q false done todo phase left hrecords hpending hempty' (by simp)
          rw [hleft] at hreading
          simpa [hpending.messages_eq_nil] using hreading
      · -- the empty frame of an empty password ends the session
        obtain ⟨rfl, hpassword⟩ : x = .screenInfo ∧ v.sessionId = [] := by
          cases x with
          | screenInfo =>
            refine ⟨rfl, ?_⟩
            by_contra hne
            exact hstale (if_neg hne)
          | signature | authorization | hostname | screenUpdate => exact absurd rfl hstale
        rw [stale, if_pos hpassword] at hread
        have hgot : r = [] := by
          by_contra hne
          simp [Script.read, hne] at hread
        exact ⟨_, Or.inr ⟨hpassword, rfl, hgot, rfl⟩, .ended hprefix⟩
    | _ => exact absurd hok id

theorem eq_nil_of_flatten {left : Script.Channel UInt8} (hleft : [] ∉ left) (h : left.flatten = []) : left = [] := by
  cases left with
  | nil => rfl
  | cons frame left =>
    rw [List.flatten_cons, List.append_eq_nil_iff] at h
    rw [h.1] at hleft
    exact absurd List.mem_cons_self hleft

theorem stands_answer {q : Record} {d : Bool} {done todo : List Record} {ms : List Message}
    (hrecords : records = done ++ q :: todo) (hpending : Pending v x (q :: todo) phase) (hq : ∀ event, q ≠ .input event)
    (hd : d = true → x ≠ .signature) (hdispatched : d = true ∨ x = .signature) (hms : ms ≠ []) (hanswers : Answers v x ms) :
    Begins v phase (.answered x ms) ∧ framesOf todo = [] ∧
      done.flatMap handled ++ (if d then [.dispatch q.word] else []) = records.flatMap handled := by
  obtain ⟨rfl, rfl, rfl⟩ := hpending.last hq
  refine ⟨Or.inr ⟨x, ms, rfl, rfl, hms, hanswers⟩, rfl, ?_⟩
  rw [hrecords, List.flatMap_append]
  congr 1
  cases d with
  | true =>
    cases x with
    | signature => exact absurd rfl (hd rfl)
    | authorization | screenInfo | hostname | screenUpdate => rfl
  | false =>
    obtain rfl : x = .signature := hdispatched.resolve_left Bool.false_ne_true
    rfl

theorem stands_reply {q : Record} {d : Bool} {done todo : List Record} {s : Session} {left : Script.Channel UInt8}
    {kind : WriteKind} {data : Bytes} {sent : Bool} {c : Script.Channel UInt8 × List Message}
    (hrecords : records = done ++ q :: todo) (hpending : Pending v x (q :: todo) phase) (hleft : [] ∉ left)
    (hd : d = true → x ≠ .signature) (hup : s.up = left ++ (stale v x.next ++ framesOf todo)) (hdown : s.down = [])
    (hok : left.flatten = [] ∧ (d = true ∨ x = .signature) ∧ (reply v x).head? = some (kind, data))
    (hc : s.channels (.tcpWrite kind data) sent = some c) :
    sent = true ∧ ∃ phase', Begins v phase phase' ∧ Stands v records (.after x (reply v x).tail) phase' c.1 c.2
      (done.flatMap handled ++ if d then [.dispatch q.word] else []) := by
  obtain ⟨hflat, hdispatched, hhead⟩ := hok
  obtain rfl := eq_nil_of_flatten hleft hflat
  simp only [Session.channels, Option.ite_none_right_eq_some, Option.some.injEq] at hc
  obtain ⟨hsent, rfl⟩ := hc
  have hreply : reply v x = (kind, data) :: (reply v x).tail := (List.cons_head?_tail hhead).symm
  have hanswers : Answers v x (reply v x) := by
    cases x with
    | authorization => exact Or.inl rfl
    | screenUpdate => cases hhead
    | signature | screenInfo | hostname => rfl
  have hq : ∀ event, q ≠ .input event := by
    rintro event rfl
    obtain ⟨rfl, _⟩ := hpending.tail
    cases hhead
  obtain ⟨hbegins, hframes, hlog⟩ := stands_answer hrecords hpending hq hd hdispatched (by rw [hreply]; simp) hanswers
  refine ⟨hsent, _, hbegins, ?_⟩
  have hafter := @stands_after v records x [(kind, data)] (reply v x).tail
  rw [List.singleton_append, ← hreply] at hafter
  rw [hlog, hup, hdown, hframes, List.append_nil]
  exact hafter

theorem stands_input {event : InputEvent} {done todo : List Record} {left : Script.Channel UInt8}
    (hrecords : records = done ++ .input event :: todo) (hpending : Pending v x (.input event :: todo) phase)
    (hleft : [] ∉ left) (hflat : left.flatten = []) :
    Stands v records (.idle x false) phase (left ++ (stale v x.next ++ framesOf todo)) []
      (done.flatMap handled ++ [.dispatch event.req.code] ++ [effectOf event]) := by
  obtain rfl := eq_nil_of_flatten hleft hflat
  have hmessages := hpending.messages_eq_nil
  obtain ⟨rfl, hpending⟩ := hpending.tail
  have hidle := @Stands.idle v records .screenUpdate false (done ++ [.input event]) todo phase (by simpa using hrecords) hpending
  have hlog : (done ++ [Record.input event]).flatMap handled =
      done.flatMap handled ++ [.dispatch event.req.code] ++ [effectOf event] := by
    rw [List.flatMap_append, List.append_assoc]
    rfl
  rw [hlog, hmessages] at hidle
  exact hidle

theorem allows_reply {q : Record} {d : Bool} {rest data : Bytes} {kind : WriteKind} (hkind : kind ≠ .authorizationStatus false)
    (hok : (Position.reading x q d rest).Allows v (.tcpWrite kind data)) :
    (rest = [] ∧ (d = true ∨ x = .signature) ∧ (reply v x).head? = some (kind, data)) ∧
      ∀ sent, sent = true →
        (Position.reading x q d rest).Moves v (.tcpWrite kind data) sent (.after x (reply v x).tail) := by
  cases kind with
  | authorizationStatus accepted =>
    cases accepted with
    | false => exact absurd rfl hkind
    | true => cases d <;> exact ⟨hok, fun _ hsent => ⟨hsent, rfl⟩⟩
  | signatureLength | signature | answer => cases d <;> exact ⟨hok, fun _ hsent => ⟨hsent, rfl⟩⟩

theorem stands_reading {q : Record} {d : Bool} {done todo : List Record} {s : Session} {left : Script.Channel UInt8}
    {e : Effect} {r : Response e} {c : Script.Channel UInt8 × List Message} (hrecords : records = done ++ q :: todo)
    (hpending : Pending v x (q :: todo) phase) (hleft : [] ∉ left) (hd : d = true → x ≠ .signature)
    (hup : s.up = left ++ (stale v x.next ++ framesOf todo)) (hdown : s.down = [])
    (hok : (Position.reading x q d left.flatten).Allows v e) (hc : s.channels e r = some c) :
    ∃ p' phase', (Position.reading x q d left.flatten).Moves v e r p' ∧ Begins v phase phase' ∧
      Stands v records p' phase' c.1 c.2
        ((done.flatMap handled ++ if d then [.dispatch q.word] else []) ++ Receiver.logged e) := by
  cases e with
  | tcpRead n =>
    obtain ⟨up, hread, rfl⟩ := Option.map_eq_some_iff.mp hc
    have hne : left ≠ [] := by
      rintro rfl
      have hlen := Nat.lt_of_lt_of_le hok.1 hok.2
      cases hlen
    rw [hup] at hread
    obtain ⟨hgot, hle, hpiece, left', rfl, hflat, hleft'⟩ := Script.read_frames hleft hne hread
    refine ⟨_, phase, ⟨hgot, hle, hpiece, rfl⟩, Or.inl rfl, ?_⟩
    rw [Receiver.logged_tcpRead, List.append_nil, hdown, ← hflat]
    exact .reading d hrecords hpending hleft' hd
  | dispatch req =>
    cases d with
    | true => exact absurd hok id
    | false =>
      obtain ⟨rfl, _, hx⟩ := hok
      obtain rfl : (s.up, s.down) = c := Option.some.inj hc
      refine ⟨_, phase, rfl, Or.inl rfl, ?_⟩
      have hreading := @Stands.reading v records x q true done todo phase left hrecords hpending hleft (fun _ => hx)
      rw [hup, hdown]
      simpa [Receiver.logged] using hreading
  | keyboardEvent down key =>
    obtain rfl : (s.up, s.down) = c := Option.some.inj hc
    cases q with
    | input event =>
      cases d with
      | true =>
        obtain ⟨hflat, heffect⟩ := hok
        refine ⟨_, phase, rfl, Or.inl rfl, ?_⟩
        rw [hup, hdown]
        have hinput := stands_input hrecords hpending hleft hflat
        rw [heffect] at hinput
        exact hinput
      | false => exact absurd hok id
    | hello | password | request => cases d <;> exact absurd hok id
  | mouseEvent buttons px py =>
    obtain rfl : (s.up, s.down) = c := Option.some.inj hc
    cases q with
    | input event =>
      cases d with
      | true =>
        obtain ⟨hflat, heffect⟩ := hok
        refine ⟨_, phase, rfl, Or.inl rfl, ?_⟩
        rw [hup, hdown]
        have hinput := stands_input hrecords hpending hleft hflat
        rw [heffect] at hinput
        exact hinput
      | false => exact absurd hok id
    | hello | password | request => cases d <;> exact absurd hok id
  | grabScreen =>
    cases d with
    | false => exact absurd hok id
    | true =>
      obtain ⟨rfl, rfl, hflat⟩ := hok
      obtain rfl := eq_nil_of_flatten hleft hflat
      cases r with
      | none => cases hc
      | some regions =>
        simp only [Session.channels, Option.ite_none_right_eq_some, Option.some.injEq] at hc
        obtain ⟨hsendable, rfl⟩ := hc
        have hne : updateMessages regions ≠ [] := List.cons_ne_nil _ _
        obtain ⟨hbegins, hframes, hlog⟩ := stands_answer hrecords hpending (by simp) hd (Or.inl rfl) hne
          ⟨regions, hsendable, rfl⟩
        refine ⟨_, _, ⟨regions, rfl, hsendable, rfl⟩, hbegins, ?_⟩
        have hwriting := @Stands.writing v records .screenUpdate [] (updateMessages regions) hne
        rw [hlog, hup, hdown, hframes, List.append_nil]
        simpa [Receiver.logged] using hwriting
  | tcpWrite kind data =>
    by_cases hkind : kind = .authorizationStatus false
    · subst hkind
      obtain ⟨rfl, rfl, _⟩ : x = .authorization ∧ data = htonl 1 ∧ 255 < v.sessionId.length := by cases d <;> exact hok
      simp only [Session.channels, Option.ite_none_right_eq_some, Option.some.injEq] at hc
      obtain ⟨_, rfl⟩ := hc
      obtain rfl : q = .password v.sessionId := hpending.asks
      obtain ⟨_, rfl, rfl⟩ := hpending.last (by simp)
      refine ⟨_, .answered .authorization [(.authorizationStatus false, htonl 1)], rfl,
        Or.inr ⟨_, _, rfl, rfl, by simp, Or.inr rfl⟩, ?_⟩
      rw [hdown]
      refine .ended ?_
      rw [hrecords, List.flatMap_append, List.flatMap_singleton, List.append_assoc]
      refine (List.prefix_append_right_inj _).mpr ?_
      simpa [Receiver.logged] using @handled_of_dispatched (.password v.sessionId) d (by simp)
    · obtain ⟨hreply, hmoves⟩ := allows_reply hkind hok
      obtain ⟨hsent, phase', hbegins, hstands⟩ := stands_reply hrecords hpending hleft hd hup hdown hreply hc
      refine ⟨_, phase', hmoves r hsent, hbegins, ?_⟩
      simpa [Receiver.logged] using hstands
  | setStatus status =>
    obtain rfl : (s.up, s.down) = c := Option.some.inj hc
    refine ⟨_, phase, rfl, Or.inl rfl, ?_⟩
    rw [hup, hdown]
    simpa [Receiver.logged] using @Stands.reading v records x q d done todo phase left hrecords hpending hleft hd
  | _ => cases d <;> exact absurd hok id

theorem stands_step {p : Position} {s : Session} {e : Effect} {r : Response e} {c : Script.Channel UInt8 × List Message}
    (hs : Stands v records p phase s.up s.down s.log) (hok : p.Allows v e) (hc : s.channels e r = some c) :
    ∃ p' phase', p.Moves v e r p' ∧ Begins v phase phase' ∧
      Stands v records p' phase' c.1 c.2 (s.log ++ Receiver.logged e) := by
  generalize hup : s.up = up at hs
  generalize hdown : s.down = down at hs
  generalize s.log = log at hs ⊢
  cases hs with
  | idle polled hrecords hpending =>
    obtain ⟨p', hmoves, hstands⟩ := stands_idle hrecords hpending hup hdown hok hc
    exact ⟨p', phase, hmoves, Or.inl rfl, hstands⟩
  | reading d hrecords hpending hleft hd => exact stands_reading hrecords hpending hleft hd hup hdown hok hc
  | @writing x down left hleft =>
    cases e with
    | tcpWrite kind data =>
      have hhead : left.head? = some (kind, data) := hok
      simp only [Session.channels, Option.ite_none_right_eq_some, Option.some.injEq] at hc
      obtain ⟨hsent, rfl⟩ := hc
      refine ⟨_, _, ⟨hsent, rfl⟩, Or.inl rfl, ?_⟩
      have hafter := @stands_after v records x (down ++ [(kind, data)]) left.tail
      rw [List.append_assoc, List.singleton_append, List.cons_head?_tail hhead] at hafter
      rw [hup, hdown]
      simpa [Receiver.logged] using hafter
    | _ => exact absurd hok id
  | ended hlog =>
    cases e with
    | setStatus | tcpClose | setConnected =>
      obtain rfl : (s.up, s.down) = c := Option.some.inj hc
      refine ⟨_, phase, rfl, Or.inl rfl, ?_⟩
      rw [hdown]
      exact .ended (by simpa [Receiver.logged] using hlog)
    | _ => exact absurd hok id

end Projector

/-! ## Steps of the browser -/

section Handlers
variable {v : Vars} {records : List Record} {p : Position} {phase : Phase} {up : Script.Channel UInt8}
  {down : List Message} {log : List Effect}

theorem Stands.answered {m : Message} (h : Stands v records p phase up (m :: down) log) :
    ∃ x ms, phase = .answered x (m :: ms) ∧ (ms = [] → down = []) := by
  generalize hall : m :: down = all at h
  cases h with
  | idle polled hrecords hpending =>
    cases phase with
    | answered x ms =>
      obtain rfl : m :: down = ms := hall
      exact ⟨x, down, rfl, id⟩
    | unopened | waiting | paused => cases hall
  | reading => cases hall
  | @writing x _ left hleft =>
    subst hall
    exact ⟨x, down ++ left, rfl, fun h => (List.append_eq_nil_iff.mp h).1⟩
  | ended hlog =>
    cases phase with
    | answered x ms =>
      obtain rfl : m :: down = ms := hall
      exact ⟨x, down, rfl, id⟩
    | unopened | waiting | paused => cases hall

theorem Stands.receives {x : Exchange} {m : Message} {ms : List Message}
    (h : Stands v records p (.answered x (m :: ms)) up (m :: down) log) :
    Stands v records p (.answered x ms) up down log := by
  generalize hall : m :: down = all at h
  generalize hphase : Phase.answered x (m :: ms) = phase at h
  cases h with
  | @idle x' polled done todo _ hrecords hpending =>
    subst hphase
    obtain rfl : down = ms := (List.cons.inj hall).2
    cases hpending
    exact @Stands.idle v records x.next polled done [] (.answered x down) hrecords (.answered x down)
  | reading => cases hall
  | writing hleft =>
    subst hall
    obtain ⟨rfl, hms⟩ := Phase.answered.inj hphase
    obtain rfl := (List.cons.inj hms).2
    exact .writing hleft
  | ended hlog =>
    subst hphase
    obtain rfl : down = ms := (List.cons.inj hall).2
    exact .ended hlog

theorem Stands.sends {phase' : Phase} {new : List Record} (h : Stands v records p phase up down log)
    (hmessages : phase'.messages = []) (hwriting : ∀ x left, phase = .answered x (down ++ left) → left = [])
    (hpending : ∀ x todo, Pending v x todo phase → Pending v x (todo ++ new) phase') :
    Stands v (records ++ new) p phase' (up ++ framesOf new) [] log := by
  have happend : ∀ todo : List Record, framesOf (todo ++ new) = framesOf todo ++ framesOf new :=
    fun todo => List.flatMap_append
  cases h with
  | @idle x polled done todo _ hrecords hold =>
    have hidle := @Stands.idle v (records ++ new) x polled done (todo ++ new) phase'
      (by rw [hrecords, List.append_assoc]) (hpending x todo hold)
    rwa [happend, ← List.append_assoc, hmessages] at hidle
  | @reading x q d done todo _ left hrecords hold hleft hd =>
    have hreading := @Stands.reading v (records ++ new) x q d done (todo ++ new) phase' left
      (by rw [hrecords, List.append_assoc, List.cons_append]) (hpending x _ hold) hleft hd
    rwa [happend, ← List.append_assoc (stale v x.next), ← List.append_assoc left] at hreading
  | writing hleft => exact absurd (hwriting _ _ rfl) hleft
  | ended hlog =>
    have hprefix : log <+: (records ++ new).flatMap handled := by
      rw [List.flatMap_append]
      exact hlog.trans (List.prefix_append _ _)
    have hended := @Stands.ended v (records ++ new) phase' (up ++ framesOf new) log hprefix
    rwa [hmessages] at hended

end Handlers

end BrowserSession
end LilitunRemote

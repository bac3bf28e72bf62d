import LilitunRemote.Session.BrowserSession

/-! # Runs of a browser with a projector

What a browser has sent, received and queued in a session, and that the two stay in step
in every run.
-/
namespace LilitunRemote
namespace BrowserSession
open Projector Browser

/-! ## What the browser did so far -/

/-- The events so far: each message met its state, the requests and the input events were
sent in turn, and the queued events are those in the records and in the queue. -/
structure Recorded (history : List Event) (records : List Record) (queue : List InputEvent) (turn : Turn) : Prop where
  meant : ∀ e ∈ history, e.Meant
  turns : Transition.run Turn.step .fresh history = some turn
  sent : history.filterMap Event.send? = records.map toSend
  queued : history.filterMap Event.queued? = records.filterMap inputOf ++ queue

namespace Recorded
variable {history : List Event} {records : List Record} {queue : List InputEvent} {turn : Turn}

theorem meant_append {events : List Event} (h : Recorded history records queue turn) (hevents : ∀ e ∈ events, e.Meant) :
    ∀ e ∈ history ++ events, e.Meant := by
  intro e he
  rcases List.mem_append.mp he with he | he
  · exact h.meant e he
  · exact hevents e he

theorem received {kind : WriteKind} {request : Request} {state : State} {regions : ℤ}
    (h : Recorded history records queue turn) (hmeant : Meant kind request state regions) :
    Recorded (history ++ [.received kind request state regions]) records queue
      (if completes kind then .completed else turn) where
  meant := h.meant_append (List.forall_mem_singleton.mpr hmeant)
  turns := by
    refine Transition.run_concat.mpr ⟨turn, h.turns, ?_⟩
    cases turn <;> simp only [Turn.step] <;> split <;> rfl
  sent := by
    rw [List.filterMap_append, h.sent]
    exact List.append_nil _
  queued := by
    rw [List.filterMap_append, h.queued]
    exact List.append_nil _

theorem asks (v : Vars) {x : Exchange} (h : Recorded history records queue turn)
    (hturn : turn = .fresh ∨ turn = .completed ∧ x = .screenUpdate) :
    Recorded (history ++ [.sent (toSend (question v x))]) (records ++ [question v x]) queue (Phase.waiting x).turn where
  meant := h.meant_append (by simp [Event.Meant])
  turns := by
    refine Transition.run_concat.mpr ⟨turn, h.turns, ?_⟩
    rcases hturn with rfl | ⟨rfl, rfl⟩
    · cases x <;> rfl
    · rfl
  sent := by simp [h.sent, Event.send?]
  queued := by
    have hinput : inputOf (question v x) = none := by cases x <;> rfl
    simp [h.queued, Event.queued?, hinput]

theorem inputs (h : Recorded history records queue .completed) :
    Recorded (history ++ (queue.map Send.inputEvent).map .sent) (records ++ queue.map .input) [] .completed where
  meant := h.meant_append (by simp [Event.Meant])
  turns := by
    refine Transition.run_append.mpr ⟨_, h.turns, ?_⟩
    clear h
    induction queue with
    | nil => rfl
    | cons event queue ih => exact ih
  sent := by
    have hsent : ((queue.map Send.inputEvent).map Event.sent).filterMap Event.send? = (queue.map Record.input).map toSend := by
      simp [List.filterMap_map, Event.send?, toSend, Function.comp_def]
    rw [List.filterMap_append, h.sent, hsent, List.map_append]
  queued := by
    have hnone : ((queue.map Send.inputEvent).map Event.sent).filterMap Event.queued? = [] := by
      simp [Event.queued?]
    have hinputs : (queue.map Record.input).filterMap inputOf = queue := by
      simp [List.filterMap_map, inputOf, Function.comp_def]
    rw [List.filterMap_append, h.queued, hnone, List.filterMap_append, hinputs, List.append_nil]

theorem queues (h : Recorded history records queue turn) (events : List InputEvent) :
    Recorded (history ++ events.map .queued) records (queue ++ events) turn where
  meant := h.meant_append (by simp [Event.Meant])
  turns := by
    refine Transition.run_append.mpr ⟨_, h.turns, ?_⟩
    clear h
    induction events with
    | nil => rfl
    | cons event events ih =>
      refine Transition.run_cons.mpr ⟨turn, ?_, ih⟩
      cases turn <;> rfl
  sent := by
    have hnone : (events.map Event.queued).filterMap Event.send? = [] := by simp [Event.send?]
    rw [List.filterMap_append, h.sent, hnone, List.append_nil]
  queued := by
    have hall : (events.map Event.queued).filterMap Event.queued? = events := by
      simp [List.filterMap_map, Event.queued?, Function.comp_def]
    rw [List.filterMap_append, h.queued, hall, List.append_assoc]

end Recorded

/-! ## Sessions -/

/-- The thread follows the dialogue, the dialogue stands with the browser, and the browser
fits its phase and its events. -/
structure Ok (v : Vars) (s : Session) (records : List Record) (phase : Phase) : Prop where
  stands : ∃ p, (dialogue v).Obeys p s.thread (Monitor.LoopPost Dialogue.AtLoop Dialogue.AtEnd) ∧
    Stands v records p phase s.up s.down s.log
  moving : ∀ loop, s.thread ≠ .ret (Sum.inl loop)
  fits : phase.Fits v s.opened s.client
  recorded : Recorded s.history records s.client.inputEvents phase.turn

section Sessions
variable {v : Vars} {s t : Session} {records : List Record} {phase : Phase}

theorem start_ok (hserver : v.server = true) : Ok v (Session.start v) [] .unopened where
  stands := by
    refine ⟨.idle .signature true, Dialogue.projectorThread_obeys hserver, ?_⟩
    exact @Stands.idle v [] .signature true [] [] .unopened rfl .unopened
  moving := by
    intro loop hthread
    simp only [Session.start, projectorThread, hserver] at hthread
    cases hthread
  fits := ⟨rfl, rfl⟩
  recorded := ⟨by simp [Session.start], rfl, rfl, rfl⟩

theorem Begins.fits {phase' : Phase} {opened : Bool} {b : Client} (h : Begins v phase phase') (hfits : phase.Fits v opened b) :
    phase'.Fits v opened b ∧ phase'.turn = phase.turn := by
  rcases h with rfl | ⟨x, ms, rfl, rfl, hms, hanswers⟩
  · exact ⟨hfits, rfl⟩
  · obtain ⟨hopened, hat, htimeouts⟩ := hfits
    refine ⟨⟨hopened, hms, .first hat hanswers, htimeouts⟩, ?_⟩
    cases x <;> rfl

theorem projector_ok (hnul : 0 ∉ v.sessionId) (hlen : v.sessionId.length < 2 ^ 31) {e : Effect} {r : Response e}
    (hs : Ok v s records phase) (h : s.step v v.sessionId (.projector e r) = some t) :
    ∃ phase', Ok v t records phase' := by
  obtain ⟨p', hfeed, h⟩ := Option.bind_eq_some_iff.mp h
  obtain ⟨c, hc, h⟩ := Option.bind_eq_some_iff.mp h
  obtain rfl := Option.some.inj h
  obtain ⟨p, hobeys, hstands⟩ := hs.stands
  obtain ⟨k, hk, _⟩ := Proc.feed_eq_some.mp hfeed
  have hok : p.Allows v e := by
    rw [hk] at hobeys
    exact hobeys.1
  obtain ⟨q, phase', hmoves, hbegins, hstands'⟩ := stands_step hstands hok hc
  obtain ⟨hfits, hturn⟩ := hbegins.fits hs.fits
  refine ⟨phase', ⟨q, ?_, hstands'⟩, Proc.resume_ne_inl (body_ne_inl v) p', hfits, ?_⟩
  · exact Monitor.obeys_feed (Dialogue.body_obeys hnul hlen) hobeys hfeed hmoves
  · rw [hturn]
    exact hs.recorded

theorem react_ok {out : Client × List Send} {new : List Record} {phase' : Phase} {down : List Message}
    (hstands : ∃ p, (dialogue v).Obeys p s.thread (Monitor.LoopPost Dialogue.AtLoop Dialogue.AtEnd) ∧
      Stands v records p phase s.up down s.log)
    (hmoving : ∀ loop, s.thread ≠ .ret (Sum.inl loop)) (hdown : s.down = []) (hsends : out.2 = new.map toSend) (hmessages : phase'.messages = [])
    (hwriting : ∀ x left, phase = .answered x (down ++ left) → left = [])
    (hpending : ∀ x todo, Pending v x todo phase → Pending v x (todo ++ new) phase')
    (hfits : phase'.Fits v s.opened out.1)
    (hrecorded : Recorded (s.history ++ out.2.map .sent) (records ++ new) out.1.inputEvents phase'.turn) :
    Ok v (s.react out) (records ++ new) phase' := by
  obtain ⟨p, hobeys, hstands⟩ := hstands
  refine ⟨⟨p, hobeys, ?_⟩, hmoving, hfits, hrecorded⟩
  have hsent := hstands.sends hmessages hwriting hpending
  have hframes : out.2.flatMap Send.frames = framesOf new := by
    rw [hsends, List.flatMap_map]
    rfl
  rw [← hframes, ← hdown] at hsent
  exact hsent

theorem Stands.down_eq_nil {p : Position} {up : Script.Channel UInt8} {down : List Message} {log : List Effect}
    (h : Stands v records p phase up down log) (hphase : phase.messages = []) : down = [] := by
  cases h with
  | idle | ended => exact hphase
  | reading => rfl
  | writing hleft => exact (List.append_eq_nil_iff.mp hphase).1

theorem onopen_ok (hs : Ok v s records phase) (h : s.step v v.sessionId .onopen = some t) :
    ∃ records' phase', Ok v t records' phase' := by
  simp only [Session.step] at h
  split at h
  · cases h
  · next hopened =>
    obtain rfl := Option.some.inj h
    cases phase with
    | unopened =>
      obtain ⟨p, hobeys, hstands⟩ := hs.stands
      refine ⟨records ++ [.hello], .waiting .signature, ?_⟩
      refine react_ok ⟨p, hobeys, hstands⟩ hs.moving (hstands.down_eq_nil rfl) rfl rfl ?_ ?_ ⟨rfl, ⟨rfl, rfl⟩, hs.fits.2⟩ ?_
      · intro x left heq
        cases heq
      · intro x todo hpending
        cases hpending
        exact @Pending.asked v .signature [] (Or.inl rfl)
      · exact @Recorded.asks _ _ _ _ v .signature hs.recorded (Or.inl rfl)
    | waiting x => exact absurd hs.fits.1 hopened
    | answered x ms => exact absurd hs.fits.1 hopened
    | paused => exact absurd hs.fits.1 hopened

theorem left_eq_nil {x y : Exchange} {m : Message} {down left : List Message}
    (h : Phase.answered x [m] = .answered y (m :: down ++ left)) : left = [] := by
  have happend : [] = down ++ left := (List.cons.inj (Phase.answered.inj h).2).2
  exact (List.append_eq_nil_iff.mp happend.symm).2

theorem onmessage_ok (hs : Ok v s records phase) (h : s.step v v.sessionId .onmessage = some t) :
    ∃ records' phase', Ok v t records' phase' := by
  obtain ⟨p, hobeys, hstands⟩ := hs.stands
  cases hdown : s.down with
  | nil => simp [Session.step, hdown] at h
  | cons m down =>
    simp only [Session.step, hdown] at h
    obtain rfl := Option.some.inj h
    rw [hdown] at hstands
    obtain ⟨x, ms, rfl, hnil⟩ := hstands.answered
    obtain ⟨hopened, _, hexpects, htimeouts⟩ := hs.fits
    have hreceived := hs.recorded.received hexpects.meant
    rw [hexpects.completes] at hreceived
    cases onmessage_outcome hexpects with
    | more hms hsends hexpects' hevents htimeouts' =>
      refine ⟨records, .answered x ms, ⟨p, hobeys, ?_⟩, hs.moving, ⟨hopened, hms, hexpects', htimeouts'.trans htimeouts⟩, ?_⟩
      · simpa [Session.react, hsends] using hstands.receives
      · have hturn : (Phase.answered x ms).turn = (Phase.answered x (m :: ms)).turn := by cases x <;> rfl
        simpa [Session.react, hsends, hevents, hms, hturn] using hreceived
    | next hms hx hsends hat hevents htimeouts' =>
      subst hms
      refine ⟨records ++ [question v x.next], .waiting x.next, ?_⟩
      refine react_ok ⟨p, hobeys, hstands⟩ hs.moving (hnil rfl) hsends rfl ?_ ?_ ⟨hopened, hat, htimeouts'.trans htimeouts⟩ ?_
      · intro y left heq
        exact left_eq_nil heq
      · intro y todo hpending
        cases hpending
        exact @Pending.asked v x.next [] (Or.inl rfl)
      · rw [hsends, hevents]
        have hfresh : (Phase.answered x [m]).turn = .fresh := by
          cases x with
          | screenUpdate => exact absurd rfl hx
          | signature | authorization | screenInfo | hostname => rfl
        simp only [hx, false_and, decide_false, Bool.false_eq_true, if_false] at hreceived
        exact hreceived.asks v (Or.inl hfresh)
    | complete hms hx hsends hat hevents htimeouts' =>
      subst hms
      subst hx
      refine ⟨records ++ s.client.inputEvents.map .input, .paused, ?_⟩
      refine react_ok ⟨p, hobeys, hstands⟩ hs.moving (hnil rfl) ?_ rfl ?_ ?_ ⟨hopened, hat, htimeouts'.trans (by rw [htimeouts])⟩ ?_
      · rw [hsends, List.map_map]
        rfl
      · intro y left heq
        exact left_eq_nil heq
      · intro y todo hpending
        cases hpending
        exact .paused _
      · rw [hsends, hevents]
        exact hreceived.inputs

theorem ontimeout_ok (hs : Ok v s records phase) (h : s.step v v.sessionId .ontimeout = some t) :
    ∃ records' phase', Ok v t records' phase' := by
  obtain ⟨out, hout, rfl⟩ := Option.map_eq_some_iff.mp h
  simp only [Client.ontimeout] at hout
  split at hout
  · cases hout
  · next hpositive =>
    obtain rfl := Option.some.inj hout
    cases phase with
    | unopened => exact absurd hs.fits.2 hpositive
    | waiting x => exact absurd hs.fits.2.2 hpositive
    | answered x ms => exact absurd hs.fits.2.2.2 hpositive
    | paused =>
      obtain ⟨p, hobeys, hstands⟩ := hs.stands
      obtain ⟨hopened, hat, htimeouts⟩ := hs.fits
      refine ⟨records ++ [question v .screenUpdate], .waiting .screenUpdate, ?_⟩
      refine react_ok ⟨p, hobeys, hstands⟩ hs.moving (hstands.down_eq_nil rfl) ?_ rfl ?_ ?_ ⟨hopened, hat, by simp [htimeouts]⟩ ?_
      · simp [hat.1, requestOf, toSend, question]
      · intro x left heq
        cases heq
      · intro x todo hpending
        cases hpending with
        | paused inputs => exact .asked inputs (Or.inr rfl)
      · rw [hat.1]
        exact @Recorded.asks _ _ _ _ v .screenUpdate hs.recorded (Or.inr ⟨rfl, rfl⟩)

theorem Phase.Fits.congr {opened : Bool} {b b' : Client} (h : phase.Fits v opened b) (hrequest : b'.request = b.request)
    (hstate : b'.state = b.state) (hdataLen : b'.dataLen = b.dataLen) (hregions : b'.regions = b.regions)
    (htimeouts : b'.timeouts = b.timeouts) : phase.Fits v opened b' := by
  cases phase with
  | unopened => exact ⟨h.1, htimeouts.trans h.2⟩
  | waiting x => exact ⟨h.1, ⟨hrequest.trans h.2.1.1, hstate.trans h.2.1.2⟩, htimeouts.trans h.2.2⟩
  | answered x ms => exact ⟨h.1, h.2.1, h.2.2.1.congr hrequest hstate hdataLen hregions, htimeouts.trans h.2.2.2⟩
  | paused => exact ⟨h.1, ⟨hrequest.trans h.2.1.1, hstate.trans h.2.1.2⟩, htimeouts.trans h.2.2⟩

theorem oninput_ok {events : List InputEvent} (hs : Ok v s records phase)
    (h : s.step v v.sessionId (.oninput events) = some t) : Ok v t records phase := by
  obtain rfl := Option.some.inj h
  cases hdevices : s.client.inputDevices with
  | false => exact ⟨hs.stands, hs.moving, by simpa [Client.oninput, hdevices] using hs.fits,
      by simpa [Client.oninput, hdevices] using hs.recorded⟩
  | true =>
    refine ⟨hs.stands, hs.moving, ?_, ?_⟩
    · simp only [Client.oninput, hdevices, if_true]
      exact hs.fits.congr rfl rfl rfl rfl rfl
    · simp only [Client.oninput, hdevices, if_true]
      exact hs.recorded.queues events

theorem step_ok (hnul : 0 ∉ v.sessionId) (hlen : v.sessionId.length < 2 ^ 31) {a : Action}
    (hs : ∃ records phase, Ok v s records phase) (h : s.step v v.sessionId a = some t) :
    ∃ records phase, Ok v t records phase := by
  obtain ⟨records, phase, hs⟩ := hs
  cases a with
  | projector e r => exact ⟨records, projector_ok hnul hlen hs h⟩
  | onopen => exact onopen_ok hs h
  | onmessage => exact onmessage_ok hs h
  | ontimeout => exact ontimeout_ok hs h
  | oninput events => exact ⟨records, phase, oninput_ok hs h⟩
  | onclose =>
    obtain rfl := Option.some.inj h
    exact ⟨records, phase, hs.stands, hs.moving, hs.fits.congr rfl rfl rfl rfl rfl, hs.recorded⟩

theorem Ok.log_prefix (hs : Ok v s records phase) : s.log <+: records.flatMap handled := by
  obtain ⟨p, _, hstands⟩ := hs.stands
  generalize s.up = up at hstands
  generalize s.down = down at hstands
  generalize s.log = log at hstands ⊢
  cases hstands with
  | idle polled hrecords hpending =>
    rw [hrecords, List.flatMap_append]
    exact List.prefix_append _ _
  | @reading x q d done todo _ left hrecords hpending hleft hd =>
    have hq : d = true → q ≠ .hello := by
      rintro hdispatched rfl
      have hasks := hpending.asks
      cases x with
      | signature => exact hd hdispatched rfl
      | authorization | screenInfo | hostname => cases hasks
      | screenUpdate =>
        rcases hasks with hasks | ⟨event, hasks⟩
        · cases hasks
        · cases hasks
    rw [hrecords, List.flatMap_append, List.flatMap_cons]
    refine (List.prefix_append_right_inj _).mpr ?_
    exact (handled_of_dispatched hq).trans (List.prefix_append _ _)
  | writing => exact List.prefix_rfl
  | ended hlog => exact hlog

theorem Stands.waiting {p : Position} {n : ℕ} {down : List Message} {log : List Effect} (h : Stands v records p phase [] down log)
    (hok : p.Allows v (.tcpRead n)) : ∃ x, Pending v x [] phase ∧ down = phase.messages ∧ log = records.flatMap handled := by
  generalize hup : ([] : Script.Channel UInt8) = up at h
  cases h with
  | @idle x polled done todo _ hrecords hpending =>
    cases todo with
    | nil =>
      refine ⟨x, hpending, rfl, ?_⟩
      rw [hrecords, List.append_nil]
    | cons q todo =>
      rw [framesOf, List.flatMap_cons] at hup
      exact absurd (List.append_eq_nil_iff.mp (List.append_eq_nil_iff.mp hup.symm).2).1 (frames_ne_nil q)
  | @reading x q d done todo _ left hrecords hpending hleft hd =>
    obtain rfl : left = [] := (List.append_eq_nil_iff.mp hup.symm).1
    have hlen := Nat.lt_of_lt_of_le hok.1 hok.2
    cases hlen
  | writing => exact absurd hok id
  | ended => exact absurd hok id

/-- A projector that waits for the browser with nothing on the way has handled every record. -/
theorem Ok.log_of_waiting {n : ℕ} {k : Response (.tcpRead n) → Thread} (hs : Ok v s records phase)
    (hthread : s.thread = .op (.tcpRead n) k) (hempty : s.up = []) : s.log = records.flatMap handled := by
  obtain ⟨p, hobeys, hstands⟩ := hs.stands
  rw [hthread] at hobeys
  rw [hempty] at hstands
  obtain ⟨_, _, _, hlog⟩ := hstands.waiting hobeys.1
  exact hlog

theorem channels_of_up {e : Effect} (hread : ∀ n, e = .tcpRead n → 0 < n ∧ s.up ≠ []) :
    ∃ (r : Response e) (c : Script.Channel UInt8 × List Message), s.channels e r = some c := by
  cases e with
  | tcpRead n =>
    obtain ⟨hn, hup⟩ := hread n rfl
    obtain ⟨got, up, hgot⟩ := Script.read_isSome hn hup
    exact ⟨got, (up, s.down), by rw [Session.channels, hgot]; rfl⟩
  | tcpWrite kind data => exact ⟨true, _, rfl⟩
  | grabScreen => exact ⟨some [], _, rfl⟩
  | isStarted => exact ⟨true, _, rfl⟩
  | connectionUpgrade => exact ⟨true, _, rfl⟩
  | _ => exact ⟨(), _, rfl⟩

theorem browser_enabled {x : Exchange} (hpending : Pending v x [] phase) (hfits : phase.Fits v s.opened s.client)
    (hdown : s.down = phase.messages) : ∃ a, a.carriesOn = true ∧ (s.step v v.sessionId a).isSome = true := by
  generalize hall : ([] : List Record) = todo at hpending
  cases hpending with
  | unopened =>
    refine ⟨.onopen, rfl, ?_⟩
    rw [Session.step, if_neg (by simp [hfits.1])]
    rfl
  | asked inputs => simp at hall
  | answered x ms =>
    obtain ⟨m, ms, rfl⟩ := List.exists_cons_of_ne_nil hfits.2.1
    refine ⟨.onmessage, rfl, ?_⟩
    simp only [Session.step, hdown, Phase.messages, Option.isSome_some]
  | paused inputs =>
    refine ⟨.ontimeout, rfl, ?_⟩
    rw [Session.step, Client.ontimeout, if_neg (by simp [hfits.2.2])]
    rfl

theorem Ok.enabled (hs : Ok v s records phase) :
    s.thread = .ret (Sum.inr ()) ∨ ∃ a, a.carriesOn = true ∧ (s.step v v.sessionId a).isSome = true := by
  obtain ⟨p, hobeys, hstands⟩ := hs.stands
  cases hthread : s.thread with
  | ret x =>
    cases x with
    | inl loop => exact absurd hthread (hs.moving loop)
    | inr u => exact Or.inl rfl
  | op e k =>
    right
    rw [hthread] at hobeys
    by_cases hwait : (∃ n, e = .tcpRead n) ∧ s.up = []
    · obtain ⟨⟨n, rfl⟩, hempty⟩ := hwait
      rw [hempty] at hstands
      obtain ⟨x, hpending, hdown, _⟩ := hstands.waiting hobeys.1
      exact browser_enabled hpending hs.fits hdown
    · have hread : ∀ n, e = .tcpRead n → 0 < n ∧ s.up ≠ [] := by
        rintro n rfl
        have hok : p.Allows v (.tcpRead n) := hobeys.1
        refine ⟨?_, fun hempty => hwait ⟨⟨n, rfl⟩, hempty⟩⟩
        cases p with
        | idle x polled =>
          cases polled with
          | false => exact absurd hok id
          | true =>
            obtain rfl : n = 4 := hok
            decide
        | reading x q d rest => cases d <;> exact hok.1
        | writing | ended => exact absurd hok id
      obtain ⟨r, c, hc⟩ := channels_of_up hread
      have hfeed : s.thread.feed e r = some (k r) := Proc.feed_eq_some.mpr ⟨k, hthread, rfl⟩
      refine ⟨.projector e r, rfl, ?_⟩
      rw [Session.step, hfeed, hc]
      rfl

end Sessions

/-- A projector that is a server, on a host without a name. -/
def serverVars : Vars := { remoteVars with server := true, hostname := [] }

def writes (kind : WriteKind) (data : Bytes) : Action := .projector (.tcpWrite kind data) true

def takes (req : Req) : List Action :=
  [.projector .isStarted true, .projector (.tcpRead 4) (htonl req.code), .projector (.dispatch req.code) ()]

def byteRegion : RegionData := ⟨0, 0, 1, 1, 0, 1, [7]⟩

def firstUpdate : List Action :=
  [.onopen, .projector (.tcpRead 4) (htonl 32), .projector (.tcpRead 32) clientId, writes .signatureLength (htonl 32),
    writes .signature remoteId, .onmessage, .onmessage] ++
  takes .authorization ++
  [.projector (.tcpRead 4) (htonl 1), .projector (.tcpRead 1) [115], writes (.authorizationStatus true) (htonl 0), .onmessage] ++
  takes .screenInfo ++ [writes (.answer .screenInfo) (screenInfoBytes serverVars), .onmessage] ++
  takes .hostname ++
  [writes (.answer (.stringHeader .hostname)) (stringHeaderBytes .hostname []), writes (.answer (.stringText .hostname)) [],
    .onmessage, .onmessage, .oninput [.keyboard 1 0x61]] ++
  takes .screenUpdate ++
  [.projector .grabScreen (some [byteRegion]), writes (.answer (.screenUpdate 1)) (screenRegionsBytes 1),
    writes (.answer (.regionHeader 0)) (regionHeaderBytes byteRegion), writes (.answer (.regionData 0)) [7],
    .onmessage, .onmessage, .onmessage] ++
  takes .keyboard ++
  [.projector (.tcpRead 4) (htonl 1), .projector (.tcpRead 4) (htonl 0x61), .projector (.keyboardEvent 1 0x61) (), .ontimeout]

end BrowserSession
end LilitunRemote

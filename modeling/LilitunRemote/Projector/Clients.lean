import LilitunRemote.Foundation.Transition
import LilitunRemote.Projector.Gate
import Mathlib.Logic.Function.Basic

/-! # Several clients of one projector

In server mode every accepted client gets an `http_thread`, and all of them share
the one `projector->channel`. A schedule interleaves the steps of the threads in
any way. The log records over which channel a request was read when it was
dispatched and over which channel bytes were written, with what that channel had
achieved until then. The bytes are those handed to `tcp_write`; the control frames of
the WebSocket layer, such as the CLOSE frame of `tcp_close`, are not logged.
-/
namespace LilitunRemote
namespace Projector

abbrev ClientId := ℕ

inductive Event
  | executed (req : UInt32) (channel : ClientId) (authorized : Bool)
  | written (kind : WriteKind) (channel : ClientId) (authorized : Bool)
  deriving DecidableEq, Repr

/-- No gated request of an unauthorized channel is executed, and nothing but the
signature and the authorization status is written to one. -/
def Event.Legal : Event → Prop
  | executed req _ authorized => authorized = true ∨ ¬ Gated req
  | written kind _ authorized => authorized = true ∨ kind.isAnswer = false

structure ClientThread where
  thread : Thread
  phase : Phase
  readFrom : List ClientId

/-- The shared state; `authorized` marks the channels to which an accepted
authorization status has been written. -/
structure Server where
  channel : Option ClientId
  started : Bool
  clients : ClientId → Option ClientThread
  authorized : ClientId → Bool
  log : List Event

def Server.initial : Server := ⟨none, true, fun _ => none, fun _ => false, []⟩

inductive ServerStep
  | accept (c : ClientId)
  | perform (c : ClientId) (e : Effect) (r : Response e)

def Server.answers (s : Server) : (e : Effect) → Response e → Bool
  | .isStarted, r => r == s.started
  | .tcpRead len, r => decide (r.length ≤ len)
  | _, _ => true

def readFromAfter (channel : Option ClientId) (readFrom : List ClientId) : (e : Effect) → Response e → List ClientId
  | .isStarted, _ => []
  | .tcpRead _, got => if got.length ≤ 0 then readFrom else readFrom ++ channel.toList
  | _, _ => readFrom

def Server.events (s : Server) (readFrom : List ClientId) : Effect → List Event
  | .dispatch req => readFrom.map (fun d => .executed req d (s.authorized d))
  | .tcpWrite kind _ => s.channel.toList.map (fun d => .written kind d (s.authorized d))
  | _ => []

def Server.shared (s : Server) (c : ClientId) (readFrom : List ClientId) : (e : Effect) → Response e → Server
  | .assignChannel, _ => { s with channel := some c }
  | .stop, _ => { s with started := false }
  | .tcpWrite (.authorizationStatus true) data, ok =>
    { s with
      authorized := fun d => s.authorized d || (ok && decide (s.channel = some d))
      log := s.log ++ s.events readFrom (.tcpWrite (.authorizationStatus true) data) }
  | e, _ => { s with log := s.log ++ s.events readFrom e }

def Server.step (v : Vars) (s : Server) : ServerStep → Option Server
  | .accept c =>
    if s.started = true ∧ (s.clients c).isNone = true then
      some { s with clients := Function.update s.clients c (some ⟨(httpThread v).resume (body v), .before, []⟩) }
    else none
  | .perform c e r => do
    let t ← s.clients c
    let p ← t.thread.feed e r
    if s.answers e r then
      let s' := s.shared c t.readFrom e r
      some { s' with
        clients := Function.update s.clients c
          (some ⟨p.resume (body v), t.phase.next e r, readFromAfter s.channel t.readFrom e r⟩) }
    else none

/-- No other session is open when a client takes the channel. -/
def SessionsApart (s : Server) : ServerStep → Prop
  | .perform c .assignChannel _ => ∀ d, d ≠ c → ∀ t, s.clients d = some t → ∀ a, t.phase ≠ .running a
  | _ => True

/-! ## The invariant -/

/-- A thread keeps the gate; while its session is open the shared channel is its
own, and its flag is the mark of its channel. -/
structure ThreadOk (s : Server) (c : ClientId) (t : ClientThread) : Prop where
  obeys : gate.Obeys t.phase t.thread AtRest
  own : ∀ a, t.phase = .running a → s.channel = some c
  marked : t.phase = .running true → s.authorized c = true
  source : ∀ d ∈ t.readFrom, (∃ a, t.phase = .running a) → d = c
  fresh : t.phase = .before → t.readFrom = []

structure ServerOk (s : Server) : Prop where
  threads : ∀ c t, s.clients c = some t → ThreadOk s c t
  legal : ∀ e ∈ s.log, e.Legal

theorem serverOk_initial : ServerOk Server.initial where
  threads := fun c t h => by cases h
  legal := fun e h => by cases h

section Shared
variable (s : Server) (c : ClientId) (readFrom : List ClientId) (e : Effect) (r : Response e)

theorem shared_log : (s.shared c readFrom e r).log = s.log ++ s.events readFrom e := by
  cases e with
  | tcpWrite kind data =>
    cases kind with
    | authorizationStatus accepted => cases accepted <;> rfl
    | signatureLength | signature | answer => rfl
  | assignChannel | stop => simp [Server.shared, Server.events]
  | _ => rfl

theorem shared_authorized_mono {d : ClientId} (h : s.authorized d = true) :
    (s.shared c readFrom e r).authorized d = true := by
  cases e with
  | tcpWrite kind data =>
    cases kind with
    | authorizationStatus accepted => cases accepted <;> simp [Server.shared, h]
    | signatureLength | signature | answer => exact h
  | _ => exact h

theorem shared_channel (h : e ≠ .assignChannel) : (s.shared c readFrom e r).channel = s.channel := by
  cases e with
  | tcpWrite kind data =>
    cases kind with
    | authorizationStatus accepted => cases accepted <;> rfl
    | signatureLength | signature | answer => rfl
  | assignChannel => exact absurd rfl h
  | _ => rfl

end Shared

section Next
variable {p : Phase} {e : Effect} {r : Response e} (hok : p.Allows e)
include hok

/-- A session is open after an effect only if it was before, or by taking the channel. -/
theorem next_running {a : Bool} (h : p.next e r = .running a) :
    (p = .before ∧ e = .assignChannel) ∨ (e ≠ .assignChannel ∧ ∃ b, p = .running b) := by
  cases p with
  | before =>
    cases e with
    | assignChannel => exact Or.inl ⟨rfl, rfl⟩
    | _ => cases h
  | closed => cases e <;> cases h
  | running b =>
    refine Or.inr ⟨?_, b, rfl⟩
    rintro rfl
    exact hok

theorem marked_after {s : Server} {c : ClientId} (readFrom : List ClientId) (hown : ∀ a, p = .running a → s.channel = some c)
    (hmark : p = .running true → s.authorized c = true) (h : p.next e r = .running true) :
    (s.shared c readFrom e r).authorized c = true := by
  cases p with
  | before => cases e <;> cases h
  | closed => cases e <;> cases h
  | running b =>
    cases b with
    | true => exact shared_authorized_mono s c readFrom e r (hmark rfl)
    | false =>
      cases e with
      | tcpWrite kind data =>
        cases kind with
        | authorizationStatus accepted =>
          cases accepted with
          | true =>
            have hr : r = true := by simpa [Phase.next] using h
            simp [Server.shared, hr, hown false rfl]
          | false => cases h
        | signatureLength | signature | answer => cases h
      | assignChannel => exact absurd hok id
      | _ => cases h

theorem events_legal {s : Server} {c : ClientId} {readFrom : List ClientId} (hown : ∀ a, p = .running a → s.channel = some c)
    (hmark : p = .running true → s.authorized c = true) (hfrom : ∀ d ∈ readFrom, (∃ a, p = .running a) → d = c) :
    ∀ ev ∈ s.events readFrom e, ev.Legal := by
  intro ev hev
  cases e with
  | dispatch req =>
    obtain ⟨d, hd, rfl⟩ := List.mem_map.mp hev
    cases p with
    | before | closed => exact absurd hok id
    | running a =>
      obtain rfl := hfrom d hd ⟨a, rfl⟩
      rcases hok with rfl | hreq
      · exact Or.inl (hmark rfl)
      · exact Or.inr hreq
  | tcpWrite kind data =>
    obtain ⟨d, hd, rfl⟩ := List.mem_map.mp hev
    cases p with
    | before | closed => exact absurd hok id
    | running a =>
      rw [hown a rfl, Option.toList_some, List.mem_singleton] at hd
      subst hd
      rcases hok with rfl | hkind
      · exact Or.inl (hmark rfl)
      · exact Or.inr hkind
  | _ => cases hev

theorem readFrom_after {channel : Option ClientId} {c : ClientId} {readFrom : List ClientId}
    (hown : ∀ a, p = .running a → channel = some c) (hfrom : ∀ d ∈ readFrom, (∃ a, p = .running a) → d = c)
    (hfresh : p = .before → readFrom = []) :
    (∀ d ∈ readFromAfter channel readFrom e r, (∃ a, p.next e r = .running a) → d = c) ∧
      (p.next e r = .before → readFromAfter channel readFrom e r = []) := by
  cases p with
  | before =>
    have hempty : readFromAfter channel readFrom e r = [] := by
      cases e with
      | tcpRead len => exact absurd hok id
      | isStarted => rfl
      | _ => exact hfresh rfl
    simp [hempty]
  | closed =>
    refine ⟨fun d _ ⟨a, h⟩ => ?_, fun h => ?_⟩
    · cases e <;> cases h
    · cases e <;> cases h
  | running b =>
    refine ⟨fun d hd _ => ?_, fun h => ?_⟩
    · cases e with
      | isStarted => cases hd
      | tcpRead len =>
        simp only [readFromAfter] at hd
        split at hd
        · exact hfrom d hd ⟨b, rfl⟩
        · rcases List.mem_append.mp hd with hd | hd
          · exact hfrom d hd ⟨b, rfl⟩
          · rw [hown b rfl, Option.toList_some, List.mem_singleton] at hd
            exact hd
      | _ => exact hfrom d hd ⟨b, rfl⟩
    · cases e with
      | tcpWrite kind data =>
        cases kind with
        | authorizationStatus accepted => cases accepted <;> cases h
        | signatureLength | signature | answer => cases h
      | _ => cases h

end Next

/-! ## Steps and runs -/

theorem step_cases {v : Vars} {s s' : Server} {a : ServerStep} (h : s.step v a = some s') :
    (∃ c, a = .accept c ∧ s.clients c = none ∧
      s' = { s with clients := Function.update s.clients c (some ⟨(httpThread v).resume (body v), .before, []⟩) }) ∨
    ∃ c e r t p, a = .perform c e r ∧ s.clients c = some t ∧ t.thread.feed e r = some p ∧ s.answers e r = true ∧
      s' = { s.shared c t.readFrom e r with
        clients := Function.update s.clients c
          (some ⟨p.resume (body v), t.phase.next e r, readFromAfter s.channel t.readFrom e r⟩) } := by
  cases a with
  | accept c =>
    simp only [Server.step] at h
    split at h
    · next hc => exact Or.inl ⟨c, rfl, Option.isNone_iff_eq_none.mp hc.2, (Option.some.inj h).symm⟩
    · cases h
  | perform c e r =>
    obtain ⟨t, ht, h⟩ := Option.bind_eq_some_iff.mp h
    obtain ⟨p, hp, h⟩ := Option.bind_eq_some_iff.mp h
    split at h
    · next hans => exact Or.inr ⟨c, e, r, t, p, rfl, ht, hp, hans, (Option.some.inj h).symm⟩
    · cases h

theorem step_ok {v : Vars} (hserver : v.server = true) {s s' : Server} {a : ServerStep} (hs : ServerOk s)
    (hapart : SessionsApart s a) (h : s.step v a = some s') : ServerOk s' := by
  rcases step_cases h with ⟨c, rfl, hnone, rfl⟩ | ⟨c, e, r, t, p, rfl, ht, hp, _, rfl⟩
  · refine ⟨fun d t hd => ?_, hs.legal⟩
    by_cases hdc : d = c
    · subst hdc
      simp only [Function.update_self] at hd
      obtain rfl := Option.some.inj hd
      have hstart : (httpThread v).resume (body v) = httpThread v := by
        unfold httpThread
        cases v.ws <;> rfl
      have hobeys : gate.Obeys .before ((httpThread v).resume (body v)) AtRest := by
        rw [hstart]
        exact httpThread_obeys hserver
      exact ⟨hobeys, by simp, by simp, by simp, fun _ => rfl⟩
    · simp only [Function.update_of_ne hdc] at hd
      obtain ⟨h1, h2, h3, h4, h5⟩ := hs.threads d t hd
      exact ⟨h1, h2, h3, h4, h5⟩
  · have hok := hs.threads c t ht
    obtain ⟨k, hk, _⟩ := Proc.feed_eq_some.mp hp
    have hallow : t.phase.Allows e := by
      have hobeys := hok.obeys
      rw [hk] at hobeys
      exact hobeys.1
    have hsource := readFrom_after (r := r) hallow hok.own hok.source hok.fresh
    refine ⟨fun d t' hd => ?_, fun ev hev => ?_⟩
    · by_cases hdc : d = c
      · subst hdc
        simp only [Function.update_self] at hd
        obtain rfl := Option.some.inj hd
        refine ⟨Monitor.obeys_feed (fun l q hq => body_obeys l q hq) hok.obeys hp rfl, fun b hb => ?_, fun hb => ?_,
          hsource.1, hsource.2⟩
        · rcases next_running hallow hb with ⟨_, rfl⟩ | ⟨hne, b', hb'⟩
          · rfl
          · exact (shared_channel s d t.readFrom e r hne).trans (hok.own b' hb')
        · exact marked_after hallow t.readFrom hok.own hok.marked hb
      · simp only [Function.update_of_ne hdc] at hd
        have hother := hs.threads d t' hd
        have hchannel : ∀ b, t'.phase = .running b → (s.shared c t.readFrom e r).channel = some d := by
          intro b hb
          by_cases he : e = .assignChannel
          · subst he
            exact absurd hb (hapart d hdc t' hd b)
          · exact (shared_channel s c t.readFrom e r he).trans (hother.own b hb)
        exact ⟨hother.obeys, hchannel, fun hb => shared_authorized_mono s c t.readFrom e r (hother.marked hb),
          hother.source, hother.fresh⟩
    · rw [shared_log] at hev
      rcases List.mem_append.mp hev with hev | hev
      · exact hs.legal ev hev
      · exact events_legal hallow hok.own hok.marked hok.source ev hev

def ServerStep.client : ServerStep → ClientId
  | accept c | perform c _ _ => c

section Frame
variable {v : Vars} {s t : Server} {c d : ClientId} {steps : List ServerStep}

/-- A step of a client changes no other one. -/
theorem step_frame {a : ServerStep} (hd : d ≠ a.client) (h : s.step v a = some t) : t.clients d = s.clients d := by
  rcases step_cases h with ⟨c, rfl, _, rfl⟩ | ⟨c, e, r, t', p, rfl, _, _, _, rfl⟩
  · exact Function.update_of_ne hd _ _
  · exact Function.update_of_ne hd _ _

theorem run_frame (hsteps : ∀ a ∈ steps, a.client = c) (hd : d ≠ c) (hrun : Transition.run (Server.step v) s steps = some t) :
    t.clients d = s.clients d := by
  induction steps generalizing s with
  | nil => exact Option.some.inj hrun ▸ rfl
  | cons a steps ih =>
    obtain ⟨u, hu, ht⟩ := Transition.run_cons.mp hrun
    have ha := hsteps a List.mem_cons_self
    exact (ih (fun b hb => hsteps b (List.mem_cons_of_mem _ hb)) ht).trans (step_frame (ha ▸ hd) hu)

/-- A client on its own, while no other one has its session open. -/
theorem guarded_of_client (hsteps : ∀ a ∈ steps, a.client = c)
    (hs : ∀ d, d ≠ c → ∀ t, s.clients d = some t → ∀ a, t.phase ≠ .running a) :
    Transition.Guarded (Server.step v) SessionsApart s steps := by
  induction steps generalizing s with
  | nil => trivial
  | cons a steps ih =>
    have ha := hsteps a List.mem_cons_self
    refine ⟨?_, fun t ht => ih (fun b hb => hsteps b (List.mem_cons_of_mem _ hb)) (fun d hd => ?_)⟩
    · cases a with
      | accept d => trivial
      | perform d e r =>
        obtain rfl : d = c := ha
        cases e with
        | assignChannel => exact hs
        | _ => trivial
    · rw [step_frame (ha ▸ hd) ht]
      exact hs d hd

end Frame

/-- A projector that listens on a plain socket, with the session id `pw`. -/
def exampleVars : Vars :=
  ⟨true, false, screen16, [], [112, 119], [104]⟩

def authorizes (c : ClientId) : List ServerStep :=
  [.accept c, .perform c (.setConnected true) (), .perform c .assignChannel (),
    .perform c (.tcpRead 4) (htonl 32), .perform c (.tcpRead 32) clientId,
    .perform c (.tcpWrite .signatureLength (htonl 32)) true, .perform c (.tcpWrite .signature remoteId) true,
    .perform c .isStarted true, .perform c (.tcpRead 4) (htonl Req.authorization.code),
    .perform c (.dispatch Req.authorization.code) (), .perform c (.tcpRead 4) (htonl 2),
    .perform c (.tcpRead 2) [112, 119], .perform c (.tcpWrite (.authorizationStatus true) (htonl 0)) true]

def asksScreenInfo (c : ClientId) : List ServerStep :=
  [.perform c .isStarted true, .perform c (.tcpRead 4) (htonl Req.screenInfo.code),
    .perform c (.dispatch Req.screenInfo.code) (),
    .perform c (.tcpWrite (.answer .screenInfo) (htonl 1 ++ htonl 16 ++ htonl 16 ++ htonl 32 ++ htonl 0)) true]

/-- Client `c` goes away, and its thread closes the channel. -/
def hangsUp (c : ClientId) : List ServerStep :=
  [.perform c .isStarted true, .perform c (.tcpRead 4) [], .perform c (.setStatus .connectionError) (), .perform c .tcpClose (),
    .perform c (.setConnected false) ()]

def session (c : ClientId) : List ServerStep := authorizes c ++ asksScreenInfo c ++ hangsUp c

theorem session_client (c : ClientId) : ∀ a ∈ session c, a.client = c := by
  simp [session, authorizes, asksScreenInfo, hangsUp, ServerStep.client]

/-- A second client takes the channel of an authorized one. -/
def takeover : List ServerStep :=
  authorizes 0 ++ [.accept 1, .perform 1 (.setConnected true) (), .perform 1 .assignChannel ()] ++ asksScreenInfo 0

end Projector
end LilitunRemote

import LilitunRemote.Foundation.Transition
import LilitunRemote.Projector.Dialogue
import LilitunRemote.Projector.Grabber
import LilitunRemote.Server.InputEvents
import Mathlib.Data.List.Infix

/-! # Input events from the VNC client to the remote desktop

The calls made on the control server are queued as records, flushed as words, read
by the projector's request loop in pieces of any size, and handed to the grabber. A
pointer call that repeats the mask of the last record since a flush is not queued,
and the grabber keeps the button state a second time.
-/
namespace LilitunRemote
open Projector

def InputCall.event : InputCall → Option InputEvent
  | keyboard down key => some (.keyboard down.toInt32.toUInt32 key)
  | pointer buttons x y => some (.pointer buttons.toUInt32 x.toUInt32 y.toUInt32 0)
  | flush => none

/-- VNC carries the button mask in one byte, so no pointer call has the mask -1 that
stands for none in `pointer_old`. -/
def InputCall.HasMask : InputCall → Prop
  | pointer buttons _ _ => buttons.toUInt32 ≠ 0xFFFFFFFF
  | _ => True

namespace InputQueue

/-- The records the calls queue, after a last queued mask (-1 if there is none). -/
def delivered : UInt32 → List InputCall → List InputEvent
  | _, [] => []
  | last, .keyboard down key :: calls => .keyboard down.toInt32.toUInt32 key :: delivered last calls
  | last, .pointer buttons x y :: calls =>
    if last ≠ buttons.toUInt32 then
      .pointer buttons.toUInt32 x.toUInt32 y.toUInt32 0 :: delivered buttons.toUInt32 calls
    else delivered last calls
  | _, .flush :: calls => delivered 0xFFFFFFFF calls

theorem delivered_sublist (last : UInt32) (calls : List InputCall) :
    (delivered last calls).Sublist (calls.filterMap InputCall.event) := by
  induction calls generalizing last with
  | nil => exact List.Sublist.refl _
  | cons c calls ih =>
    cases c with
    | keyboard down key => exact (ih last).cons_cons _
    | pointer buttons x y =>
      unfold delivered
      split
      · exact (ih _).cons_cons _
      · exact (ih _).cons _
    | flush => exact ih _

theorem delivered_keyboard (last : UInt32) (calls : List InputCall) :
    (delivered last calls).filter InputEvent.isKeyboard =
      (calls.filterMap InputCall.event).filter InputEvent.isKeyboard := by
  induction calls generalizing last with
  | nil => rfl
  | cons c calls ih =>
    cases c with
    | keyboard down key => exact congrArg (InputEvent.keyboard down.toInt32.toUInt32 key :: ·) (ih last)
    | pointer buttons x y =>
      unfold delivered
      split
      · exact ih _
      · exact ih _
    | flush => exact ih _

theorem run_sends {q q' : InputQueue} {calls : List InputCall} {p : ℕ × UInt32} (ht : q.Tracks p) (hle : p.1 ≤ 1024)
    (h : Transition.run call q calls = some q') :
    q'.sent ++ q'.queued = q.sent ++ q.queued ++ (delivered q.pointerOld.buttons calls).flatMap InputEvent.words := by
  induction calls generalizing q p with
  | nil =>
    cases h
    simp [delivered]
  | cons c calls ih =>
    obtain ⟨u, hu, hrest⟩ := Transition.run_cons.mp h
    obtain ⟨ht', hle'⟩ := call_tracks ht hle hu
    rw [ih ht' hle' hrest]
    rcases call_cases (by rw [ht.1]; exact hle) hu with ⟨down, key, rfl, _, _, hqueued, hp, hsent⟩ |
      ⟨buttons, x, y, rfl, hne, _, _, hqueued, hp, hsent⟩ | ⟨buttons, x, y, rfl, heq, rfl⟩ | ⟨rfl, rfl⟩
    · rw [hqueued, hsent, hp]
      simp [delivered, InputEvent.words, InputEvent.req, InputEvent.payload, keyboardWords]
    · rw [hqueued, hsent, hp]
      simp [delivered, hne, InputEvent.words, InputEvent.req, InputEvent.payload, pointerWords]
    · simp [delivered, heq]
    · simp [delivered, sendInputEvents, queued]

/-- Calls that fit between the flushes and end with a flush send the delivered records. -/
theorem run_flushed {calls : List InputCall} (hfits : FitsBetweenFlushes calls) :
    ∃ q, Transition.run call initial (calls ++ [.flush]) = some q ∧
      q.sent = (delivered 0xFFFFFFFF calls).flatMap InputEvent.words := by
  obtain ⟨q, hq⟩ := run_isSome calls tracks_initial (by simp) hfits
  have hsends := run_sends tracks_initial (by simp) hq
  refine ⟨q.sendInputEvents, Transition.run_concat.mpr ⟨q, hq, rfl⟩, ?_⟩
  simpa [sendInputEvents, initial, queued] using hsends

end InputQueue

/-! ## The projector's end -/

/-- The projector's thread with the bytes it has not read, what it dispatched and
handed to the grabber, and the grabber. -/
structure Receiver where
  thread : Thread
  unread : Bytes
  log : List Effect
  cfg : XGrabber

namespace Receiver

def logged : Effect → List Effect
  | .dispatch req => [.dispatch req]
  | .keyboardEvent down key => [.keyboardEvent down key]
  | .mouseEvent buttons x y => [.mouseEvent buttons x y]
  | _ => []

@[simp] theorem logged_isStarted : logged .isStarted = [] := rfl
@[simp] theorem logged_tcpRead (n : ℕ) : logged (.tcpRead n) = [] := rfl

def unreadAfter (s : Receiver) : (e : Effect) → Response e → Option Bytes
  | .isStarted, started => if started = true then some s.unread else none
  | .tcpRead n, got => if got ≠ [] ∧ got.length ≤ n ∧ got <+: s.unread then some (s.unread.drop got.length) else none
  | _, _ => some s.unread

def start (v : Vars) (words : List UInt32) : Receiver := ⟨body v (.serve true), wordBytes words, [], XGrabber.init⟩

def step (v : Vars) (keycodes : UInt32 → Option UInt8) (s : Receiver) (a : (e : Effect) × Response e) : Option Receiver := do
  let p ← s.thread.feed a.1 a.2
  let unread ← s.unreadAfter a.1 a.2
  some ⟨p.resume (body v), unread, s.log ++ logged a.1, s.cfg.perform keycodes a.1⟩

def handled (event : InputEvent) : List Effect := [.dispatch event.req.code, effectOf event]

/-- Where the dialogue stands while the records of `events` come in: the records done
and those to come, the bytes unread, the log so far, and how many steps are left at
most (a read takes a byte, and a record three steps more). -/
inductive Stands (events : List InputEvent) : Position → Bytes → List Effect → ℕ → Prop
  | idle (polled : Bool) {done todo : List InputEvent} (h : events = done ++ todo) :
    Stands events (.idle .screenUpdate polled) (todo.flatMap InputEvent.bytes) (done.flatMap handled)
      ((todo.flatMap InputEvent.bytes).length + 3 * todo.length + if polled then 0 else 1)
  | reading {event : InputEvent} {done todo : List InputEvent} (h : events = done ++ event :: todo) (rest : Bytes) :
    Stands events (.reading .screenUpdate (.input event) false rest) (rest ++ todo.flatMap InputEvent.bytes)
      (done.flatMap handled) (rest.length + (todo.flatMap InputEvent.bytes).length + 3 * todo.length + 3)
  | dispatched {event : InputEvent} {done todo : List InputEvent} (h : events = done ++ event :: todo) (rest : Bytes) :
    Stands events (.reading .screenUpdate (.input event) true rest) (rest ++ todo.flatMap InputEvent.bytes)
      (done.flatMap handled ++ [.dispatch event.req.code])
      (rest.length + (todo.flatMap InputEvent.bytes).length + 3 * todo.length + 2)

theorem record_bytes (event : InputEvent) : (Record.input event).bytes = event.bytes := rfl

/-- A first piece of the unread bytes that is no longer than the rest of a record is
a piece of this rest. -/
theorem prefix_of_append {got rest more : Bytes} (hlen : got.length ≤ rest.length) (h : got <+: rest ++ more) :
    got <+: rest ∧ (rest ++ more).drop got.length = rest.drop got.length ++ more :=
  ⟨List.prefix_of_prefix_length_le h (List.prefix_append _ _) hlen, List.drop_append_of_le_length hlen⟩

theorem unreadAfter_tcpRead {s : Receiver} {n : ℕ} {got : Response (.tcpRead n)} {unread : Bytes}
    (h : s.unreadAfter (.tcpRead n) got = some unread) :
    got ≠ [] ∧ got.length ≤ n ∧ got <+: s.unread ∧ unread = s.unread.drop got.length := by
  simp only [unreadAfter] at h
  split at h
  · next hgot => exact ⟨hgot.1, hgot.2.1, hgot.2.2, (Option.some.inj h).symm⟩
  · cases h

/-- A read inside a record leaves less of it, and what follows the record as it is. -/
theorem read_rest {v : Vars} {x : Exchange} {q : Record} {d : Bool} {rest more unread : Bytes} {s : Receiver} {n : ℕ}
    {got : Response (.tcpRead n)} (hn : n ≤ rest.length) (hbytes : s.unread = rest ++ more)
    (hu : s.unreadAfter (.tcpRead n) got = some unread) :
    (Position.reading x q d rest).Moves v (.tcpRead n) got (.reading x q d (rest.drop got.length)) ∧
      unread = rest.drop got.length ++ more ∧ (rest.drop got.length).length < rest.length := by
  obtain ⟨hne, hle, hprefix, rfl⟩ := unreadAfter_tcpRead hu
  rw [hbytes] at hprefix ⊢
  obtain ⟨hpiece, hrest⟩ := prefix_of_append (Nat.le_trans hle hn) hprefix
  have hpos := List.length_pos_iff.mpr hne
  have hlen := hpiece.length_le
  refine ⟨⟨hne, hle, hpiece, rfl⟩, hrest, ?_⟩
  rw [List.length_drop]
  omega

theorem bytes_length (event : InputEvent) : 4 ≤ event.bytes.length := by
  cases event <;> simp [InputEvent.bytes, InputEvent.words, InputEvent.payload]

theorem no_write {v : Vars} {event : InputEvent} {d : Bool} {rest : Bytes} {kind : WriteKind} {data : Bytes} :
    ¬ (Position.reading .screenUpdate (.input event) d rest).Allows v (.tcpWrite kind data) := by
  intro h
  cases kind with
  | authorizationStatus accepted =>
    cases accepted with
    | false => cases h.1
    | true => cases h.2.2
  | signatureLength | signature | answer => cases h.2.2

theorem stands_step {events : List InputEvent} {v : Vars} {p : Position} {s : Receiver} {n : ℕ} {e : Effect} {r : Response e}
    {unread : Bytes} (hs : Stands events p s.unread s.log n) (hok : p.Allows v e) (hu : s.unreadAfter e r = some unread) :
    ∃ p' m, m < n ∧ p.Moves v e r p' ∧ Stands events p' unread (s.log ++ logged e) m := by
  generalize hbytes : s.unread = bytes at hs
  generalize s.log = log at hs ⊢
  cases hs with
  | @idle polled done todo hdone =>
    cases polled with
    | false =>
      cases e with
      | isStarted =>
        simp only [unreadAfter] at hu
        split at hu
        · next hstarted =>
          obtain rfl : s.unread = unread := Option.some.inj hu
          refine ⟨_, _, ?_, ?_, by rw [hbytes, logged_isStarted, List.append_nil]; exact .idle true hdone⟩
          · simp
          · rw [hstarted]
            rfl
        · cases hu
      | _ => exact absurd hok id
    | true =>
      cases e with
      | tcpRead k =>
        obtain rfl : k = 4 := hok
        obtain ⟨hne, hle, hprefix, rfl⟩ := unreadAfter_tcpRead hu
        rw [hbytes] at hprefix ⊢
        cases todo with
        | nil => exact absurd (List.prefix_nil.mp hprefix) hne
        | cons event todo =>
          rw [List.flatMap_cons] at hprefix ⊢
          have hlen := bytes_length event
          obtain ⟨hpiece, hrest⟩ := prefix_of_append (Nat.le_trans hle hlen) hprefix
          have hpos := List.length_pos_iff.mpr hne
          rw [hrest, logged_tcpRead, List.append_nil]
          refine ⟨_, _, ?_, Or.inl ⟨.input event, Or.inr ⟨event, rfl⟩, hne, hle, hpiece, rfl⟩, .reading hdone _⟩
          rw [record_bytes, List.length_drop, List.length_append, List.length_cons]
          omega
      | _ => exact absurd hok id
  | @reading event done todo hdone rest =>
    cases e with
    | tcpRead k =>
      obtain ⟨hmoves, rfl, hshorter⟩ := read_rest hok.2 hbytes hu
      rw [logged_tcpRead, List.append_nil]
      exact ⟨_, _, by omega, hmoves, .reading hdone _⟩
    | dispatch req =>
      obtain ⟨rfl, _⟩ := hok
      cases hu
      rw [hbytes]
      exact ⟨_, _, by omega, rfl, .dispatched hdone rest⟩
    | tcpWrite kind data => exact absurd hok no_write
    | setStatus status => cases hok
    | _ => exact absurd hok id
  | @dispatched event done todo hdone rest =>
    have hdone' : events = (done ++ [event]) ++ todo := by rw [hdone, List.append_assoc, List.singleton_append]
    -- the record is done with the call of the grabber
    have hafter : ∀ effect, rest = [] → effectOf event = effect →
        Stands events (.idle .screenUpdate false) s.unread (done.flatMap handled ++ [.dispatch event.req.code] ++ [effect])
          ((todo.flatMap InputEvent.bytes).length + 3 * todo.length + 1) := by
      rintro effect rfl rfl
      have hlog : done.flatMap handled ++ [.dispatch event.req.code] ++ [effectOf event] =
          (done ++ [event]).flatMap handled := by
        simp [handled]
      rw [List.nil_append] at hbytes
      rw [hbytes, hlog]
      exact .idle false hdone'
    cases e with
    | tcpRead k =>
      obtain ⟨hmoves, rfl, hshorter⟩ := read_rest hok.2 hbytes hu
      rw [logged_tcpRead, List.append_nil]
      exact ⟨_, _, by omega, hmoves, .dispatched hdone _⟩
    | keyboardEvent down key =>
      obtain ⟨hrest, heffect⟩ := hok
      cases hu
      exact ⟨_, _, by omega, rfl, hafter _ hrest heffect⟩
    | mouseEvent buttons x y =>
      obtain ⟨hrest, heffect⟩ := hok
      cases hu
      exact ⟨_, _, by omega, rfl, hafter _ hrest heffect⟩
    | grabScreen => cases hok.2.1
    | tcpWrite kind data => exact absurd hok no_write
    | setStatus status => cases hok
    | _ => exact absurd hok id

/-! ## Runs of the projector's end -/

def AtLoop (loop : Loop) (p : Position) : Prop := loop = .serve true ∧ p = .idle .screenUpdate false

def AtEnd (p : Position) (_ : Unit) : Prop := p = .ended

theorem body_obeys (v : Vars) (loop : Loop) (p : Position) (h : AtLoop loop p) :
    (dialogue v).Obeys p (body v loop) (Monitor.LoopPost AtLoop AtEnd) := by
  obtain ⟨rfl, rfl⟩ := h
  refine (Dialogue.serve_obeys rfl).mono ?_
  rintro _ _ (⟨rfl, rfl⟩ | ⟨rfl, rfl⟩)
  · exact ⟨rfl, rfl⟩
  · exact (rfl : Position.ended = _)

/-- The thread follows the dialogue, the dialogue stands with the records, and the
grabber has got what the log shows. -/
structure Ok (v : Vars) (keycodes : UInt32 → Option UInt8) (events : List InputEvent) (n : ℕ) (s : Receiver) : Prop where
  stands : ∃ p, (dialogue v).Obeys p s.thread (Monitor.LoopPost AtLoop AtEnd) ∧ Stands events p s.unread s.log n
  moving : ∀ loop, s.thread ≠ .ret (Sum.inl loop)
  grabber : s.cfg = s.log.foldl (XGrabber.perform keycodes) XGrabber.init

theorem perform_logged (keycodes : UInt32 → Option UInt8) (cfg : XGrabber) (e : Effect) :
    cfg.perform keycodes e = (logged e).foldl (XGrabber.perform keycodes) cfg := by
  cases e <;> rfl

theorem step_ok {v : Vars} {keycodes : UInt32 → Option UInt8} {events : List InputEvent} {n : ℕ} {s t : Receiver}
    {a : (e : Effect) × Response e} (hs : Ok v keycodes events n s) (h : s.step v keycodes a = some t) :
    ∃ m, m < n ∧ Ok v keycodes events m t := by
  obtain ⟨p', hp', h⟩ := Option.bind_eq_some_iff.mp h
  obtain ⟨unread, hu, h⟩ := Option.bind_eq_some_iff.mp h
  obtain rfl := Option.some.inj h
  obtain ⟨p, hobeys, hstands⟩ := hs.stands
  obtain ⟨k, hk, _⟩ := Proc.feed_eq_some.mp hp'
  have hok : p.Allows v a.1 := by
    rw [hk] at hobeys
    exact hobeys.1
  obtain ⟨q, m, hm, hmoves, hq⟩ := stands_step hstands hok hu
  refine ⟨m, hm, ⟨q, Monitor.obeys_feed (body_obeys v) hobeys hp' hmoves, hq⟩, ?_, ?_⟩
  · exact Proc.resume_ne_inl (body_ne_inl v) p'
  · rw [List.foldl_append, ← hs.grabber, perform_logged]

theorem start_ok (v : Vars) (keycodes : UInt32 → Option UInt8) (events : List InputEvent) :
    Ok v keycodes events ((events.flatMap InputEvent.bytes).length + 3 * events.length + 1)
      (start v (events.flatMap InputEvent.words)) where
  stands := by
    refine ⟨.idle .screenUpdate false, body_obeys v _ _ ⟨rfl, rfl⟩, ?_⟩
    have hbytes : wordBytes (events.flatMap InputEvent.words) = events.flatMap InputEvent.bytes :=
      wordBytes_flatMap _ _
    simp only [start, hbytes]
    exact .idle false (List.nil_append events).symm
  moving := body_ne_inl v (.serve true)
  grabber := rfl

theorem Ok.log_prefix {v : Vars} {keycodes : UInt32 → Option UInt8} {events : List InputEvent} {n : ℕ} {s : Receiver}
    (hs : Ok v keycodes events n s) : s.log <+: events.flatMap handled := by
  obtain ⟨p, _, hstands⟩ := hs.stands
  generalize s.unread = unread at hstands
  generalize s.log = log at hstands ⊢
  cases hstands with
  | idle polled hdone =>
    rw [hdone, List.flatMap_append]
    exact List.prefix_append _ _
  | reading hdone rest =>
    rw [hdone, List.flatMap_append]
    exact List.prefix_append _ _
  | @dispatched event done todo hdone rest =>
    rw [hdone, List.flatMap_append, List.flatMap_cons]
    exact ⟨effectOf event :: todo.flatMap handled, by simp [handled]⟩

theorem Ok.log_of_stuck {v : Vars} {keycodes : UInt32 → Option UInt8} {events : List InputEvent} {n : ℕ} {s : Receiver}
    (hs : Ok v keycodes events n s) (hstuck : ∀ a, s.step v keycodes a = none) : s.log = events.flatMap handled := by
  obtain ⟨p, hobeys, hstands⟩ := hs.stands
  have hmoves : ∀ e k (r : Response e), s.thread = .op e k → s.unreadAfter e r = none := by
    intro e k r hthread
    have hfeed : s.thread.feed e r = some (k r) := Proc.feed_eq_some.mpr ⟨k, hthread, rfl⟩
    have hnone := hstuck ⟨e, r⟩
    cases hu : s.unreadAfter e r with
    | none => rfl
    | some unread => simp [step, hfeed, hu] at hnone
  -- a read waits only when no byte is left
  have hempty : ∀ n k, 0 < n → s.thread = .op (.tcpRead n) k → s.unread = [] := by
    intro n k hn hthread
    by_contra hne
    have hpiece : s.unread.take 1 ≠ [] ∧ (s.unread.take 1).length ≤ n ∧ s.unread.take 1 <+: s.unread := by
      refine ⟨by simpa using hne, ?_, List.take_prefix _ _⟩
      rw [List.length_take]
      omega
    have hnone := hmoves (.tcpRead n) k (s.unread.take 1) hthread
    rw [unreadAfter, if_pos hpiece] at hnone
    cases hnone
  cases hthread : s.thread with
  | ret x =>
    rw [hthread] at hobeys
    cases x with
    | inl loop => exact absurd hthread (hs.moving loop)
    | inr u =>
      obtain rfl : p = .ended := hobeys
      cases hstands
  | op e k =>
    have hok : p.Allows v e := by
      rw [hthread] at hobeys
      exact hobeys.1
    generalize hunread : s.unread = unread at hstands
    generalize s.log = log at hstands ⊢
    cases hstands with
    | @idle polled done todo hdone =>
      cases polled with
      | false =>
        cases e with
        | isStarted =>
          have hnone := hmoves .isStarted k true hthread
          cases hnone
        | _ => exact absurd hok id
      | true =>
        cases e with
        | tcpRead n =>
          obtain rfl : n = 4 := hok
          have hnil := hunread.symm.trans (hempty 4 k (by omega) hthread)
          cases todo with
          | nil => rw [hdone, List.append_nil]
          | cons event todo =>
            have hlen := bytes_length event
            rw [List.flatMap_cons, List.append_eq_nil_iff] at hnil
            rw [hnil.1] at hlen
            cases hlen
        | _ => exact absurd hok id
    | @reading event done todo hdone rest =>
      cases e with
      | tcpRead n =>
        have hnil := hunread.symm.trans (hempty n k hok.1 hthread)
        have hlen := Nat.lt_of_lt_of_le hok.1 hok.2
        rw [(List.append_eq_nil_iff.mp hnil).1] at hlen
        cases hlen
      | dispatch req => cases hmoves (.dispatch req) k () hthread
      | tcpWrite kind data => exact absurd hok no_write
      | setStatus status => cases hok
      | _ => exact absurd hok id
    | @dispatched event done todo hdone rest =>
      cases e with
      | tcpRead n =>
        have hnil := hunread.symm.trans (hempty n k hok.1 hthread)
        have hlen := Nat.lt_of_lt_of_le hok.1 hok.2
        rw [(List.append_eq_nil_iff.mp hnil).1] at hlen
        cases hlen
      | keyboardEvent down key => cases hmoves (.keyboardEvent down key) k () hthread
      | mouseEvent buttons x y => cases hmoves (.mouseEvent buttons x y) k () hthread
      | grabScreen => cases hok.2.1
      | tcpWrite kind data => exact absurd hok no_write
      | setStatus status => cases hok
      | _ => exact absurd hok id

end Receiver

/-! ## The buttons -/

def buttonTransitions : UInt32 → List InputCall → List Injection
  | _, [] => []
  | old, .pointer buttons x y :: calls =>
    XGrabber.maskEvents old buttons.toUInt32 x.toUInt32 y.toUInt32 ++ buttonTransitions buttons.toUInt32 calls
  | old, .keyboard _ _ :: calls => buttonTransitions old calls
  | old, .flush :: calls => buttonTransitions old calls

theorem maskEvents_self (mask x y : UInt32) : XGrabber.maskEvents mask mask x y = [] := by
  simp [XGrabber.maskEvents, XGrabber.bitEvent]

/-- The grabber follows the masks of all calls, although it sees the delivered ones
only: a mask is left out only when the last record since the flush had it too. -/
theorem perform_delivered (keycodes : UInt32 → Option UInt8) {calls : List InputCall} (hmask : ∀ c ∈ calls, c.HasMask)
    {last old : UInt32} {cfg : XGrabber} (hlast : last = 0xFFFFFFFF ∨ last = old)
    (hbits : ∀ i < 5, XGrabber.bit cfg.buttons i = XGrabber.bit old i) :
    (((InputQueue.delivered last calls).map effectOf).foldl (XGrabber.perform keycodes) cfg).buttonEvents =
      cfg.buttonEvents ++ buttonTransitions old calls := by
  induction calls generalizing last old cfg with
  | nil => simp [InputQueue.delivered, buttonTransitions]
  | cons c calls ih =>
    have hrest : ∀ c ∈ calls, c.HasMask := fun c hc => hmask c (List.mem_cons_of_mem _ hc)
    cases c with
    | keyboard down key =>
      obtain ⟨hbuttons, hevents⟩ := cfg.grabberKeyboardEvent_spec keycodes down.toInt32.toUInt32 key
      have hih := ih hrest hlast (hbuttons.symm ▸ hbits)
      rw [hevents] at hih
      exact hih
    | pointer buttons x y =>
      have hne : buttons.toUInt32 ≠ 0xFFFFFFFF := hmask _ List.mem_cons_self
      unfold InputQueue.delivered
      split
      · obtain ⟨hnew, hevents⟩ := cfg.grabberMouseEvent_spec buttons.toUInt32 x.toUInt32 y.toUInt32
        have hih := ih hrest (Or.inr rfl) hnew
        rw [hevents, XGrabber.maskEvents_congr hbits, List.append_assoc] at hih
        exact hih
      · next hsame =>
        obtain rfl : last = buttons.toUInt32 := not_not.mp hsame
        obtain rfl : buttons.toUInt32 = old := by
          rcases hlast with h | h
          · exact absurd h hne
          · exact h
        rw [buttonTransitions, maskEvents_self, List.nil_append]
        exact ih hrest (Or.inr rfl) hbits
    | flush => exact ih hrest (Or.inl rfl) hbits

theorem perform_prefix (keycodes : UInt32 → Option UInt8) (effects : List Effect) (cfg : XGrabber) :
    cfg.buttonEvents <+: (effects.foldl (XGrabber.perform keycodes) cfg).buttonEvents := by
  induction effects generalizing cfg with
  | nil => exact List.prefix_rfl
  | cons e effects ih =>
    refine List.IsPrefix.trans ?_ (ih (cfg.perform keycodes e))
    cases e with
    | keyboardEvent down key =>
      rw [XGrabber.perform, (cfg.grabberKeyboardEvent_spec keycodes down key).2]
    | mouseEvent buttons x y =>
      rw [XGrabber.perform, (cfg.grabberMouseEvent_spec buttons x y).2]
      exact List.prefix_append _ _
    | _ => exact List.prefix_rfl

theorem perform_handled (keycodes : UInt32 → Option UInt8) (events : List InputEvent) (cfg : XGrabber) :
    (events.flatMap Receiver.handled).foldl (XGrabber.perform keycodes) cfg =
      (events.map effectOf).foldl (XGrabber.perform keycodes) cfg := by
  induction events generalizing cfg with
  | nil => rfl
  | cons event events ih => exact ih _

/-- Key and pointer calls, flushed in any way but never more than the queue holds,
reach the desktop. The words sent are those of records in the order of their calls,
of which no key is missing; every run of the projector dispatches only the first words
of records and hands each record to the grabber once, in order; it comes to its end
after all of them; and the grabber presses and releases the five buttons exactly as
the masks of all pointer calls change, each at the position of its call. -/
theorem input_reaches_desktop (v : Vars) (keycodes : UInt32 → Option UInt8) (calls : List InputCall)
    (hmask : ∀ c ∈ calls, c.HasMask) (hfits : InputQueue.FitsBetweenFlushes calls) :
    ∃ (q : InputQueue) (events : List InputEvent), Transition.run InputQueue.call InputQueue.initial (calls ++ [.flush]) = some q ∧
      q.sent = events.flatMap InputEvent.words ∧
      events.Sublist (calls.filterMap InputCall.event) ∧
      events.filter InputEvent.isKeyboard = (calls.filterMap InputCall.event).filter InputEvent.isKeyboard ∧
      ∀ answers s, Transition.run (Receiver.step v keycodes) (Receiver.start v q.sent) answers = some s →
        s.log <+: events.flatMap Receiver.handled ∧
        s.cfg.buttonEvents <+: buttonTransitions 0 calls ∧
        answers.length ≤ (wordBytes q.sent).length + 3 * events.length + 1 ∧
        ((∀ a, s.step v keycodes a = none) →
          s.log = events.flatMap Receiver.handled ∧ s.cfg.buttonEvents = buttonTransitions 0 calls) := by
  obtain ⟨q, hq, hsent⟩ := InputQueue.run_flushed hfits
  have hall := @perform_delivered keycodes calls hmask 0xFFFFFFFF 0 XGrabber.init (Or.inl rfl) (fun _ _ => rfl)
  rw [← perform_handled] at hall
  refine ⟨q, InputQueue.delivered 0xFFFFFFFF calls, hq, hsent, InputQueue.delivered_sublist _ _,
    InputQueue.delivered_keyboard _ _, fun answers s hrun => ?_⟩
  rw [hsent] at hrun ⊢
  obtain ⟨m, hm, hok⟩ := Transition.run_ranked (fun _ _ _ _ hs h => Receiver.step_ok hs h)
    (Receiver.start_ok v keycodes (InputQueue.delivered 0xFFFFFFFF calls)) hrun
  have hlog := hok.log_prefix
  refine ⟨hlog, ?_, ?_, fun hstuck => ?_⟩
  · obtain ⟨rest, hrest⟩ := hlog
    rw [← hrest, List.foldl_append, ← hok.grabber] at hall
    have hprefix := perform_prefix keycodes rest s.cfg
    rw [hall] at hprefix
    exact hprefix
  · rw [wordBytes_flatMap]
    exact Nat.le_trans (Nat.le_add_left _ _) hm
  · have hdone := hok.log_of_stuck hstuck
    refine ⟨hdone, ?_⟩
    rw [hok.grabber, hdone, hall]
    rfl

/-- A press, a key, a call with the same mask, and a release after a flush. -/
def clickAndType : List InputCall :=
  [.pointer 1 5 6, .keyboard 1 0x61, .pointer 1 7 8, .flush, .pointer 0 7 8]

def remoteVars : Vars := ⟨false, true, screen16, [97], [115], [104]⟩

theorem click_reaches_desktop :
    ∃ (q : InputQueue) (events : List InputEvent),
      Transition.run InputQueue.call InputQueue.initial (clickAndType ++ [.flush]) = some q ∧
      q.sent = events.flatMap InputEvent.words ∧ q.sent = [4, 1, 5, 6, 0, 3, 1, 0x61, 4, 0, 7, 8, 0] ∧
      buttonTransitions 0 clickAndType = [⟨.button true 1, 5, 6⟩, ⟨.button false 1, 7, 8⟩] ∧
      ∀ answers s, Transition.run (Receiver.step remoteVars (fun _ => none)) (Receiver.start remoteVars q.sent) answers =
          some s → s.cfg.buttonEvents <+: buttonTransitions 0 clickAndType := by
  have hfits : ∀ p ∈ clickAndType.inits, InputQueue.pendingWords p ≤ 1024 := by decide +kernel
  obtain ⟨q, events, hq, hsent, _, _, hruns⟩ := input_reaches_desktop remoteVars (fun _ => none) clickAndType
    (by simp [clickAndType, InputCall.HasMask]; decide) (fun p hp => hfits p ((List.mem_inits p clickAndType).mpr hp))
  have hwords : (Transition.run InputQueue.call InputQueue.initial (clickAndType ++ [.flush])).map InputQueue.sent =
      some [4, 1, 5, 6, 0, 3, 1, 0x61, 4, 0, 7, 8, 0] := by decide +kernel
  rw [hq, Option.map_some] at hwords
  exact ⟨q, events, hq, hsent, Option.some.inj hwords, by decide +kernel, fun answers s hrun => (hruns answers s hrun).2.1⟩

end LilitunRemote

import LilitunRemote.Foundation.Ownership
import LilitunRemote.Foundation.Transition
import LilitunRemote.Projector.Gate

/-! # The buffer of the user password

`projector->user_password` outlives a session: one projector runs session after
session, and each of them may receive passwords. `recv_user_password` allocates when
the length has arrived, which is when a thread enters its password loop, and releases
the buffer when the text is cut short. The end of a session that got past the
signature releases whatever the pointer denotes.
-/
namespace LilitunRemote
namespace Projector
open Ownership

/-- A running session: the loop state its current round began from, none before the
request loop. -/
structure Session where
  vars : Vars
  loop : Option Loop
  thread : Thread

structure Sharing where
  heap : Heap
  userPassword : Option ℕ
  session : Option Session

def Sharing.initial : Sharing := ⟨.empty, none, none⟩

def startsPassword : Option Loop → Thread → Bool
  | some (.serve _), .ret (Sum.inl (.password ..)) => true
  | _, _ => false

def cutShort : Option Loop → (e : Effect) → Response e → Bool
  | some (.password ..), .tcpRead _, got => decide (got.length ≤ 0)
  | _, _, _ => false

def endsSession : Option Loop → Effect → Bool
  | some _, .tcpClose => true
  | _, _ => false

def Sharing.account (s : Sharing) (loop : Option Loop) (e : Effect) (r : Response e) (next : Thread) : Sharing :=
  if startsPassword loop next then { s with heap := s.heap.malloc, userPassword := some s.heap.allocated }
  else if cutShort loop e r then { s with heap := s.heap.free s.userPassword, userPassword := none }
  else if endsSession loop e then { s with heap := s.heap.free s.userPassword }
  else s

def Session.after (session : Session) : Thread → Option Session
  | .ret (Sum.inr ()) => none
  | .ret (Sum.inl c) => some ⟨session.vars, some c, body session.vars c⟩
  | p => some { session with thread := p }

inductive Move
  | connect (v : Vars)
  | perform (e : Effect) (r : Response e)

def readFits : (e : Effect) → Response e → Bool
  | .tcpRead len, got => decide (got.length ≤ len)
  | _, _ => true

def Sharing.step (s : Sharing) : Move → Option Sharing
  | .connect v => if s.session.isNone then some { s with session := some ⟨v, none, projectorThread v⟩ } else none
  | .perform e r => do
    let session ← s.session
    let next ← session.thread.feed e r
    if readFits e r then some { s.account session.loop e r next with session := session.after next } else none

/-- Every buffer is released exactly once, but for the live one `user_password`
denotes, and when no session runs there is none left. -/
structure Sharing.PasswordOwned (s : Sharing) : Prop where
  owned : s.heap.Owned s.userPassword
  ended : s.session = none → ∀ b < s.heap.allocated, s.heap.released.count b = 1

/-- `user_password` is null when a password is about to be received and when a session
past the signature ends. -/
def Sharing.PasswordFree (s : Sharing) : Move → Prop
  | .connect _ => True
  | .perform e r => ∀ session next, s.session = some session → session.thread.feed e r = some next → readFits e r = true →
    (startsPassword session.loop next = true ∨ endsSession session.loop e = true) → s.userPassword = none

/-! ## The thread in client mode -/

theorem keeps_checkRemoteSig_client {a : Bool} : Keeps a (checkRemoteSig false) := by
  refine (keeps_signature _).bind (fun sent => ?_)
  split
  · exact keeps_pure _
  · exact (keeps_tcpReadAll _).bind (fun buf => keeps_pure _)

theorem session_obeys (v : Vars) : gate.Obeys (.running (!v.server)) (projectorThread v) AtRest := by
  cases hserver : v.server with
  | true => exact projectorThread_obeys hserver
  | false =>
    unfold projectorThread
    rw [hserver]
    refine keeps_checkRemoteSig_client.bind (fun accepted => ?_)
    split
    · exact (rfl : (Phase.running true) = .running true)
    · exact (keeps_setStatus _).bind (fun _ =>
        (keeps_act (e := .stop) trivial (fun _ => rfl)).bind (fun _ => finish_obeys))

/-! ## The invariant -/

structure Sharing.Consistent (s : Sharing) : Prop where
  owned : s.heap.Owned s.userPassword
  idle : s.session = none → s.userPassword = none
  running : ∀ session, s.session = some session → ∃ p, gate.Obeys p session.thread AtRest ∧
    ((∀ a, p ≠ .running a) ∨ session.loop = none → s.userPassword = none)

theorem Sharing.Consistent.passwordOwned {s : Sharing} (h : s.Consistent) : s.PasswordOwned := by
  refine ⟨h.owned, fun hnone b hb => h.owned.once b hb ?_⟩
  rw [h.idle hnone]
  exact (Option.some_ne_none b).symm

theorem startsPassword_eq_true {loop : Option Loop} {next : Thread} (h : startsPassword loop next = true) :
    (∃ b, loop = some (.serve b)) ∧ ∃ a len total buf, next = .ret (Sum.inl (.password a len total buf)) := by
  unfold startsPassword at h
  split at h
  · exact ⟨⟨_, rfl⟩, _, _, _, _, rfl⟩
  · cases h

theorem Phase.next_running {a : Bool} {e : Effect} {r : Response e} (h : ∀ b, (Phase.running a).next e r ≠ .running b) :
    e = .tcpClose := by
  unfold Phase.next at h
  split at h
  · next hp => cases hp
  · exact absurd rfl (h _)
  · rfl
  · exact absurd rfl (h a)

theorem Session.after_consistent {session : Session} {p : Phase} {next : Thread} {s : Sharing}
    (hobeys : gate.Obeys p next AtRest) (howned : s.heap.Owned s.userPassword)
    (hnull : (∀ a, p ≠ .running a) ∨ session.loop = none → s.userPassword = none) :
    ({ s with session := session.after next } : Sharing).Consistent := by
  cases next with
  | op e k =>
    refine ⟨howned, (fun h => nomatch h), ?_⟩
    intro _ hsome
    obtain rfl := Option.some.inj hsome
    exact ⟨p, hobeys, hnull⟩
  | ret x =>
    cases x with
    | inr u => exact ⟨howned, fun _ => hnull (Or.inl hobeys), (fun _ h => nomatch h)⟩
    | inl c =>
      refine ⟨howned, (fun h => nomatch h), ?_⟩
      intro _ hsome
      obtain rfl := Option.some.inj hsome
      refine ⟨p, body_obeys c p hobeys, ?_⟩
      rintro (hp | hloop)
      · exact hnull (Or.inl hp)
      · cases hloop

theorem Sharing.step_consistent {s t : Sharing} {m : Move} (h : s.Consistent) (hfree : s.PasswordFree m)
    (ht : s.step m = some t) : t.Consistent := by
  cases m with
  | connect v =>
    simp only [Sharing.step, Option.ite_none_right_eq_some, Option.some.injEq] at ht
    obtain ⟨hnone, rfl⟩ := ht
    have hnull := h.idle (Option.isNone_iff_eq_none.mp hnone)
    refine ⟨h.owned, (fun h => nomatch h), ?_⟩
    intro _ hsome
    obtain rfl := Option.some.inj hsome
    exact ⟨_, session_obeys v, fun _ => hnull⟩
  | perform e r =>
    simp only [Sharing.step, Option.bind_eq_bind, Option.bind_eq_some_iff, Option.ite_none_right_eq_some,
      Option.some.injEq] at ht
    obtain ⟨session, hsession, next, hfeed, hfits, rfl⟩ := ht
    obtain ⟨p, hobeys, hnull⟩ := h.running session hsession
    have hnow := hfree session next hsession hfeed hfits
    obtain ⟨k, hthread, rfl⟩ := Proc.feed_eq_some.mp hfeed
    rw [hthread] at hobeys
    have hnext := hobeys.2 r _ rfl
    unfold Sharing.account
    split
    · next hstarts =>
      have howned := (Heap.malloc_owned_iff h.owned).mpr (hnow (Or.inl hstarts))
      obtain ⟨⟨b, hloop⟩, a, len, total, buf, hret⟩ := startsPassword_eq_true hstarts
      rw [hret] at hnext ⊢
      apply Session.after_consistent hnext howned
      rintro (hclosed | hnone)
      · exact absurd hnext (hclosed a)
      · rw [hloop] at hnone
        cases hnone
    · split
      · exact Session.after_consistent hnext (Heap.free_owned h.owned) (fun _ => rfl)
      · split
        · next hends =>
          have hnone := hnow (Or.inr hends)
          exact Session.after_consistent hnext ((Heap.free_kept_owned_iff h.owned).mpr hnone) (fun _ => hnone)
        · next hends =>
          apply Session.after_consistent hnext h.owned
          rintro (hclosed | hloop)
          · -- the channel was closed before the request loop was reached
            cases hphase : p with
            | running a =>
              rw [hphase] at hclosed
              obtain rfl := Phase.next_running hclosed
              cases hloop : session.loop with
              | none => exact hnull (Or.inr hloop)
              | some c =>
                rw [hloop] at hends
                exact absurd rfl hends
            | before => exact hnull (Or.inl (fun a ha => by rw [hphase] at ha; cases ha))
            | closed => exact hnull (Or.inl (fun a ha => by rw [hphase] at ha; cases ha))
          · exact hnull (Or.inr hloop)

/-- A step that does not meet the condition loses a buffer or leaves the pointer to a
released one. -/
theorem Sharing.step_not_owned {s : Sharing} {m : Move} (h : s.Consistent) (hfree : ¬ s.PasswordFree m) :
    ∃ t, s.step m = some t ∧ ¬ t.PasswordOwned := by
  cases m with
  | connect v => exact absurd trivial hfree
  | perform e r =>
    unfold Sharing.PasswordFree at hfree
    push Not at hfree
    obtain ⟨session, next, hsession, hfeed, hfits, hcase, hsome⟩ := hfree
    refine ⟨{ s.account session.loop e r next with session := session.after next }, ?_, fun howned => hsome ?_⟩
    · simp only [Sharing.step, hsession, hfeed, hfits, Option.bind_eq_bind, Option.bind_some, if_true]
    · have hheap := howned.owned
      simp only [Sharing.account] at hheap
      by_cases hstarts : startsPassword session.loop next = true
      · rw [if_pos hstarts] at hheap
        exact (Heap.malloc_owned_iff h.owned).mp hheap
      · have hends := hcase.resolve_left hstarts
        have hcut : cutShort session.loop e r = false := by
          unfold endsSession at hends
          split at hends
          · unfold cutShort
            split <;> first | rfl | contradiction
          · cases hends
        rw [if_neg hstarts, if_neg (by rw [hcut]; decide), if_pos hends] at hheap
        exact (Heap.free_kept_owned_iff h.owned).mp hheap

theorem Sharing.initial_consistent : Sharing.initial.Consistent :=
  ⟨Heap.empty_owned, fun _ => rfl, fun _ h => nomatch h⟩

/-- Over whole runs of sessions: every buffer of a password is released exactly once
and the pointer never dangles exactly when no password is received and no session
ends while the pointer is not null. -/
theorem passwords_owned_iff (moves : List Move) :
    (∀ ms t, ms <+: moves → Transition.run Sharing.step Sharing.initial ms = some t → t.PasswordOwned) ↔
      Transition.Guarded Sharing.step Sharing.PasswordFree Sharing.initial moves :=
  (Transition.guarded_iff_forall (fun _ => Sharing.Consistent.passwordOwned)
    (fun _ _ _ h hfree ht => Sharing.step_consistent h hfree ht) (fun _ _ h hfree => Sharing.step_not_owned h hfree)
    Sharing.initial_consistent moves).symm

/-- A session over a client connection that receives the password "a" and then ends. -/
def onePassword : List Move :=
  [.connect ⟨false, false, screen16, [], [], []⟩,
    .perform (.tcpWrite .signature (remoteId ++ [0])) true,
    .perform (.tcpRead (serverId.length + 1)) (serverId ++ [0]),
    .perform .isStarted true,
    .perform (.tcpRead 4) (htonl Req.userPassword.code),
    .perform (.dispatch Req.userPassword.code) (),
    .perform (.tcpRead 4) (htonl 1),
    .perform (.tcpRead 1) [97],
    .perform (.userPassword [97]) (),
    .perform .isStarted false,
    .perform .tcpClose ()]

/-- After it the pointer still denotes the released buffer. -/
theorem onePassword_dangles : ∃ t, Transition.run Sharing.step Sharing.initial onePassword = some t ∧
    t.session.isNone = true ∧ t.userPassword = some 0 ∧ t.heap.released = [0] ∧ ¬ t.PasswordOwned := by
  have hrun : (Transition.run Sharing.step Sharing.initial onePassword).map
      (fun t => (t.session.isNone, t.userPassword, t.heap)) = some (true, some 0, ⟨1, [0]⟩) := by decide +kernel
  obtain ⟨t, ht, hdata⟩ := Option.map_eq_some_iff.mp hrun
  simp only [Prod.mk.injEq] at hdata
  obtain ⟨hsession, hpointer, hheap⟩ := hdata
  refine ⟨t, ht, hsession, hpointer, by rw [hheap], fun howned => ?_⟩
  have hlive := (howned.owned.live 0 hpointer).2
  rw [hheap] at hlive
  exact hlive (by decide)

end Projector
end LilitunRemote

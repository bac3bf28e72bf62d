import LilitunRemote.Server.Lifecycle

/-! # The ports of the connections

A connection takes two ports before its setup and gives them back in its teardown, if
its translator was started. A marked port belongs to a connection from the allocation
to the release, and a translator uses its ports until `translator_finish` returns.
-/
namespace LilitunRemote
namespace Lifecycle
open AppServer

def Conn.portField (conn : Conn) (ipv6 : Bool) : ℕ := if ipv6 then conn.ipv6port else conn.port

/-- The port a connection has taken and not given back; 0 for none. -/
def Conn.held (conn : Conn) (ipv6 : Bool) : ℕ :=
  if conn.translator = .finished ∨ conn.point = .translatorFinish ∨ (conn.point = .freeIpv6Port ∧ ipv6 = false) then 0
  else conn.portField ipv6

/-- The port a connection's translator uses, or will use when it is started. -/
def Conn.used (conn : Conn) (ipv6 : Bool) : ℕ := if conn.translator = .finished then 0 else conn.portField ipv6

def Server.each (f : Conn → Bool → ℕ) (s : Server) (k : ℕ × Bool) : ℕ := ((s.conns k.1).map (fun conn => f conn k.2)).getD 0

def Server.held : Server → ℕ × Bool → ℕ := Server.each Conn.held

def Server.used : Server → ℕ × Bool → ℕ := Server.each Conn.used

section Next
variable {setting : Setting} {s t : Server} {conn : Conn}

theorem next_portField (a : Answer) (ipv6 : Bool) : (s.next setting conn a).portField ipv6 =
    match conn.point, ipv6 with
    | .allocPort, false | .allocIpv6Port, true => (setting.range.portctrlAlloc s.ports).1
    | _, _ => conn.portField ipv6 := by
  unfold Conn.portField
  cases ipv6 with
  | false =>
    rw [if_neg (by decide), if_neg (by decide), next_port]
    cases conn.point <;> rfl
  | true =>
    rw [if_pos rfl, if_pos rfl, next_ipv6port]
    cases conn.point <;> rfl

theorem next_finished (h : conn.Fits) (a : Answer) :
    (s.next setting conn a).translator = .finished ↔ conn.translator = .finished ∨ conn.point = .translatorFinish := by
  rw [next_translator]
  cases hpoint : conn.point
  case translatorInit =>
    have hnone : conn.translator = .none := (h.at hpoint).1
    by_cases ha : a = .fail <;> simp [ha, hnone]
  case translatorFinish => simp
  all_goals simp

/-- The ports a connection holds change at the allocations and the releases only. -/
theorem next_held (h : conn.Fits) (a : Answer) (ipv6 : Bool) :
    (s.next setting conn a).held ipv6 = match conn.point, ipv6 with
      | .allocPort, false | .allocIpv6Port, true => (setting.range.portctrlAlloc s.ports).1
      | .freePort, false | .freeIpv6Port, true => 0
      | _, _ => conn.held ipv6 := by
  simp only [Conn.held, next_finished h, next_freeIpv6Port, next_translatorFinish, next_portField]
  cases hpoint : conn.point
  case allocPort =>
    have hnone : conn.translator = .none := (h.at hpoint).2.2.1
    cases ipv6 <;> simp [hnone]
  case allocIpv6Port =>
    have hnone : conn.translator = .none := (h.at hpoint).2.1
    cases ipv6 <;> simp [hnone]
  case freePort =>
    have hrunning : conn.translator = .running := h.at hpoint
    cases ipv6 <;> simp [hrunning]
  case freeIpv6Port => cases ipv6 <;> simp
  case translatorFinish => simp
  -- the other points neither take nor give back a port
  all_goals simp

theorem next_used (h : conn.Fits) (a : Answer) (ipv6 : Bool) :
    (s.next setting conn a).used ipv6 = match conn.point, ipv6 with
      | .allocPort, false | .allocIpv6Port, true => (setting.range.portctrlAlloc s.ports).1
      | .translatorFinish, _ => 0
      | _, _ => conn.used ipv6 := by
  simp only [Conn.used, next_finished h, next_portField]
  cases hpoint : conn.point
  case allocPort =>
    have hnone : conn.translator = .none := (h.at hpoint).2.2.1
    cases ipv6 <;> simp [hnone]
  case allocIpv6Port =>
    have hnone : conn.translator = .none := (h.at hpoint).2.1
    cases ipv6 <;> simp [hnone]
  case translatorFinish => simp
  all_goals simp

variable {f : Conn → Bool → ℕ}

theorem each_of_conn {c : ℕ} (h : s.conns c = some conn) (ipv6 : Bool) : s.each f (c, ipv6) = f conn ipv6 := by
  simp [Server.each, h]

theorem each_congr (h : ∀ c, (t.conns c).map f = (s.conns c).map f) : t.each f = s.each f := by
  funext k
  have hk := h k.1
  unfold Server.each
  cases ht : t.conns k.1 with
  | none =>
    rw [ht, Option.map_none, eq_comm, Option.map_eq_none_iff] at hk
    rw [hk]
  | some conn =>
    rw [ht, Option.map_some, eq_comm, Option.map_eq_some_iff] at hk
    obtain ⟨old, hold, hf⟩ := hk
    rw [hold, Option.map_some, Option.map_some, hf]

theorem each_next {d : ℕ} {conn' : Conn} (hconns : t.conns = Function.update s.conns d (some conn')) (c : ℕ) (ipv6 : Bool) :
    t.each f (c, ipv6) = if c = d then f conn' ipv6 else s.each f (c, ipv6) := by
  unfold Server.each
  rw [hconns]
  by_cases hc : c = d
  · subst hc
    rw [if_pos rfl, Function.update_self]
    rfl
  · rw [if_neg hc, Function.update_of_ne hc]

theorem each_update {d : ℕ} {conn' : Conn} (hconns : t.conns = Function.update s.conns d (some conn'))
    (hold : s.conns d = some conn) (ipv6 : Bool) (hother : f conn' (!ipv6) = f conn (!ipv6)) :
    t.each f = Function.update (s.each f) (d, ipv6) (f conn' ipv6) := by
  funext ⟨c, b⟩
  rw [each_next hconns]
  by_cases hc : c = d
  · subst hc
    rw [if_pos rfl]
    by_cases hb : b = ipv6
    · subst hb
      rw [Function.update_self]
    · obtain rfl : b = !ipv6 := by cases b <;> cases ipv6 <;> simp_all
      rw [Function.update_of_ne (by simp), hother, each_of_conn hold]
  · rw [if_neg hc, Function.update_of_ne (by simp [hc])]

theorem each_same {d : ℕ} {conn' : Conn} (hconns : t.conns = Function.update s.conns d (some conn'))
    (hold : s.conns d = some conn) (hsame : ∀ ipv6, f conn' ipv6 = f conn ipv6) : t.each f = s.each f := by
  funext ⟨c, b⟩
  rw [each_next hconns]
  by_cases hc : c = d
  · subst hc
    rw [if_pos rfl, hsame, each_of_conn hold]
  · rw [if_neg hc]

theorem each_accept {d : ℕ} {passwd : Bytes} (hconns : t.conns = Function.update s.conns d (some (.start passwd)))
    (hnone : s.conns d = none) (hstart : ∀ ipv6, f (.start passwd) ipv6 = 0) : t.each f = s.each f := by
  funext ⟨c, b⟩
  rw [each_next hconns]
  by_cases hc : c = d
  · subst hc
    rw [if_pos rfl, hstart]
    simp [Server.each, hnone]
  · rw [if_neg hc]

theorem each_quiet (h : s.Quiet t) (hstop : ∀ conn : Conn, f { conn with stopReq := true } = f conn) :
    t.each f = s.each f := by
  refine each_congr (fun c => ?_)
  rcases h.2.2.2 c with hsame | ⟨conn, hold, hnew⟩
  · rw [hsame]
  · rw [hold, hnew, Option.map_some, Option.map_some, hstop]

end Next

/-! ## Marks and holders -/

section Owned
variable {setting : Setting} {s t : Server} {a : Step}

/-- The marked ports are those the connections hold, each by one of them. -/
def Server.PortsOwned (setting : Setting) (s : Server) : Prop := setting.range.Owned s.ports s.held

theorem initial_portsOwned (store : Store) : (Server.initial store).PortsOwned setting := by
  refine ⟨fun k hk => absurd rfl hk, fun k _ hk => absurd rfl hk, fun i _ => ⟨(fun h => nomatch h), ?_⟩⟩
  rintro ⟨hport, k, hk⟩
  exact absurd hk.symm hport

theorem connStep_portsOwned {d : ℕ} {conn : Conn} {x : Answer} (hfits : conn.Fits) (hold : s.conns d = some conn)
    (hconns : t.conns = Function.update s.conns d (some (s.next setting conn x)))
    (hports : t.ports = s.portsAfter setting conn) (hs : s.PortsOwned setting) : t.PortsOwned setting := by
  have hheld : ∀ ipv6, s.held (d, ipv6) = conn.held ipv6 := each_of_conn hold
  have hnext : ∀ ipv6, (s.next setting conn x).held ipv6 = _ := next_held hfits x
  unfold Server.portsAfter at hports
  unfold Server.PortsOwned at hs ⊢
  cases hpoint : conn.point
  case allocPort =>
    simp only [hpoint] at hports hnext
    have hnone : conn.held false = 0 := by
      simp [Conn.held, Conn.portField, (hfits.at hpoint).1]
    rw [hports, Server.held, each_update hconns hold false (hnext true), hnext false]
    exact hs.alloc ((hheld false).trans hnone)
  case allocIpv6Port =>
    simp only [hpoint] at hports hnext
    have hnone : conn.held true = 0 := by
      simp [Conn.held, Conn.portField, (hfits.at hpoint).1]
    rw [hports, Server.held, each_update hconns hold true (hnext false), hnext true]
    exact hs.alloc ((hheld true).trans hnone)
  case freePort =>
    simp only [hpoint] at hports hnext
    have hport : s.held (d, false) = conn.port := by
      have hrunning : conn.translator = .running := hfits.at hpoint
      rw [hheld, Conn.held, if_neg (by simp [hpoint, hrunning])]
      rfl
    rw [hports, Server.held, each_update hconns hold false (hnext true), hnext false, ← hport]
    exact hs.free (d, false)
  case freeIpv6Port =>
    simp only [hpoint] at hports hnext
    have hport : s.held (d, true) = conn.ipv6port := by
      have hrunning : conn.translator = .running := hfits.at hpoint
      rw [hheld, Conn.held, if_neg (by simp [hpoint, hrunning])]
      rfl
    rw [hports, Server.held, each_update hconns hold true (hnext false), hnext true, ← hport]
    exact hs.free (d, true)
  all_goals
    simp only [hpoint] at hports hnext
    rw [hports, Server.held, each_same hconns hold (fun ipv6 => hnext ipv6)]
    exact hs

theorem step_portsOwned (hconsistent : s.Consistent) (hs : s.PortsOwned setting) (h : s.step setting a = some t) :
    t.PortsOwned setting := by
  rcases step_cases h with ⟨d, passwd, hnone, hconns, -, hports, -⟩ | ⟨d, x, conn, -, hold, hconns, -, hports, -⟩ | hquiet
  · unfold Server.PortsOwned at hs ⊢
    rw [hports, Server.held, each_accept hconns hnone (fun ipv6 => by cases ipv6 <;> rfl)]
    exact hs
  · exact connStep_portsOwned (hconsistent.fits d conn hold) hold hconns hports hs
  · unfold Server.PortsOwned at hs ⊢
    rw [hquiet.1, Server.held, each_quiet hquiet (fun _ => rfl)]
    exact hs

end Owned

/-! ## No connection leaks its ports -/

def Server.FailsWithoutPorts (s : Server) : Step → Prop
  | .conn c a => ∀ conn ∈ s.conns c, conn.point.failsSetup a = true → conn.port = 0 ∧ conn.ipv6port = 0
  | _ => True

instance (s : Server) : (a : Step) → Decidable (s.FailsWithoutPorts a)
  | .conn c _ => inferInstanceAs (Decidable (∀ conn ∈ s.conns c, _))
  | .accept .. | .stopSharing .. | .stop _ | .exit => isTrue trivial

def Conn.Clean (conn : Conn) : Prop :=
  conn.point.part = .opened ∨ conn.point.part = .releasing → conn.translator = .none → conn.port = 0 ∧ conn.ipv6port = 0

theorem next_clean {setting : Setting} {s : Server} {conn : Conn} {a : Answer} (hfits : conn.Fits)
    (hfail : conn.point.failsSetup a = true → conn.port = 0 ∧ conn.ipv6port = 0) (h : conn.Clean) :
    (s.next setting conn a).Clean := by
  intro hpart hnone
  rw [next_translator] at hnone
  rw [next_port, next_ipv6port]
  rcases next_part hpart with hfails | ⟨hport, hhalf, hsetup⟩
  · have hzero := hfail hfails
    cases hpoint : conn.point <;> rw [hpoint] at hfails <;> first | exact hzero | cases hfails
  · unfold Conn.Clean at h
    cases hpoint : conn.point with
    | upgrade | lockList | addToList | unlockList | checkRemoteSig | screenInfo =>
      exact ⟨(hfits.at hpoint).1, (hfits.at hpoint).2.1⟩
    | allocPort => exact absurd hpoint hport
    | allocIpv6Port => exact absurd (congrArg Point.part hpoint) hhalf
    | lockSetup | appserverHost | sessionId | hostname | userConnection | userPassword | translatorInit =>
      exact absurd (congrArg Point.part hpoint) hsetup
    | sendStart | sendStop | freePort | freeIpv6Port =>
      have hrunning : conn.translator = .running := hfits.at hpoint
      simp only [hpoint, hrunning] at hnone
      cases hnone
    | translatorFinish =>
      simp only [hpoint] at hnone
      cases hnone
    | unlockSetup | update | lockUpdate | checkStop | doReqStop | screenUpdate | unlockIdle | giveUp | teardown
    | region left | unlockRegion left | drawRegion left =>
      simp only [hpoint] at hnone
      exact h (Or.inl (congrArg Point.part hpoint)) hnone
    | freeSessionId | tcpClose | lockListToRemove | removeFromList | unlockRemoved | freeConn | returned =>
      simp only [hpoint] at hnone
      exact h (Or.inr (congrArg Point.part hpoint)) hnone

section Leaks
variable {setting : Setting} {s t : Server} {a : Step}

structure Server.Tidy (setting : Setting) (s : Server) : Prop where
  consistent : s.Consistent
  owned : s.PortsOwned setting
  clean : ∀ c conn, s.conns c = some conn → conn.Clean

theorem step_tidy (hs : s.Tidy setting) (hfail : s.FailsWithoutPorts a) (h : s.step setting a = some t) :
    t.Tidy setting := by
  refine ⟨step_consistent hs.consistent h, step_portsOwned hs.consistent hs.owned h, ?_⟩
  refine forall_conn_step (fun _ hpart => by simp [Conn.start, Point.part] at hpart) ?_ (fun _ hclean => hclean) h hs.clean
  rintro c x conn rfl hconn hclean
  exact next_clean (hs.consistent.fits c conn hconn) (hfail conn hconn) hclean

theorem Server.Tidy.returned (hs : s.Tidy setting) {c : ℕ} {conn : Conn} (hconn : s.conns c = some conn)
    (hreturned : conn.point = .returned) (ipv6 : Bool) : conn.held ipv6 = 0 := by
  have hstopped : conn.translator ≠ .running := (hs.consistent.fits c conn hconn).at hreturned
  have hclean := hs.clean c conn hconn (Or.inr (congrArg Point.part hreturned))
  unfold Conn.held
  split
  · rfl
  · next hheld =>
    have hnone : conn.translator = .none := by
      cases htr : conn.translator with
      | none => rfl
      | running => exact absurd htr hstopped
      | finished => exact absurd (Or.inl htr) hheld
    obtain ⟨hport, hipv6⟩ := hclean hnone
    cases ipv6
    · exact hport
    · exact hipv6

/-- Over every run in which a setup fails only in connections without ports: a marked
port is held by a connection whose thread has not returned, so when all have returned
every port of the range is free again. -/
theorem returned_holds_no_port (setting : Setting) (store : Store) (steps : List Step) (s : Server)
    (hfail : Transition.Guarded (Server.step setting) Server.FailsWithoutPorts (.initial store) steps)
    (hrun : Transition.run (Server.step setting) (.initial store) steps = some s) :
    (∀ i < setting.range.max, s.ports i = true → ∃ c conn, s.conns c = some conn ∧ conn.point ≠ .returned ∧
        (conn.port = setting.range.portOf i ∨ conn.ipv6port = setting.range.portOf i)) ∧
      ((∀ c conn, s.conns c = some conn → conn.point = .returned) → ∀ i < setting.range.max, s.ports i = false) := by
  have hstart : (Server.initial store).Tidy setting :=
    ⟨initial_consistent store, initial_portsOwned store, (fun _ _ h => nomatch h)⟩
  have hs : s.Tidy setting :=
    Transition.run_preserves_guarded (fun _ _ _ hs hf ht => step_tidy hs hf ht) hstart hfail hrun
  have hmarked : ∀ i < setting.range.max, s.ports i = true → ∃ c conn, s.conns c = some conn ∧ conn.point ≠ .returned ∧
      (conn.port = setting.range.portOf i ∨ conn.ipv6port = setting.range.portOf i) := by
    intro i hi hmark
    obtain ⟨hport, ⟨c, ipv6⟩, hheld⟩ := (hs.owned.marked i hi).mp hmark
    cases hconn : s.conns c with
    | none =>
      have hnothing : s.held (c, ipv6) = 0 := by simp [Server.held, Server.each, hconn]
      exact absurd (hheld.symm.trans hnothing) hport
    | some conn =>
      have hconnHeld : conn.held ipv6 = setting.range.portOf i := (each_of_conn hconn ipv6).symm.trans hheld
      refine ⟨c, conn, hconn, fun hreturned => hport ?_, ?_⟩
      · rw [← hconnHeld, hs.returned hconn hreturned]
      · unfold Conn.held at hconnHeld
        split at hconnHeld
        · exact absurd hconnHeld.symm hport
        · cases ipv6
          · exact Or.inl hconnHeld
          · exact Or.inr hconnHeld
  refine ⟨hmarked, fun hall i hi => ?_⟩
  by_contra hmark
  obtain ⟨c, conn, hconn, hrunning, _⟩ := hmarked i hi (by simpa using hmark)
  exact hrunning (hall c conn hconn)

end Leaks

/-! ## No two translators share a port -/

section Sharing
variable {setting : Setting} {s t : Server} {a : Step}

/-- The port an allocation is about to hand out is not one of a translator that is
running. -/
def Server.AllocatesUnused (setting : Setting) (s : Server) : Step → Prop
  | .conn c _ => ∀ conn ∈ s.conns c, conn.point = .allocPort ∨ conn.point = .allocIpv6Port →
    ∀ d ∈ s.ids, ∀ other ∈ s.conns d, other.translator = .running →
      ∀ ipv6, (setting.range.portctrlAlloc s.ports).1 ≠ 0 →
        other.portField ipv6 ≠ (setting.range.portctrlAlloc s.ports).1
  | _ => True

instance (setting : Setting) (s : Server) : (a : Step) → Decidable (s.AllocatesUnused setting a)
  | .conn c _ => inferInstanceAs (Decidable (∀ conn ∈ s.conns c, _))
  | .accept .. | .stopSharing .. | .stop _ | .exit => isTrue trivial

structure Server.Exclusive (setting : Setting) (s : Server) : Prop where
  consistent : s.Consistent
  owned : s.PortsOwned setting
  exclusive : ∀ k l, s.used k ≠ 0 → s.used k = s.used l → k = l

/-- What is held and not shut down is held by a mark, if its translator is not running. -/
theorem held_of_used {conn : Conn} (h : conn.Fits) (hnot : conn.translator ≠ .running) (ipv6 : Bool) :
    conn.held ipv6 = conn.used ipv6 := by
  have hpoints : conn.point ≠ .translatorFinish ∧ conn.point ≠ .freeIpv6Port :=
    ⟨fun hp => hnot (h.at hp), fun hp => hnot (h.at hp)⟩
  simp [Conn.held, Conn.used, hpoints]

theorem alloc_unused (hs : s.Exclusive setting)
    (hrunning : ∀ d ∈ s.ids, ∀ other ∈ s.conns d, other.translator = .running → ∀ ipv6,
      (setting.range.portctrlAlloc s.ports).1 ≠ 0 → other.portField ipv6 ≠ (setting.range.portctrlAlloc s.ports).1)
    (hport : (setting.range.portctrlAlloc s.ports).1 ≠ 0) (k : ℕ × Bool) :
    s.used k ≠ (setting.range.portctrlAlloc s.ports).1 := by
  obtain ⟨d, ipv6⟩ := k
  cases hother : s.conns d with
  | none =>
    have hnothing : s.used (d, ipv6) = 0 := by simp [Server.used, Server.each, hother]
    rw [hnothing]
    exact hport.symm
  | some other =>
    rw [Server.used, each_of_conn hother]
    by_cases hrun : other.translator = .running
    · rw [Conn.used, if_neg (by rw [hrun]; decide)]
      exact hrunning d (hs.consistent.known d other hother) other hother hrun ipv6 hport
    · rw [← held_of_used (hs.consistent.fits d other hother) hrun]
      rcases PortRange.portctrlAlloc_cases setting.range s.ports with hnone | ⟨i, hi, hfree, hne, hsome⟩
      · rw [hnone] at hport
        exact absurd rfl hport
      · rw [hsome]
        intro hheld
        have hmark := (hs.owned.marked i hi).mpr ⟨hne, (d, ipv6), (each_of_conn hother ipv6).trans hheld⟩
        rw [hfree] at hmark
        cases hmark

theorem exclusive_update {κ : Type*} [DecidableEq κ] {used : κ → ℕ} {k : κ} {p : ℕ}
    (h : ∀ l m, used l ≠ 0 → used l = used m → l = m) (hp : p ≠ 0 → ∀ l, used l ≠ p) :
    ∀ l m, Function.update used k p l ≠ 0 → Function.update used k p l = Function.update used k p m → l = m := by
  intro l m hl hlm
  by_cases hlk : l = k <;> by_cases hmk : m = k
  · rw [hlk, hmk]
  · subst hlk
    rw [Function.update_self] at hl hlm
    rw [Function.update_of_ne hmk] at hlm
    exact absurd hlm.symm (hp hl m)
  · subst hmk
    rw [Function.update_self] at hlm
    rw [Function.update_of_ne hlk] at hl hlm
    exact absurd hlm (hp (hlm ▸ hl) l)
  · rw [Function.update_of_ne hlk] at hl hlm
    rw [Function.update_of_ne hmk] at hlm
    exact h l m hl hlm

theorem connStep_exclusive {d : ℕ} {conn : Conn} {x : Answer} (hs : s.Exclusive setting) (hold : s.conns d = some conn)
    (hunused : s.AllocatesUnused setting (.conn d x))
    (hconns : t.conns = Function.update s.conns d (some (s.next setting conn x))) :
    ∀ k l, t.used k ≠ 0 → t.used k = t.used l → k = l := by
  have hnext : ∀ ipv6, (s.next setting conn x).used ipv6 = _ := next_used (hs.consistent.fits d conn hold) x
  have hfresh := hunused conn hold
  have hexclusive := hs.exclusive
  unfold Server.used at hexclusive ⊢
  cases hpoint : conn.point
  case allocPort =>
    simp only [hpoint] at hnext
    rw [each_update hconns hold false (hnext true), hnext false]
    exact exclusive_update hexclusive (alloc_unused hs (hfresh (Or.inl hpoint)))
  case allocIpv6Port =>
    simp only [hpoint] at hnext
    rw [each_update hconns hold true (hnext false), hnext true]
    exact exclusive_update hexclusive (alloc_unused hs (hfresh (Or.inr hpoint)))
  case translatorFinish =>
    simp only [hpoint] at hnext
    rintro ⟨c, b⟩ ⟨e, b'⟩ hk hkl
    rw [each_next hconns] at hk
    rw [each_next hconns, each_next hconns] at hkl
    by_cases hc : c = d
    · rw [if_pos hc, hnext] at hk
      exact absurd rfl hk
    · rw [if_neg hc] at hk hkl
      by_cases he : e = d
      · rw [if_pos he, hnext] at hkl
        exact absurd hkl hk
      · rw [if_neg he] at hkl
        exact hexclusive _ _ hk hkl
  all_goals
    simp only [hpoint] at hnext
    rw [each_same hconns hold (fun ipv6 => hnext ipv6)]
    exact hexclusive

theorem step_exclusive (hs : s.Exclusive setting) (hunused : s.AllocatesUnused setting a)
    (h : s.step setting a = some t) : t.Exclusive setting := by
  refine ⟨step_consistent hs.consistent h, step_portsOwned hs.consistent hs.owned h, ?_⟩
  rcases step_cases h with ⟨d, passwd, hnone, hconns, -⟩ | ⟨d, x, conn, rfl, hold, hconns, -⟩ | hquiet
  · rw [Server.used, each_accept hconns hnone (fun ipv6 => by cases ipv6 <;> rfl)]
    exact hs.exclusive
  · exact connStep_exclusive hs hold hunused hconns
  · rw [Server.used, each_quiet hquiet (fun _ => rfl)]
    exact hs.exclusive

/-- Over every run in which no allocation hands out the port of a running translator:
two translators that have been started and not shut down have no port in common. -/
theorem translators_share_no_port (setting : Setting) (store : Store) (steps : List Step) (s : Server)
    (hunused : Transition.Guarded (Server.step setting) (Server.AllocatesUnused setting) (.initial store) steps)
    (hrun : Transition.run (Server.step setting) (.initial store) steps = some s)
    (c d : ℕ) (conn other : Conn) (hc : s.conns c = some conn) (hd : s.conns d = some other) (hcd : c ≠ d)
    (hconn : conn.translator = .running) (hother : other.translator = .running) (ipv6 ipv6' : Bool)
    (hport : conn.portField ipv6 ≠ 0) : conn.portField ipv6 ≠ other.portField ipv6' := by
  have hstart : (Server.initial store).Exclusive setting :=
    ⟨initial_consistent store, initial_portsOwned store, fun k _ hk => absurd rfl hk⟩
  have hs : s.Exclusive setting :=
    Transition.run_preserves_guarded (fun _ _ _ hs hu ht => step_exclusive hs hu ht) hstart hunused hrun
  have hused : ∀ {e : ℕ} {x : Conn} (b : Bool), s.conns e = some x → x.translator = .running →
      s.used (e, b) = x.portField b := by
    intro e x b hx hrunning
    rw [Server.used, each_of_conn hx, Conn.used, if_neg (by rw [hrunning]; decide)]
  intro hsame
  have hkeys := hs.exclusive (c, ipv6) (d, ipv6') (by rw [hused ipv6 hc hconn]; exact hport)
    (by rw [hused ipv6 hc hconn, hused ipv6' hd hother]; exact hsame)
  exact hcd (congrArg Prod.fst hkeys)

end Sharing

/-- A connection that shares until an update fails, and ends. -/
def wholeLife : List Step :=
  connects 0 ++ starts 0 ++ List.replicate 5 (.conn 0 .ok) ++ [.conn 0 .fail] ++ List.replicate 13 (.conn 0 .ok)

theorem wholeLife_frees_ports : ∃ s, Transition.run (Server.step fourPorts) (.initial .empty) wholeLife = some s ∧
    (s.conns 0).map Conn.point = some .returned ∧
    ((∀ c conn, s.conns c = some conn → conn.point = .returned) → ∀ i < fourPorts.range.max, s.ports i = false) := by
  have hrun : (Transition.run (Server.step fourPorts) (.initial .empty) wholeLife).map
      (fun s => (s.conns 0).map Conn.point) = some (some .returned) := by decide +kernel
  obtain ⟨s, hs, hpoint⟩ := Option.map_eq_some_iff.mp hrun
  exact ⟨s, hs, hpoint, (returned_holds_no_port fourPorts .empty wholeLife s (by decide +kernel) hs).2⟩

/-- A connection whose projector does not answer the first request of the setup. -/
def failedSetup : List Step := connects 0 ++ [.conn 0 .fail] ++ List.replicate 9 (.conn 0 .ok)

theorem failedSetup_leaks_ports : ∃ s, Transition.run (Server.step fourPorts) (.initial .empty) failedSetup = some s ∧
    (s.conns 0).map (fun conn => (conn.point, conn.port, conn.ipv6port)) = some (.returned, 5900, 5901) ∧
    s.ids = [0] ∧ s.ports 0 = true ∧ s.ports 1 = true := by
  have hrun : (Transition.run (Server.step fourPorts) (.initial .empty) failedSetup).map
      (fun s => ((s.conns 0).map (fun conn => (conn.point, conn.port, conn.ipv6port)), s.ids, s.ports 0, s.ports 1)) =
        some (some (.returned, 5900, 5901), [0], true, true) := by decide +kernel
  obtain ⟨s, hs, hdata⟩ := Option.map_eq_some_iff.mp hrun
  simp only [Prod.mk.injEq] at hdata
  exact ⟨s, hs, hdata⟩

theorem running_of_run {steps : List Step} {port port' : ℕ}
    (hrun : (Transition.run (Server.step fourPorts) (.initial .empty) steps).map
      (fun s => ((s.conns 0).map (fun x => (x.translator, x.port)), (s.conns 1).map (fun x => (x.translator, x.port)))) =
        some (some (.running, port), some (.running, port'))) :
    ∃ s conn other, Transition.run (Server.step fourPorts) (.initial .empty) steps = some s ∧
      s.conns 0 = some conn ∧ s.conns 1 = some other ∧ conn.translator = .running ∧ other.translator = .running ∧
      conn.port = port ∧ other.port = port' := by
  obtain ⟨s, hs, hdata⟩ := Option.map_eq_some_iff.mp hrun
  obtain ⟨h0, h1⟩ := Prod.mk.inj hdata
  obtain ⟨conn, hconn, hrunning⟩ := Option.map_eq_some_iff.mp h0
  obtain ⟨other, hother, hrunning'⟩ := Option.map_eq_some_iff.mp h1
  obtain ⟨hr, hp⟩ := Prod.mk.inj hrunning
  obtain ⟨hr', hp'⟩ := Prod.mk.inj hrunning'
  exact ⟨s, conn, other, hs, hconn, hother, hr, hr', hp, hp'⟩

def twoShare : List Step :=
  connects 0 ++ starts 0 ++ [.conn 0 .ok, .conn 0 .ok] ++ connects 1 ++ starts 1

theorem twoShare_ports : ∃ s conn other, Transition.run (Server.step fourPorts) (.initial .empty) twoShare = some s ∧
    s.conns 0 = some conn ∧ s.conns 1 = some other ∧ conn.translator = .running ∧ other.translator = .running ∧
    conn.portField false ≠ 0 ∧ conn.portField false ≠ other.portField false := by
  obtain ⟨s, conn, other, hs, hconn, hother, hr, hr', hp, _⟩ := @running_of_run twoShare 5900 5902 (by decide +kernel)
  have hport : conn.portField false ≠ 0 := by
    rw [show conn.portField false = conn.port from rfl, hp]
    decide
  exact ⟨s, conn, other, hs, hconn, hother, hr, hr', hport,
    translators_share_no_port fourPorts .empty twoShare s (by decide +kernel) hs 0 1 conn other hconn hother
      (by decide) hr hr' false false hport⟩

/-- A connection is shut down, and a second one starts before its translator is finished. -/
def earlyRelease : List Step :=
  connects 0 ++ starts 0 ++ List.replicate 5 (.conn 0 .ok) ++ [.conn 0 .fail] ++ List.replicate 6 (.conn 0 .ok) ++
    connects 1 ++ starts 1

theorem earlyRelease_shares_port :
    ∃ s conn other, Transition.run (Server.step fourPorts) (.initial .empty) earlyRelease = some s ∧
      s.conns 0 = some conn ∧ s.conns 1 = some other ∧ conn.translator = .running ∧ other.translator = .running ∧
      conn.port = 5900 ∧ other.port = 5900 :=
  running_of_run (by decide +kernel)

end Lifecycle
end LilitunRemote

import LilitunRemote.Server.Lifecycle

/-! # The connections in the table of projectors

A connection whose translator runs has sent its `remoteControlStart` and will send its
`remoteControlStop`; both are keyed by the session id alone. The application server
accepts a start when it has no row for the session, and a stop deletes the row,
whoever it belongs to.
-/
namespace LilitunRemote
namespace Lifecycle
open AppServer

def Conn.isRegistered (conn : Conn) : Bool :=
  conn.translator = .running && (conn.point.part = .opened || conn.point = .sendStop)

/-- The table has a row for every connection whose start was accepted and that has not
sent its stop. -/
def Server.Agrees (s : Server) : Prop :=
  ∀ c conn, s.conns c = some conn → conn.accepted = true → conn.isRegistered = true →
    s.store.hasProjector conn.sessionId.text

/-- A start is sent with plain texts, and while no other connection with the session is
between its start and its stop. -/
def Server.StartsAlone (s : Server) : Step → Prop
  | .conn c _ => ∀ conn ∈ s.conns c, conn.point = .sendStart →
    isPlainMessage conn.startFields = true ∧ isPlainMessage conn.stopFields = true ∧
      ∀ d ∈ s.ids, ∀ other ∈ s.conns d, other.isRegistered = true → other.sessionId.text ≠ conn.sessionId.text
  | _ => True

instance (s : Server) : (a : Step) → Decidable (s.StartsAlone a)
  | .conn c _ => inferInstanceAs (Decidable (∀ conn ∈ s.conns c, _))
  | .accept .. | .stopSharing .. | .stop _ | .exit => isTrue trivial

/-! ## Plain messages -/

theorem addslashes_plain {t : Bytes} (h : isPlainText t = true) : addslashes t = t := by
  induction t with
  | nil => rfl
  | cons b t ih =>
    simp only [isPlainText, List.all_cons, Bool.and_eq_true, decide_eq_true_eq] at h
    obtain ⟨⟨⟨⟨⟨hlow, -⟩, hquote⟩, hapostrophe⟩, hbackslash⟩, ht⟩ := h
    have hzero : b ≠ 0 := by
      rintro rfl
      exact absurd hlow (by decide)
    have hrest := ih ht
    unfold addslashes at hrest ⊢
    rw [List.flatMap_cons, hrest, if_neg (by simp [hquote, hapostrophe, hbackslash]), if_neg hzero]
    rfl

theorem quoteFree_plain {t : Bytes} (h : isPlainText t = true) : quoteFree t = true := by
  unfold isPlainText at h
  unfold quoteFree
  rw [List.all_eq_true] at h ⊢
  intro b hb
  have := h b hb
  simp_all

theorem plainNumber_plain {t : Bytes} (h : isPlainText t = true) (hnumeric : isNumericText t = true) :
    plainNumber t = true := by
  unfold isPlainText at h
  unfold plainNumber
  rw [hnumeric, Bool.true_and]
  rw [List.all_eq_true] at h ⊢
  intro b hb
  have hlow := h b hb
  simp only [Bool.and_eq_true, decide_eq_true_eq] at hlow
  apply decide_eq_true
  rintro rfl
  exact absurd hlow.1.1.1.1 (by decide)

theorem quoteFree_addslashes {t x : Bytes} (h : isPlainText t = true) (hx : (Json.text t).addslashes = some x) :
    quoteFree x = true := by
  obtain rfl : addslashes t = x := Option.some.inj hx
  rw [addslashes_plain h]
  exact quoteFree_plain h

theorem plainNumber_numeric {t x : Bytes} (h : isPlainText t = true) (hx : (Json.text t).numeric = some x) :
    plainNumber x = true := by
  simp only [Json.numeric, Option.ite_none_right_eq_some, Option.some.injEq] at hx
  obtain ⟨hnumeric, rfl⟩ := hx
  exact plainNumber_plain h hnumeric

theorem received_field (setting : Setting) {fields : List (String × Bytes)} (h : isPlainMessage fields = true)
    (name : String) :
    (setting.received fields).field name =
      ((fields.find? (fun f => asciiBytes f.1 = asciiBytes name)).map (fun f => Json.text f.2)).getD .null := by
  rw [Setting.received, if_pos h, Json.field, List.find?_map]
  simp only [Option.map_map]
  rfl

section Messages
variable (setting : Setting) {conn : Conn} (store : Store)

/-- What a plain start comes to: an answer, or the statements that enter its row. -/
theorem start_plan (h : isPlainMessage conn.startFields = true) :
    (∃ reply, messagePlan (setting.received conn.startFields) = .answer reply ∧ reply ≠ .ok) ∨
      ∃ row : ProjectorRow, row.sessionId = conn.sessionId.text ∧ Statement.isPlain (.insertProjector row) = true ∧
        quoteFree conn.sessionId.text = true ∧
        messagePlan (setting.received conn.startFields) =
          .statements [.selectSession conn.sessionId.text, .insertProjector row, .touchSession conn.sessionId.text] := by
  have hfields := h
  simp only [isPlainMessage, Conn.startFields, List.all_cons, List.all_nil, Bool.and_eq_true] at hfields
  obtain ⟨⟨-, htext, hhost, hport, hipv6, hpasswd, -⟩, -⟩ := hfields
  have hfield := received_field setting h
  have hrequest : (setting.received conn.startFields).field "requestType" = .text remoteControlStart := by
    rw [hfield]
    simp +decide [Conn.startFields]
  have hsession : (setting.received conn.startFields).field "sessionId" = .text conn.sessionId.text := by
    rw [hfield]
    simp +decide [Conn.startFields]
  have hhostname : (setting.received conn.startFields).field "hostname" = .text conn.hostname := by
    rw [hfield]
    simp +decide [Conn.startFields]
  have hp : (setting.received conn.startFields).field "port" = .text (decimal conn.port) := by
    rw [hfield]
    simp +decide [Conn.startFields]
  have hp6 : (setting.received conn.startFields).field "ipv6port" = .text (decimal conn.ipv6port) := by
    rw [hfield]
    simp +decide [Conn.startFields]
  have hpassword : (setting.received conn.startFields).field "password" = .text conn.passwd := by
    rw [hfield]
    simp +decide [Conn.startFields]
  have hstart : addslashes remoteControlStart = remoteControlStart := by decide
  have hplan : messagePlan (setting.received conn.startFields) =
      startPlan (setting.received conn.startFields) conn.sessionId.text := by
    unfold messagePlan
    rw [hrequest, hsession]
    simp only [Json.addslashes, hstart, addslashes_plain htext, true_or, if_true]
  rw [hplan]
  rcases startPlan_cases (setting.received conn.startFields) conn.sessionId.text with
    hanswer | ⟨row, hrow, hrowHost, hrowPassword, hrowPort, hrowIpv6, hstatements⟩
  · exact Or.inl hanswer
  · refine Or.inr ⟨row, hrow, ?_, quoteFree_plain htext, hstatements⟩
    rw [hhostname] at hrowHost
    rw [hpassword] at hrowPassword
    rw [hp] at hrowPort
    rw [hp6] at hrowIpv6
    have hquotes : quoteFree row.sessionId = true ∧ quoteFree row.hostname = true ∧ quoteFree row.clientPassword = true :=
      ⟨hrow ▸ quoteFree_plain htext, quoteFree_addslashes hhost hrowHost, quoteFree_addslashes hpasswd hrowPassword⟩
    rw [Statement.isPlain, hquotes.1, hquotes.2.1, hquotes.2.2, plainNumber_numeric hport hrowPort,
      plainNumber_numeric hipv6 hrowIpv6]
    rfl

/-- A plain start deletes no row, and when it is accepted there is one for its session. -/
theorem start_message (h : isPlainMessage conn.startFields = true) :
    (∀ id, store.hasProjector id → (setting.message store conn.startFields).2.hasProjector id) ∧
      ((setting.message store conn.startFields).1 = .ok →
        (setting.message store conn.startFields).2.hasProjector conn.sessionId.text) := by
  unfold Setting.message
  rcases start_plan setting h with ⟨reply, hplan, hreply⟩ | ⟨row, hid, hrow, hquote, hplan⟩
  · rw [hplan]
    exact ⟨fun _ hid => hid, fun hok => absurd hok hreply⟩
  · have hselect : ∀ s : Store, s.exec setting.sqlite (.selectSession conn.sessionId.text) = some s := fun s => if_pos hquote
    have htouch : ∀ s : Store, s.exec setting.sqlite (.touchSession conn.sessionId.text) = some s := fun s => if_pos hquote
    have hinsert : store.exec setting.sqlite (.insertProjector row) = store.execPlain (.insertProjector row) := if_pos hrow
    rw [hplan]
    simp only [Plan.run, Store.execAll, hselect, hinsert, Store.execPlain]
    by_cases hhas : store.hasProjector row.sessionId
    · rw [if_pos hhas]
      have hfailed : AppServer.Reply.failed ≠ .ok := by decide
      exact ⟨fun _ hid => hid, fun hok => absurd hok hfailed⟩
    · rw [if_neg hhas]
      simp only [htouch]
      refine ⟨?_, fun _ => ⟨row, List.mem_append_right _ List.mem_cons_self, hid⟩⟩
      rintro id ⟨row', hrow', hid'⟩
      exact ⟨row', List.mem_append_left _ hrow', hid'⟩

theorem stop_message (h : isPlainMessage conn.stopFields = true) {id : Bytes} (hid : id ≠ conn.sessionId.text)
    (hrow : store.hasProjector id) : (setting.message store conn.stopFields).2.hasProjector id := by
  have hfields := h
  simp only [isPlainMessage, Conn.stopFields, List.all_cons, List.all_nil, Bool.and_eq_true] at hfields
  obtain ⟨⟨-, htext, -⟩, -⟩ := hfields
  have hfield := received_field setting h
  have hrequest : (setting.received conn.stopFields).field "requestType" = .text remoteControlStop := by
    rw [hfield]
    simp +decide [Conn.stopFields]
  have hsession : (setting.received conn.stopFields).field "sessionId" = .text conn.sessionId.text := by
    rw [hfield]
    simp +decide [Conn.stopFields]
  have hstop : addslashes remoteControlStop = remoteControlStop ∧ remoteControlStop ≠ remoteControlStart := by decide
  have hplan : messagePlan (setting.received conn.stopFields) = stopPlan conn.sessionId.text := by
    unfold messagePlan
    rw [hrequest, hsession]
    simp only [Json.addslashes, hstop.1, addslashes_plain htext, or_true, if_true, hstop.2, if_false]
  have hquote := quoteFree_plain htext
  have hdelete : store.exec setting.sqlite (.deleteProjector conn.sessionId.text) =
      store.execPlain (.deleteProjector conn.sessionId.text) := if_pos hquote
  have htouch : ∀ s : Store, s.exec setting.sqlite (.touchSession conn.sessionId.text) = some s := fun s => if_pos hquote
  unfold Setting.message
  rw [hplan]
  simp only [stopPlan, Plan.run, Store.execAll, hdelete, Store.execPlain, htouch]
  obtain ⟨row, hmem, rfl⟩ := hrow
  exact ⟨row, List.mem_filter.mpr ⟨hmem, decide_eq_true hid⟩, rfl⟩

end Messages

/-! ## The connections between their start and their stop -/

section Registered
variable {setting : Setting} {s t : Server} {conn : Conn}

theorem next_sessionId (a : Answer) : (s.next setting conn a).sessionId =
    match conn.point, a with
    | .sessionId, .string t => .live (t.takeWhile (· ≠ 0))
    | .freeSessionId, _ => conn.sessionId.free
    | _, _ => conn.sessionId := by
  unfold Server.next
  cases conn.point <;> cases a <;> first | rfl | (dsimp only; split <;> rfl)

theorem next_accepted (a : Answer) : (s.next setting conn a).accepted =
    match conn.point with
    | .sendStart => decide ((setting.message s.store conn.startFields).1 = .ok)
    | _ => conn.accepted := by
  unfold Server.next
  cases conn.point <;> first | rfl | (dsimp only; split <;> rfl)

theorem isRegistered_iff : conn.isRegistered = true ↔
    conn.translator = .running ∧ (conn.point.part = .opened ∨ conn.point = .sendStop) := by
  simp [Conn.isRegistered]

theorem Conn.Fits.running (h : conn.Fits) (hrunning : conn.translator = .running) :
    conn.point.part = .starting ∨ conn.point.part = .opened ∨ conn.point.part = .stopping := by
  unfold Conn.Fits at h
  cases hpart : conn.point.part with
  | early =>
    rw [hpart] at h
    exact absurd (h.2.2.1.symm.trans hrunning) (by decide)
  | half =>
    rw [hpart] at h
    exact absurd (h.2.1.symm.trans hrunning) (by decide)
  | setup =>
    rw [hpart] at h
    exact absurd (h.1.symm.trans hrunning) (by decide)
  | starting => exact Or.inl rfl
  | opened => exact Or.inr (Or.inl rfl)
  | stopping => exact Or.inr (Or.inr rfl)
  | releasing =>
    rw [hpart] at h
    exact absurd hrunning h

theorem next_running {a : Answer} (h : (s.next setting conn a).translator = .running) :
    conn.translator = .running ∨ (s.next setting conn a).point = .sendStart ∧ conn.point = .translatorInit := by
  rw [next_translator] at h
  by_cases hinit : conn.point = .translatorInit
  · by_cases ha : a = .fail
    · rw [hinit, ha] at h
      exact Or.inl h
    · exact Or.inr ⟨by simp [Server.next, hinit, ha], hinit⟩
  · apply Or.inl
    split at h
    · next heq => exact absurd heq hinit
    · cases h
    · exact h

theorem next_isRegistered {a : Answer} (hfits : conn.Fits) (h : (s.next setting conn a).isRegistered = true) :
    conn.point = .sendStart ∨ conn.isRegistered = true ∧ conn.point ≠ .sendStop := by
  obtain ⟨htranslator, hafter⟩ := isRegistered_iff.mp h
  rw [isRegistered_iff]
  rcases next_running htranslator with hrunning | ⟨hpoint, -⟩
  · rcases hfits.running hrunning with hpart | hpart | hpart
    · apply Or.inl
      cases hpoint : conn.point <;> rw [hpoint] at hpart <;> first | rfl | cases hpart
    · refine Or.inr ⟨⟨hrunning, Or.inl hpart⟩, fun hstop => ?_⟩
      rw [hstop] at hpart
      cases hpart
    · exfalso
      cases hpoint : conn.point <;> rw [hpoint] at hpart <;>
        simp [Server.next, hpoint, Point.part] at hpart hafter htranslator
  · rw [hpoint] at hafter
    exact absurd hafter (by decide)

/-- What keeps the table in agreement: the stops are plain, and no two registered
connections have one session. -/
structure Server.Registers (s : Server) : Prop where
  consistent : s.Consistent
  plain : ∀ c conn, s.conns c = some conn → conn.isRegistered = true → isPlainMessage conn.stopFields = true
  alone : ∀ c d conn other, s.conns c = some conn → s.conns d = some other → conn.isRegistered = true →
    other.isRegistered = true → conn.sessionId.text = other.sessionId.text → c = d
  agrees : s.Agrees

theorem initial_registers (store : Store) : (Server.initial store).Registers :=
  ⟨initial_consistent store, (fun _ _ h => nomatch h), (fun _ _ _ _ h => nomatch h), (fun _ _ h => nomatch h)⟩

theorem next_text {a : Answer} (h : conn.point = .sendStart ∨ conn.isRegistered = true) :
    (s.next setting conn a).sessionId.text = conn.sessionId.text := by
  rw [next_sessionId]
  split
  · next hpoint =>
    rw [isRegistered_iff, hpoint] at h
    exact absurd h (by simp [Point.part])
  · cases conn.sessionId <;> rfl
  · rfl

/-- A registered connection after a step was so before it, or has just sent its start. -/
theorem step_isRegistered {a : Step} {c : ℕ} {conn' : Conn} (hs : s.Consistent) (h : s.step setting a = some t)
    (hconn' : t.conns c = some conn') (hregistered : conn'.isRegistered = true) :
    ∃ conn, s.conns c = some conn ∧ conn'.sessionId.text = conn.sessionId.text ∧
      (conn.isRegistered = true ∨ conn.point = .sendStart ∧ ∃ x, a = .conn c x) := by
  rcases step_cases h with ⟨d, passwd, -, hconns, -⟩ | ⟨d, x, old, rfl, hold, hconns, -⟩ | ⟨-, -, -, hquiet⟩
  · rw [hconns] at hconn'
    by_cases hc : c = d
    · rw [hc, Function.update_self] at hconn'
      rw [← Option.some.inj hconn'] at hregistered
      exact absurd hregistered (by simp [Conn.start, Conn.isRegistered])
    · rw [Function.update_of_ne hc] at hconn'
      exact ⟨conn', hconn', rfl, Or.inl hregistered⟩
  · rw [hconns] at hconn'
    by_cases hc : c = d
    · subst hc
      rw [Function.update_self] at hconn'
      obtain rfl := Option.some.inj hconn'
      rcases next_isRegistered (hs.fits c old hold) hregistered with hpoint | ⟨hreg, -⟩
      · exact ⟨old, hold, next_text (Or.inl hpoint), Or.inr ⟨hpoint, x, rfl⟩⟩
      · exact ⟨old, hold, next_text (Or.inr hreg), Or.inl hreg⟩
    · rw [Function.update_of_ne hc] at hconn'
      exact ⟨conn', hconn', rfl, Or.inl hregistered⟩
  · rcases hquiet c with hsame | ⟨old, hold, hnew⟩
    · exact ⟨conn', hsame ▸ hconn', rfl, Or.inl hregistered⟩
    · rw [hnew] at hconn'
      obtain rfl := Option.some.inj hconn'
      exact ⟨old, hold, rfl, Or.inl hregistered⟩

theorem storeAfter_hasProjector {id : Bytes} (hstart : conn.point = .sendStart → isPlainMessage conn.startFields = true)
    (hstop : conn.point = .sendStop → isPlainMessage conn.stopFields = true ∧ id ≠ conn.sessionId.text)
    (hrow : s.store.hasProjector id) : (s.storeAfter setting conn).hasProjector id := by
  unfold Server.storeAfter
  split
  · next hpoint => exact (start_message setting s.store (hstart hpoint)).1 id hrow
  · next hpoint => exact stop_message setting s.store (hstop hpoint).1 (hstop hpoint).2 hrow
  · exact hrow

theorem step_agrees {a : Step} (hs : s.Registers) (halone : s.StartsAlone a) (h : s.step setting a = some t) :
    t.Agrees := by
  intro c conn' hconn' haccepted hregistered
  rcases step_cases h with ⟨d, passwd, -, hconns, -, -, hstore⟩ | ⟨d, x, old, rfl, hold, hconns, -, -, hstore⟩ |
    ⟨-, hstore, -, hquiet⟩
  · rw [hstore]
    rw [hconns] at hconn'
    by_cases hc : c = d
    · rw [hc, Function.update_self] at hconn'
      rw [← Option.some.inj hconn'] at haccepted
      cases haccepted
    · rw [Function.update_of_ne hc] at hconn'
      exact hs.agrees c conn' hconn' haccepted hregistered
  · have hstarts := halone old hold
    rw [hstore]
    rw [hconns] at hconn'
    by_cases hc : c = d
    · subst hc
      rw [Function.update_self] at hconn'
      obtain rfl := Option.some.inj hconn'
      rcases next_isRegistered (hs.consistent.fits c old hold) hregistered with hpoint | ⟨hreg, hnotStop⟩
      · rw [next_text (Or.inl hpoint)]
        rw [next_accepted, hpoint] at haccepted
        rw [Server.storeAfter, hpoint]
        exact (start_message setting s.store (hstarts hpoint).1).2 (of_decide_eq_true haccepted)
      · have hopened : old.point.part = .opened := (isRegistered_iff.mp hreg).2.resolve_right hnotStop
        have hnotStart : old.point ≠ .sendStart := fun hpoint => absurd (hpoint ▸ hopened) (by decide)
        have hkept : (s.next setting old x).accepted = old.accepted := by
          rw [next_accepted]
          split
          · next hpoint => exact absurd hpoint hnotStart
          · rfl
        rw [next_text (Or.inr hreg)]
        exact storeAfter_hasProjector (fun hpoint => absurd hpoint hnotStart) (fun hpoint => absurd hpoint hnotStop)
          (hs.agrees c old hold (hkept ▸ haccepted) hreg)
    · rw [Function.update_of_ne hc] at hconn'
      refine storeAfter_hasProjector (fun hpoint => (hstarts hpoint).1) (fun hpoint => ?_)
        (hs.agrees c conn' hconn' haccepted hregistered)
      have hreg : old.isRegistered = true :=
        isRegistered_iff.mpr ⟨(hs.consistent.fits d old hold).at hpoint, Or.inr hpoint⟩
      exact ⟨hs.plain d old hold hreg, fun hsame => hc (hs.alone c d conn' old hconn' hold hregistered hreg hsame)⟩
  · rw [hstore]
    rcases hquiet c with hsame | ⟨old, hold, hnew⟩
    · exact hs.agrees c conn' (hsame ▸ hconn') haccepted hregistered
    · rw [hnew] at hconn'
      obtain rfl := Option.some.inj hconn'
      exact hs.agrees c old hold haccepted hregistered

theorem step_registers {a : Step} (hs : s.Registers) (halone : s.StartsAlone a) (h : s.step setting a = some t) :
    t.Registers := by
  have hfrom : ∀ c conn', t.conns c = some conn' → conn'.isRegistered = true → ∃ conn, s.conns c = some conn ∧
      conn'.sessionId.text = conn.sessionId.text ∧
      (conn.isRegistered = true ∨ conn.point = .sendStart ∧ ∃ x, a = .conn c x) :=
    fun _ _ hconn' hreg => step_isRegistered hs.consistent h hconn' hreg
  refine ⟨step_consistent hs.consistent h, ?_, ?_, step_agrees hs halone h⟩
  · intro c conn' hconn' hreg'
    obtain ⟨conn, hconn, htext, hreg | ⟨hpoint, x, rfl⟩⟩ := hfrom c conn' hconn' hreg'
    · rw [Conn.stopFields, htext]
      exact hs.plain c conn hconn hreg
    · rw [Conn.stopFields, htext]
      exact (halone conn hconn hpoint).2.1
  · intro c d conn' other' hconn' hother' hreg' hregOther' hsame
    obtain ⟨conn, hconn, htext, hreg⟩ := hfrom c conn' hconn' hreg'
    obtain ⟨other, hother, htextOther, hregOther⟩ := hfrom d other' hother' hregOther'
    rw [htext, htextOther] at hsame
    rcases hreg with hreg | ⟨hpoint, x, rfl⟩
    · rcases hregOther with hregOther | ⟨hpoint, x, rfl⟩
      · exact hs.alone c d conn other hconn hother hreg hregOther hsame
      · exact absurd hsame ((halone other hother hpoint).2.2 c (hs.consistent.known c conn hconn) conn hconn hreg)
    · rcases hregOther with hregOther | ⟨-, y, hxy⟩
      · exact absurd hsame.symm ((halone conn hconn hpoint).2.2 d (hs.consistent.known d other hother) other hother hregOther)
      · cases hxy
        rfl

end Registered

/-- Over every run whose starts are plain and sent while no other connection with the
session is between its start and its stop: a connection whose start was accepted and that
has not sent its stop has its row. -/
theorem accepted_has_row (setting : Setting) (store : Store) (steps : List Step) (s : Server)
    (halone : Transition.Guarded (Server.step setting) Server.StartsAlone (.initial store) steps)
    (hrun : Transition.run (Server.step setting) (.initial store) steps = some s)
    (c : ℕ) (conn : Conn) (hconn : s.conns c = some conn) (haccepted : conn.accepted = true)
    (hregistered : conn.isRegistered = true) : s.store.hasProjector conn.sessionId.text := by
  have hs : s.Registers :=
    Transition.run_preserves_guarded (fun _ _ _ hs ha ht => step_registers hs ha ht) (initial_registers store) halone hrun
  exact hs.agrees c conn hconn haccepted hregistered

def oneStart : List Step := connects 0 ++ starts 0 ++ [.conn 0 .ok]

/-- The projector shares until an update fails, and comes back with its session when its
first connection has ended. -/
def startsAgain : List Step :=
  oneStart ++ List.replicate 4 (.conn 0 .ok) ++ [.conn 0 .fail] ++ List.replicate 13 (.conn 0 .ok) ++
    connects 1 ++ starts 1 ++ [.conn 1 .ok]

def Server.registration (s : Server) (c : ℕ) : Option (Bool × Bool × Bytes × Bool) :=
  (s.conns c).map (fun conn => (conn.accepted, conn.isRegistered, conn.sessionId.text,
    decide (s.store.hasProjector conn.sessionId.text)))

theorem registration_eq_some {s : Server} {c : ℕ} {accepted registered row : Bool} {id : Bytes}
    (h : s.registration c = some (accepted, registered, id, row)) : ∃ conn, s.conns c = some conn ∧
      conn.accepted = accepted ∧ conn.isRegistered = registered ∧ conn.sessionId.text = id ∧
      decide (s.store.hasProjector conn.sessionId.text) = row := by
  obtain ⟨conn, hconn, hdata⟩ := Option.map_eq_some_iff.mp h
  simp only [Prod.mk.injEq] at hdata
  exact ⟨conn, hconn, hdata⟩

theorem startsAgain_has_row : ∃ s conn, Transition.run (Server.step fourPorts) (.initial .empty) startsAgain = some s ∧
    s.conns 1 = some conn ∧ conn.accepted = true ∧ conn.isRegistered = true ∧
    conn.sessionId.text = asciiBytes "s" ∧ (s.conns 0).map Conn.point = some .returned ∧
    s.store.hasProjector (asciiBytes "s") := by
  have hrun : (Transition.run (Server.step fourPorts) (.initial .empty) startsAgain).map (Server.registration · 1) =
      some (some (true, true, asciiBytes "s", true)) := by decide +kernel
  have hended : (Transition.run (Server.step fourPorts) (.initial .empty) startsAgain).map
      (fun s => (s.conns 0).map Conn.point) = some (some .returned) := by decide +kernel
  obtain ⟨s, hs, hdata⟩ := Option.map_eq_some_iff.mp hrun
  obtain ⟨conn, hconn, haccepted, hregistered, htext, -⟩ := registration_eq_some hdata
  have hreturned : (s.conns 0).map Conn.point = some .returned := by
    rw [hs] at hended
    exact Option.some.inj hended
  have hrow := accepted_has_row fourPorts .empty startsAgain s (by decide +kernel) hs 1 conn hconn haccepted hregistered
  exact ⟨s, conn, hs, hconn, haccepted, hregistered, htext, hreturned, htext ▸ hrow⟩

/-- The projector connects again with its session while the first connection runs; the
second start is refused, and its teardown sends a stop all the same. -/
def reconnects : List Step := oneStart ++ connects 1 ++ starts 1 ++ List.replicate 5 (.conn 1 .ok)

theorem reconnects_deletes_row : ∃ s conn, Transition.run (Server.step fourPorts) (.initial .empty) reconnects = some s ∧
    s.conns 0 = some conn ∧ conn.accepted = true ∧ conn.isRegistered = true ∧ conn.sessionId.text = asciiBytes "s" ∧
    ¬ s.store.hasProjector (asciiBytes "s") := by
  have hrun : (Transition.run (Server.step fourPorts) (.initial .empty) reconnects).map (Server.registration · 0) =
      some (some (true, true, asciiBytes "s", false)) := by decide +kernel
  obtain ⟨s, hs, hdata⟩ := Option.map_eq_some_iff.mp hrun
  obtain ⟨conn, hconn, haccepted, hregistered, htext, hrow⟩ := registration_eq_some hdata
  exact ⟨s, conn, hs, hconn, haccepted, hregistered, htext, htext ▸ of_decide_eq_false hrow⟩

end Lifecycle
end LilitunRemote

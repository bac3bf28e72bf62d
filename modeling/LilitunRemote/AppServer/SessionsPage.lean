import LilitunRemote.AppServer.Store
import Mathlib.Data.List.Nodup

/-! # The page of the shared desktops

`sessions.php` joins the two tables for the user of the visitor. A start that went through
also writes a token file, in which the proxy behind the page's links looks up where to
connect, and a stop deletes it. The markup of a row is left out.
-/
namespace LilitunRemote
namespace AppServer

/-- `/var/cache/token`, by the names of the files without `.conf`. -/
abbrev TokenFiles := Bytes → Option Bytes

/-- The text names a file of the directory and of no other. -/
def isFileName (name : Bytes) : Bool := name.length ≤ 250 && name.all (· ≠ 0x2f)

def tokenText (port : Bytes) : Bytes := port ++ asciiBytes ": 127.0.0.1:" ++ port

def Statement.namesFile : Statement → Bool
  | .insertProjector row => isFileName row.sessionId
  | .deleteProjector sessionId => isFileName sessionId
  | .selectSession _ | .insertSession _ | .touchSession _ | .touchUser _ _ => true

/-- The file operation behind a statement that went through. -/
def Statement.writeToken (files : TokenFiles) : Statement → TokenFiles
  | .insertProjector row => Function.update files row.sessionId (some (tokenText row.clientPort))
  | .deleteProjector sessionId => Function.update files sessionId none
  | .selectSession _ | .insertSession _ | .touchSession _ | .touchUser _ _ => files

/-- A plan that fails halfway leaves the files alone. -/
def Plan.runFiles (sqlite : Sqlite) (s : Store) (files : TokenFiles) (plan : Plan) : TokenFiles :=
  if (plan.run sqlite s).1 = .ok then plan.all.foldl Statement.writeToken files else files

structure Shared where
  site : Site
  files : TokenFiles

namespace Shared

def initial : Shared := ⟨.initial, fun _ => none⟩

section Requests
variable (sqlite : Sqlite) (servers : Servers)

def request (s : Shared) (q : SiteRequest) : Shared :=
  ⟨(s.site.request sqlite servers q).2, (q.plan servers (s.site.session q)).runFiles sqlite s.site.store s.files⟩

def step (s : Shared) (q : SiteRequest) : Option Shared := some (s.request sqlite servers q)

/-- No pasted text leaves its quotes or the directory, and what the request may draw is a
new session id. -/
def Orderly (s : Shared) (q : SiteRequest) : Prop :=
  (∀ statement ∈ (q.plan servers (s.site.session q)).all, statement.isPlain = true ∧ statement.namesFile = true) ∧
    ∀ id ∈ [guidv4 q.params.random, guidv4 q.params.random'],
      ¬ s.site.store.hasSession id ∧ ∀ visitor, (s.site.visitors visitor).sessionId ≠ some id

end Requests

/-! ## The page -/

/-- The rows of the query for a user id that stays inside its quotes. -/
def joined (store : Store) (userId : Bytes) : List (SessionRow × ProjectorRow) :=
  (store.sessions.product store.projectors).filter (fun e => e.2.sessionId = e.1.sessionId ∧ e.1.userId = userId)

/-- What SQLite makes of the query for other user ids. -/
abbrev Injected := Bytes → Store → List (SessionRow × ProjectorRow)

/-- The rows `sessions.php` shows to a visitor. -/
def page (injected : Injected) (s : Shared) (visitor : ℕ) : List (SessionRow × ProjectorRow) :=
  match (s.site.visitors visitor).userId with
  | none => []
  | some userId =>
    if isTruthy userId then if quoteFree userId then joined s.site.store userId else injected userId s.site.store
    else []

/-! ## What a request can do -/

variable {sqlite : Sqlite} {servers : Servers} {s : Shared} {q : SiteRequest}

/-- The plans of the requests; only a page load enters a session. -/
theorem plan_cases (servers : Servers) (q : SiteRequest) (after : PhpSession) :
    (q.params.action.isTruthy = false ∧ q.params.userIdSubmitted.isTruthy = false ∧
        q.plan servers after = .statements
          [.insertSession ⟨after.sessionId.getD [], after.userId.getD [], servers.appServer, servers.controlServer⟩,
            .touchUser (after.userId.getD []) (after.sessionId.getD [])]) ∨
      ((q.params.action.isTruthy = true ∨ q.params.userIdSubmitted.isTruthy = true) ∧
        ((∃ reply, q.plan servers after = .answer reply) ∨
          (∃ row : ProjectorRow, q.plan servers after = .statements
            [.selectSession row.sessionId, .insertProjector row, .touchSession row.sessionId]) ∨
          ∃ id, q.plan servers after = .statements [.deleteProjector id, .touchSession id])) := by
  rcases plan_of_request servers q after with ⟨hpage, hplan⟩ | ⟨hother, hplans⟩
  · simp only [SiteRequest.isPageLoad, Bool.and_eq_true, Bool.not_eq_true'] at hpage
    exact Or.inl ⟨hpage.1, hpage.2, hplan⟩
  · simp only [SiteRequest.isPageLoad, Bool.and_eq_false_iff, Bool.not_eq_false'] at hother
    refine Or.inr ⟨hother, ?_⟩
    rcases hplans with hanswer | ⟨id, -, hplan⟩ | ⟨id, -, hplan⟩
    · exact Or.inl hanswer
    · rw [hplan]
      rcases startPlan_cases q.body id with ⟨reply, hreply, -⟩ | ⟨row, rfl, -, -, -, -, hstatements⟩
      · exact Or.inl ⟨reply, hreply⟩
      · exact Or.inr (Or.inl ⟨row, hstatements⟩)
    · exact Or.inr (Or.inr ⟨id, hplan⟩)

/-- The tables and files after a request whose texts stay inside their quotes. -/
inductive Effect (servers : Servers) (s : Shared) (q : SiteRequest) : Store → TokenFiles → Prop
  | same (h : q.params.action.isTruthy = true ∨ q.params.userIdSubmitted.isTruthy = true) :
    Effect servers s q s.site.store s.files
  | started (h : q.params.action.isTruthy = true ∨ q.params.userIdSubmitted.isTruthy = true) (row : ProjectorRow)
      (hnew : ¬ s.site.store.hasProjector row.sessionId) :
    Effect servers s q { s.site.store with projectors := s.site.store.projectors ++ [row] }
      (Function.update s.files row.sessionId (some (tokenText row.clientPort)))
  | stopped (h : q.params.action.isTruthy = true ∨ q.params.userIdSubmitted.isTruthy = true) (id : Bytes) :
    Effect servers s q { s.site.store with projectors := s.site.store.projectors.filter (·.sessionId ≠ id) }
      (Function.update s.files id none)
  | known (h : q.params.action.isTruthy = false ∧ q.params.userIdSubmitted.isTruthy = false)
      (hknown : s.site.store.hasSession ((s.site.session q).sessionId.getD [])) :
    Effect servers s q s.site.store s.files
  | entered (h : q.params.action.isTruthy = false ∧ q.params.userIdSubmitted.isTruthy = false)
      (hnew : ¬ s.site.store.hasSession ((s.site.session q).sessionId.getD [])) :
    Effect servers s q { s.site.store with
        sessions := s.site.store.sessions ++ [⟨(s.site.session q).sessionId.getD [], (s.site.session q).userId.getD [],
          servers.appServer, servers.controlServer⟩] } s.files

theorem execAll_cons_of_exception {store : Store} {statement : Statement} {qs : List Statement}
    (hplain : statement.isPlain = true) (hnext : store.execPlain statement = none) :
    store.execAll sqlite (statement :: qs) = (.failed, store) := by
  rw [Store.execAll, Store.exec, if_pos hplain, hnext]

/-- The tables and files after the statements of a request that were run. -/
theorem request_of_execAll {qs : List Statement} {reply : Reply} {store : Store}
    (hplan : q.plan servers (s.site.session q) = .statements qs) (hrun : s.site.store.execAll sqlite qs = (reply, store)) :
    (s.request sqlite servers q).site.store = store ∧
      (s.request sqlite servers q).files = if reply = .ok then qs.foldl Statement.writeToken s.files else s.files := by
  simp only [request, Site.request, Plan.runFiles, hplan, Plan.run, Plan.all, hrun]
  exact ⟨trivial, trivial⟩

theorem request_of_answer {reply : Reply} (hplan : q.plan servers (s.site.session q) = .answer reply) :
    (s.request sqlite servers q).site.store = s.site.store ∧ (s.request sqlite servers q).files = s.files := by
  simp only [request, Site.request, Plan.runFiles, hplan, Plan.run, Plan.all, List.foldl_nil, ite_self]
  exact ⟨trivial, trivial⟩

theorem request_effect (hplain : ∀ statement ∈ (q.plan servers (s.site.session q)).all, statement.isPlain = true) :
    Effect servers s q (s.request sqlite servers q).site.store (s.request sqlite servers q).files := by
  rcases plan_cases servers q (s.site.session q) with ⟨haction, hsubmitted, hplan⟩ |
    ⟨hother, ⟨reply, hplan⟩ | ⟨row, hplan⟩ | ⟨id, hplan⟩⟩
  · rw [hplan] at hplain
    have hinsert := hplain _ List.mem_cons_self
    have htouch := hplain _ (List.mem_cons_of_mem _ List.mem_cons_self)
    by_cases hknown : s.site.store.hasSession ((s.site.session q).sessionId.getD [])
    · obtain ⟨hstore, hfiles⟩ := request_of_execAll hplan ((execAll_cons_of_plain hinsert
        (if_pos hknown)).trans (execAll_cons_of_plain htouch rfl))
      rw [hstore, hfiles]
      exact .known ⟨haction, hsubmitted⟩ hknown
    · obtain ⟨hstore, hfiles⟩ := request_of_execAll hplan ((execAll_cons_of_plain hinsert
        (if_neg hknown)).trans (execAll_cons_of_plain htouch rfl))
      rw [hstore, hfiles]
      exact .entered ⟨haction, hsubmitted⟩ hknown
  · obtain ⟨hstore, hfiles⟩ := request_of_answer hplan
    rw [hstore, hfiles]
    exact .same hother
  · rw [hplan] at hplain
    have hselect := hplain _ List.mem_cons_self
    have hinsert := hplain _ (List.mem_cons_of_mem _ List.mem_cons_self)
    have htouch := hplain _ (List.mem_cons_of_mem _ (List.mem_cons_of_mem _ List.mem_cons_self))
    by_cases hold : s.site.store.hasProjector row.sessionId
    · obtain ⟨hstore, hfiles⟩ := request_of_execAll hplan ((execAll_cons_of_plain hselect
        rfl).trans (execAll_cons_of_exception hinsert (if_pos hold)))
      rw [hstore, hfiles]
      exact .same hother
    · obtain ⟨hstore, hfiles⟩ := request_of_execAll hplan ((execAll_cons_of_plain hselect
        rfl).trans ((execAll_cons_of_plain hinsert (if_neg hold)).trans (execAll_cons_of_plain htouch rfl)))
      rw [hstore, hfiles]
      exact .started hother row hold
  · rw [hplan] at hplain
    have hdelete := hplain _ List.mem_cons_self
    have htouch := hplain _ (List.mem_cons_of_mem _ List.mem_cons_self)
    obtain ⟨hstore, hfiles⟩ := request_of_execAll hplan ((execAll_cons_of_plain hdelete
      rfl).trans (execAll_cons_of_plain htouch rfl))
    rw [hstore, hfiles]
    exact .stopped hother id

/-! ## The tables along the requests -/

/-- Both tables have one row for a session id, and the files stand for the projectors. -/
structure Tables (store : Store) (files : TokenFiles) : Prop where
  sessions : (store.sessions.map (·.sessionId)).Nodup
  projectors : (store.projectors.map (·.sessionId)).Nodup
  files : ∀ id, files id = (store.projectors.find? (fun p => decide (p.sessionId = id))).map (tokenText ·.clientPort)

theorem nodup_append_row {ρ : Type*} {key : ρ → Bytes} {rows : List ρ} {row : ρ} (h : (rows.map key).Nodup)
    (hnew : ¬ ∃ r ∈ rows, key r = key row) : ((rows ++ [row]).map key).Nodup := by
  rw [List.map_append, List.map_singleton, List.nodup_append]
  refine ⟨h, List.nodup_singleton _, fun a ha b hb => ?_⟩
  obtain ⟨r, hr, rfl⟩ := List.mem_map.mp ha
  obtain rfl := List.mem_singleton.mp hb
  exact fun he => hnew ⟨r, hr, he⟩

theorem find_append_row {rows : List ProjectorRow} {row : ProjectorRow}
    (hnew : ¬ ∃ r ∈ rows, r.sessionId = row.sessionId) (id : Bytes) :
    (rows ++ [row]).find? (fun p => decide (p.sessionId = id)) =
      if id = row.sessionId then some row else rows.find? (fun p => decide (p.sessionId = id)) := by
  rw [List.find?_append]
  split
  · next he =>
    subst he
    have hnone : rows.find? (fun p => decide (p.sessionId = row.sessionId)) = none := by
      rw [List.find?_eq_none]
      intro r hr
      simpa using fun he => hnew ⟨r, hr, he⟩
    simp [hnone]
  · next hne =>
    have hrow : List.find? (fun p : ProjectorRow => decide (p.sessionId = id)) [row] = none := by
      simpa using fun he => hne he.symm
    rw [hrow, Option.or_none]

theorem find_filter_row {rows : List ProjectorRow} (id' id : Bytes) :
    (rows.filter (·.sessionId ≠ id')).find? (fun p => decide (p.sessionId = id)) =
      if id = id' then none else rows.find? (fun p => decide (p.sessionId = id)) := by
  split
  · next he =>
    subst he
    rw [List.find?_eq_none]
    intro r hr
    simpa using (List.mem_filter.mp hr).2
  · next hne =>
    rw [List.find?_filter]
    congr 1
    funext r
    by_cases hr : r.sessionId = id
    · simp [hr, hne]
    · simp [hr]

theorem Effect.tables {store : Store} {files : TokenFiles} (h : Effect servers s q store files)
    (hs : Tables s.site.store s.files) : Tables store files := by
  cases h with
  | same _ => exact hs
  | known _ _ => exact hs
  | started _ row hnew =>
    refine ⟨hs.sessions, nodup_append_row hs.projectors hnew, fun id => ?_⟩
    rw [find_append_row hnew, Function.update_apply, hs.files id]
    split
    · rfl
    · rfl
  | stopped _ id' =>
    refine ⟨hs.sessions, hs.projectors.sublist (List.filter_sublist.map _), fun id => ?_⟩
    rw [find_filter_row, Function.update_apply, hs.files id]
    split
    · rfl
    · rfl
  | entered _ hnew => exact ⟨nodup_append_row hs.sessions hnew, hs.projectors, hs.files⟩

/-- A session row is an old one, or the one of a page load. -/
theorem Effect.sessions {store : Store} {files : TokenFiles} (h : Effect servers s q store files) {row : SessionRow}
    (hrow : row ∈ store.sessions) :
    row ∈ s.site.store.sessions ∨ (q.params.action.isTruthy = false ∧ q.params.userIdSubmitted.isTruthy = false) ∧
      row = ⟨(s.site.session q).sessionId.getD [], (s.site.session q).userId.getD [], servers.appServer,
        servers.controlServer⟩ := by
  cases h with
  | same _ | known _ _ | started _ _ _ | stopped _ _ => exact Or.inl hrow
  | entered h _ =>
    rcases List.mem_append.mp hrow with hold | hnew
    · exact Or.inl hold
    · exact Or.inr ⟨h, List.mem_singleton.mp hnew⟩

/-! ## The visitors along the requests -/

theorem isTruthy_guidv4 (random : RandomBytes) : isTruthy (guidv4 random) = true := by
  have hmatch := guidv4_matches random
  by_contra hfalse
  have hcases : guidv4 random = [] ∨ guidv4 random = [0x30] := by
    simpa [isTruthy, Classical.or_iff_not_imp_left] using hfalse
  rcases hcases with he | he
  · simp [he, pregMatch, fits, uuidPattern] at hmatch
  · simp [he, pregMatch, fits, uuidPattern] at hmatch

theorem submit_session (visitor : PhpSession) (newUserId : Bytes) (random : RandomBytes) :
    ((visitor.submit newUserId random).sessionId = visitor.sessionId ∧
        (visitor.submit newUserId random).userId = visitor.userId) ∨
      (visitor.submit newUserId random).sessionId = some (guidv4 random) := by
  unfold PhpSession.submit
  split
  · split
    · split
      · exact Or.inl ⟨rfl, rfl⟩
      · exact Or.inl ⟨rfl, rfl⟩
    · exact Or.inr rfl
  · exact Or.inl ⟨rfl, rfl⟩

/-- A request that draws no session id leaves a user id that was set. -/
theorem desktop_session (visitor : PhpSession) (r : DesktopRequest) :
    ((desktop visitor r).sessionId = visitor.sessionId ∧
        ((desktop visitor r).userId = visitor.userId ∨ isSet visitor.userId = false)) ∨
      ∃ id ∈ [guidv4 r.random, guidv4 r.random'], (desktop visitor r).sessionId = some id := by
  have hclear : ∀ b : Bool, (if b then { visitor with errUserId := none } else visitor).sessionId = visitor.sessionId ∧
      (if b then { visitor with errUserId := none } else visitor).userId = visitor.userId := by
    intro b
    cases b <;> exact ⟨rfl, rfl⟩
  unfold desktop
  obtain ⟨hid, huser⟩ := hclear (isSet visitor.errUserId)
  generalize (if isSet visitor.errUserId then { visitor with errUserId := none } else visitor) = cleared at hid huser
  rw [← hid, ← huser]
  split
  · exact Or.inl ⟨hid.symm, Or.inl huser.symm⟩
  · dsimp only
    split
    · split
      · exact Or.inl ⟨rfl, Or.inl rfl⟩
      · next text _ =>
        rcases submit_session cleared (trim text) r.random with ⟨hsame, hsame'⟩ | hnew
        · exact Or.inl ⟨hsame, Or.inl hsame'⟩
        · exact Or.inr ⟨_, List.mem_cons_self, hnew⟩
    · cases hset : isSet cleared.userId with
      | true =>
        simp only [if_true]
        split
        · exact Or.inl ⟨rfl, Or.inl rfl⟩
        · exact Or.inr ⟨_, List.mem_cons_of_mem _ List.mem_cons_self, rfl⟩
      | false =>
        simp only [Bool.false_eq_true, if_false]
        split
        · exact Or.inl ⟨rfl, Or.inr trivial⟩
        · exact Or.inr ⟨_, List.mem_cons_of_mem _ List.mem_cons_self, rfl⟩

theorem desktop_page {visitor : PhpSession} {r : DesktopRequest} (haction : r.action.isTruthy = false)
    (hsubmitted : r.userIdSubmitted.isTruthy = false) :
    ∃ userId id, (desktop visitor r).userId = some userId ∧ isTruthy userId = true ∧
      (desktop visitor r).sessionId = some id := by
  have hset : ∀ {value : Option Bytes}, isSet value = true → ∃ text, value = some text ∧ isTruthy text = true := by
    intro value h
    simpa [isSet, Option.any_eq_true] using h
  have hpage : ∀ before : PhpSession, ∃ userId id,
      (if isSet (if isSet before.userId then before else { before with userId := some (guidv4 r.random) }).sessionId then
        (if isSet before.userId then before else { before with userId := some (guidv4 r.random) })
      else { (if isSet before.userId then before else { before with userId := some (guidv4 r.random) }) with
        sessionId := some (guidv4 r.random') }) = ⟨some userId, some id, before.errUserId⟩ ∧ isTruthy userId = true := by
    rintro ⟨user, session, err⟩
    by_cases huser : isSet user = true
    · obtain ⟨userId, rfl, htrue⟩ := hset huser
      by_cases hsession : isSet session = true
      · obtain ⟨id, rfl, -⟩ := hset hsession
        exact ⟨userId, id, by simp [huser, hsession], htrue⟩
      · exact ⟨userId, guidv4 r.random', by simp [huser, hsession], htrue⟩
    · by_cases hsession : isSet session = true
      · obtain ⟨id, rfl, -⟩ := hset hsession
        exact ⟨guidv4 r.random, id, by simp [huser, hsession], isTruthy_guidv4 _⟩
      · exact ⟨guidv4 r.random, guidv4 r.random', by simp [huser, hsession], isTruthy_guidv4 _⟩
  unfold desktop
  rw [haction, hsubmitted]
  simp only [Bool.false_eq_true, if_false]
  obtain ⟨userId, id, he, htrue⟩ :=
    hpage (if isSet visitor.errUserId then { visitor with errUserId := none } else visitor)
  rw [he]
  exact ⟨userId, id, rfl, htrue, rfl⟩

/-- What holds after every request. Two visitors never share a session id, and the row of
a visitor's session carries his user id. -/
structure Ok (s : Shared) : Prop where
  tables : Tables s.site.store s.files
  apart : ∀ v w id, (s.site.visitors v).sessionId = some id → (s.site.visitors w).sessionId = some id → v = w
  owned : ∀ v id, (s.site.visitors v).sessionId = some id → ∀ row ∈ s.site.store.sessions, row.sessionId = id →
    isTruthy row.userId = true ∧ (s.site.visitors v).userId = some row.userId

theorem request_visitors : (s.request sqlite servers q).site.visitors =
    Function.update s.site.visitors q.visitor (s.site.session q) := rfl

theorem Ok.apart_request (hs : s.Ok) (horderly : s.Orderly servers q) {w : ℕ} {id : Bytes} (hw : w ≠ q.visitor)
    (hid : (s.site.session q).sessionId = some id) : (s.site.visitors w).sessionId ≠ some id := by
  intro hother
  rcases desktop_session (s.site.visitors q.visitor) q.params with ⟨hsame, -⟩ | ⟨id', hdrawn, hnew⟩
  · exact hw (hs.apart w q.visitor id hother (hsame.symm.trans hid))
  · obtain rfl := Option.some.inj (hnew.symm.trans hid)
    exact (horderly.2 id' hdrawn).2 w hother

theorem Ok.request (hs : s.Ok) (horderly : s.Orderly servers q) : (s.request sqlite servers q).Ok := by
  have heffect : Effect servers s q (s.request sqlite servers q).site.store _ :=
    request_effect (fun statement hmem => (horderly.1 statement hmem).1)
  refine ⟨heffect.tables hs.tables, fun v w id hv hw => ?_, fun v id hv row hrow hid => ?_⟩
  · rw [request_visitors] at hv hw
    by_cases hvq : v = q.visitor
    · subst hvq
      rw [Function.update_self] at hv
      by_contra hne
      rw [Function.update_of_ne (Ne.symm hne)] at hw
      exact hs.apart_request horderly (Ne.symm hne) hv hw
    · rw [Function.update_of_ne hvq] at hv
      by_cases hwq : w = q.visitor
      · subst hwq
        rw [Function.update_self] at hw
        exact absurd hv (hs.apart_request horderly hvq hw)
      · rw [Function.update_of_ne hwq] at hw
        exact hs.apart v w id hv hw
  · rw [request_visitors] at hv ⊢
    rcases heffect.sessions hrow with hold | ⟨⟨haction, hsubmitted⟩, rfl⟩
    · by_cases hvq : v = q.visitor
      · subst hvq
        rw [Function.update_self] at hv ⊢
        rcases desktop_session (s.site.visitors q.visitor) q.params with ⟨hsame, huser⟩ | ⟨id', hdrawn, hnew⟩
        · obtain ⟨htrue, howner⟩ := hs.owned q.visitor id (hsame.symm.trans hv) row hold hid
          rcases huser with huser | hunset
          · exact ⟨htrue, huser.trans howner⟩
          · simp [howner, isSet, htrue] at hunset
        · obtain rfl := Option.some.inj (hnew.symm.trans hv)
          exact absurd ⟨row, hold, hid⟩ (horderly.2 id' hdrawn).1
      · rw [Function.update_of_ne hvq] at hv ⊢
        exact hs.owned v id hv row hold hid
    · obtain ⟨userId, id', huser, htrue, hsession⟩ :=
        desktop_page haction hsubmitted
      change (s.site.session q).userId = some userId at huser
      change (s.site.session q).sessionId = some id' at hsession
      simp only [hsession, huser, Option.getD_some] at hid ⊢
      subst hid
      by_cases hvq : v = q.visitor
      · subst hvq
        rw [Function.update_self]
        exact ⟨htrue, huser⟩
      · rw [Function.update_of_ne hvq] at hv
        exact absurd hv (hs.apart_request horderly hvq hsession)

theorem ok_initial : initial.Ok := by
  refine ⟨⟨List.nodup_nil, List.nodup_nil, fun _ => rfl⟩, fun v w id hv => ?_, fun v id hv => ?_⟩
  · cases hv
  · cases hv

/-! ## The rows of a page -/

theorem mem_joined {store : Store} {userId : Bytes} {row : SessionRow} {p : ProjectorRow} :
    (row, p) ∈ joined store userId ↔
      row ∈ store.sessions ∧ p ∈ store.projectors ∧ p.sessionId = row.sessionId ∧ row.userId = userId := by
  simp [joined, List.pair_mem_product, and_assoc]

/-- A projector is in the join at most once, so it is there once or not at all. -/
theorem count_joined {store : Store} {files : TokenFiles} (h : Tables store files) (userId : Bytes) (p : ProjectorRow) :
    ((joined store userId).map (·.2)).count p =
      if p ∈ (joined store userId).map (·.2) then 1 else 0 := by
  have hrows : (joined store userId).Nodup :=
    (List.Nodup.product (List.Nodup.of_map _ h.sessions) (List.Nodup.of_map _ h.projectors)).filter _
  have hnodup : ((joined store userId).map (·.2)).Nodup := by
    refine hrows.map_on ?_
    rintro ⟨row, p⟩ hrow ⟨row', p'⟩ hrow' rfl
    obtain ⟨hmem, -, hid, -⟩ := mem_joined.mp hrow
    obtain ⟨hmem', -, hid', -⟩ := mem_joined.mp hrow'
    rw [List.inj_on_of_nodup_map h.sessions hmem hmem' (hid.symm.trans hid')]
  exact hnodup.count

/-- In every run of orderly requests, the token files stand for the projectors, and the
desktop that is shared for a visitor's session is once on the page of every visitor with
his user id, and on no other. -/
theorem desktop_on_pages (sqlite : Sqlite) (servers : Servers) (injected : Injected) (requests : List SiteRequest)
    (s : Shared) (horderly : Transition.Guarded (step sqlite servers) (Orderly servers) initial requests)
    (hrun : Transition.run (step sqlite servers) initial requests = some s) :
    (∀ id, s.files id =
        (s.site.store.projectors.find? (fun p => decide (p.sessionId = id))).map (tokenText ·.clientPort)) ∧
      ∀ visitor id, (s.site.visitors visitor).sessionId = some id → s.site.store.hasSession id →
        ∀ p ∈ s.site.store.projectors, p.sessionId = id → ∀ watcher,
          (∀ userId, (s.site.visitors watcher).userId = some userId → quoteFree userId = true) →
            ((page injected s watcher).map (·.2)).count p =
              if (s.site.visitors watcher).userId = (s.site.visitors visitor).userId then 1 else 0 := by
  have hstep : ∀ s q t, s.Ok → Orderly servers s q → step sqlite servers s q = some t → t.Ok := by
    intro s q t hs hq ht
    exact Option.some.inj ht ▸ hs.request hq
  have hs : s.Ok := Transition.run_preserves_guarded hstep ok_initial horderly hrun
  refine ⟨hs.tables.files, fun visitor id hvisitor hsession p hp hid watcher hquote => ?_⟩
  obtain ⟨row, hrow, hrowid⟩ := hsession
  obtain ⟨htrue, howner⟩ := hs.owned visitor id hvisitor row hrow hrowid
  rw [howner]
  cases huser : (s.site.visitors watcher).userId with
  | none => simp [page, huser]
  | some userId =>
    by_cases htrue' : isTruthy userId = true
    · have hpage : page injected s watcher = joined s.site.store userId := by
        simp [page, huser, htrue', hquote userId huser]
      rw [hpage, count_joined hs.tables]
      refine if_congr ⟨?_, ?_⟩ rfl rfl
      · intro hmem
        obtain ⟨⟨row', _⟩, hjoined, rfl⟩ := List.mem_map.mp hmem
        obtain ⟨hrow', -, hid', huser'⟩ := mem_joined.mp hjoined
        rw [← huser', List.inj_on_of_nodup_map hs.tables.sessions hrow' hrow (hid'.symm.trans (hid.trans hrowid.symm))]
      · intro he
        exact List.mem_map.mpr ⟨(row, p), mem_joined.mpr ⟨hrow, hp, hid.trans hrowid.symm, (Option.some.inj he).symm⟩, rfl⟩
    · have hne : userId ≠ row.userId := fun he => htrue' (he ▸ htrue)
      simp [page, huser, htrue', hne]

/-- Condition of `Orderly` on the visitors, for the ids that are drawn. -/
def Unseen (visitors : ℕ → PhpSession) (ids : List Bytes) : Prop :=
  ∀ visitor, ∀ id ∈ ids, (visitors visitor).sessionId ≠ some id

theorem Unseen.initial (ids : List Bytes) : Unseen Site.initial.visitors ids := by
  intro visitor id _ h
  cases h

theorem Unseen.update {visitors : ℕ → PhpSession} {ids : List Bytes} {visitor : ℕ} {after : PhpSession}
    (h : Unseen visitors ids) (hafter : ids.all (fun id => after.sessionId ≠ some id) = true) :
    Unseen (Function.update visitors visitor after) ids := by
  intro v id hid
  by_cases hv : v = visitor
  · subst hv
    rw [Function.update_self]
    simpa using List.all_eq_true.mp hafter id hid
  · rw [Function.update_of_ne hv]
    exact h v id hid

theorem orderly_of_unseen {s : Shared} (hplain : (q.plan servers (s.site.session q)).all.all
      (fun statement => statement.isPlain && statement.namesFile) = true)
    (hsessions : [guidv4 q.params.random, guidv4 q.params.random'].all (¬ s.site.store.hasSession ·) = true)
    (hvisitors : Unseen s.site.visitors [guidv4 q.params.random, guidv4 q.params.random']) : Orderly servers s q := by
  refine ⟨fun statement hmem => ?_, fun id hid => ⟨?_, fun visitor => hvisitors visitor id hid⟩⟩
  · simpa using List.all_eq_true.mp hplain statement hmem
  · simpa using List.all_eq_true.mp hsessions id hid

def repeated (b : UInt8) : RandomBytes := ⟨List.replicate 16 b, List.length_replicate⟩

def twoVisitors : List SiteRequest :=
  [pageLoad (repeated 0), { pageLoad (repeated 1) with visitor := 1 },
    { startMessage (guidv4 (repeated 0)) with
      params := ⟨.text (asciiBytes "message"), .missing, .missing, repeated 2, repeated 2⟩ }]

theorem twoVisitors_orderly :
    Transition.Guarded (step (fun _ _ => none) ⟨[], []⟩) (Orderly ⟨[], []⟩) initial twoVisitors := by
  refine ⟨orderly_of_unseen (by decide +kernel) (by decide +kernel) (Unseen.initial _), fun t ht => ?_⟩
  obtain rfl := Option.some.inj ht
  refine ⟨orderly_of_unseen (by decide +kernel) (by decide +kernel) ((Unseen.initial _).update (by decide +kernel)),
    fun t ht => ?_⟩
  obtain rfl := Option.some.inj ht
  exact ⟨orderly_of_unseen (by decide +kernel) (by decide +kernel)
    (((Unseen.initial _).update (by decide +kernel)).update (by decide +kernel)), fun _ _ => trivial⟩

theorem desktop_on_own_page : ∃ s, Transition.run (step (fun _ _ => none) ⟨[], []⟩) initial twoVisitors = some s ∧
    ∃ p ∈ s.site.store.projectors, ((page (fun _ _ => []) s 0).map (·.2)).count p = 1 ∧
      ((page (fun _ _ => []) s 1).map (·.2)).count p = 0 := by
  let p : ProjectorRow := ⟨guidv4 (repeated 0), asciiBytes "pc", asciiBytes "5900", asciiBytes "5901", asciiBytes "12345678"⟩
  have hpages := (desktop_on_pages _ _ (fun _ _ => []) _ _ twoVisitors_orderly rfl).2 0 (guidv4 (repeated 0))
    (by decide +kernel) (by decide +kernel) p (by decide +kernel) rfl
  refine ⟨_, rfl, p, by decide +kernel, (hpages 0 ?_).trans (by decide +kernel), (hpages 1 ?_).trans (by decide +kernel)⟩
  · intro userId h
    exact Option.some.inj (Eq.trans (by decide +kernel : some (guidv4 (repeated 0)) = _) h) ▸ by decide +kernel
  · intro userId h
    exact Option.some.inj (Eq.trans (by decide +kernel : some (guidv4 (repeated 1)) = _) h) ▸ by decide +kernel

end Shared
end AppServer
end LilitunRemote

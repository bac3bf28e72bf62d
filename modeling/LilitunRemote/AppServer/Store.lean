import LilitunRemote.AppServer.UserId
import Mathlib.Logic.Function.Basic

/-! # The tables of the application server

The database part of `desktop.php`: a page load enters its session into `Sessions`, and
the control server's messages enter and delete rows of `Projectors`. The times of the
rows are left out. A statement is built by pasting texts into it; when they contain no
quote it means what it says, and otherwise its meaning is SQLite's own, a parameter.
-/
namespace LilitunRemote
namespace AppServer
open CString (isDigit isSpace)

structure SessionRow where
  sessionId : Bytes
  userId : Bytes
  appServer : Bytes
  controlServer : Bytes
  deriving DecidableEq, Repr

structure ProjectorRow where
  sessionId : Bytes
  hostname : Bytes
  clientPort : Bytes
  clientIpv6Port : Bytes
  clientPassword : Bytes
  deriving DecidableEq, Repr

structure Store where
  sessions : List SessionRow
  projectors : List ProjectorRow
  deriving DecidableEq, Repr

def Store.empty : Store := ⟨[], []⟩

def Store.hasSession (s : Store) (sessionId : Bytes) : Prop := ∃ row ∈ s.sessions, row.sessionId = sessionId
def Store.hasProjector (s : Store) (sessionId : Bytes) : Prop := ∃ row ∈ s.projectors, row.sessionId = sessionId

instance (s : Store) (sessionId : Bytes) : Decidable (s.hasSession sessionId) :=
  inferInstanceAs (Decidable (∃ row ∈ s.sessions, _))
instance (s : Store) (sessionId : Bytes) : Decidable (s.hasProjector sessionId) :=
  inferInstanceAs (Decidable (∃ row ∈ s.projectors, _))

/-! ## Statements -/

inductive Statement
  | selectSession (sessionId : Bytes)
  | insertProjector (row : ProjectorRow)
  | deleteProjector (sessionId : Bytes)
  | insertSession (row : SessionRow)
  | touchSession (sessionId : Bytes)
  | touchUser (userId sessionId : Bytes)
  deriving DecidableEq, Repr

/-- A numeral behind its sign: digits with at most one point, and an exponent. -/
def isUnsignedNumeral (s : Bytes) : Bool :=
  let whole := s.takeWhile isDigit
  let rest := s.dropWhile isDigit
  let fraction := if rest.head? = some 0x2e then rest.tail.takeWhile isDigit else []
  let rest := if rest.head? = some 0x2e then rest.tail.dropWhile isDigit else rest
  let exponent := match rest with
    | [] => true
    | e :: digits =>
      let digits := if digits.head? = some 0x2b || digits.head? = some 0x2d then digits.tail else digits
      (e = 0x45 || e = 0x65) && digits ≠ [] && digits.all isDigit
  (whole ≠ [] || fraction ≠ []) && exponent

/-- `is_numeric` of a text: a signed numeral with blanks around it. -/
def isNumericText (s : Bytes) : Bool :=
  let s := ((s.dropWhile isSpace).reverse.dropWhile isSpace).reverse
  isUnsignedNumeral (if s.head? = some 0x2b || s.head? = some 0x2d then s.tail else s)

def quoteFree (s : Bytes) : Bool := s.all (· ≠ 0x27)

/-- A text that SQLite, too, reads as a number. -/
def plainNumber (s : Bytes) : Bool := isNumericText s && s.all (· ≠ 0x0b)

def Statement.isPlain : Statement → Bool
  | selectSession sessionId | deleteProjector sessionId | touchSession sessionId => quoteFree sessionId
  | insertProjector row =>
    quoteFree row.sessionId && quoteFree row.hostname && plainNumber row.clientPort &&
      plainNumber row.clientIpv6Port && quoteFree row.clientPassword
  | insertSession row =>
    quoteFree row.sessionId && quoteFree row.userId && quoteFree row.appServer && quoteFree row.controlServer
  | touchUser userId sessionId => quoteFree userId && quoteFree sessionId

/-- SQLite on the statements that are not plain; an exception leaves no result. -/
abbrev Sqlite := Statement → Store → Option Store

/-- A plain statement. The column `sessionId` of both tables is unique, and a query
returns a statement object whether or not a row matches. -/
def Store.execPlain (s : Store) : Statement → Option Store
  | .selectSession _ | .touchSession _ | .touchUser _ _ => some s
  | .insertProjector row =>
    if s.hasProjector row.sessionId then none else some { s with projectors := s.projectors ++ [row] }
  | .deleteProjector sessionId => some { s with projectors := s.projectors.filter (·.sessionId ≠ sessionId) }
  | .insertSession row =>
    if s.hasSession row.sessionId then some s else some { s with sessions := s.sessions ++ [row] }

def Store.exec (sqlite : Sqlite) (s : Store) (q : Statement) : Option Store :=
  if q.isPlain then s.execPlain q else sqlite q s

/-- How a request ends: with status 200, with 403, or with an uncaught error. -/
inductive Reply
  | ok
  | forbidden
  | failed
  deriving DecidableEq, Repr

def Store.execAll (sqlite : Sqlite) : Store → List Statement → Reply × Store
  | s, [] => (.ok, s)
  | s, q :: qs =>
    match s.exec sqlite q with
    | none => (.failed, s)
    | some t => t.execAll sqlite qs

/-! ## Messages -/

/-- What `json_decode` returns. A number comes with its text and whether it is zero. -/
inductive Json
  | null
  | bool (b : Bool)
  | number (zero : Bool) (text : Bytes)
  | text (s : Bytes)
  | array (items : List Json)
  | object (fields : List (Bytes × Json))

namespace Json

/-- A property that is not there reads as null, and so does any property of a value
that is not an object. -/
def field (data : Json) (name : String) : Json :=
  match data with
  | object fields => ((fields.find? (·.1 = asciiBytes name)).map (·.2)).getD null
  | _ => null

def isTruthy : Json → Bool
  | null => false
  | bool b => b
  | number zero _ => !zero
  | text s => AppServer.isTruthy s
  | array items => !items.isEmpty
  | object _ => true

/-- `addslashes` of a value; an array or an object is a type error. -/
def addslashes : Json → Option Bytes
  | null => some []
  | bool b => some (if b then [0x31] else [])
  | number _ t => some (AppServer.addslashes t)
  | text s => some (AppServer.addslashes s)
  | array _ | object _ => none

def numeric : Json → Option Bytes
  | number _ t => some t
  | text s => if isNumericText s then some s else none
  | _ => none

end Json

/-- What a request comes down to: it is answered at once, or it runs statements and is
answered when they are through. -/
inductive Plan
  | answer (reply : Reply)
  | statements (qs : List Statement)
  deriving DecidableEq, Repr

def remoteControlStart : Bytes := asciiBytes "remoteControlStart"
def remoteControlStop : Bytes := asciiBytes "remoteControlStop"

/-- The branch of `remoteControlStart`. The result of the query is only tested for being
a statement object, so the row is entered whether or not the query finds one. -/
def startPlan (data : Json) (sessionId : Bytes) : Plan :=
  if (data.field "port").isTruthy && (data.field "ipv6port").isTruthy && (data.field "password").isTruthy then
    match (data.field "hostname").addslashes, (data.field "password").addslashes with
    | some host, some password =>
      match (data.field "port").numeric, (data.field "ipv6port").numeric with
      | some port, some ipv6port =>
        if password ≠ [] then
          .statements [.selectSession sessionId, .insertProjector ⟨sessionId, host, port, ipv6port, password⟩,
            .touchSession sessionId]
        else .answer .forbidden
      | _, _ => .answer .forbidden
    | _, _ => .answer .failed
  else .answer .forbidden

def stopPlan (sessionId : Bytes) : Plan := .statements [.deleteProjector sessionId, .touchSession sessionId]

def messagePlan (data : Json) : Plan :=
  match (data.field "requestType").addslashes with
  | none => .answer .failed
  | some requestType =>
    if requestType = remoteControlStart ∨ requestType = remoteControlStop then
      match (data.field "sessionId").addslashes with
      | none => .answer .failed
      | some sessionId => if requestType = remoteControlStart then startPlan data sessionId else stopPlan sessionId
    else .answer .forbidden

/-! ## Requests to `desktop.php` -/

/-- The names under which a page load enters its servers. -/
structure Servers where
  appServer : Bytes
  controlServer : Bytes

structure SiteRequest where
  visitor : ℕ
  params : DesktopRequest
  body : Json

structure Site where
  store : Store
  visitors : ℕ → PhpSession

def Site.initial : Site := ⟨.empty, fun _ => .empty⟩

def SiteRequest.plan (servers : Servers) (q : SiteRequest) (after : PhpSession) : Plan :=
  if q.params.action.isTruthy then
    match q.params.action.addslashes with
    | none => .answer .failed
    | some action => if action = asciiBytes "message" then messagePlan q.body else .answer .forbidden
  else if q.params.userIdSubmitted.isTruthy then
    .answer (if q.params.newUserId.addslashes.isSome then .ok else .failed)
  else
    let userId := after.userId.getD []
    let sessionId := after.sessionId.getD []
    .statements [.insertSession ⟨sessionId, userId, servers.appServer, servers.controlServer⟩,
      .touchUser userId sessionId]

def Plan.run (sqlite : Sqlite) (s : Store) : Plan → Reply × Store
  | .answer reply => (reply, s)
  | .statements qs => s.execAll sqlite qs

def Plan.all : Plan → List Statement
  | .answer _ => []
  | .statements qs => qs

section Site
variable (sqlite : Sqlite) (servers : Servers)

def Site.session (s : Site) (q : SiteRequest) : PhpSession := desktop (s.visitors q.visitor) q.params

def Site.request (s : Site) (q : SiteRequest) : Reply × Site :=
  let after := s.session q
  let result := (q.plan servers after).run sqlite s.store
  (result.1, ⟨result.2, Function.update s.visitors q.visitor after⟩)

def Site.step (s : Site) (q : SiteRequest) : Option Site := some (s.request sqlite servers q).2

def Store.Integrity (s : Store) : Prop := ∀ row ∈ s.projectors, s.hasSession row.sessionId

/-! ## What a request brings along -/

def SiteRequest.sessionOf (q : SiteRequest) (requestType : Bytes) : Option Bytes :=
  if q.params.action.isTruthy = true ∧ q.params.action.addslashes = some (asciiBytes "message") ∧
      (q.body.field "requestType").addslashes = some requestType then
    (q.body.field "sessionId").addslashes
  else none

def SiteRequest.isPageLoad (q : SiteRequest) : Bool := !q.params.action.isTruthy && !q.params.userIdSubmitted.isTruthy

/-- The fields pass the checks of the branch of `remoteControlStart`. -/
def Json.isUsable (data : Json) : Bool :=
  ((data.field "port").isTruthy && (data.field "ipv6port").isTruthy && (data.field "password").isTruthy) &&
    ((data.field "hostname").addslashes.isSome && (data.field "password").addslashes.any (· ≠ [])) &&
    ((data.field "port").numeric.isSome && (data.field "ipv6port").numeric.isSome)

/-- A start that passes the checks is for a session of `Sessions`. -/
def Site.StartKnown (s : Site) (q : SiteRequest) : Prop :=
  ∀ sessionId ∈ q.sessionOf remoteControlStart, q.body.isUsable = true → s.store.hasSession sessionId

instance (s : Site) (q : SiteRequest) : Decidable (s.StartKnown q) := inferInstanceAs (Decidable (∀ _ ∈ _, _))

/-- The texts of the request and of its visitor stay inside the quotes they are pasted
between, and its ports are plain numbers. -/
def Site.Plain (servers : Servers) (s : Site) (q : SiteRequest) : Prop :=
  (∀ sessionId ∈ q.sessionOf remoteControlStart, q.body.isUsable = true →
    (quoteFree sessionId ∧ (q.body.field "hostname").addslashes.all quoteFree ∧
      (q.body.field "password").addslashes.all quoteFree) ∧
    (q.body.field "port").numeric.all plainNumber ∧ (q.body.field "ipv6port").numeric.all plainNumber) ∧
  (∀ sessionId ∈ q.sessionOf remoteControlStop, quoteFree sessionId) ∧
  (q.isPageLoad → (quoteFree servers.appServer ∧ quoteFree servers.controlServer) ∧
    (s.visitors q.visitor).userId.all quoteFree ∧ (s.visitors q.visitor).sessionId.all quoteFree)

instance (s : Site) (q : SiteRequest) : Decidable (s.Plain servers q) := inferInstanceAs (Decidable (_ ∧ _))

/-! ## The statements of a request -/

variable {sqlite : Sqlite} {servers : Servers}

theorem execPlain_cases {s t : Store} {q : Statement} (h : s.execPlain q = some t) :
    (∀ id, s.hasSession id → t.hasSession id) ∧
      ∀ row ∈ t.projectors, row ∈ s.projectors ∨ q = .insertProjector row := by
  cases q with
  | selectSession id => exact Option.some.inj h ▸ ⟨fun _ h => h, fun _ h => Or.inl h⟩
  | touchSession id => exact Option.some.inj h ▸ ⟨fun _ h => h, fun _ h => Or.inl h⟩
  | touchUser user id => exact Option.some.inj h ▸ ⟨fun _ h => h, fun _ h => Or.inl h⟩
  | insertProjector row =>
    simp only [Store.execPlain, Option.ite_none_left_eq_some, Option.some.injEq] at h
    obtain ⟨_, rfl⟩ := h
    refine ⟨fun _ h => h, fun row' hrow => ?_⟩
    rcases List.mem_append.mp hrow with hold | hnew
    · exact Or.inl hold
    · exact Or.inr (congrArg _ (List.mem_singleton.mp hnew).symm)
  | deleteProjector id =>
    obtain rfl := Option.some.inj h
    exact ⟨fun _ h => h, fun row hrow => Or.inl (List.mem_filter.mp hrow).1⟩
  | insertSession row =>
    simp only [Store.execPlain] at h
    split at h
    · exact Option.some.inj h ▸ ⟨fun _ h => h, fun _ h => Or.inl h⟩
    · obtain rfl := Option.some.inj h
      refine ⟨fun id hid => ?_, fun _ h => Or.inl h⟩
      obtain ⟨row', hrow', hid⟩ := hid
      exact ⟨row', List.mem_append_left _ hrow', hid⟩

theorem exec_integrity {s t : Store} {q : Statement} (hs : s.Integrity) (hplain : q.isPlain = true)
    (hknown : ∀ row, q = .insertProjector row → s.hasSession row.sessionId) (ht : s.exec sqlite q = some t) :
    t.Integrity ∧ ∀ id, s.hasSession id → t.hasSession id := by
  rw [Store.exec, if_pos hplain] at ht
  obtain ⟨hkeep, hrows⟩ := execPlain_cases ht
  refine ⟨fun row hrow => ?_, hkeep⟩
  rcases hrows row hrow with hold | hnew
  · exact hkeep _ (hs row hold)
  · exact hkeep _ (hknown row hnew)

theorem execAll_integrity {s : Store} {qs : List Statement} (hs : s.Integrity) (hplain : ∀ q ∈ qs, q.isPlain = true)
    (hknown : ∀ row, .insertProjector row ∈ qs → s.hasSession row.sessionId) : (s.execAll sqlite qs).2.Integrity := by
  induction qs generalizing s with
  | nil => exact hs
  | cons q qs ih =>
    unfold Store.execAll
    cases ht : s.exec sqlite q with
    | none => exact hs
    | some t =>
      obtain ⟨hfirst, hlater⟩ := List.forall_mem_cons.mp hplain
      obtain ⟨hint, hkeep⟩ := exec_integrity hs hfirst (fun row hrow => hknown row (hrow ▸ List.mem_cons_self)) ht
      exact ih hint hlater (fun row hrow => hkeep _ (hknown row (List.mem_cons_of_mem _ hrow)))

theorem execAll_cons_of_plain {store next : Store} {statement : Statement} {qs : List Statement}
    (hplain : statement.isPlain = true) (hnext : store.execPlain statement = some next) :
    store.execAll sqlite (statement :: qs) = next.execAll sqlite qs := by
  rw [Store.execAll, Store.exec, if_pos hplain, hnext]

/-- A start that passes the checks enters its own row. -/
theorem startPlan_usable {data : Json} (h : data.isUsable = true) (sessionId : Bytes) :
    ∃ row : ProjectorRow, row.sessionId = sessionId ∧
      (data.field "hostname").addslashes = some row.hostname ∧
      (data.field "password").addslashes = some row.clientPassword ∧
      (data.field "port").numeric = some row.clientPort ∧ (data.field "ipv6port").numeric = some row.clientIpv6Port ∧
      startPlan data sessionId = .statements [.selectSession sessionId, .insertProjector row, .touchSession sessionId] := by
  simp only [Json.isUsable, Bool.and_eq_true, Option.isSome_iff_exists, Option.any_eq_true, decide_eq_true_eq] at h
  obtain ⟨⟨⟨⟨hport, hipv6port⟩, hpassword⟩, ⟨host, hhost⟩, password, htext, hne⟩, ⟨port, hnumber⟩, ipv6port, hnumber'⟩ := h
  refine ⟨⟨sessionId, host, port, ipv6port, password⟩, rfl, hhost, htext, hnumber, hnumber', ?_⟩
  simp only [startPlan, hport, hipv6port, hpassword, Bool.and_self, if_true, hhost, htext, hnumber, hnumber', if_pos hne]

/-- Any other start is answered without a statement. -/
theorem startPlan_unusable {data : Json} (h : data.isUsable = false) (sessionId : Bytes) :
    ∃ reply, startPlan data sessionId = .answer reply ∧ reply ≠ .ok := by
  unfold startPlan
  split
  · next hpresent =>
    split
    · next host password hhost hpassword =>
      split
      · next port ipv6port hport hipv6port =>
        split
        · next hne =>
          simp only [Json.isUsable, hpresent, hhost, hpassword, hport, hipv6port, Option.isSome_some, Option.any_some,
            decide_eq_true hne, Bool.and_self] at h
          cases h
        · exact ⟨_, rfl, by decide⟩
      · exact ⟨_, rfl, by decide⟩
    · exact ⟨_, rfl, by decide⟩
  · exact ⟨_, rfl, by decide⟩

theorem startPlan_cases (data : Json) (sessionId : Bytes) :
    (∃ reply, startPlan data sessionId = .answer reply ∧ reply ≠ .ok) ∨
      ∃ row : ProjectorRow, row.sessionId = sessionId ∧
        (data.field "hostname").addslashes = some row.hostname ∧
        (data.field "password").addslashes = some row.clientPassword ∧
        (data.field "port").numeric = some row.clientPort ∧ (data.field "ipv6port").numeric = some row.clientIpv6Port ∧
        startPlan data sessionId = .statements [.selectSession sessionId, .insertProjector row, .touchSession sessionId] := by
  cases h : data.isUsable with
  | true => exact Or.inr (startPlan_usable h sessionId)
  | false => exact Or.inl (startPlan_unusable h sessionId)

/-! ## The plan of a request -/

def loadPlan (servers : Servers) (after : PhpSession) : Plan :=
  .statements [.insertSession ⟨after.sessionId.getD [], after.userId.getD [], servers.appServer, servers.controlServer⟩,
    .touchUser (after.userId.getD []) (after.sessionId.getD [])]

/-- A request loads the page, is answered at once, or is a message of one of the two types. -/
theorem plan_of_request (servers : Servers) (q : SiteRequest) (after : PhpSession) :
    (q.isPageLoad = true ∧ q.plan servers after = loadPlan servers after) ∨
      q.isPageLoad = false ∧ ((∃ reply, q.plan servers after = .answer reply) ∨
        (∃ id, q.sessionOf remoteControlStart = some id ∧ q.plan servers after = startPlan q.body id) ∨
        ∃ id, q.sessionOf remoteControlStop = some id ∧ q.plan servers after = stopPlan id) := by
  cases haction : q.params.action.isTruthy with
  | false =>
    cases hsubmitted : q.params.userIdSubmitted.isTruthy with
    | false =>
      refine Or.inl ⟨by simp [SiteRequest.isPageLoad, haction, hsubmitted], ?_⟩
      simp only [SiteRequest.plan, haction, hsubmitted, Bool.false_eq_true, if_false, loadPlan]
    | true =>
      refine Or.inr ⟨by simp [SiteRequest.isPageLoad, hsubmitted], Or.inl ⟨if q.params.newUserId.addslashes.isSome then .ok else .failed, ?_⟩⟩
      simp only [SiteRequest.plan, haction, hsubmitted, Bool.false_eq_true, if_false, if_true]
  | true =>
    refine Or.inr ⟨by simp [SiteRequest.isPageLoad, haction], ?_⟩
    simp only [SiteRequest.plan, SiteRequest.sessionOf, haction, if_true, true_and]
    cases q.params.action.addslashes with
    | none => exact Or.inl ⟨_, rfl⟩
    | some action =>
      by_cases hmessage : action = asciiBytes "message"
      swap
      · exact Or.inl ⟨.forbidden, if_neg hmessage⟩
      subst hmessage
      simp only [if_true, true_and, messagePlan]
      cases (q.body.field "requestType").addslashes with
      | none => exact Or.inl ⟨_, rfl⟩
      | some requestType =>
        by_cases hstart : requestType = remoteControlStart
        · subst hstart
          cases (q.body.field "sessionId").addslashes with
          | none => exact Or.inl ⟨.failed, by simp⟩
          | some id => exact Or.inr (Or.inl ⟨id, by simp, by simp⟩)
        by_cases hstop : requestType = remoteControlStop
        · subst hstop
          cases (q.body.field "sessionId").addslashes with
          | none => exact Or.inl ⟨.failed, by simp⟩
          | some id => exact Or.inr (Or.inr ⟨id, by simp, by simp [hstart]⟩)
        · exact Or.inl ⟨.forbidden, if_neg (not_or.mpr ⟨hstart, hstop⟩)⟩

theorem plan_of_start {q : SiteRequest} {id : Bytes} (h : q.sessionOf remoteControlStart = some id) (after : PhpSession) :
    q.plan servers after = startPlan q.body id := by
  obtain ⟨⟨haction, hmessage, htype⟩, hid⟩ := Option.ite_none_right_eq_some.mp h
  simp only [SiteRequest.plan, haction, hmessage, messagePlan, htype, hid, if_true, true_or]

/-! ## Integrity along the requests -/

/-- A page load takes its ids from the session or draws them. -/
theorem desktop_ids {s : PhpSession} {r : DesktopRequest} {P : Bytes → Prop} (haction : r.action.isTruthy = false)
    (hsubmitted : r.userIdSubmitted.isTruthy = false) (hguid : ∀ random, P (guidv4 random))
    (huser : ∀ id ∈ s.userId, P id) (hsession : ∀ id ∈ s.sessionId, P id) :
    P ((desktop s r).userId.getD []) ∧ P ((desktop s r).sessionId.getD []) := by
  -- the error text is cleared, which leaves the ids alone
  obtain ⟨err, herr⟩ : ∃ err, (if isSet s.errUserId = true then { s with errUserId := none } else s) =
      ({ s with errUserId := err } : PhpSession) := by
    split
    · exact ⟨none, rfl⟩
    · exact ⟨s.errUserId, rfl⟩
  have hset : ∀ {value : Option Bytes}, isSet value = true → (∀ id ∈ value, P id) → P (value.getD []) := by
    rintro (_ | id) hvalue hP
    · cases hvalue
    · exact hP id rfl
  simp only [desktop, haction, hsubmitted, Bool.false_eq_true, if_false, herr]
  by_cases hu : isSet s.userId = true <;> by_cases hi : isSet s.sessionId = true <;>
    simp only [hu, hi, if_true, Bool.false_eq_true, if_false]
  · exact ⟨hset hu huser, hset hi hsession⟩
  · exact ⟨hset hu huser, hguid r.random'⟩
  · exact ⟨hguid r.random, hset hi hsession⟩
  · exact ⟨hguid r.random, hguid r.random'⟩

theorem guidv4_quoteFree (random : RandomBytes) : quoteFree (guidv4 random) = true := by
  have hhigh : ∀ b : UInt8, hexDigit (b >>> 4) ≠ 0x27 := CString.forall_byte (by decide +kernel)
  have hlow : ∀ b : UInt8, hexDigit (b &&& 0x0f) ≠ 0x27 := CString.forall_byte (by decide +kernel)
  obtain ⟨data, hlength⟩ := random
  match data, hlength with
  | [b0, b1, b2, b3, b4, b5, b6, b7, b8, b9, b10, b11, b12, b13, b14, b15], _ =>
    simp [quoteFree, guidv4, bin2hex, hhigh, hlow]

/-- No text of a plain request leaves its quotes in a statement. -/
theorem plan_isPlain {s : Site} {q : SiteRequest} (h : s.Plain servers q) :
    ∀ statement ∈ (q.plan servers (s.session q)).all, statement.isPlain = true := by
  obtain ⟨hstart, hstop, hload⟩ := h
  rcases plan_of_request servers q (s.session q) with ⟨hpage, hplan⟩ | ⟨-, ⟨reply, hplan⟩ | ⟨id, hid, hplan⟩ | ⟨id, hid, hplan⟩⟩
  · obtain ⟨⟨happ, hcontrol⟩, huser, hsession⟩ := hload hpage
    simp only [SiteRequest.isPageLoad, Bool.and_eq_true, Bool.not_eq_true'] at hpage
    obtain ⟨huser', hsession'⟩ := desktop_ids (P := fun id => quoteFree id = true) hpage.1 hpage.2 guidv4_quoteFree
      ((Option.all_eq_true _ _).mp huser) ((Option.all_eq_true _ _).mp hsession)
    rw [hplan]
    simp [loadPlan, Plan.all, Statement.isPlain, Site.session, huser', hsession', happ, hcontrol]
  · rw [hplan]
    exact nofun
  · cases husable : q.body.isUsable with
    | false =>
      obtain ⟨reply, hreply, -⟩ := startPlan_unusable husable id
      rw [hplan, hreply]
      exact nofun
    | true =>
      obtain ⟨row, rfl, hhost, hpassword, hport, hipv6port, hstatements⟩ := startPlan_usable husable id
      obtain ⟨⟨hid', hhost', hpassword'⟩, hport', hipv6port'⟩ := hstart _ hid husable
      rw [hhost, Option.all_some] at hhost'
      rw [hpassword, Option.all_some] at hpassword'
      rw [hport, Option.all_some] at hport'
      rw [hipv6port, Option.all_some] at hipv6port'
      rw [hplan, hstatements]
      simp [Plan.all, Statement.isPlain, hid', hhost', hpassword', hport', hipv6port']
  · have hquote := hstop _ hid
    rw [hplan]
    simp [stopPlan, Plan.all, Statement.isPlain, hquote]

theorem request_integrity {s : Site} {q : SiteRequest} (hs : s.store.Integrity) (hplain : s.Plain servers q)
    (hknown : s.StartKnown q) : (s.request sqlite servers q).2.store.Integrity := by
  have hstatements := plan_isPlain hplain
  simp only [Site.request]
  cases hplan : q.plan servers (s.session q) with
  | answer reply => exact hs
  | statements qs =>
    rw [hplan] at hstatements
    refine execAll_integrity hs hstatements (fun row hrow => ?_)
    -- only a start that passes the checks enters a row
    rcases plan_of_request servers q (s.session q) with ⟨-, hother⟩ | ⟨-, ⟨reply, hother⟩ | ⟨id, hid, hother⟩ | ⟨id, -, hother⟩⟩
    · obtain rfl := Plan.statements.inj (hplan.symm.trans hother)
      simp at hrow
    · rw [hplan] at hother
      cases hother
    · cases husable : q.body.isUsable with
      | false =>
        obtain ⟨reply, hreply, -⟩ := startPlan_unusable husable id
        rw [hplan, hreply] at hother
        cases hother
      | true =>
        obtain ⟨row', rfl, -, -, -, -, hrun⟩ := startPlan_usable husable id
        obtain rfl := Plan.statements.inj (hplan.symm.trans (hother.trans hrun))
        obtain rfl : row = row' := by simpa using hrow
        exact hknown _ hid husable
    · obtain rfl := Plan.statements.inj (hplan.symm.trans hother)
      simp at hrow

section Start
variable {s : Site} {q : SiteRequest} {id : Bytes}

/-- A start that does not pass the checks is refused. -/
theorem start_refused (hstart : q.sessionOf remoteControlStart = some id) (husable : q.body.isUsable = false) :
    (s.request sqlite servers q).1 ≠ .ok ∧ (s.request sqlite servers q).2.store = s.store := by
  obtain ⟨reply, hreply, hne⟩ := startPlan_unusable husable id
  simp only [Site.request, plan_of_start hstart, hreply, Plan.run]
  exact ⟨hne, trivial⟩

/-- One that passes them enters its row, for whatever session. -/
theorem start_accepted (hplain : s.Plain servers q) (hstart : q.sessionOf remoteControlStart = some id)
    (husable : q.body.isUsable = true) (hnew : ¬ s.store.hasProjector id) :
    (s.request sqlite servers q).1 = .ok ∧ ∃ row : ProjectorRow, row.sessionId = id ∧
      (s.request sqlite servers q).2.store = { s.store with projectors := s.store.projectors ++ [row] } := by
  obtain ⟨row, rfl, -, -, -, -, hrun⟩ := startPlan_usable husable id
  have hplan : q.plan servers (s.session q) =
      .statements [.selectSession row.sessionId, .insertProjector row, .touchSession row.sessionId] :=
    (plan_of_start hstart _).trans hrun
  have hstatements := plan_isPlain hplain
  rw [hplan] at hstatements
  have hselect := hstatements (.selectSession row.sessionId) (by simp [Plan.all])
  have hinsert := hstatements (.insertProjector row) (by simp [Plan.all])
  have htouch := hstatements (.touchSession row.sessionId) (by simp [Plan.all])
  have hexec : s.store.execAll sqlite [.selectSession row.sessionId, .insertProjector row, .touchSession row.sessionId] =
      (.ok, { s.store with projectors := s.store.projectors ++ [row] }) := by
    rw [execAll_cons_of_plain hselect rfl, execAll_cons_of_plain hinsert (if_neg hnew), execAll_cons_of_plain htouch rfl,
      Store.execAll]
  simp only [Site.request, hplan, Plan.run, hexec]
  exact ⟨trivial, row, rfl, rfl⟩

/-- A projector with a row belongs to a known session. -/
theorem Store.Integrity.not_hasProjector {store : Store} (hs : store.Integrity) (habsent : ¬ store.hasSession id) :
    ¬ store.hasProjector id := by
  rintro ⟨row, hrow, rfl⟩
  exact habsent (hs row hrow)

theorem start_refused_iff (hs : s.store.Integrity) (hplain : s.Plain servers q)
    (hstart : q.sessionOf remoteControlStart = some id) (habsent : ¬ s.store.hasSession id) :
    ((s.request sqlite servers q).1 ≠ .ok ∧ (s.request sqlite servers q).2.store = s.store) ↔ q.body.isUsable = false := by
  constructor
  · rintro ⟨hrefused, -⟩
    by_contra husable
    rw [Bool.not_eq_false] at husable
    exact hrefused (start_accepted hplain hstart husable (hs.not_hasProjector habsent)).1
  · exact start_refused hstart

theorem not_integrity_of_unknown (hs : s.store.Integrity) (hplain : s.Plain servers q) (hunknown : ¬ s.StartKnown q) :
    ¬ (s.request sqlite servers q).2.store.Integrity := by
  unfold Site.StartKnown at hunknown
  push Not at hunknown
  obtain ⟨id, hstart, husable, habsent⟩ := hunknown
  obtain ⟨-, row, rfl, hstore⟩ : (s.request sqlite servers q).1 = .ok ∧ _ :=
    start_accepted hplain hstart husable (hs.not_hasProjector habsent)
  intro hint
  rw [hstore] at hint
  exact habsent (hint row (by simp))

end Start

/-- While no text leaves its quotes: every projector's session is known along the requests
exactly when each start that passes the handler's checks is for a known session. After
any such requests a start for an unknown session is refused, with the tables as they
were, exactly when it does not pass the checks. -/
theorem integrity_iff_starts_known (sqlite : Sqlite) (servers : Servers) (requests : List SiteRequest)
    (hplain : Transition.Guarded (Site.step sqlite servers) (Site.Plain servers) .initial requests) :
    (Transition.Guarded (Site.step sqlite servers) Site.StartKnown .initial requests ↔
      ∀ served s, served <+: requests → Transition.run (Site.step sqlite servers) .initial served = some s →
        s.store.Integrity) ∧
    ∀ s, Transition.run (Site.step sqlite servers) .initial requests = some s → s.store.Integrity →
      ∀ q sessionId, s.Plain servers q → q.sessionOf remoteControlStart = some sessionId → ¬ s.store.hasSession sessionId →
        (((s.request sqlite servers q).1 ≠ .ok ∧ (s.request sqlite servers q).2.store = s.store) ↔ q.body.isUsable = false) := by
  have hgood : ∀ (s : Site) q t, s.store.Integrity → s.Plain servers q → s.StartKnown q → s.step sqlite servers q = some t →
      t.store.Integrity := by
    intro s q t hs hq hknown ht
    exact Option.some.inj ht ▸ request_integrity hs hq hknown
  have hbad : ∀ (s : Site) q, s.store.Integrity → s.Plain servers q → ¬ s.StartKnown q →
      ∃ t, s.step sqlite servers q = some t ∧ ¬ t.store.Integrity :=
    fun s q hs hq hunknown => ⟨_, rfl, not_integrity_of_unknown hs hq hunknown⟩
  have hinitial : Site.initial.store.Integrity := by
    intro row hrow
    cases hrow
  refine ⟨Transition.guarded_iff_forall_of (fun _ h => h) hgood hbad hinitial hplain, ?_⟩
  intro s _ hs q sessionId hq hstart habsent
  exact start_refused_iff hs hq hstart habsent

end Site

def startMessage (sessionId : Bytes) : SiteRequest :=
  let zeros := RandomBytes.zeros
  ⟨0, ⟨.text (asciiBytes "message"), .missing, .missing, zeros, zeros⟩,
    .object [(asciiBytes "requestType", .text remoteControlStart), (asciiBytes "sessionId", .text sessionId),
      (asciiBytes "hostname", .text (asciiBytes "pc")), (asciiBytes "port", .number false (asciiBytes "5900")),
      (asciiBytes "ipv6port", .number false (asciiBytes "5901")), (asciiBytes "password", .text (asciiBytes "12345678"))]⟩

def pageLoad (random : RandomBytes) : SiteRequest := ⟨0, ⟨.missing, .missing, .missing, random, random⟩, .null⟩

/-- A page load and the start of its session. -/
def opened : List SiteRequest := [pageLoad .zeros, startMessage (guidv4 .zeros)]

theorem integrity_of_known_start : ∃ s, Transition.run (Site.step (fun _ _ => none) ⟨[], []⟩) .initial opened = some s ∧
    s.store.projectors.length = 1 ∧ s.store.Integrity := by
  have hrun : (Transition.run (Site.step (fun _ _ => none) ⟨[], []⟩) .initial opened).map
      (fun s => s.store.projectors.length) = some 1 := by decide +kernel
  obtain ⟨s, hs, hlength⟩ := Option.map_eq_some_iff.mp hrun
  have hintegrity := (integrity_iff_starts_known (fun _ _ => none) ⟨[], []⟩ opened (by decide +kernel)).1.mp
    (by decide +kernel)
  exact ⟨s, hs, hlength, hintegrity opened s List.prefix_rfl hs⟩

/-- A start for a session that nobody has opened. -/
theorem unknown_start_accepted : ∃ s, Transition.run (Site.step (fun _ _ => none) ⟨[], []⟩) .initial
    [startMessage (asciiBytes "s")] = some s ∧ ¬ s.store.Integrity ∧
      (Site.initial.request (fun _ _ => none) ⟨[], []⟩ (startMessage (asciiBytes "s"))).1 = .ok := by
  refine ⟨_, rfl, fun hint => ?_, by decide +kernel⟩
  have hrow := hint ⟨asciiBytes "s", asciiBytes "pc", asciiBytes "5900", asciiBytes "5901", asciiBytes "12345678"⟩
    (by decide +kernel)
  exact absurd hrow (by decide +kernel)

end AppServer
end LilitunRemote

import LilitunRemote.AppServer.Store
import LilitunRemote.Foundation.QuotedText
import Mathlib.Data.List.TakeWhile

/-! # The statements as SQLite reads them

`desktop.php` pastes the texts of a message between quotes, after `addslashes` has put
backslashes before their quotes. SQLite knows no such escape: in a literal it reads a doubled
quote as one quote, and a backslash as itself. What it does with a text that is none of the
statements below is left open.
-/
namespace LilitunRemote
namespace AppServer
open QuotedText
open CString (isDigit isSpace)

/-! ## The texts of the statements -/

def selectHead : Bytes := asciiBytes "SELECT sessionId FROM Sessions WHERE sessionId="
def insertHead : Bytes :=
  asciiBytes "INSERT INTO Projectors(sessionId, hostname, clientPort, clientIpv6Port, clientPassword, startTime) VALUES("
def deleteHead : Bytes := asciiBytes "DELETE FROM Projectors WHERE sessionId="
def updateHead : Bytes := asciiBytes "UPDATE Sessions SET lastTime="
def whereSession : Bytes := asciiBytes " WHERE sessionId = "
def strftimeNow : Bytes := asciiBytes "strftime('%s', 'now')"
def comma : Bytes := asciiBytes ", "
def closing : Bytes := asciiBytes ")"

def pasted (s : Bytes) : Bytes := between 0x27 s

/-- The text of a statement, with `time()` and with what `lastTime` is set to. -/
def Statement.sql (time lastTime : Bytes) : Statement → Bytes
  | selectSession sessionId => selectHead ++ pasted sessionId
  | insertProjector row =>
    insertHead ++ pasted row.sessionId ++ comma ++ pasted row.hostname ++ comma ++ row.clientPort ++ comma ++
      row.clientIpv6Port ++ comma ++ pasted row.clientPassword ++ comma ++ pasted time ++ closing
  | deleteProjector sessionId => deleteHead ++ pasted sessionId
  | touchSession sessionId => updateHead ++ lastTime ++ whereSession ++ pasted sessionId
  | insertSession row =>
    asciiBytes "INSERT OR IGNORE INTO Sessions(sessionId, userId, appServer, controlServer) VALUES(" ++
      pasted row.sessionId ++ comma ++ pasted row.userId ++ comma ++ pasted row.appServer ++ comma ++
      pasted row.controlServer ++ closing
  | touchUser userId sessionId =>
    updateHead ++ strftimeNow ++ asciiBytes " WHERE userId = " ++ pasted userId ++ asciiBytes " AND sessionId = " ++
      pasted sessionId

structure Digits where
  text : Bytes
  digits : ∀ c ∈ text, isDigit c = true
  nonempty : text ≠ []

/-- The statements that a message runs; the two branches set `lastTime` in different ways. -/
def messageTexts (time : Digits) (data : Json) : List Bytes :=
  let lastTime := if (data.field "requestType").addslashes = some remoteControlStart then time.text else strftimeNow
  (messagePlan data).all.map (Statement.sql time.text lastTime)

/-! ## The tables -/

structure Tables where
  projectors : List ProjectorRow
  sessions : List (SessionRow × Bytes)
  deriving DecidableEq, Repr

/-- Statements with the values of their literals; no time stands for the present one. -/
inductive Query
  | select (sessionId : Bytes)
  | insert (row : ProjectorRow)
  | delete (sessionId : Bytes)
  | touch (sessionId : Bytes) (time : Option Bytes)
  deriving DecidableEq, Repr

def touchRow (sessionId time : Bytes) (entry : SessionRow × Bytes) : SessionRow × Bytes :=
  if entry.1.sessionId = sessionId then (entry.1, time) else entry

/-- A statement on the tables; the session id of a projector is unique. -/
def Query.run (now : Bytes) (t : Tables) : Query → Option Tables
  | select _ => some t
  | insert row =>
    if ∃ other ∈ t.projectors, other.sessionId = row.sessionId then none
    else some { t with projectors := t.projectors ++ [row] }
  | delete sessionId => some { t with projectors := t.projectors.filter (·.sessionId ≠ sessionId) }
  | touch sessionId time => some { t with sessions := t.sessions.map (touchRow sessionId (time.getD now)) }

/-! ## Reading a statement -/

def expect (start text : Bytes) : Option Bytes := if start <+: text then some (text.drop start.length) else none

def readLast (start text : Bytes) : Option Bytes := do
  let (value, rest) ← literal 0x27 (← expect start text)
  if rest = [] then some value else none

def readNumber (text : Bytes) : Option (Bytes × Bytes) :=
  let number := text.takeWhile (· ≠ 0x2c)
  if plainNumber number then some (number, text.dropWhile (· ≠ 0x2c)) else none

def readInsert (text : Bytes) : Option Query := do
  let (sessionId, rest) ← literal 0x27 (← expect insertHead text)
  let (hostname, rest) ← literal 0x27 (← expect comma rest)
  let (port, rest) ← readNumber (← expect comma rest)
  let (ipv6port, rest) ← readNumber (← expect comma rest)
  let (password, rest) ← literal 0x27 (← expect comma rest)
  let (_, rest) ← literal 0x27 (← expect comma rest)
  if rest = closing then some (.insert ⟨sessionId, hostname, port, ipv6port, password⟩) else none

def readTouch (text : Bytes) : Option Query := do
  let rest ← expect updateHead text
  match expect strftimeNow rest with
  | some rest => (readLast whereSession rest).map (.touch · none)
  | none =>
    let time := rest.takeWhile isDigit
    if time = [] then none else (readLast whereSession (rest.dropWhile isDigit)).map (.touch · (some time))

def readQuery (text : Bytes) : Option Query :=
  ((readLast selectHead text).map .select).or <| (readInsert text).or <|
    ((readLast deleteHead text).map .delete).or (readTouch text)

/-- SQLite on the texts of statements; an exception leaves no result. -/
structure Engine where
  exec : Bytes → Tables → Option Tables
  now : Bytes

/-- Statements mean what they say, with literals that only doubled quotes escape. -/
def Engine.LiteralRule (e : Engine) : Prop := ∀ text q, readQuery text = some q → ∀ t, e.exec text t = q.run e.now t

/-- An engine that refuses every other text. -/
def Engine.strict (now : Bytes) : Engine := ⟨fun text t => (readQuery text).bind (Query.run now t), now⟩

def Engine.execAll (e : Engine) (texts : List Bytes) (t : Tables) : Option Tables := texts.foldlM (fun t text => e.exec text t) t

theorem strict_literalRule (now : Bytes) : (Engine.strict now).LiteralRule := by
  intro text q hq t
  simp [Engine.strict, hq]

/-! ## Messages -/

structure StopMessage where
  data : Json
  sessionId : Bytes
  requestType : data.field "requestType" = .text remoteControlStop
  session : data.field "sessionId" = .text sessionId

/-- A message that passes the checks of the start of a session. -/
structure StartMessage where
  data : Json
  row : ProjectorRow
  requestType : data.field "requestType" = .text remoteControlStart
  session : data.field "sessionId" = .text row.sessionId
  hostname : data.field "hostname" = .text row.hostname
  password : data.field "password" = .text row.clientPassword
  port : (data.field "port").numeric = some row.clientPort
  ipv6port : (data.field "ipv6port").numeric = some row.clientIpv6Port
  present : (data.field "port").isTruthy = true ∧ (data.field "ipv6port").isTruthy = true ∧ isTruthy row.clientPassword = true

inductive Message
  | stop (m : StopMessage)
  | start (m : StartMessage)

/-- The row of a stop is deleted and its session gets the present time, and no other row
is affected; a start enters exactly what was submitted. -/
def Message.Exact (time : Digits) (e : Engine) : Message → Prop
  | stop m => ∀ t, e.execAll (messageTexts time m.data) t =
      some ⟨t.projectors.filter (·.sessionId ≠ m.sessionId), t.sessions.map (touchRow m.sessionId e.now)⟩
  | start m => ∀ t : Tables, (∀ row ∈ t.projectors, row.sessionId ≠ m.row.sessionId) →
      ∃ t', e.execAll (messageTexts time m.data) t = some t' ∧ t'.projectors = t.projectors ++ [m.row]

def Unslashed (s : Bytes) : Prop := ∀ c ∈ s, c ≠ 0x27 ∧ c ≠ 0x22 ∧ c ≠ 0x5c ∧ c ≠ 0

def Message.Plain : Message → Prop
  | stop m => Unslashed m.sessionId
  | start m =>
    (Unslashed m.row.sessionId ∧ Unslashed m.row.hostname ∧ Unslashed m.row.clientPassword) ∧
      plainNumber m.row.clientPort = true ∧ plainNumber m.row.clientIpv6Port = true

/-! ## `addslashes` -/

section Slashes
variable {s : Bytes}

theorem addslashes_cons (c : UInt8) (s : Bytes) :
    addslashes (c :: s) =
      (if c = 0x27 ∨ c = 0x22 ∨ c = 0x5c then [0x5c, c] else if c = 0 then [0x5c, 0x30] else [c]) ++ addslashes s := rfl

theorem length_addslashes_le (s : Bytes) : s.length ≤ (addslashes s).length := by
  induction s with
  | nil => exact le_refl 0
  | cons c s ih =>
    rw [addslashes_cons, List.length_append, List.length_cons]
    split
    · simp only [List.length_cons, List.length_nil]
      omega
    · split <;> simp only [List.length_cons, List.length_nil] <;> omega

theorem addslashes_eq_self_iff : addslashes s = s ↔ Unslashed s := by
  induction s with
  | nil => simp [Unslashed, addslashes]
  | cons c s ih =>
    have hle := length_addslashes_le s
    rw [addslashes_cons, Unslashed, List.forall_mem_cons, ← Unslashed, ← ih]
    split
    · next hc =>
      refine iff_of_false (fun h => ?_) (fun h => by tauto)
      have hlength := congrArg List.length h
      simp at hlength
      omega
    · next hc =>
      split
      · next hzero =>
        refine iff_of_false (fun h => ?_) (fun h => h.1.2.2.2 hzero)
        have hlength := congrArg List.length h
        simp at hlength
        omega
      · next hzero =>
        rw [List.singleton_append, List.cons_inj_right]
        tauto

theorem quote_notMem_addslashes (h : 0x27 ∉ s) : 0x27 ∉ addslashes s := by
  induction s with
  | nil => exact h
  | cons c s ih =>
    simp only [List.mem_cons, not_or] at h
    rw [addslashes_cons, List.mem_append, not_or]
    refine ⟨?_, ih h.2⟩
    split
    · simp [h.1]
    · split <;> simp [h.1]

/-- A slashed text begins with a quote only behind its end. -/
theorem head_addslashes {rest : Bytes} (h : (addslashes s ++ rest).head? = some 0x27) : s = [] := by
  cases s with
  | nil => rfl
  | cons c s =>
    rw [addslashes_cons] at h
    split at h
    · simp at h
    · next hc =>
      split at h
      · simp at h
      · simp at h
        exact absurd (Or.inl h) hc

/-- A literal with a pasted text has the text as its value only if the text is pasted as it is:
a quote of the text ends the literal behind a backslash, or joins the closing quote. -/
theorem literal_pasted {rest after : Bytes} (h : literal 0x27 (pasted (addslashes s) ++ rest) = some (s, after)) :
    addslashes s = s ∧ after = rest := by
  have hscan : scan 0x27 (addslashes s ++ 0x27 :: rest) = some (s, after) := by
    simpa [literal, pasted, between] using h
  by_cases hquote : 0x27 ∈ s
  · exfalso
    obtain ⟨u, w, hs, hu⟩ := List.eq_append_cons_of_mem hquote
    have hsplit : addslashes s = (addslashes u ++ [0x5c]) ++ 0x27 :: addslashes w := by
      rw [hs, addslashes, List.flatMap_append]
      simp [addslashes]
    have hfree : 0x27 ∉ addslashes u ++ [0x5c] := by
      simp [quote_notMem_addslashes hu]
    rw [hsplit, List.append_assoc, List.cons_append] at hscan
    rcases scan_cases hfree hscan with ⟨heq, -, -⟩ | ⟨more, rest', hrest, heq⟩
    · exact hfree (heq ▸ hquote)
    · have hw : w = [] := head_addslashes (by rw [hrest]; rfl)
      have hlength := congrArg List.length heq
      have hle := length_addslashes_le u
      rw [hs, hw] at hlength
      simp at hlength
      omega
  · rcases scan_cases (quote_notMem_addslashes hquote) hscan with ⟨heq, hafter, -⟩ | ⟨more, rest', -, heq⟩
    · exact ⟨heq.symm, hafter⟩
    · exact absurd (by rw [heq]; simp) hquote

theorem Unslashed.quote (h : Unslashed s) : 0x27 ∉ s := fun hmem => (h _ hmem).1 rfl

theorem Unslashed.addslashes_eq (h : Unslashed s) : addslashes s = s := addslashes_eq_self_iff.mpr h

end Slashes

/-! ## Reading the four statements -/

section Reading
variable {s text : Bytes}

@[simp] theorem expect_append (start rest : Bytes) : expect start (start ++ rest) = some rest := by
  simp [expect]

/-- Statements with different first bytes are not taken for each other. -/
theorem expect_other {start other : Bytes} {b c : UInt8} (hstart : start.head? = some b) (hother : other.head? = some c)
    (hne : b ≠ c) (rest : Bytes) : expect start (other ++ rest) = none := by
  refine if_neg (fun hprefix => hne ?_)
  obtain ⟨start', rfl⟩ := List.head?_eq_some_iff.mp hstart
  obtain ⟨other', rfl⟩ := List.head?_eq_some_iff.mp hother
  exact (List.cons_prefix_cons.mp hprefix).1

theorem selectHead_head : selectHead.head? = some 0x53 := congrArg List.head? (asciiBytes_ofList _ : selectHead = _)
theorem insertHead_head : insertHead.head? = some 0x49 := congrArg List.head? (asciiBytes_ofList _ : insertHead = _)
theorem deleteHead_head : deleteHead.head? = some 0x44 := congrArg List.head? (asciiBytes_ofList _ : deleteHead = _)
theorem updateHead_head : updateHead.head? = some 0x55 := congrArg List.head? (asciiBytes_ofList _ : updateHead = _)

theorem readLast_other {start : Bytes} (h : expect start text = none) : readLast start text = none := by
  simp [readLast, h]

theorem readInsert_other (h : expect insertHead text = none) : readInsert text = none := by
  rw [readInsert, h]
  exact Option.bind_none _

theorem readTouch_other (h : expect updateHead text = none) : readTouch text = none := by
  simp [readTouch, h]

theorem readQuery_select (rest : Bytes) : readQuery (selectHead ++ rest) = (readLast selectHead (selectHead ++ rest)).map .select := by
  have hinsert := expect_other insertHead_head selectHead_head (by decide) rest
  have hdelete := expect_other deleteHead_head selectHead_head (by decide) rest
  have hupdate := expect_other updateHead_head selectHead_head (by decide) rest
  simp only [readQuery, readInsert_other hinsert, readLast_other hdelete, readTouch_other hupdate, Option.map_none, Option.or_none]

theorem readQuery_insert (rest : Bytes) : readQuery (insertHead ++ rest) = readInsert (insertHead ++ rest) := by
  have hselect := expect_other selectHead_head insertHead_head (by decide) rest
  have hdelete := expect_other deleteHead_head insertHead_head (by decide) rest
  have hupdate := expect_other updateHead_head insertHead_head (by decide) rest
  -- stated of any four readings, so that no statement is read to check it
  have hor : ∀ (select delete : Option Bytes) (insert touch : Option Query), select = none → delete = none → touch = none →
      (select.map Query.select).or (insert.or ((delete.map .delete).or touch)) = insert := by
    rintro _ _ insert _ rfl rfl rfl
    simp
  exact hor _ _ _ _ (readLast_other hselect) (readLast_other hdelete) (readTouch_other hupdate)

theorem readQuery_delete (rest : Bytes) : readQuery (deleteHead ++ rest) = (readLast deleteHead (deleteHead ++ rest)).map .delete := by
  have hselect := expect_other selectHead_head deleteHead_head (by decide) rest
  have hinsert := expect_other insertHead_head deleteHead_head (by decide) rest
  have hupdate := expect_other updateHead_head deleteHead_head (by decide) rest
  simp only [readQuery, readLast_other hselect, readInsert_other hinsert, readTouch_other hupdate, Option.map_none, Option.none_or,
    Option.or_none]

theorem readQuery_touch (rest : Bytes) : readQuery (updateHead ++ rest) = readTouch (updateHead ++ rest) := by
  have hselect := expect_other selectHead_head updateHead_head (by decide) rest
  have hinsert := expect_other insertHead_head updateHead_head (by decide) rest
  have hdelete := expect_other deleteHead_head updateHead_head (by decide) rest
  simp only [readQuery, readLast_other hselect, readInsert_other hinsert, readLast_other hdelete, Option.map_none, Option.none_or]

theorem readLast_pasted (start : Bytes) (h : 0x27 ∉ s) : readLast start (start ++ pasted s) = some s := by
  have hnone : ([] : Bytes).head? ≠ some 0x27 := nofun
  have hliteral := literal_between h hnone
  rw [List.append_nil] at hliteral
  simp [readLast, pasted, hliteral]

/-- A statement that ends with a pasted text is read with the text as it is, or not for it. -/
theorem addslashes_of_readLast (start : Bytes) (h : readLast start (start ++ pasted (addslashes s)) = some s) :
    addslashes s = s := by
  simp only [readLast, expect_append, Option.bind_eq_bind, Option.bind_some, Option.bind_eq_some_iff,
    Option.ite_none_right_eq_some, Option.some.injEq, Prod.exists] at h
  obtain ⟨value, rest, hliteral, -, rfl⟩ := h
  rw [← List.append_nil (pasted (addslashes value))] at hliteral
  exact (literal_pasted hliteral).1

theorem readTouch_now (h : 0x27 ∉ s) :
    readTouch (updateHead ++ (strftimeNow ++ (whereSession ++ pasted s))) = some (.touch s none) := by
  simp [readTouch, readLast_pasted whereSession h]

theorem readTouch_time (time : Digits) (h : 0x27 ∉ s) :
    readTouch (updateHead ++ (time.text ++ (whereSession ++ pasted s))) = some (.touch s (some time.text)) := by
  obtain ⟨d, more, htime⟩ := List.exists_cons_of_ne_nil time.nonempty
  have hstart : strftimeNow.head? = some 0x73 := congrArg List.head? (asciiBytes_ofList _ : strftimeNow = _)
  have hblank : whereSession.head? = some 0x20 := congrArg List.head? (asciiBytes_ofList _ : whereSession = _)
  have hdigit : isDigit d = true := time.digits d (htime ▸ List.mem_cons_self)
  have hne : (0x73 : UInt8) ≠ d := by
    rintro rfl
    exact absurd hdigit (by decide)
  have hother := expect_other hstart (htime ▸ rfl : time.text.head? = some d) hne (whereSession ++ pasted s)
  obtain ⟨wordings, hwhere⟩ := List.head?_eq_some_iff.mp hblank
  have htake : (time.text ++ (whereSession ++ pasted s)).takeWhile isDigit = time.text := by
    rw [List.takeWhile_append_of_pos time.digits, hwhere, List.cons_append, List.takeWhile_cons, if_neg (by decide),
      List.append_nil]
  have hdrop : (time.text ++ (whereSession ++ pasted s)).dropWhile isDigit = whereSession ++ pasted s := by
    rw [List.dropWhile_append_of_pos time.digits, hwhere, List.cons_append, List.dropWhile_cons, if_neg (by decide)]
  simp only [readTouch, expect_append, Option.bind_eq_bind, Option.bind_some, hother, htake, hdrop, if_neg time.nonempty,
    readLast_pasted whereSession h, Option.map_some]

/-- Whatever is read as a change of the times leaves the projectors alone. -/
theorem projectors_of_touch {rest now : Bytes} {t t' : Tables}
    (h : (readQuery (updateHead ++ rest)).bind (Query.run now t) = some t') : t'.projectors = t.projectors := by
  rw [readQuery_touch] at h
  obtain ⟨q, hq, hrun⟩ := Option.bind_eq_some_iff.mp h
  obtain ⟨id, time, rfl⟩ : ∃ id time, q = .touch id time := by
    simp only [readTouch, expect_append, Option.bind_eq_bind, Option.bind_some] at hq
    split at hq
    · obtain ⟨id, -, rfl⟩ := Option.map_eq_some_iff.mp hq
      exact ⟨id, none, rfl⟩
    · split at hq
      · cases hq
      · obtain ⟨id, -, rfl⟩ := Option.map_eq_some_iff.mp hq
        exact ⟨id, _, rfl⟩
  cases hrun
  rfl

/-! ### The inserted row -/

theorem mem_dropWhile {p : UInt8 → Bool} {c : UInt8} (hc : p c = false) (h : c ∈ s) : c ∈ s.dropWhile p := by
  rw [← List.takeWhile_append_dropWhile (p := p) (l := s)] at h
  refine (List.mem_append.mp h).resolve_left (fun hmem => ?_)
  have htrue := List.mem_takeWhile_imp hmem
  rw [hc] at htrue
  cases htrue

/-- Behind a first byte that is not a comma. -/
theorem mem_tail {b c : UInt8} (h : c ∈ s) (hhead : s.head? = some b) (hne : c ≠ b) : c ∈ s.tail := by
  obtain ⟨tail, rfl⟩ := List.head?_eq_some_iff.mp hhead
  exact (List.mem_cons.mp h).resolve_left hne

theorem comma_unsigned (h : isUnsignedNumeral s = true) : 0x2c ∉ s := by
  intro hmem
  have hrest : 0x2c ∈ s.dropWhile isDigit := mem_dropWhile (by decide) hmem
  have hfraction : 0x2c ∈ (if (s.dropWhile isDigit).head? = some 0x2e then (s.dropWhile isDigit).tail.dropWhile isDigit
      else s.dropWhile isDigit) := by
    split
    · next hdot => exact mem_dropWhile (by decide) (mem_tail hrest hdot (by decide))
    · exact hrest
  simp only [isUnsignedNumeral, Bool.and_eq_true] at h
  obtain ⟨-, h⟩ := h
  split at h
  · next hnil =>
    rw [hnil] at hfraction
    cases hfraction
  · next e digits hcons =>
    rw [hcons] at hfraction
    simp only [Bool.and_eq_true, Bool.or_eq_true, decide_eq_true_eq, List.all_eq_true] at h
    obtain ⟨⟨he, -⟩, hdigits⟩ := h
    have hexponent : 0x2c ∈ digits := by
      refine (List.mem_cons.mp hfraction).resolve_left ?_
      rintro rfl
      revert he
      decide
    have hall : 0x2c ∈ (if digits.head? = some 0x2b ∨ digits.head? = some 0x2d then digits.tail else digits) := by
      split
      · next hsign =>
        rcases hsign with hsign | hsign
        · exact mem_tail hexponent hsign (by decide)
        · exact mem_tail hexponent hsign (by decide)
      · exact hexponent
    exact absurd (hdigits _ hall) (by decide)

/-- No number has a comma. -/
theorem comma_notMem (h : plainNumber s = true) : 0x2c ∉ s := by
  intro hmem
  rw [plainNumber, Bool.and_eq_true] at h
  have htrimmed : 0x2c ∈ ((s.dropWhile isSpace).reverse.dropWhile isSpace).reverse :=
    List.mem_reverse.mpr (mem_dropWhile (by decide) (List.mem_reverse.mpr (mem_dropWhile (by decide) hmem)))
  have hnumeral := h.1
  simp only [isNumericText, Bool.or_eq_true, decide_eq_true_eq] at hnumeral
  refine comma_unsigned hnumeral ?_
  split
  · next hsign =>
    rcases hsign with hsign | hsign
    · exact mem_tail htrimmed hsign (by decide)
    · exact mem_tail htrimmed hsign (by decide)
  · exact htrimmed

theorem comma_eq : comma = [0x2c, 0x20] := asciiBytes_ofList _

theorem closing_eq : closing = [0x29] := asciiBytes_ofList _

/-- A text without commas is what stands before the next one. -/
theorem before_comma (h : 0x2c ∉ s) (rest : Bytes) :
    (s ++ (comma ++ rest)).takeWhile (· ≠ 0x2c) = s ∧ (s ++ (comma ++ rest)).dropWhile (· ≠ 0x2c) = comma ++ rest := by
  have hall : ∀ c ∈ s, decide (c ≠ 0x2c) = true := fun c hc => decide_eq_true (fun heq => h (heq ▸ hc))
  rw [List.takeWhile_append_of_pos hall, List.dropWhile_append_of_pos hall, comma_eq]
  simp

theorem readNumber_plain (h : plainNumber s = true) (rest : Bytes) :
    readNumber (s ++ (comma ++ rest)) = some (s, comma ++ rest) := by
  obtain ⟨htake, hdrop⟩ := before_comma (comma_notMem h) rest
  simp only [readNumber, htake, hdrop, h, if_true]

/-- A number that is read as it was pasted is plain, and ends before the comma. -/
theorem plain_of_readNumber {rest after : Bytes} (h : readNumber (s ++ (comma ++ rest)) = some (s, after)) :
    plainNumber s = true ∧ after = comma ++ rest := by
  simp only [readNumber, Option.ite_none_right_eq_some, Option.some.injEq, Prod.mk.injEq] at h
  obtain ⟨hplain, htake, rfl⟩ := h
  rw [htake] at hplain
  exact ⟨hplain, (before_comma (comma_notMem hplain) rest).2⟩

/-- The text behind `VALUES(`. -/
def rowText (time : Digits) (sessionId hostname port ipv6port password : Bytes) : Bytes :=
  pasted sessionId ++ (comma ++ (pasted hostname ++ (comma ++ (port ++ (comma ++ (ipv6port ++ (comma ++
    (pasted password ++ (comma ++ (pasted time.text ++ closing))))))))))

theorem literal_comma (h : 0x27 ∉ s) (rest : Bytes) : literal 0x27 (pasted s ++ (comma ++ rest)) = some (s, comma ++ rest) :=
  literal_between h (by simp [comma_eq])

theorem literal_closing (h : 0x27 ∉ s) : literal 0x27 (pasted s ++ closing) = some (s, closing) :=
  literal_between h (by simp [closing_eq])

theorem Digits.quote (time : Digits) : 0x27 ∉ time.text := fun h => absurd (time.digits _ h) (by decide)

theorem bind_iff {α : Type} {x : Option α} {f : α → Option Query} {P : α → Prop} {q : Query} (h : ∀ a, f a = some q ↔ P a) :
    x >>= f = some q ↔ ∃ a, x = some a ∧ P a :=
  Option.bind_eq_some_iff.trans (exists_congr fun a => and_congr_right fun _ => h a)

theorem bind_pair_iff {α β : Type} {x : Option (α × β)} {f : α × β → Option Query} {P : α → β → Prop} {q : Query}
    (h : ∀ a b, f (a, b) = some q ↔ P a b) : x >>= f = some q ↔ ∃ a b, x = some (a, b) ∧ P a b :=
  Option.bind_eq_some_iff.trans (Prod.exists.trans (exists₂_congr fun a b => and_congr_right fun _ => h a b))

/-- What is read as an insertion, piece by piece. -/
theorem readInsert_eq_some_iff {q : Query} :
    readInsert text = some q ↔
      ∃ r₁, expect insertHead text = some r₁ ∧ ∃ sessionId r₂, literal 0x27 r₁ = some (sessionId, r₂) ∧
        ∃ r₃, expect comma r₂ = some r₃ ∧ ∃ hostname r₄, literal 0x27 r₃ = some (hostname, r₄) ∧
          ∃ r₅, expect comma r₄ = some r₅ ∧ ∃ port r₆, readNumber r₅ = some (port, r₆) ∧
            ∃ r₇, expect comma r₆ = some r₇ ∧ ∃ ipv6port r₈, readNumber r₇ = some (ipv6port, r₈) ∧
              ∃ r₉, expect comma r₈ = some r₉ ∧ ∃ password r₁₀, literal 0x27 r₉ = some (password, r₁₀) ∧
                ∃ r₁₁, expect comma r₁₀ = some r₁₁ ∧ ∃ time r₁₂, literal 0x27 r₁₁ = some (time, r₁₂) ∧
                  r₁₂ = closing ∧ Query.insert ⟨sessionId, hostname, port, ipv6port, password⟩ = q := by
  refine bind_iff fun r₁ => bind_pair_iff fun sessionId r₂ => bind_iff fun r₃ => bind_pair_iff fun hostname r₄ => ?_
  refine bind_iff fun r₅ => bind_pair_iff fun port r₆ => bind_iff fun r₇ => bind_pair_iff fun ipv6port r₈ => ?_
  refine bind_iff fun r₉ => bind_pair_iff fun password r₁₀ => bind_iff fun r₁₁ => bind_pair_iff fun time r₁₂ => ?_
  rw [Option.ite_none_right_eq_some, Option.some.injEq]

theorem readInsert_plain {row : ProjectorRow} (time : Digits)
    (hquotes : 0x27 ∉ row.sessionId ∧ 0x27 ∉ row.hostname ∧ 0x27 ∉ row.clientPassword)
    (hport : plainNumber row.clientPort = true) (hipv6 : plainNumber row.clientIpv6Port = true) :
    readInsert (insertHead ++ rowText time row.sessionId row.hostname row.clientPort row.clientIpv6Port row.clientPassword) =
      some (.insert row) := by
  refine readInsert_eq_some_iff.mpr ⟨_, expect_append insertHead _, _, _, literal_comma hquotes.1 _, _, expect_append comma _, _, _,
    literal_comma hquotes.2.1 _, _, expect_append comma _, _, _, readNumber_plain hport _, _, expect_append comma _, _, _,
    readNumber_plain hipv6 _, _, expect_append comma _, _, _, literal_comma hquotes.2.2 _, _, expect_append comma _, _, _,
    literal_closing time.quote, rfl, rfl⟩

theorem insert_of_readInsert {q : Query} (h : readInsert text = some q) : ∃ row, q = .insert row := by
  obtain ⟨_, -, _, _, -, _, -, _, _, -, _, -, _, _, -, _, -, _, _, -, _, -, _, _, -, _, -, _, _, -, -, rfl⟩ :=
    readInsert_eq_some_iff.mp h
  exact ⟨_, rfl⟩

/-- An inserted row that is the submitted one was pasted as it is. -/
theorem unslashed_of_readInsert {row : ProjectorRow} {time : Digits}
    (h : readInsert (insertHead ++ rowText time (addslashes row.sessionId) (addslashes row.hostname) row.clientPort
      row.clientIpv6Port (addslashes row.clientPassword)) = some (.insert row)) :
    (addslashes row.sessionId = row.sessionId ∧ addslashes row.hostname = row.hostname ∧
      addslashes row.clientPassword = row.clientPassword) ∧
        plainNumber row.clientPort = true ∧ plainNumber row.clientIpv6Port = true := by
  obtain ⟨sessionId, hostname, port, ipv6port, password⟩ := row
  obtain ⟨_, hhead, _, _, hlit, _, hcomma, _, _, hlit', _, hcomma', _, _, hnum, _, hcomma₃, _, _, hnum', _, hcomma₄, _, _, hlit₃, _,
    -, _, -, -, -, hrow⟩ := readInsert_eq_some_iff.mp h
  obtain ⟨rfl, rfl, rfl, rfl, rfl⟩ := by simpa using hrow
  obtain rfl := Option.some.inj ((expect_append insertHead _).symm.trans hhead)
  obtain ⟨hid, rfl⟩ := literal_pasted hlit
  obtain rfl := Option.some.inj ((expect_append comma _).symm.trans hcomma)
  obtain ⟨hhost, rfl⟩ := literal_pasted hlit'
  obtain rfl := Option.some.inj ((expect_append comma _).symm.trans hcomma')
  obtain ⟨hport, rfl⟩ := plain_of_readNumber hnum
  obtain rfl := Option.some.inj ((expect_append comma _).symm.trans hcomma₃)
  obtain ⟨hipv6, rfl⟩ := plain_of_readNumber hnum'
  obtain rfl := Option.some.inj ((expect_append comma _).symm.trans hcomma₄)
  exact ⟨⟨hid, hhost, (literal_pasted hlit₃).1⟩, hport, hipv6⟩

end Reading

/-! ## The messages -/

theorem types_unslashed :
    (Unslashed remoteControlStop ∧ Unslashed remoteControlStart) ∧ remoteControlStop ≠ remoteControlStart := by
  unfold Unslashed
  decide +kernel

theorem StopMessage.texts_eq (m : StopMessage) (time : Digits) :
    messageTexts time m.data =
      [deleteHead ++ pasted (addslashes m.sessionId),
        updateHead ++ (strftimeNow ++ (whereSession ++ pasted (addslashes m.sessionId)))] := by
  have htype : (m.data.field "requestType").addslashes = some remoteControlStop := by
    rw [m.requestType]
    exact congrArg some types_unslashed.1.1.addslashes_eq
  have hother := types_unslashed.2
  have hid : (m.data.field "sessionId").addslashes = some (addslashes m.sessionId) := congrArg Json.addslashes m.session
  simp [messageTexts, messagePlan, htype, hid, hother, stopPlan, Plan.all, Statement.sql]

theorem StartMessage.texts_eq (m : StartMessage) (time : Digits) :
    messageTexts time m.data =
      [selectHead ++ pasted (addslashes m.row.sessionId),
        insertHead ++ rowText time (addslashes m.row.sessionId) (addslashes m.row.hostname) m.row.clientPort
          m.row.clientIpv6Port (addslashes m.row.clientPassword),
        updateHead ++ (time.text ++ (whereSession ++ pasted (addslashes m.row.sessionId)))] := by
  have htype : (m.data.field "requestType").addslashes = some remoteControlStart := by
    rw [m.requestType]
    exact congrArg some types_unslashed.1.2.addslashes_eq
  obtain ⟨hport, hipv6, hpassword⟩ := m.present
  have hset : (m.data.field "password").isTruthy = true := by
    rw [m.password]
    exact hpassword
  have hnonempty : addslashes m.row.clientPassword ≠ [] := by
    intro hnil
    have hle := length_addslashes_le m.row.clientPassword
    rw [hnil, List.length_nil, Nat.le_zero, List.length_eq_zero_iff] at hle
    simp [isTruthy, hle] at hpassword
  have hid : (m.data.field "sessionId").addslashes = some (addslashes m.row.sessionId) := congrArg Json.addslashes m.session
  have hhost : (m.data.field "hostname").addslashes = some (addslashes m.row.hostname) := congrArg Json.addslashes m.hostname
  have hpass : (m.data.field "password").addslashes = some (addslashes m.row.clientPassword) :=
    congrArg Json.addslashes m.password
  simp [messageTexts, messagePlan, startPlan, htype, hport, hipv6, hset, hid, hhost, hpass, m.port, m.ipv6port, hnonempty,
    Plan.all, Statement.sql, rowText]

theorem strict_execAll (now : Bytes) (t : Tables) (texts : List Bytes) :
    (Engine.strict now).execAll texts t = texts.foldlM (fun t text => (readQuery text).bind (Query.run now t)) t := rfl

theorem stop_exact_iff (time : Digits) (m : StopMessage) :
    (∀ e : Engine, e.LiteralRule → (Message.stop m).Exact time e) ↔ Unslashed m.sessionId := by
  rw [← addslashes_eq_self_iff]
  constructor
  · intro h
    let row : ProjectorRow := ⟨m.sessionId, [], [], [], []⟩
    have hrun := h (.strict []) (strict_literalRule []) ⟨[row], []⟩
    simp only [m.texts_eq, strict_execAll, List.foldlM_cons, List.foldlM_nil, Option.bind_eq_bind] at hrun
    obtain ⟨t₁, hdelete, hrun⟩ := Option.bind_eq_some_iff.mp hrun
    obtain ⟨t₂, htouch, hrun⟩ := Option.bind_eq_some_iff.mp hrun
    have hprojectors := projectors_of_touch htouch
    rw [Option.some.inj hrun] at hprojectors
    rw [readQuery_delete] at hdelete
    obtain ⟨q, hq, hrun⟩ := Option.bind_eq_some_iff.mp hdelete
    obtain ⟨v, hv, rfl⟩ := Option.map_eq_some_iff.mp hq
    cases hrun
    have hrow : v = m.sessionId := by
      by_contra hne
      simp [row, Ne.symm hne] at hprojectors
    exact addslashes_of_readLast deleteHead (hrow ▸ hv)
  · intro hslashes e he t
    have hquote := (addslashes_eq_self_iff.mp hslashes).quote
    have hdelete := he _ _ ((readQuery_delete _).trans (congrArg _ (readLast_pasted deleteHead hquote)))
    have htouch := he _ _ ((readQuery_touch _).trans (readTouch_now hquote))
    rw [m.texts_eq, hslashes]
    simp [Engine.execAll, hdelete, htouch, Query.run]

theorem start_exact_iff (time : Digits) (m : StartMessage) :
    (∀ e : Engine, e.LiteralRule → (Message.start m).Exact time e) ↔ (Message.start m).Plain := by
  constructor
  · intro h
    obtain ⟨t', hrun, hrow⟩ := h (.strict []) (strict_literalRule []) ⟨[], []⟩ (by simp)
    simp only [m.texts_eq, strict_execAll, List.foldlM_cons, List.foldlM_nil, Option.bind_eq_bind] at hrun
    obtain ⟨t₁, hselect, hrun⟩ := Option.bind_eq_some_iff.mp hrun
    obtain ⟨t₂, hinsert, hrun⟩ := Option.bind_eq_some_iff.mp hrun
    obtain ⟨t₃, htouch, hrun⟩ := Option.bind_eq_some_iff.mp hrun
    have hprojectors := projectors_of_touch htouch
    rw [Option.some.inj hrun, hrow] at hprojectors
    rw [readQuery_select] at hselect
    obtain ⟨q, hq, hrun⟩ := Option.bind_eq_some_iff.mp hselect
    obtain ⟨v, -, rfl⟩ := Option.map_eq_some_iff.mp hq
    cases hrun
    rw [readQuery_insert] at hinsert
    obtain ⟨q, hq, hrun⟩ := Option.bind_eq_some_iff.mp hinsert
    obtain ⟨row, rfl⟩ := insert_of_readInsert hq
    cases hrun
    obtain rfl : m.row = row := by simpa using hprojectors
    obtain ⟨⟨hid, hhost, hpassword⟩, hports⟩ := unslashed_of_readInsert hq
    exact ⟨⟨addslashes_eq_self_iff.mp hid, addslashes_eq_self_iff.mp hhost, addslashes_eq_self_iff.mp hpassword⟩, hports⟩
  · rintro ⟨⟨hid, hhost, hpassword⟩, hport, hipv6⟩ e he t hfresh
    have hselect := he _ _ ((readQuery_select _).trans (congrArg _ (readLast_pasted selectHead hid.quote)))
    have hinsert := he _ _ ((readQuery_insert _).trans (readInsert_plain time ⟨hid.quote, hhost.quote, hpassword.quote⟩ hport hipv6))
    have htouch := he _ _ ((readQuery_touch _).trans (readTouch_time time hid.quote))
    rw [m.texts_eq, hid.addslashes_eq, hhost.addslashes_eq, hpassword.addslashes_eq]
    have hunique : ¬ ∃ other ∈ t.projectors, other.sessionId = m.row.sessionId := by
      rintro ⟨other, hmem, heq⟩
      exact hfresh other hmem heq
    refine ⟨⟨t.projectors ++ [m.row], t.sessions.map (touchRow m.row.sessionId time.text)⟩, ?_, rfl⟩
    simp only [Engine.execAll, List.foldlM_cons, List.foldlM_nil, hselect, hinsert, htouch, Query.run, if_neg hunique,
      Option.bind_eq_bind, Option.bind_some, Option.getD_some]
    rfl

/-- A message stays data in the statements exactly if `addslashes` leaves its texts as they
are, and its ports are numbers for SQLite, too. -/
theorem message_exact_iff (time : Digits) (m : Message) :
    (∀ e : Engine, e.LiteralRule → m.Exact time e) ↔ m.Plain := by
  cases m with
  | stop m => exact stop_exact_iff time m
  | start m => exact start_exact_iff time m

def backslashId : Bytes := [0x61, 0x5c, 0x62]

/-- A stop for a session id with a backslash. -/
def backslashStop : StopMessage where
  data := .object [(asciiBytes "requestType", .text remoteControlStop), (asciiBytes "sessionId", .text backslashId)]
  sessionId := backslashId
  requestType := by simp +decide [Json.field]
  session := by simp +decide [Json.field]

def noon : Digits := ⟨[0x31, 0x32], by simp [isDigit], by simp⟩

/-- The row of the session stays. -/
theorem backslash_row_stays : ¬ ∀ e : Engine, e.LiteralRule → ∀ time m, Message.Exact time e m := by
  intro h
  have hunslashed : Unslashed backslashId := (stop_exact_iff noon backslashStop).mp (fun e he => h e he noon (.stop backslashStop))
  exact (hunslashed 0x5c (by simp [backslashId])).2.2.1 rfl

end AppServer
end LilitunRemote

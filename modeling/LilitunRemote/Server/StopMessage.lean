import LilitunRemote.Foundation.JsonDecode
import LilitunRemote.Foundation.Records
import LilitunRemote.Foundation.Terminated
import LilitunRemote.Server.Control

/-! # The message that stops the sharing

A request in segments. The head is read byte by byte into 1023 bytes at most, and one read
takes the body from the segment in which it begins.
-/
namespace LilitunRemote
namespace Control
open Projector (cString)
open JsonFields Jsmn RecordReader

def headerReads : ℕ → Crlf → RecordReader UInt8 → Option (Bytes × RecordReader UInt8)
  | 0, _, r => some ([], r)
  | room + 1, (c₀, c₁, c₂), r =>
    match r.read 1 with
    | ([b], r) =>
      if (c₀ = 13 ∧ c₁ = 10 ∧ c₂ = 13 ∧ b = 10) ∨ (c₂ = 10 ∧ b = 10) then some ([b], r)
      else (headerReads room (c₁, c₂, b) r).map fun p => (b :: p.1, p.2)
    | _ => none

/-- What the thread receives of a request in segments: the read of the body finds what is
left of a segment. -/
def Received.ofSegments (segments : List Bytes) : Received where
  bytes := segments.flatten
  arrived :=
    match headerReads 1023 (0, 0, 0) ⟨[], segments⟩ with
    | none => 0
    | some (_, r) => (fetch r.pending r.records).pending.length

structure StopMessage where
  head : Bytes
  post : asciiBytes "POST /?action=message " <+: head
  ended : EmptyLine head
  first : ∀ k < head.length, ¬ EmptyLine (head.take k)
  document : Document
  fits : document.text.length ≤ 1023
  sessionId : Bytes
  hasRequestType : Json.decodedMember document.entries (asciiBytes "requestType") = some (some (asciiBytes "stopSharing"))
  hasSessionId : Json.decodedMember document.entries (asciiBytes "sessionId") = some (some sessionId)
  segments : List Bytes
  nonempty : ∀ s ∈ segments, s ≠ []
  request : segments.flatten = head ++ document.text

namespace StopMessage

def body (m : StopMessage) : Bytes := m.document.text

def received (m : StopMessage) : Received := .ofSegments m.segments

/-- The thread begins to read the body where it begins, parses all of it and nothing else,
and calls `stop_sharing` with the session id, whichever connections there are. -/
structure Honoured (m : StopMessage) : Prop where
  parsed : ∃ req, getHttpHeader m.received.bytes = some (req, m.body) ∧ cString (m.received.body m.body) = m.body
  stops : ∀ conns,
    controlConnectionThread m.received conns = (stopSharing m.sessionId conns).map fun stopped => ⟨some ok, stopped⟩

structure Arrives (m : StopMessage) : Prop where
  short : m.head.length ≤ 1023
  whole : Uncut (startsFrom 0 m.segments) m.head.length m.body.length

/-- The walk over the tokens does not take the last one, and the last tokens that it takes for
the two names have the type and the session id behind them, as they are spelled. -/
structure Told (m : StopMessage) : Prop where
  last : ∀ name ∈ controlNames, ∀ i, i + 1 = m.document.inside.length → ¬ Taken controlNames m.body m.document.inside name i
  requestType : LastValue controlNames m.body m.document.inside (asciiBytes "requestType") (asciiBytes "stopSharing")
  sessionId : LastValue controlNames m.body m.document.inside (asciiBytes "sessionId") m.sessionId

end StopMessage

/-! ## Reads -/

section Reads
variable {room p : ℕ} {crlf : Crlf} {r : RecordReader UInt8} {head rest : Bytes}

theorem headerReads_cons {b : UInt8} {t : RecordReader UInt8} (hread : r.read 1 = ([b], t)) :
    headerReads (room + 1) crlf r =
      if (crlf.1 = 13 ∧ crlf.2.1 = 10 ∧ crlf.2.2 = 13 ∧ b = 10) ∨ (crlf.2.2 = 10 ∧ b = 10) then some ([b], t)
      else (headerReads room (crlf.2.1, crlf.2.2, b) t).map fun p => (b :: p.1, p.2) := by
  obtain ⟨c₀, c₁, c₂⟩ := crlf
  simp only [headerReads, hread]

/-- The reads of one byte see the bytes, however they are cut. -/
theorem headerReads_of_headerFrom (h : headerFrom room crlf r.remaining = some (head, rest)) :
    ∃ t, headerReads room crlf r = some (head, t) ∧ t.remaining = rest ∧
      Later (r.starts p) (p + head.length) (t.starts (p + head.length)) := by
  induction room generalizing crlf r p head with
  | zero =>
    obtain ⟨rfl, rfl⟩ := Prod.mk.inj (Option.some.inj h)
    refine ⟨r, rfl, rfl, fun c => ?_⟩
    exact (and_iff_left_of_imp (fun hc => (Nat.le_add_right p _).trans (le_of_mem_startsFrom hc))).symm
  | succ room ih =>
    cases hrem : r.remaining with
    | nil =>
      rw [hrem] at h
      cases h
    | cons b bytes =>
      obtain ⟨t, hread, hbytes, hlater⟩ := @read_one _ r p b bytes hrem
      rw [hrem, headerFrom_cons] at h
      rw [headerReads_cons hread]
      split at h
      · next hend =>
        obtain ⟨rfl, rfl⟩ := Prod.mk.inj (Option.some.inj h)
        exact ⟨t, by rw [if_pos hend], hbytes, hlater⟩
      · next hend =>
        obtain ⟨⟨more, rest'⟩, hmore, heq⟩ := Option.map_eq_some_iff.mp h
        obtain ⟨rfl, rfl⟩ := Prod.mk.inj heq
        rw [← hbytes] at hmore
        obtain ⟨u, hu, hrest, hlater'⟩ := @ih (p + 1) _ t more hmore
        rw [if_neg hend, hu]
        have hlength : p + (b :: more).length = p + 1 + more.length := by
          rw [List.length_cons]
          omega
        rw [hlength]
        exact ⟨u, rfl, hrest, hlater.trans hlater' (by omega)⟩

end Reads

/-- The body is read as a whole exactly if it is not cut. -/
theorem Received.body_ofSegments {segments : List Bytes} {head body : Bytes} (hne : body ≠ []) (hfits : body.length ≤ 1023)
    (hhead : getHttpHeader segments.flatten = some (head, body)) :
    (Received.ofSegments segments).body body = body ↔ Uncut (startsFrom 0 segments) head.length body.length := by
  have hfrom : headerFrom 1023 (0, 0, 0) (RecordReader.mk [] segments).remaining = some (head, body) := hhead
  obtain ⟨t, hreads, hrem, hlater⟩ := @headerReads_of_headerFrom 1023 0 _ _ _ _ hfrom
  have hread : (Received.ofSegments segments).body body = (t.read 1023).1 := by
    have hfetched := fetch_remaining t.pending t.records
    change _ = t.remaining at hfetched
    have hpending : (fetch t.pending t.records).pending ≠ [] := by
      refine fetch_pending_ne_nil ?_
      change t.remaining ≠ []
      rwa [hrem]
    have hpos := List.length_pos_iff.mpr hpending
    rw [hrem] at hfetched
    simp only [Received.body, Received.ofSegments, hreads, RecordReader.read]
    rw [← hfetched, remaining, Nat.max_eq_left hpos, Nat.min_comm, List.take_append_of_le_length (Nat.min_le_right _ _)]
    simp [← List.take_take]
  have hsame := @uncut_congr (startsFrom 0 segments) (t.starts (0 + head.length)) head.length body.length
    (fun c hc => by
      rw [← hlater.mem_iff (by omega)]
      rfl)
  rw [hread, @read_all_iff _ t (0 + head.length) 1023 body hrem hne hfits, hsame, Nat.zero_add]

/-! ## The body -/

theorem ne_zero_of_isBlank {b : UInt8} (h : Json.isBlank b = true) : b ≠ 0 := by
  rintro rfl
  exact absurd h (by decide)

theorem ne_zero_of_isPrimitiveByte {b : UInt8} (h : Json.isPrimitiveByte b = true) : b ≠ 0 := by
  rintro rfl
  exact absurd h (by decide)

theorem zero_notMem_blank (w : Json.Blank) : 0 ∉ w.text := fun h => ne_zero_of_isBlank (w.blank 0 h) rfl

theorem zero_notMem_item (i : Json.Item) : 0 ∉ i.text := by
  cases i with
  | plain b hb =>
    intro h
    obtain rfl := List.mem_singleton.mp h
    exact absurd hb.1 (by decide)
  | escape b hb =>
    intro h
    obtain rfl : 0 = b := by simpa [Json.Item.text] using h
    exact absurd hb (by decide)
  | unicode a b c d hex =>
    intro h
    have hdigit : (0 : UInt8) ∈ [a, b, c, d] := by simpa [Json.Item.text] using h
    exact absurd (List.all_eq_true.mp hex 0 hdigit) (by decide)

theorem zero_notMem_quoted (s : List Json.Item) : 0 ∉ Json.quoted s := by
  intro h
  have hitems : 0 ∈ Json.stringText s := by simpa [Json.quoted] using h
  obtain ⟨i, _, hi⟩ := List.mem_flatMap.mp hitems
  exact zero_notMem_item i hi

theorem zero_notMem_text {k : Json.Kind} (v : Json.Node k) : 0 ∉ v.text := by
  induction v with
  | string s => exact zero_notMem_quoted s
  | primitive p => exact fun h => ne_zero_of_isPrimitiveByte (p.bytes 0 h) rfl
  | _ => simp_all [Json.Node.text, zero_notMem_blank, zero_notMem_quoted]

theorem zero_notMem_document (d : Document) : 0 ∉ d.text := by
  simp [Document.text, zero_notMem_blank, zero_notMem_text]

theorem document_ne_nil (d : Document) : d.text ≠ [] := by
  cases h : d.inner <;> simp [Document.text, h, objectOf, Json.Node.text]

/-- The fields that the walk leaves are those of the last tokens that it takes. -/
theorem walk_fields_iff {js : Bytes} {ts : List Token} {type id : Bytes} :
    (∃ f, walk controlNames js ts Fields.unset = some f ∧ f (asciiBytes "requestType") = some type ∧
        f (asciiBytes "sessionId") = some id) ↔
      (∀ name ∈ controlNames, ∀ i, i + 1 = ts.length → ¬ Taken controlNames js ts name i) ∧
        LastValue controlNames js ts (asciiBytes "requestType") type ∧ LastValue controlNames js ts (asciiBytes "sessionId") id := by
  constructor
  · rintro ⟨f, hwalk, htype, hid⟩
    have hwalked := walked_of_walk hwalk
    exact ⟨walk_last hwalk, (hwalked.fields _ requestType_mem _).mp htype, (hwalked.fields _ sessionId_mem _).mp hid⟩
  · rintro ⟨hlast, htype, hid⟩
    obtain ⟨f, hwalk⟩ := walk_ends hlast
    have hwalked := walked_of_walk hwalk
    exact ⟨f, hwalk, (hwalked.fields _ requestType_mem _).mpr htype, (hwalked.fields _ sessionId_mem _).mpr hid⟩

theorem stopSharing_single (id id' : Bytes) :
    stopSharing id [some id'] = .ok (if id' = id then some 0 else none) := by
  by_cases h : id' = id
  · simp [stopSharing, strcmp, h]
    rfl
  · simp [stopSharing, strcmp, h]
    rfl

/-- A message is answered by `stop_sharing` with a session id exactly if the walk leaves it,
with the type of the request. -/
theorem answerMessage_stops_iff {d : Document} {id : Bytes} :
    (∀ conns, answerMessage d.text conns = (stopSharing id conns).map fun stopped => ⟨some ok, stopped⟩) ↔
      ∃ f, walk controlNames d.text d.inside Fields.unset = some f ∧
        f (asciiBytes "requestType") = some (asciiBytes "stopSharing") ∧ f (asciiBytes "sessionId") = some id := by
  constructor
  · intro h
    have hone := h [some id]
    rw [stopSharing_single, if_pos rfl, answerMessage, d.extract_text] at hone
    cases hwalk : walk controlNames d.text d.inside Fields.unset with
    | none =>
      rw [hwalk] at hone
      cases hone
    | some f =>
      rw [hwalk] at hone
      dsimp only at hone
      refine ⟨f, rfl, ?_⟩
      cases htype : f (asciiBytes "requestType") with
      | none =>
        rw [htype] at hone
        cases hone
      | some type =>
        cases hid : f (asciiBytes "sessionId") with
        | none =>
          rw [htype, hid] at hone
          cases hone
        | some id' =>
          by_cases hstop : type = asciiBytes "stopSharing"
          · by_cases hsame : id = id'
            · exact ⟨congrArg some hstop, congrArg some hsame.symm⟩
            · simp [htype, hid, hstop, strcmp, stopSharing_single, hsame] at hone
              cases hone
          · simp [htype, hid, hstop, strcmp] at hone
            cases hone
  · rintro ⟨f, hwalk, htype, hid⟩ conns
    rw [answerMessage, d.extract_text, hwalk]
    have hcompare : strcmp (some (asciiBytes "stopSharing")) (asciiBytes "stopSharing") = .ok true :=
      congrArg Except.ok (decide_eq_true rfl)
    simp only [htype, hid, hcompare]
    cases stopSharing id conns <;> rfl

/-! ## The head -/

theorem requestParse_message (more : Bytes) :
    requestParse (asciiBytes "/?action=message " ++ more) (asciiBytes "action") = some (asciiBytes "message") := by
  have hsplit : asciiBytes "/?action=message " = [47] ++ 63 :: (asciiBytes "action=" ++ (asciiBytes "message" ++ [32])) := by
    simp [asciiBytes]
  have hurl : asciiBytes "/?action=message " ++ more =
      [47] ++ 63 :: (asciiBytes "action=" ++ (asciiBytes "message" ++ 32 :: more)) := by
    rw [hsplit]
    simp
  have hnamed : asciiBytes "action" ++ [61] <+: asciiBytes "action=" ++ (asciiBytes "message" ++ 32 :: more) := ⟨_, rfl⟩
  rw [hurl, requestParse, CString.strchr_append (by decide)]
  change requestParseFrom _ (asciiBytes "action=" ++ (asciiBytes "message" ++ 32 :: more)) = _
  rw [requestParseFrom, if_pos (named_iff.mpr hnamed)]
  change some ((asciiBytes "message" ++ 32 :: more).takeWhile isValueByte) = _
  rw [CString.takeWhile_stop (by decide)]
  decide +kernel

namespace StopMessage
variable (m : StopMessage)

theorem bytes_eq : m.received.bytes = m.head ++ m.body := m.request

theorem body_ne_nil : m.body ≠ [] := document_ne_nil m.document

/-- The head of the request is read exactly if it fits. -/
theorem getHttpHeader_body_iff {req : Bytes} :
    getHttpHeader m.received.bytes = some (req, m.body) ↔ req = m.head ∧ m.head.length ≤ 1023 := by
  rw [getHttpHeader_iff]
  constructor
  · intro h
    have hsplit := h.split
    rw [m.bytes_eq, List.append_cancel_right_eq] at hsplit
    subst hsplit
    refine ⟨rfl, ?_⟩
    by_contra hlong
    have hfull : (m.head.take 1023).length = 1023 := by
      rw [List.length_take]
      omega
    exact h.first 1023 (by omega) (Or.inr (Or.inr hfull))
  · rintro ⟨rfl, hshort⟩
    refine ⟨m.bytes_eq, ended_iff.mpr (Or.inl m.ended), fun k hk => ?_⟩
    rw [ended_iff, List.length_take, not_or]
    exact ⟨m.first k hk, by omega⟩

/-- Behind a head that is read the action is the message. -/
theorem thread_eq (hshort : m.head.length ≤ 1023) (conns : List (Option Bytes)) :
    controlConnectionThread m.received conns =
      answerRequest (some (asciiBytes "message")) (m.received.body m.body) conns := by
  have hhead := m.getHttpHeader_body_iff.mpr ⟨rfl, hshort⟩
  obtain ⟨more, hmore⟩ := m.post
  have hpost : asciiBytes "POST " <+: m.head := List.IsPrefix.trans (by decide +kernel) m.post
  have hbehind : cString (m.head.drop 5) = asciiBytes "/?action=message " ++ cString more := by
    have hdrop : (asciiBytes "POST /?action=message ").drop 5 = asciiBytes "/?action=message " := by decide +kernel
    have hnul : 0 ∉ asciiBytes "/?action=message " := by decide +kernel
    have hlength : 5 ≤ (asciiBytes "POST /?action=message ").length := by decide +kernel
    rw [← hmore, List.drop_append_of_le_length hlength, hdrop]
    exact Terminated.takeWhile_append_left hnul more
  rw [controlConnectionThread, hhead]
  dsimp only
  rw [if_pos (strncmp_post.mpr hpost), hbehind, requestParse_message]

theorem cString_body : cString m.body = m.body := Terminated.takeWhile_eq_self (zero_notMem_document m.document)

/-- What is parsed has no zero, and so no byte behind it, if it is the body. -/
theorem cString_received_iff (hshort : m.head.length ≤ 1023) :
    cString (m.received.body m.body) = m.body ↔ Uncut (startsFrom 0 m.segments) m.head.length m.body.length := by
  have hhead := m.getHttpHeader_body_iff.mpr ⟨rfl, hshort⟩
  have hread := @Received.body_ofSegments m.segments m.head m.body m.body_ne_nil m.fits hhead
  rw [← hread]
  constructor
  · intro h
    have hprefix : m.received.body m.body <+: m.body := List.take_prefix _ _
    refine hprefix.eq_of_length_le ?_
    rw [← congrArg List.length h]
    exact (List.takeWhile_sublist _).length_le
  · intro h
    change m.received.body m.body = m.body at h
    rw [h, m.cString_body]

theorem thread_answers (harrives : m.Arrives) (conns : List (Option Bytes)) :
    controlConnectionThread m.received conns = answerMessage m.body conns := by
  have hhead := m.getHttpHeader_body_iff.mpr ⟨rfl, harrives.short⟩
  have hbody : m.received.body m.body = m.body :=
    (@Received.body_ofSegments m.segments m.head m.body m.body_ne_nil m.fits hhead).mpr harrives.whole
  rw [m.thread_eq harrives.short, hbody, answerRequest_message m.body_ne_nil, m.cString_body]

theorem told_iff : m.Told ↔ ∀ conns, answerMessage m.body conns = (stopSharing m.sessionId conns).map fun stopped => ⟨some ok, stopped⟩ := by
  rw [body, answerMessage_stops_iff, walk_fields_iff]
  exact ⟨fun h => ⟨h.last, h.requestType, h.sessionId⟩, fun h => ⟨h.1, h.2.1, h.2.2⟩⟩

theorem Honoured.arrives {m : StopMessage} (h : m.Honoured) : m.Arrives := by
  obtain ⟨req, hhead, hparsed⟩ := h.parsed
  have hshort := (m.getHttpHeader_body_iff.mp hhead).2
  exact ⟨hshort, (m.cString_received_iff hshort).mp hparsed⟩

/-- The message is honoured exactly if it arrives in one piece and the walk is not misled. -/
theorem stop_honoured_iff (m : StopMessage) : m.Honoured ↔ m.Arrives ∧ m.Told := by
  constructor
  · intro h
    refine ⟨h.arrives, m.told_iff.mpr (fun conns => ?_)⟩
    rw [← m.thread_answers h.arrives, h.stops]
  · rintro ⟨harrives, htold⟩
    refine ⟨⟨m.head, m.getHttpHeader_body_iff.mpr ⟨rfl, harrives.short⟩, ?_⟩, fun conns => ?_⟩
    · exact (m.cString_received_iff harrives.short).mpr harrives.whole
    · rw [m.thread_answers harrives, m.told_iff.mp htold]

section Page
variable {m} {key value key' value' : List Json.Item}

/-- A row of two members of strings under the two names leaves both strings. -/
theorem walk_two {js rest : Bytes} {pos : ℕ} (hkey : Json.stringText key = asciiBytes "requestType")
    (hkey' : Json.stringText key' = asciiBytes "sessionId")
    (hjs : js.drop pos = (Json.Node.flat key value [(key', value')]).text ++ rest) :
    ∃ f, walk controlNames js (tokens (Json.Node.flat key value [(key', value')]) pos) Fields.unset = some f ∧
      f (asciiBytes "requestType") = some (Json.stringText value) ∧ f (asciiBytes "sessionId") = some (Json.stringText value') := by
  have hne : asciiBytes "requestType" ≠ asciiBytes "sessionId" := by decide +kernel
  have hnames : ∀ e ∈ [(key, value), (key', value')], KeyFirst controlNames e := by
    intro e he
    rcases List.mem_pair.mp he with rfl | rfl
    · exact Or.inl (hkey ▸ requestType_mem)
    · exact Or.inl (hkey' ▸ sessionId_mem)
  refine ⟨_, walk_flat [(key', value')] Fields.unset hjs hnames, ?_, ?_⟩
  · simp only [List.foldl_cons, List.foldl_nil, setMember, hkey, hkey', requestType_mem, sessionId_mem, if_true]
    rw [Fields.set_of_ne _ hne, Fields.set_self]
  · simp only [List.foldl_cons, List.foldl_nil, setMember, hkey, hkey', requestType_mem, sessionId_mem, if_true]
    rw [Fields.set_self]

/-- The message of the control page does not mislead the walk if its session id is spelled as it is. -/
theorem told_of_flat (hkey : Json.stringText key = asciiBytes "requestType") (hvalue : Json.stringText value = asciiBytes "stopSharing")
    (hkey' : Json.stringText key' = asciiBytes "sessionId") (hvalue' : Json.stringText value' = m.sessionId)
    (hinner : m.document.inner = .inr (Json.Node.flat key value [(key', value')])) : m.Told := by
  have hjs : m.body.drop (m.document.before.text.length + 1) =
      (Json.Node.flat key value [(key', value')]).text ++ 125 :: m.document.after.text := by
    rw [body, Document.text, hinner, ← List.drop_drop, List.drop_left]
    simp [objectOf, Json.Node.text]
  have hinside : m.document.inside = tokens (Json.Node.flat key value [(key', value')]) (m.document.before.text.length + 1) := by
    rw [Document.inside, hinner]
    rfl
  have hwalk := walk_two hkey hkey' hjs
  rw [← hinside, hvalue, hvalue'] at hwalk
  obtain ⟨hlast, htype, hid⟩ := walk_fields_iff.mp hwalk
  exact ⟨hlast, htype, hid⟩

end Page

end StopMessage

/-- The message of the control page. -/
def stopDocument : Document where
  before := .empty
  inner := .inr (Json.plainMembers (asciiBytes "requestType", asciiBytes "stopSharing") [(asciiBytes "sessionId", asciiBytes "a")])
  after := .empty
  fits := by decide +kernel

def cutMessage : StopMessage where
  head := asciiBytes "POST /?action=message HTTP/1.1\r\nContent-Length: 43\r\n\r\n"
  post := by decide +kernel
  ended := by decide +kernel
  first := by decide +kernel
  document := stopDocument
  fits := by decide +kernel
  sessionId := asciiBytes "a"
  hasRequestType := by decide +kernel
  hasSessionId := by decide +kernel
  segments := [asciiBytes "POST /?action=message HTTP/1.1\r\nContent-Length: 43\r\n\r\n", stopDocument.text.take 20, stopDocument.text.drop 20]
  nonempty := by decide +kernel
  request := by decide +kernel

theorem cut_message_refused : ¬ ∀ m : StopMessage, m.Honoured := by
  intro h
  have hwhole := (h cutMessage).arrives.whole
  exact absurd hwhole (by decide +kernel)

end Control
end LilitunRemote

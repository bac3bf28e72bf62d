import LilitunRemote.Foundation.CaseFold
import LilitunRemote.Foundation.Terminated
import LilitunRemote.Projector.Thread
import LilitunRemote.Protocol.Base64Encode
import LilitunRemote.Server.ControlRequest
import LilitunRemote.Transport.WebSocket
import Mathlib.Data.List.Find

/-! # The WebSocket handshake

`http_ws_method_client` and `http_ws_method_server` of `tcp.c`, with the texts of the
request and of the answer and with the searches through a head.
-/
namespace LilitunRemote
namespace Handshake
open CString
open Control (getHttpHeader)
open Projector (cString)
open Base64Encode (encodeFrom)

/-- A read behind the zero of a text, or a store behind the array `field`. -/
inductive Fault
  | behindText | behindField
  deriving DecidableEq, Repr

def joinLines (ls : List Bytes) : Bytes := ls.flatMap (· ++ [13, 10]) ++ [13, 10]

def headerLine (name : String) (value : Bytes) : Bytes := asciiBytes name ++ 58 :: 32 :: value

/-! ## Searches -/

def copyString (dstSize : ℕ) (src : Bytes) : Except Fault Bytes :=
  let size := if src.length > dstSize then dstSize else src.length
  if size < dstSize then .ok (src.take size) else .error .behindField

def isLineEnd (b : UInt8) : Bool := b = 13 || b = 10

/-- What `header_get_field` copies, from the colon's successor on: this byte is skipped
whatever it is. -/
def fieldValue : Bytes → Except Fault Bytes
  | [] => .error .behindText
  | _ :: header => .ok ((header.dropWhile (· = 32)).takeWhile (fun b => !isLineEnd b))

def begins (field header : Bytes) : Bool := strcasestr field header = some 0 && header[field.length]? = some 58

def headerGetFieldFrom (field : Bytes) : ℕ → Bytes → Except Fault (Option Bytes)
  | 0, _ => .ok none
  | fuel + 1, header =>
    if header = [] then .ok none
    else if begins field header then ((fieldValue (header.drop (field.length + 1))).bind (copyString 256)).map some
    else headerGetFieldFrom field fuel ((header.dropWhile (fun b => !isLineEnd b)).dropWhile isLineEnd)

def headerGetField (header field : Bytes) : Except Fault (Option Bytes) := headerGetFieldFrom field header.length header

def headerGetPath (header : Bytes) : Except Fault (Option Bytes) :=
  match strchr header 32 with
  | none => .ok none
  | some tmp =>
    match strchr tmp.tail 32 with
    | none => .ok none
    | some tmp1 => (copyString 256 (tmp.tail.take (tmp.tail.length - tmp1.length))).map some

/-! ## The server -/

def uuid : Bytes := asciiBytes "258EAFA5-E914-47DA-95CA-C5AB0DC85B11"

def appendUuid (field : Bytes) : Except Fault Bytes :=
  if field.length + uuid.length < 256 then .ok (field ++ uuid) else .error .behindField

abbrev Digest := Vector UInt8 20

def replyText (accept : Bytes) : Bytes :=
  joinLines [asciiBytes "HTTP/1.1 101 Switching Protocols", headerLine "Upgrade" (asciiBytes "websocket"),
    headerLine "Connection" (asciiBytes "Upgrade"), headerLine "Sec-WebSocket-Accept" accept,
    headerLine "Sec-WebSocket-Protocol" (asciiBytes "binary")]

def answer (sha1 : Bytes → Digest) (path req : Bytes) : Except Fault (Option Bytes) := do
  match ← headerGetField req (asciiBytes "Upgrade") with
  | none => return none
  | some upgrade =>
    if !strcasecmp upgrade (asciiBytes "websocket") then return none
    match ← headerGetField req (asciiBytes "Connection") with
    | none => return none
    | some connection =>
      if strcasestr (asciiBytes "Upgrade") connection = none then return none
      match ← headerGetPath req with
      | none => return none
      | some target =>
        if target ≠ path then return none
        match ← headerGetField req (asciiBytes "Sec-WebSocket-Key") with
        | none => return none
        | some key => return some ((replyText (encodeFrom 0 (sha1 (← appendUuid key)).toList)).take 1023)

/-- `http_ws_method_server`: what it writes and what it leaves of the stream. -/
def httpWsMethodServer (sha1 : Bytes → Digest) (path stream : Bytes) : Except Fault (Option (Bytes × Bytes)) :=
  match getHttpHeader stream with
  | none => .ok none
  | some (head, rest) => (answer sha1 path (cString head)).map (fun reply => reply.map (·, rest))

/-! ## The client -/

def requestText (path host key : Bytes) : Bytes :=
  joinLines [asciiBytes "GET " ++ path ++ asciiBytes " HTTP/1.1", headerLine "Host" host,
    headerLine "Sec-WebSocket-Version" (asciiBytes "13"), headerLine "Upgrade" (asciiBytes "websocket"),
    headerLine "Connection" (asciiBytes "Upgrade"), headerLine "Sec-WebSocket-Key" key,
    headerLine "Sec-WebSocket-Protocol" (asciiBytes "binary")]

/-- What `http_ws_method_client` writes, with the 16 random bytes. -/
def clientRequest (path : Option Bytes) (host : Bytes) (random : Vector UInt8 16) : Bytes :=
  (requestText (path.getD [47]) host (encodeFrom 0 random.toList)).take 1023

/-- Its answer from the server: what is left of the stream if it is taken for a switch. -/
def clientReads (stream : Bytes) : Option Bytes :=
  match getHttpHeader stream with
  | none => none
  | some (head, rest) =>
    let reply := asciiBytes "HTTP/1.1 101 Switching Protocols"
    if strncasecmp (cString head) reply reply.length then some rest else none

/-! ## Heads made of lines -/

def Plain (s : Bytes) : Prop := ∀ b ∈ s, b ≠ 0 ∧ isLineEnd b = false

instance (s : Bytes) : Decidable (Plain s) := List.decidableBAll (fun b : UInt8 => b ≠ 0 ∧ isLineEnd b = false) s

theorem isLineEnd_eq_false {b : UInt8} (h : isLineEnd b = false) : b ≠ 13 ∧ b ≠ 10 := by
  rwa [isLineEnd, Bool.or_eq_false_iff, decide_eq_false_iff_not, decide_eq_false_iff_not] at h

theorem Plain.append {s t : Bytes} (hs : Plain s) (ht : Plain t) : Plain (s ++ t) := List.forall_mem_append.mpr ⟨hs, ht⟩

theorem Plain.cons {b : UInt8} {s : Bytes} (hb : b ≠ 0 ∧ isLineEnd b = false) (hs : Plain s) : Plain (b :: s) :=
  List.forall_mem_cons.mpr ⟨hb, hs⟩

def PlainLines (ls : List Bytes) : Prop := ∀ l ∈ ls, l ≠ [] ∧ Plain l

section Read
variable {l rest : Bytes} {ls : List Bytes} {room : ℕ}

theorem headerFrom_inside (room : ℕ) (crlf : Control.Crlf) {b : UInt8} (hb : b ≠ 10) (bytes : Bytes) :
    Control.headerFrom (room + 1) crlf (b :: bytes) =
      (Control.headerFrom room (crlf.2.1, crlf.2.2, b) bytes).map fun r => (b :: r.1, r.2) := by
  rw [Control.headerFrom_cons, if_neg (by simp [hb])]

/-- A line is read to its end, with what follows it. -/
theorem headerFrom_line (hplain : Plain l) (hne : l ≠ []) (crlf : Control.Crlf) (room : ℕ) (rest : Bytes) :
    ∃ c, Control.headerFrom (l.length + 2 + room) crlf (l ++ 13 :: 10 :: rest) =
      (Control.headerFrom room (c, 13, 10) rest).map fun r => (l ++ 13 :: 10 :: r.1, r.2) := by
  induction l generalizing crlf with
  | nil => exact absurd rfl hne
  | cons b l ih =>
    obtain ⟨hb, hplain⟩ := List.forall_mem_cons.mp hplain
    obtain ⟨_, hb⟩ := isLineEnd_eq_false hb.2
    have hlength : (b :: l).length + 2 + room = l.length + 2 + room + 1 := by
      rw [List.length_cons]
      omega
    rw [hlength, List.cons_append, headerFrom_inside _ _ hb]
    by_cases hl : l = []
    · subst hl
      have hsecond : (2 : ℕ) + room = room + 1 + 1 := by omega
      refine ⟨b, ?_⟩
      rw [List.length_nil, Nat.zero_add, List.nil_append, hsecond, headerFrom_inside _ _ (by decide), Control.headerFrom_cons,
        if_neg (by simp [hb])]
      simp [Option.map_map, Function.comp_def]
    · obtain ⟨c, hrest⟩ := ih hplain hl (crlf.2.1, crlf.2.2, b)
      refine ⟨c, ?_⟩
      rw [hrest]
      simp [Option.map_map, Function.comp_def]

theorem joinLines_cons (l : Bytes) (ls : List Bytes) : joinLines (l :: ls) = l ++ 13 :: 10 :: joinLines ls := by
  simp [joinLines]

/-- Behind the end of a line the lines of a head are read up to the empty one. -/
theorem headerFrom_lines (hls : PlainLines ls) {c : UInt8} (hroom : (joinLines ls).length ≤ room) (rest : Bytes) :
    Control.headerFrom room (c, 13, 10) (joinLines ls ++ rest) = some (joinLines ls, rest) := by
  induction ls generalizing room c with
  | nil =>
    obtain ⟨room, rfl⟩ := Nat.exists_eq_add_of_le hroom
    have hlength : (joinLines []).length + room = room + 1 + 1 := Nat.add_comm _ _
    rw [hlength]
    change Control.headerFrom (room + 1 + 1) (c, 13, 10) (13 :: 10 :: rest) = _
    rw [headerFrom_inside _ _ (by decide), Control.headerFrom_cons, if_pos (by simp)]
    rfl
  | cons l ls ih =>
    obtain ⟨⟨hne, hplain⟩, hls⟩ := List.forall_mem_cons.mp hls
    rw [joinLines_cons, List.length_append, List.length_cons, List.length_cons] at hroom
    obtain ⟨spare, rfl⟩ := Nat.exists_eq_add_of_le hroom
    have hlength : l.length + ((joinLines ls).length + 1 + 1) + spare = l.length + 2 + ((joinLines ls).length + spare) := by omega
    obtain ⟨c', hline⟩ := headerFrom_line hplain hne (c, 13, 10) ((joinLines ls).length + spare) (joinLines ls ++ rest)
    rw [joinLines_cons, List.append_assoc, List.cons_append, List.cons_append, hlength, hline, ih hls (Nat.le_add_right _ _)]
    rfl

/-- `get_http_header` takes a head that fits, and nothing behind it. -/
theorem getHttpHeader_lines (hls : PlainLines (l :: ls)) (hfits : (joinLines (l :: ls)).length ≤ 1023) (rest : Bytes) :
    getHttpHeader (joinLines (l :: ls) ++ rest) = some (joinLines (l :: ls), rest) := by
  obtain ⟨⟨hne, hplain⟩, hls⟩ := List.forall_mem_cons.mp hls
  rw [joinLines_cons, List.length_append, List.length_cons, List.length_cons] at hfits
  obtain ⟨spare, hspare⟩ := Nat.exists_eq_add_of_le hfits
  have hlength : 1023 = l.length + 2 + ((joinLines ls).length + spare) := by omega
  obtain ⟨c, hline⟩ := headerFrom_line hplain hne (0, 0, 0) ((joinLines ls).length + spare) (joinLines ls ++ rest)
  rw [joinLines_cons, List.append_assoc, List.cons_append, List.cons_append, getHttpHeader, hlength, hline,
    headerFrom_lines hls (Nat.le_add_right _ _)]
  rfl

theorem cString_joinLines (hls : PlainLines ls) : cString (joinLines ls) = joinLines ls := by
  refine Terminated.takeWhile_eq_self ?_
  simp only [joinLines, List.mem_append, List.mem_flatMap, not_or, not_exists, not_and]
  refine ⟨fun l hl => ⟨fun h => ((hls l hl).2 0 h).1 rfl, by decide⟩, by decide⟩

end Read

/-! ## A search by lines -/

/-- What a name is made of when it is looked for. -/
structure Word (s : Bytes) : Prop where
  plain : Plain s
  noSpace : 32 ∉ s
  noColon : 58 ∉ s

section Search
variable {field l w rest : Bytes} {ls : List Bytes} {c : UInt8}

theorem begins_iff {header : Bytes} : begins field header = true ↔ lower field <+: lower header ∧ header[field.length]? = some 58 := by
  simp [begins, strcasestr_eq_zero_iff]

/-- The first byte of a line that no name has decides whether the line begins with a name. -/
theorem begins_separated (hc : c.toNat < 65) (hfield : c ∉ field ∧ 58 ∉ field) (hw : 58 ∉ w) (rest : Bytes) :
    begins field (w ++ c :: rest) = true ↔ c = 58 ∧ lower field = lower w := by
  rw [begins_iff]
  constructor
  · rintro ⟨hbegins, hcolon⟩
    rcases Nat.lt_trichotomy field.length w.length with hlt | heq | hgt
    · rw [List.getElem?_append_left hlt] at hcolon
      exact absurd (List.mem_of_getElem? hcolon) hw
    · rw [heq, List.getElem?_append_right (Nat.le_refl _), Nat.sub_self, List.getElem?_cons_zero] at hcolon
      have hword : lower field <+: lower w := by
        rw [lower_append] at hbegins
        exact List.prefix_of_prefix_length_le hbegins (List.prefix_append _ _) (by simp [heq])
      exact ⟨Option.some.inj hcolon, hword.eq_of_length (by simp [heq])⟩
    · -- the byte behind the word is among those of the name
      have hmem : c ∈ lower field := by
        have hat : (lower (w ++ c :: rest))[w.length]? = some (toLower c) := by simp [lower]
        have hself : toLower c = c := (toLower_eq_iff hc c).mpr rfl
        obtain ⟨more, hmore⟩ := hbegins
        rw [hself, ← hmore, List.getElem?_append_left (by simpa using hgt)] at hat
        exact List.mem_of_getElem? hat
      exact absurd ((mem_lower_iff hc).mp hmem) hfield.1
  · rintro ⟨rfl, heq⟩
    have hlength : field.length = w.length := by
      have h := congrArg List.length heq
      simpa using h
    refine ⟨?_, by simp [hlength]⟩
    rw [lower_append, heq]
    exact List.prefix_append _ _

/-- The end of the line is not looked at. -/
theorem begins_line (hfield : Word field) (rest : Bytes) : begins field (l ++ 13 :: rest) = begins field l := by
  have h13 : 13 ∉ lower field := by
    rw [mem_lower_iff (by decide)]
    exact fun h => absurd (hfield.plain 13 h).2 (by decide)
  rw [Bool.eq_iff_iff, begins_iff, begins_iff, lower_append, lower_cons]
  have hstop : toLower 13 = 13 := by decide
  rw [hstop, prefix_before h13]
  refine and_congr_right (fun hbegins => ?_)
  have hle := hbegins.length_le
  rw [lower_length, lower_length] at hle
  rcases hle.lt_or_eq with hlt | heq
  · rw [List.getElem?_append_left hlt]
  · simp [heq]

theorem Plain.all_inside (hl : Plain l) : ∀ b ∈ l, (fun b => !isLineEnd b) b = true := fun b hb => by simp [(hl b hb).2]

/-- The search goes on with the next line. -/
theorem nextLine (hl : Plain l) (hls : PlainLines ls) :
    (((l ++ 13 :: 10 :: joinLines ls).dropWhile (fun b => !isLineEnd b)).dropWhile isLineEnd) =
      if ls = [] then [] else joinLines ls := by
  rw [List.dropWhile_append_of_pos hl.all_inside]
  cases ls with
  | nil => rfl
  | cons l' ls =>
    obtain ⟨⟨hne, hplain⟩, _⟩ := List.forall_mem_cons.mp hls
    obtain ⟨b, l', rfl⟩ := List.exists_cons_of_ne_nil hne
    have hb := (hplain b List.mem_cons_self).2
    rw [joinLines_cons]
    simp [List.dropWhile_cons, isLineEnd] at hb ⊢
    simp [hb]

/-- The value of a line: the text behind the byte after the colon, without spaces before it. -/
def valueOf (field l : Bytes) : Bytes := (l.drop (field.length + 2)).dropWhile (· = 32)

theorem fieldValue_line (hbegins : begins field l = true) (hl : Plain l) (rest : Bytes) :
    fieldValue ((l ++ 13 :: 10 :: rest).drop (field.length + 1)) = .ok (valueOf field l) := by
  have hlength : field.length < l.length := (List.getElem?_eq_some_iff.mp (begins_iff.mp hbegins).2).1
  have hvalue : ∀ v : Bytes, Plain v →
      (((v ++ 13 :: 10 :: rest).dropWhile (· = 32)).takeWhile (fun b => !isLineEnd b)) = v.dropWhile (· = 32) := by
    intro v hv
    rw [List.dropWhile_append]
    split
    · next hspaces =>
      rw [List.isEmpty_iff] at hspaces
      rw [hspaces]
      rfl
    · rw [takeWhile_stop (by decide), List.takeWhile_eq_self_iff]
      intro b hb
      exact hv.all_inside b ((List.dropWhile_sublist _).mem hb)
  have hdrop : Plain (l.drop (field.length + 2)) := fun b hb => hl b (List.mem_of_mem_drop hb)
  rw [List.drop_append_of_le_length hlength]
  cases hbehind : l.drop (field.length + 1) with
  | nil =>
    have hnone : valueOf field l = [] := by
      rw [valueOf, ← List.drop_drop (j := field.length + 1) (i := 1), hbehind]
      rfl
    rw [hnone]
    rfl
  | cons b v =>
    have hv : v = l.drop (field.length + 2) := by
      rw [← List.drop_drop (j := field.length + 1) (i := 1), hbehind]
      rfl
    rw [List.cons_append, fieldValue, valueOf, ← hv, hvalue v (hv ▸ hdrop)]

/-- `header_get_field` finds the first line that begins with the name. -/
theorem headerGetField_lines (hfield : Word field) (hls : PlainLines ls) (hne : ls ≠ []) :
    headerGetField (joinLines ls) field =
      match ls.find? (begins field) with
      | none => .ok none
      | some l => (copyString 256 (valueOf field l)).map some := by
  suffices hall : ∀ fuel, (joinLines ls).length ≤ fuel → headerGetFieldFrom field fuel (joinLines ls) =
      match ls.find? (begins field) with
      | none => .ok none
      | some l => (copyString 256 (valueOf field l)).map some from hall _ (Nat.le_refl _)
  intro fuel hfuel
  induction ls generalizing fuel with
  | nil => exact absurd rfl hne
  | cons l ls ih =>
    obtain ⟨⟨hl, hplain⟩, hls⟩ := List.forall_mem_cons.mp hls
    rw [joinLines_cons, List.length_append, List.length_cons, List.length_cons] at hfuel
    obtain ⟨fuel, rfl⟩ := Nat.exists_eq_add_one.mpr (by omega : 0 < fuel)
    rw [joinLines_cons, headerGetFieldFrom, if_neg (by simp [hl]), begins_line hfield, List.find?_cons]
    cases hbegins : begins field l with
    | true =>
      rw [if_pos rfl, fieldValue_line hbegins hplain]
      rfl
    | false =>
      rw [if_neg (by simp), nextLine hplain hls]
      by_cases hnil : ls = []
      · rw [if_pos hnil, hnil]
        cases fuel <;> rfl
      · rw [if_neg hnil]
        exact ih hls hnil fuel (by omega)

end Search

/-! ## Requests -/

/-- The head of a request by its parts: any fields in any order, each written with a blank
behind its colon. -/
structure Head where
  method : Bytes
  target : Bytes
  version : Bytes
  fields : List (Bytes × Bytes)
  method_word : Word method
  target_plain : Plain target ∧ 32 ∉ target
  version_plain : Plain version
  fields_plain : ∀ f ∈ fields, Plain f.1 ∧ 58 ∉ f.1 ∧ Plain f.2

namespace Head

def requestLine (h : Head) : Bytes := h.method ++ 32 :: (h.target ++ 32 :: h.version)

def fieldLine (f : Bytes × Bytes) : Bytes := f.1 ++ 58 :: 32 :: f.2

def text (h : Head) : Bytes := joinLines (h.requestLine :: h.fields.map fieldLine)

def find (h : Head) (name : Bytes) : Option Bytes :=
  (h.fields.find? (fun f => strcasecmp name f.1)).map fun f => f.2.dropWhile (· = 32)

def AsksUpgrade (h : Head) : Prop :=
  ∃ v, h.find (asciiBytes "Upgrade") = some v ∧ strcasecmp v (asciiBytes "websocket") = true

def Connects (h : Head) : Prop :=
  ∃ v, h.find (asciiBytes "Connection") = some v ∧ strcasestr (asciiBytes "Upgrade") v ≠ none ∧ v.length < 256

/-- A request for a switch at a path, with its key, in which the array of 256 bytes holds
every value that is looked for. -/
structure Switches (h : Head) (path key : Bytes) : Prop where
  upgrade : h.AsksUpgrade
  connection : h.Connects
  target : h.target = path ∧ path.length < 256
  key : h.find (asciiBytes "Sec-WebSocket-Key") = some key ∧ key.length < 220

variable (h : Head)

theorem plain_lines : PlainLines (h.requestLine :: h.fields.map fieldLine) := by
  have hspace : (32 : UInt8) ≠ 0 ∧ isLineEnd 32 = false := by decide
  have hcolon : (58 : UInt8) ≠ 0 ∧ isLineEnd 58 = false := by decide
  refine List.forall_mem_cons.mpr ⟨⟨by simp [requestLine], ?_⟩, List.forall_mem_map.mpr (fun f hf => ⟨by simp [fieldLine], ?_⟩)⟩
  · exact h.method_word.plain.append (Plain.cons hspace (h.target_plain.1.append (Plain.cons hspace h.version_plain)))
  · obtain ⟨hname, -, hvalue⟩ := h.fields_plain f hf
    exact hname.append (Plain.cons hcolon (Plain.cons hspace hvalue))

/-- The search through the text finds the field. -/
theorem headerGetField_text {name : Bytes} (hname : Word name) :
    headerGetField h.text name =
      match h.find name with
      | none => .ok none
      | some v => (copyString 256 v).map some := by
  have hfirst : begins name h.requestLine = false := by
    rw [Bool.eq_false_iff]
    intro hbegins
    obtain ⟨hspace, -⟩ := (begins_separated (by decide) ⟨hname.noSpace, hname.noColon⟩ h.method_word.noColon _).mp hbegins
    exact absurd hspace (by decide)
  have hfields : ∀ f ∈ h.fields, begins name (fieldLine f) = strcasecmp name f.1 := by
    intro f hf
    rw [Bool.eq_iff_iff, fieldLine,
      begins_separated (by decide) ⟨hname.noColon, hname.noColon⟩ (h.fields_plain f hf).2.1, strcasecmp_iff, and_iff_right rfl]
  have hvalue : ∀ f ∈ h.fields, strcasecmp name f.1 = true → valueOf name (fieldLine f) = f.2.dropWhile (· = 32) := by
    intro f _ hname
    have hlength := congrArg List.length (strcasecmp_iff.mp hname)
    rw [lower_length, lower_length] at hlength
    rw [valueOf, fieldLine, hlength, ← List.drop_drop (j := f.1.length) (i := 2), List.drop_left]
    rfl
  rw [text, headerGetField_lines hname h.plain_lines (by simp), List.find?_cons, hfirst, find, List.find?_map]
  have hsearch : h.fields.find? (begins name ∘ fieldLine) = h.fields.find? (fun f => strcasecmp name f.1) :=
    List.find?_congr hfields
  rw [hsearch]
  cases hfound : h.fields.find? (fun f => strcasecmp name f.1) with
  | none => rfl
  | some f =>
    have hmatch := List.find?_some hfound
    simp only [Option.map_some]
    rw [hvalue f (List.mem_of_find?_eq_some hfound) hmatch]

theorem headerGetPath_text : headerGetPath h.text = (copyString 256 h.target).map some := by
  have htext : h.text = h.method ++ 32 :: (h.target ++ 32 :: (h.version ++ 13 :: 10 :: joinLines (h.fields.map fieldLine))) := by
    rw [text, joinLines_cons, requestLine]
    simp
  rw [headerGetPath, htext, strchr_append h.method_word.noSpace]
  simp only [List.tail_cons]
  rw [strchr_append h.target_plain.2]
  simp

theorem upgrade_word : Word (asciiBytes "Upgrade") := ⟨by decide +kernel, by decide +kernel, by decide +kernel⟩

theorem connection_word : Word (asciiBytes "Connection") := ⟨by decide +kernel, by decide +kernel, by decide +kernel⟩

theorem key_word : Word (asciiBytes "Sec-WebSocket-Key") := ⟨by decide +kernel, by decide +kernel, by decide +kernel⟩

/-- What `http_ws_method_server` writes for a key. -/
def reply (sha1 : Bytes → Digest) (key : Bytes) : Bytes := replyText (Base64.encode (sha1 (key ++ uuid)).toList)

theorem copyString_eq (dstSize : ℕ) (src : Bytes) :
    copyString dstSize src = if src.length < dstSize then .ok src else .error .behindField := by
  rw [copyString]
  rcases Nat.lt_or_ge src.length dstSize with hfits | hlong
  · have hsize : (if src.length > dstSize then dstSize else src.length) = src.length := if_neg (by omega)
    simp [hsize, hfits]
  · have hsize : (if src.length > dstSize then dstSize else src.length) = dstSize := by split <;> omega
    simp [hsize, Nat.not_lt.mpr hlong]

theorem appendUuid_eq (key : Bytes) : appendUuid key = if key.length < 220 then .ok (key ++ uuid) else .error .behindField := by
  have hlength : uuid.length = 36 := by decide +kernel
  rw [appendUuid, hlength]
  split <;> split <;> first | rfl | omega

theorem replyText_length (accept : Bytes) : (replyText accept).length = 133 + accept.length := by
  have hfixed : (replyText []).length = 133 := by decide +kernel
  rw [← hfixed]
  simp only [replyText, joinLines, headerLine, List.flatMap_cons, List.flatMap_nil, List.length_append, List.length_cons, List.length_nil]
  omega

variable {h} {path text : Bytes}

theorem headerGetField_iff {name v : Bytes} (hname : Word name) :
    headerGetField h.text name = .ok (some v) ↔ h.find name = some v ∧ v.length < 256 := by
  rw [h.headerGetField_text hname]
  cases h.find name with
  | none => simp
  | some w =>
    simp only [copyString_eq, Option.some.injEq]
    split
    · next hfits =>
      simp only [Except.map, Except.ok.injEq, Option.some.injEq]
      exact ⟨fun heq => ⟨heq, heq ▸ hfits⟩, fun heq => heq.1⟩
    · next hlong =>
      simp only [Except.map, reduceCtorEq, false_iff, not_and]
      exact fun heq hfits => hlong (heq ▸ hfits)

theorem headerGetPath_iff {v : Bytes} : headerGetPath h.text = .ok (some v) ↔ h.target = v ∧ v.length < 256 := by
  rw [h.headerGetPath_text, copyString_eq]
  split
  · next hfits =>
    simp only [Except.map, Except.ok.injEq, Option.some.injEq]
    exact ⟨fun heq => ⟨heq, heq ▸ hfits⟩, fun heq => heq.1⟩
  · next hlong =>
    simp only [Except.map, reduceCtorEq, false_iff, not_and]
    exact fun heq hfits => hlong (heq ▸ hfits)

theorem bind_eq_ok_iff {α β : Type} {x : Except Fault α} {f : α → Except Fault β} {b : β} :
    (x >>= f) = .ok b ↔ ∃ a, x = .ok a ∧ f a = .ok b := by
  cases x <;> simp [bind, Except.bind]

theorem appendUuid_iff {key field : Bytes} : appendUuid key = .ok field ↔ key.length < 220 ∧ field = key ++ uuid := by
  rw [appendUuid_eq]
  split <;> simp [*, eq_comm]

theorem bind_eq_error_iff {α β : Type} {x : Except Fault α} {f : α → Except Fault β} {e : Fault} :
    (x >>= f) = .error e ↔ x = .error e ∨ ∃ a, x = .ok a ∧ f a = .error e := by
  cases x <;> simp [bind, Except.bind]

theorem headerGetField_error_iff {name : Bytes} {e : Fault} (hname : Word name) :
    headerGetField h.text name = .error e ↔ e = .behindField ∧ ∃ v, h.find name = some v ∧ 256 ≤ v.length := by
  rw [h.headerGetField_text hname]
  cases h.find name with
  | none => simp
  | some v =>
    simp only [copyString_eq, Option.some.injEq, exists_eq_left']
    split
    · next hfits => simp [Except.map, Nat.not_le.mpr hfits]
    · next hlong => simp [Except.map, Nat.not_lt.mp hlong, eq_comm]

theorem headerGetPath_error_iff {e : Fault} : headerGetPath h.text = .error e ↔ e = .behindField ∧ 256 ≤ h.target.length := by
  rw [h.headerGetPath_text, copyString_eq]
  split
  · next hfits => simp [Except.map, Nat.not_le.mpr hfits]
  · next hlong => simp [Except.map, Nat.not_lt.mp hlong, eq_comm]

theorem appendUuid_error_iff {key : Bytes} {e : Fault} : appendUuid key = .error e ↔ e = .behindField ∧ 220 ≤ key.length := by
  rw [appendUuid_eq]
  split
  · next hfits => simp [Nat.not_le.mpr hfits]
  · next hlong => simp [Nat.not_lt.mp hlong, eq_comm]

theorem AsksUpgrade.found (hasks : h.AsksUpgrade) : ∃ v, headerGetField h.text (asciiBytes "Upgrade") = .ok (some v) ∧
    strcasecmp v (asciiBytes "websocket") = true := by
  obtain ⟨v, hfound, hsocket⟩ := hasks
  have hlength := congrArg List.length (strcasecmp_iff.mp hsocket)
  have hnine : (asciiBytes "websocket").length < 256 := by decide +kernel
  rw [lower_length, lower_length] at hlength
  exact ⟨v, (headerGetField_iff upgrade_word).mpr ⟨hfound, by omega⟩, hsocket⟩

theorem Connects.found (hconnects : h.Connects) : ∃ v, headerGetField h.text (asciiBytes "Connection") = .ok (some v) ∧
    strcasestr (asciiBytes "Upgrade") v ≠ none := by
  obtain ⟨v, hfound, hcontains, hshort⟩ := hconnects
  exact ⟨v, (headerGetField_iff connection_word).mpr ⟨hfound, hshort⟩, hcontains⟩

theorem answer_iff (sha1 : Bytes → Digest) :
    answer sha1 path h.text = .ok (some text) ↔ ∃ key, h.Switches path key ∧ text = reply sha1 key := by
  have hreply : ∀ key, (replyText (encodeFrom 0 (sha1 (key ++ uuid)).toList)).take 1023 = reply sha1 key := by
    intro key
    have hdigest : (sha1 (key ++ uuid)).toList.length = 20 := Vector.length_toList
    rw [Base64Encode.encodeFrom_short (by omega), reply, List.take_of_length_le]
    rw [replyText_length, Base64.length_encode, hdigest]
    decide
  constructor
  · intro hanswer
    obtain ⟨_ | upgrade, hupgrade, hanswer⟩ := bind_eq_ok_iff.mp hanswer
    · cases hanswer
    simp only at hanswer
    split at hanswer
    · cases hanswer
    next hsocket =>
    obtain ⟨_ | connection, hconnection, hanswer⟩ := bind_eq_ok_iff.mp hanswer
    · cases hanswer
    simp only at hanswer
    split at hanswer
    · cases hanswer
    next hcontains =>
    obtain ⟨_ | target, htarget, hanswer⟩ := bind_eq_ok_iff.mp hanswer
    · cases hanswer
    simp only at hanswer
    split at hanswer
    · cases hanswer
    next hpath =>
    obtain ⟨_ | key, hkey, hanswer⟩ := bind_eq_ok_iff.mp hanswer
    · cases hanswer
    obtain ⟨field, hfield, hdone⟩ := bind_eq_ok_iff.mp hanswer
    obtain ⟨hshort, rfl⟩ := appendUuid_iff.mp hfield
    rw [headerGetField_iff upgrade_word] at hupgrade
    rw [headerGetField_iff connection_word] at hconnection
    rw [headerGetField_iff key_word] at hkey
    rw [headerGetPath_iff] at htarget
    obtain rfl : target = path := not_not.mp hpath
    refine ⟨key, ⟨⟨upgrade, hupgrade.1, by simpa using hsocket⟩, ⟨connection, hconnection.1, hcontains, hconnection.2⟩,
      htarget, ⟨hkey.1, hshort⟩⟩, ?_⟩
    rw [← hreply]
    exact (Option.some.inj (Except.ok.inj hdone)).symm
  · rintro ⟨key, ⟨hasks, hconnects, htarget, hkey, hfits⟩, rfl⟩
    obtain ⟨upgrade, hupgrade, hsocket⟩ := hasks.found
    obtain ⟨connection, hconnection, hcontains⟩ := hconnects.found
    rw [answer, hupgrade, hconnection, (headerGetField_iff key_word).mpr ⟨hkey, by omega⟩, headerGetPath_iff.mpr htarget, ← hreply]
    have hfield := appendUuid_iff.mpr ⟨hfits, rfl⟩
    simp [bind, Except.bind, pure, Except.pure, hsocket, hcontains, hfield]

/-- A value that is looked for after the tests before it have passed, and that is too long for
the array; of the key, together with the identifier. -/
inductive Overflows (h : Head) (path : Bytes) : Prop
  | upgrade (v : Bytes) (found : h.find (asciiBytes "Upgrade") = some v) (long : 256 ≤ v.length)
  | connection (passed : h.AsksUpgrade) (v : Bytes) (found : h.find (asciiBytes "Connection") = some v) (long : 256 ≤ v.length)
  | target (passed : h.AsksUpgrade) (passed' : h.Connects) (long : 256 ≤ h.target.length)
  | key (passed : h.AsksUpgrade) (passed' : h.Connects) (found : h.target = path ∧ path.length < 256)
      (v : Bytes) (found' : h.find (asciiBytes "Sec-WebSocket-Key") = some v) (long : 220 ≤ v.length)

theorem answer_error_iff (sha1 : Bytes → Digest) {e : Fault} :
    answer sha1 path h.text = .error e ↔ e = .behindField ∧ h.Overflows path := by
  constructor
  · intro hanswer
    rcases bind_eq_error_iff.mp hanswer with hfault | ⟨_ | upgrade, hupgrade, hsecond⟩
    · obtain ⟨rfl, v, hfound, hlong⟩ := (headerGetField_error_iff upgrade_word).mp hfault
      exact ⟨rfl, .upgrade v hfound hlong⟩
    · cases hsecond
    simp only at hsecond
    split at hsecond
    · cases hsecond
    next hsocket =>
    have hasks : h.AsksUpgrade := ⟨upgrade, ((headerGetField_iff upgrade_word).mp hupgrade).1, by simpa using hsocket⟩
    rcases bind_eq_error_iff.mp hsecond with hfault | ⟨_ | connection, hconnection, hthird⟩
    · obtain ⟨rfl, v, hfound, hlong⟩ := (headerGetField_error_iff connection_word).mp hfault
      exact ⟨rfl, .connection hasks v hfound hlong⟩
    · cases hthird
    simp only at hthird
    split at hthird
    · cases hthird
    next hcontains =>
    obtain ⟨hfound, hshort⟩ := (headerGetField_iff connection_word).mp hconnection
    have hconnects : h.Connects := ⟨connection, hfound, hcontains, hshort⟩
    rcases bind_eq_error_iff.mp hthird with hfault | ⟨_ | target, htarget, hfourth⟩
    · obtain ⟨rfl, hlong⟩ := headerGetPath_error_iff.mp hfault
      exact ⟨rfl, .target hasks hconnects hlong⟩
    · cases hfourth
    simp only at hfourth
    split at hfourth
    · cases hfourth
    next hpath =>
    obtain rfl : target = path := not_not.mp hpath
    have hat := headerGetPath_iff.mp htarget
    rcases bind_eq_error_iff.mp hfourth with hfault | ⟨_ | key, hkey, hfifth⟩
    · obtain ⟨rfl, v, hfound, hlong⟩ := (headerGetField_error_iff key_word).mp hfault
      exact ⟨rfl, .key hasks hconnects hat v hfound (by omega)⟩
    · cases hfifth
    rcases bind_eq_error_iff.mp hfifth with hfault | ⟨field, _, hdone⟩
    · obtain ⟨rfl, hlong⟩ := appendUuid_error_iff.mp hfault
      exact ⟨rfl, .key hasks hconnects hat key ((headerGetField_iff key_word).mp hkey).1 hlong⟩
    · cases hdone
  · rintro ⟨rfl, hover⟩
    cases hover with
    | upgrade v hfound hlong =>
      rw [answer, (headerGetField_error_iff upgrade_word).mpr ⟨rfl, v, hfound, hlong⟩]
      rfl
    | connection hasks v hfound hlong =>
      obtain ⟨upgrade, hupgrade, hsocket⟩ := hasks.found
      rw [answer, hupgrade, (headerGetField_error_iff connection_word).mpr ⟨rfl, v, hfound, hlong⟩]
      simp [bind, Except.bind, hsocket]
    | target hasks hconnects hlong =>
      obtain ⟨upgrade, hupgrade, hsocket⟩ := hasks.found
      obtain ⟨connection, hconnection, hcontains⟩ := hconnects.found
      rw [answer, hupgrade, hconnection, headerGetPath_error_iff.mpr ⟨rfl, hlong⟩]
      simp [bind, Except.bind, hsocket, hcontains]
    | key hasks hconnects htarget v hfound hlong =>
      obtain ⟨upgrade, hupgrade, hsocket⟩ := hasks.found
      obtain ⟨connection, hconnection, hcontains⟩ := hconnects.found
      rw [answer, hupgrade, hconnection, headerGetPath_iff.mpr htarget]
      -- the key alone may be too long, or only with the identifier
      rcases Nat.lt_or_ge v.length 256 with hfits | hlarge
      · rw [(headerGetField_iff key_word).mpr ⟨hfound, hfits⟩]
        simp [bind, Except.bind, hsocket, hcontains, appendUuid_error_iff.mpr ⟨rfl, hlong⟩]
      · rw [(headerGetField_error_iff key_word).mpr ⟨rfl, v, hfound, hlarge⟩]
        simp [bind, Except.bind, hsocket, hcontains]

end Head

/-- The server answers a request exactly if it asks for a switch at its own path with values that
fit, takes no byte behind its head, and confirms the key of the request. -/
theorem server_switches_iff (sha1 : Bytes → Digest) (path : Bytes) (h : Head) (hfits : h.text.length ≤ 1023)
    (rest : Bytes) (r : Bytes × Bytes) :
    httpWsMethodServer sha1 path (h.text ++ rest) = .ok (some r) ↔
      ∃ key, h.Switches path key ∧ r = (Head.reply sha1 key, rest) := by
  have hhead : getHttpHeader (h.text ++ rest) = some (h.text, rest) := getHttpHeader_lines h.plain_lines hfits rest
  have htext : cString h.text = h.text := cString_joinLines h.plain_lines
  simp only [httpWsMethodServer, hhead, htext]
  constructor
  · intro hserver
    cases hanswer : answer sha1 path h.text with
    | error f => simp [hanswer, Except.map] at hserver
    | ok reply =>
      cases reply with
      | none => simp [hanswer, Except.map] at hserver
      | some reply =>
        obtain ⟨key, hswitches, rfl⟩ := (Head.answer_iff sha1).mp hanswer
        simp only [hanswer, Except.map, Option.map_some, Except.ok.injEq, Option.some.injEq] at hserver
        exact ⟨key, hswitches, hserver.symm⟩
  · rintro ⟨key, hswitches, rfl⟩
    rw [(Head.answer_iff sha1).mpr ⟨key, hswitches, rfl⟩]
    rfl

/-- The server writes behind its array exactly for a value that is too long where it is looked for. -/
theorem server_overflows_iff (sha1 : Bytes → Digest) (path : Bytes) (h : Head) (hfits : h.text.length ≤ 1023)
    (rest : Bytes) (e : Fault) :
    httpWsMethodServer sha1 path (h.text ++ rest) = .error e ↔ e = .behindField ∧ h.Overflows path := by
  have hhead : getHttpHeader (h.text ++ rest) = some (h.text, rest) := getHttpHeader_lines h.plain_lines hfits rest
  have htext : cString h.text = h.text := cString_joinLines h.plain_lines
  simp only [httpWsMethodServer, hhead, htext, ← Head.answer_error_iff sha1]
  cases answer sha1 path h.text <;> simp [Except.map]

/-- The digest of the key `sampleKey` with the identifier. -/
def sampleSha1 : Bytes → Digest := fun _ =>
  #v[0xb3, 0x7a, 0x4f, 0x2c, 0xc0, 0x62, 0x4f, 0x16, 0x90, 0xf6, 0x46, 0x06, 0xcf, 0x38, 0x59, 0x45, 0xb2, 0xbe, 0xc4, 0xea]

def sampleKey : Bytes := asciiBytes "dGhlIHNhbXBsZSBub25jZQ=="

def otherOrder : Head where
  method := asciiBytes "GET"
  target := asciiBytes "/ws"
  version := asciiBytes "HTTP/1.1"
  fields :=
    [(asciiBytes "sec-websocket-key", sampleKey), (asciiBytes "CONNECTION", asciiBytes "keep-alive, Upgrade"),
      (asciiBytes "upgrade", asciiBytes "  WebSocket")]
  method_word := ⟨by decide +kernel, by decide +kernel, by decide +kernel⟩
  target_plain := by decide +kernel
  version_plain := by decide +kernel
  fields_plain := by decide +kernel

theorem other_order_switches :
    otherOrder.text.length ≤ 1023 ∧
      httpWsMethodServer sampleSha1 (asciiBytes "/ws") (otherOrder.text ++ [1, 2]) =
        .ok (some (Head.reply sampleSha1 sampleKey, [1, 2])) := by
  have hfits : otherOrder.text.length ≤ 1023 := by decide +kernel
  have hupgrade : otherOrder.find (asciiBytes "Upgrade") = some (asciiBytes "WebSocket") := by decide +kernel
  have hconnection : otherOrder.find (asciiBytes "Connection") = some (asciiBytes "keep-alive, Upgrade") := by decide +kernel
  have hkey : otherOrder.find (asciiBytes "Sec-WebSocket-Key") = some sampleKey := by decide +kernel
  refine ⟨hfits, (server_switches_iff sampleSha1 (asciiBytes "/ws") otherOrder hfits [1, 2] _).mpr ⟨sampleKey, ?_, rfl⟩⟩
  exact ⟨⟨_, hupgrade, by decide +kernel⟩, ⟨_, hconnection, by decide +kernel, by decide +kernel⟩, ⟨rfl, by decide +kernel⟩,
    hkey, by decide +kernel⟩

/-- A key of 220 bytes, with which the identifier does not fit. -/
def longKey : Head where
  method := asciiBytes "GET"
  target := asciiBytes "/ws"
  version := asciiBytes "HTTP/1.1"
  fields :=
    [(asciiBytes "Upgrade", asciiBytes "websocket"), (asciiBytes "Connection", asciiBytes "Upgrade"),
      (asciiBytes "Sec-WebSocket-Key", List.replicate 220 65)]
  method_word := ⟨by decide +kernel, by decide +kernel, by decide +kernel⟩
  target_plain := by decide +kernel
  version_plain := by decide +kernel
  fields_plain := by decide +kernel

theorem long_key_overflows :
    longKey.text.length ≤ 1023 ∧
      httpWsMethodServer sampleSha1 (asciiBytes "/ws") (longKey.text ++ []) = .error .behindField := by
  have hfits : longKey.text.length ≤ 1023 := by decide +kernel
  have hupgrade : longKey.find (asciiBytes "Upgrade") = some (asciiBytes "websocket") := by decide +kernel
  have hconnection : longKey.find (asciiBytes "Connection") = some (asciiBytes "Upgrade") := by decide +kernel
  have hkey : longKey.find (asciiBytes "Sec-WebSocket-Key") = some (List.replicate 220 65) := by decide +kernel
  refine ⟨hfits, (server_overflows_iff sampleSha1 (asciiBytes "/ws") longKey hfits [] _).mpr ⟨rfl, ?_⟩⟩
  exact .key ⟨_, hupgrade, by decide +kernel⟩ ⟨_, hconnection, by decide +kernel, by decide +kernel⟩
    ⟨rfl, by decide +kernel⟩ _ hkey (by rw [List.length_replicate])

/-! ## Both sides -/

theorem encode_plain (src : Bytes) : Plain (Base64.encode src) := by
  intro l hl
  have hletter : ∀ n : Fin 64, Base64.letter n ≠ 0 ∧ isLineEnd (Base64.letter n) = false := by decide +kernel
  rcases Base64.mem_encode hl with rfl | ⟨n, hn, rfl⟩
  · decide
  · exact hletter ⟨n, hn⟩

structure Client where
  path : Bytes
  host : Bytes
  random : Vector UInt8 16
  path_plain : Plain path ∧ 32 ∉ path
  host_plain : Plain host
  fits : (requestText path host (encodeFrom 0 random.toList)).length ≤ 1023

namespace Client
variable (c : Client)

def key : Bytes := encodeFrom 0 c.random.toList

def request : Bytes := clientRequest (some c.path) c.host c.random

theorem key_eq : c.key = Base64.encode c.random.toList :=
  Base64Encode.encodeFrom_short (by rw [Vector.length_toList]; decide)

theorem key_plain : Plain c.key := c.key_eq ▸ encode_plain _

theorem key_length : c.key.length = 24 := by
  rw [key_eq, Base64.length_encode, Vector.length_toList]

def head : Head where
  method := asciiBytes "GET"
  target := c.path
  version := asciiBytes "HTTP/1.1"
  fields :=
    [(asciiBytes "Host", c.host), (asciiBytes "Sec-WebSocket-Version", asciiBytes "13"),
      (asciiBytes "Upgrade", asciiBytes "websocket"), (asciiBytes "Connection", asciiBytes "Upgrade"),
      (asciiBytes "Sec-WebSocket-Key", c.key), (asciiBytes "Sec-WebSocket-Protocol", asciiBytes "binary")]
  method_word := ⟨by decide +kernel, by decide +kernel, by decide +kernel⟩
  target_plain := c.path_plain
  version_plain := by decide +kernel
  fields_plain := by
    simp only [List.forall_mem_cons, List.not_mem_nil, false_implies, implies_true, and_true]
    refine ⟨⟨?_, ?_, c.host_plain⟩, ?_, ?_, ?_, ⟨?_, ?_, c.key_plain⟩, ?_⟩ <;> decide +kernel

theorem request_eq : c.request = c.head.text := by
  have hget : asciiBytes "GET " = asciiBytes "GET" ++ [32] := by decide +kernel
  have hversion : asciiBytes " HTTP/1.1" = 32 :: asciiBytes "HTTP/1.1" := by decide +kernel
  rw [request, clientRequest, Option.getD_some, List.take_of_length_le c.fits]
  simp [requestText, Head.text, Head.requestLine, Head.fieldLine, head, headerLine, key, hget, hversion]

theorem find_upgrade : c.head.find (asciiBytes "Upgrade") = some (asciiBytes "websocket") := by
  have hothers : ∀ n ∈ [asciiBytes "Host", asciiBytes "Sec-WebSocket-Version"], strcasecmp (asciiBytes "Upgrade") n = false := by
    decide +kernel
  have hvalue : (asciiBytes "websocket").dropWhile (· = 32) = asciiBytes "websocket" := by decide +kernel
  have hself : strcasecmp (asciiBytes "Upgrade") (asciiBytes "Upgrade") = true := strcasecmp_iff.mpr rfl
  simp only [List.forall_mem_cons] at hothers
  simp [Head.find, head, hothers, hself, hvalue]

theorem find_connection : c.head.find (asciiBytes "Connection") = some (asciiBytes "Upgrade") := by
  have hothers : ∀ n ∈ [asciiBytes "Host", asciiBytes "Sec-WebSocket-Version", asciiBytes "Upgrade"],
      strcasecmp (asciiBytes "Connection") n = false := by decide +kernel
  have hvalue : (asciiBytes "Upgrade").dropWhile (· = 32) = asciiBytes "Upgrade" := by decide +kernel
  have hself : strcasecmp (asciiBytes "Connection") (asciiBytes "Connection") = true := strcasecmp_iff.mpr rfl
  simp only [List.forall_mem_cons] at hothers
  simp [Head.find, head, hothers, hself, hvalue]

theorem find_key : c.head.find (asciiBytes "Sec-WebSocket-Key") = some c.key := by
  have hothers : ∀ n ∈ [asciiBytes "Host", asciiBytes "Sec-WebSocket-Version", asciiBytes "Upgrade", asciiBytes "Connection"],
      strcasecmp (asciiBytes "Sec-WebSocket-Key") n = false := by decide +kernel
  have hself : strcasecmp (asciiBytes "Sec-WebSocket-Key") (asciiBytes "Sec-WebSocket-Key") = true := strcasecmp_iff.mpr rfl
  have hletter : ∀ l ∈ c.key.head?, decide (l = 32) = false := by
    intro l hl
    have h32 : ∀ n : Fin 64, Base64.letter n ≠ 32 := by decide
    rw [key_eq] at hl
    rcases Base64.mem_encode (List.mem_of_mem_head? hl) with rfl | ⟨n, hn, rfl⟩
    · decide
    · simpa using h32 ⟨n, hn⟩
  have hvalue : c.key.dropWhile (· = 32) = c.key := by
    cases hkey : c.key with
    | nil => rfl
    | cons l key =>
      rw [hkey] at hletter
      exact List.dropWhile_cons_of_neg (by simpa using hletter l rfl)
  simp only [List.forall_mem_cons] at hothers
  simp [Head.find, head, hothers, hself, hvalue]

/-- The request is one for a switch at its path. -/
theorem head_switches (path key : Bytes) :
    c.head.Switches path key ↔ (c.path = path ∧ path.length < 256) ∧ key = c.key := by
  constructor
  · intro h
    have hkey := h.key.1
    rw [find_key, Option.some.injEq] at hkey
    exact ⟨h.target, hkey.symm⟩
  · rintro ⟨hpath, rfl⟩
    have hvalues : strcasecmp (asciiBytes "websocket") (asciiBytes "websocket") = true ∧
        strcasestr (asciiBytes "Upgrade") (asciiBytes "Upgrade") ≠ none ∧ (asciiBytes "Upgrade").length < 256 := by
      decide +kernel
    exact ⟨⟨_, c.find_upgrade, hvalues.1⟩, ⟨_, c.find_connection, hvalues.2⟩, hpath, c.find_key, by rw [key_length]; decide⟩

end Client

/-- The answer of the server is one the client takes. -/
theorem clientReads_reply (sha1 : Bytes → Digest) (key later : Bytes) : clientReads (Head.reply sha1 key ++ later) = some later := by
  have hdigest : (sha1 (key ++ uuid)).toList.length = 20 := Vector.length_toList
  have hfits : (Head.reply sha1 key).length ≤ 1023 := by
    rw [Head.reply, Head.replyText_length, Base64.length_encode, hdigest]
    decide
  have hplain : PlainLines
      [asciiBytes "HTTP/1.1 101 Switching Protocols", headerLine "Upgrade" (asciiBytes "websocket"),
        headerLine "Connection" (asciiBytes "Upgrade"),
        headerLine "Sec-WebSocket-Accept" (Base64.encode (sha1 (key ++ uuid)).toList),
        headerLine "Sec-WebSocket-Protocol" (asciiBytes "binary")] := by
    have haccept : Plain (asciiBytes "Sec-WebSocket-Accept" ++ [58, 32]) := by decide +kernel
    simp only [PlainLines, List.forall_mem_cons, List.not_mem_nil, false_implies, implies_true, and_true]
    refine ⟨?_, ?_, ?_, ⟨by simp [headerLine], ?_⟩, ?_⟩
    · decide +kernel
    · decide +kernel
    · decide +kernel
    · have hline := haccept.append (encode_plain (sha1 (key ++ uuid)).toList)
      rwa [List.append_assoc] at hline
    · decide +kernel
  have hhead := getHttpHeader_lines hplain hfits later
  have htext := cString_joinLines hplain
  have hbegins : strncasecmp (Head.reply sha1 key) (asciiBytes "HTTP/1.1 101 Switching Protocols")
      (asciiBytes "HTTP/1.1 101 Switching Protocols").length = true := by
    rw [strncasecmp_iff, Head.reply, replyText, joinLines_cons, lower_append]
    exact List.prefix_append _ _
  change getHttpHeader (Head.reply sha1 key ++ later) = some (Head.reply sha1 key, later) at hhead
  change cString (Head.reply sha1 key) = Head.reply sha1 key at htext
  simp only [clientReads, hhead, htext]
  exact if_pos hbegins

/-- A server and a client of this library agree on the switch exactly if they have the same path,
and neither takes a byte of what the other one sends behind the handshake. -/
theorem handshake_iff (sha1 : Bytes → Digest) (c : Client) (path toServer : Bytes) :
    (∃ reply, httpWsMethodServer sha1 path (c.request ++ toServer) = .ok (some (reply, toServer)) ∧
      ∀ toClient, clientReads (reply ++ toClient) = some toClient) ↔ c.path = path ∧ path.length < 256 := by
  have hfits : c.head.text.length ≤ 1023 := by
    rw [← c.request_eq, Client.request, clientRequest, Option.getD_some, List.length_take]
    omega
  simp only [c.request_eq, server_switches_iff sha1 path c.head hfits, c.head_switches, Prod.mk.injEq, and_true]
  constructor
  · rintro ⟨_, ⟨key, ⟨hpath, -⟩, -⟩, -⟩
    exact hpath
  · intro hpath
    exact ⟨_, ⟨c.key, ⟨hpath, rfl⟩, rfl⟩, clientReads_reply sha1 c.key⟩

/-! ## The channel after the switch -/

open WebSocket (Written Reader Use onSocket)

/-- The reading end after `tcp_connection_upgrade`, with the unset header of the new `ws_t`. -/
def upgraded (header : WebSocket.Header) (stream : Bytes) : Reader := ⟨⟨header, 0, 0⟩, stream, 0, []⟩

def Delivers (writes : List Written) (r : Reader) : Prop :=
  ∀ (shorts : ℕ → ℕ) (uses : List Use), r.WritesBetweenFrames shorts uses →
    (uses.foldl (Reader.use shorts) r).received <+: (writes.map Written.msg).flatten ∧
      (uses.foldl (Reader.use shorts) r).received.length =
        min (uses.map Use.wanted).sum (writes.map Written.msg).flatten.length

theorem delivers_upgraded (client : Bool) (writes : List Written) (header : WebSocket.Header) :
    Delivers writes (upgraded header (onSocket client writes)) := by
  intro shorts uses hwrites
  have hstart : Reader.Follows client (writes.map Written.msg).flatten (upgraded header (onSocket client writes)) :=
    ⟨[], writes, ⟨rfl, by decide, none, 0, rfl, fun h => absurd rfl h⟩, rfl⟩
  obtain ⟨⟨cur, later, _, htotal⟩, hlength⟩ := WebSocket.uses_follows hstart hwrites
  refine ⟨⟨_, htotal⟩, ?_⟩
  rw [hlength, upgraded, List.length_nil, Nat.zero_add]

/-- After the handshake both directions carry the messages of the other side from the first one
on, even if they were sent before the handshake was read. -/
theorem upgraded_channel (sha1 : Bytes → Digest) (c : Client) (hpath : c.path.length < 256)
    (toServer toClient : List Written) (header header' : WebSocket.Header) :
    ∃ reply atServer atClient,
      httpWsMethodServer sha1 c.path (c.request ++ onSocket true toServer) = .ok (some (reply, atServer)) ∧
        clientReads (reply ++ onSocket false toClient) = some atClient ∧
          Delivers toServer (upgraded header atServer) ∧ Delivers toClient (upgraded header' atClient) := by
  obtain ⟨reply, hserver, hclient⟩ := (handshake_iff sha1 c c.path (onSocket true toServer)).mpr ⟨rfl, hpath⟩
  exact ⟨reply, _, _, hserver, hclient _, delivers_upgraded true toServer header, delivers_upgraded false toClient header'⟩

/-- A client of the path `/ws`. -/
def sampleClient : Client where
  path := asciiBytes "/ws"
  host := asciiBytes "server.example.com"
  random := #v[0x74, 0x68, 0x65, 0x20, 0x73, 0x61, 0x6d, 0x70, 0x6c, 0x65, 0x20, 0x6e, 0x6f, 0x6e, 0x63, 0x65]
  path_plain := by decide +kernel
  host_plain := by decide +kernel
  fits := by decide +kernel

theorem sample_channel :
    ∃ reply atServer atClient,
      httpWsMethodServer sampleSha1 (asciiBytes "/ws") (sampleClient.request ++ onSocket true WebSocket.twoFrames) =
          .ok (some (reply, atServer)) ∧
        clientReads (reply ++ onSocket false WebSocket.twoFrames) = some atClient ∧
          Delivers WebSocket.twoFrames (upgraded ⟨0, 0, []⟩ atServer) ∧
            Delivers WebSocket.twoFrames (upgraded ⟨0, 0, []⟩ atClient) :=
  upgraded_channel sampleSha1 sampleClient (by decide +kernel) WebSocket.twoFrames WebSocket.twoFrames ⟨0, 0, []⟩ ⟨0, 0, []⟩

end Handshake
end LilitunRemote

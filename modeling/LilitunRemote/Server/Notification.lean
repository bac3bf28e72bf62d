import LilitunRemote.Foundation.JsonDecode
import LilitunRemote.Foundation.Unicode
import LilitunRemote.Server.Lifecycle
import Mathlib.Tactic.IntervalCases

/-! # Notifications

The two messages to the application server, with the strings of the projector pasted into a
format and the result cut off at the end of the buffer.
-/
namespace LilitunRemote
namespace Lifecycle
open AppServer Memory

def nib2hex (b : UInt8) : UInt8 := if b < 10 then 0x30 + b else 0x61 + b - 10

def getRandomString (random : Bytes) : Bytes := random.flatMap fun b : UInt8 => [nib2hex (b >>> 4), nib2hex (b &&& 0x0f)]

/-- What a connection has received and drawn when it sends a notification. -/
structure Sharing where
  sessionId : Unicode.Text
  hostname : Unicode.Text
  port : ℕ
  ipv6port : ℕ
  random : Bytes
  length_random : random.length = 12
  noZero : 0 ∉ Unicode.utf8 sessionId ∧ 0 ∉ Unicode.utf8 hostname

namespace Sharing
variable (s : Sharing)

def conn : Conn :=
  { Conn.start (getRandomString s.random) with
    port := s.port
    ipv6port := s.ipv6port
    sessionId := .live (Unicode.utf8 s.sessionId)
    hostname := Unicode.utf8 s.hostname }

end Sharing

inductive Notification
  | start
  | stop
  deriving DecidableEq, Repr

namespace Notification

def fields (n : Notification) (s : Sharing) : List (String × Bytes) :=
  match n with
  | start => s.conn.startFields
  | stop => s.conn.stopFields

def data (n : Notification) (s : Sharing) : List (Bytes × Bytes) := (n.fields s).map fun f => (asciiBytes f.1, f.2)

def body (n : Notification) (s : Sharing) : Bytes := (messageText (n.fields s)).take 1023

def strings (n : Notification) (s : Sharing) : List Bytes :=
  match n with
  | start => [Unicode.utf8 s.sessionId, Unicode.utf8 s.hostname]
  | stop => [Unicode.utf8 s.sessionId]

end Notification

/-- The body is the UTF-8 text of a JSON object with the given members. -/
def Tells (body : Bytes) (fields : List (Bytes × Bytes)) : Prop :=
  (∃ text : Unicode.Text, Unicode.utf8 text = body) ∧
    ∃ (w w' : Json.Blank) (ms : Json.Node .members), body = w.text ++ ((Json.Node.object ms).text ++ w'.text) ∧
      Json.HasMembers ms.entries fields

structure Notification.Spliced (n : Notification) (s : Sharing) : Prop where
  plain : ∀ t ∈ n.strings s, ∀ b ∈ t, 32 ≤ b ∧ b ≠ 34 ∧ b ≠ 92
  fits : (messageText (n.fields s)).length ≤ 1023

/-! ## Texts -/

def Simple (s : Bytes) : Prop := ∀ b ∈ s, b < 128 ∧ Json.needsEscape b = false

instance (s : Bytes) : Decidable (Simple s) := List.decidableBAll (fun b : UInt8 => b < 128 ∧ Json.needsEscape b = false) s

theorem Simple.plain {s : Bytes} (h : Simple s) : Json.Plain s := fun b hb => (h b hb).2

theorem digit_or_minus (z : ℤ) : ∀ c ∈ (toString z).toList, c.isDigit = true ∨ c = '-' := by
  intro c hc
  rw [Int.toString_eq_repr, Int.repr_eq_if] at hc
  split at hc
  · rw [Nat.toList_repr] at hc
    exact Or.inl (Nat.isDigit_of_mem_toDigits (by decide) (by decide) hc)
  · rw [String.toList_append, List.mem_append, Nat.toList_repr] at hc
    rcases hc with hminus | hdigit
    · exact Or.inr (by simpa using hminus)
    · exact Or.inl (Nat.isDigit_of_mem_toDigits (by decide) (by decide) hdigit)

theorem simple_decimal (port : ℕ) : Simple (decimal port) := by
  intro b hb
  obtain ⟨c, hc, rfl⟩ := List.mem_map.mp hb
  rcases digit_or_minus _ c hc with hdigit | rfl
  · have hrange : 48 ≤ c.toNat ∧ c.toNat ≤ 57 := by
      simpa [Char.isDigit, UInt32.le_iff_toNat_le] using hdigit
    generalize c.toNat = n at hrange
    obtain ⟨hlow, hhigh⟩ := hrange
    interval_cases n <;> decide
  · decide

theorem simple_getRandomString (random : Bytes) : Simple (getRandomString random) := by
  intro b hb
  obtain ⟨r, hr, hb⟩ := List.mem_flatMap.mp hb
  have hnibbles : ∀ r : UInt8, Simple [nib2hex (r >>> 4), nib2hex (r &&& 0x0f)] :=
    CString.forall_byte (by decide +kernel)
  exact hnibbles r b hb

def IsUtf8 (s : Bytes) : Prop := ∃ text : Unicode.Text, Unicode.utf8 text = s

theorem IsUtf8.append {s t : Bytes} (hs : IsUtf8 s) (ht : IsUtf8 t) : IsUtf8 (s ++ t) := by
  obtain ⟨u, rfl⟩ := hs
  obtain ⟨v, rfl⟩ := ht
  exact ⟨u ++ v, by simp [Unicode.utf8]⟩

theorem isUtf8_of_ascii {s : Bytes} (h : ∀ b ∈ s, b < 128) : IsUtf8 s := by
  induction s with
  | nil => exact ⟨[], rfl⟩
  | cons b s ih =>
    obtain ⟨hb, hs⟩ := List.forall_mem_cons.mp h
    have hchar : ∀ b : UInt8, b < 128 → String.utf8EncodeChar (Char.ofNat b.toNat) = [b] :=
      CString.forall_byte (by decide +kernel)
    have hfirst : IsUtf8 [b] := ⟨[Char.ofNat b.toNat], by simp [Unicode.utf8, hchar b hb]⟩
    exact hfirst.append (ih hs)

theorem Simple.isUtf8 {s : Bytes} (h : Simple s) : IsUtf8 s := isUtf8_of_ascii (fun b hb => (h b hb).1)

/-! ## The format -/

theorem messageText_eq (fields : List (String × Bytes)) :
    messageText fields =
      123 :: ([44].intercalate ((fields.map fun f => (asciiBytes f.1, f.2)).map Json.fieldText) ++ [125]) := by
  have hopen : asciiBytes "\x7b" = [123] := asciiBytes_ofList _
  have hclose : asciiBytes "\x7d" = [125] := asciiBytes_ofList _
  have hquote : asciiBytes "\"" = [34] := asciiBytes_ofList _
  have hcolon : asciiBytes "\":\"" = [34, 58, 34] := asciiBytes_ofList _
  have hfield : (fun f : String × Bytes => asciiBytes "\"" ++ asciiBytes f.1 ++ asciiBytes "\":\"" ++ f.2 ++ asciiBytes "\"") =
      Json.fieldText ∘ fun f => (asciiBytes f.1, f.2) := by
    funext f
    simp [hquote, hcolon, Json.fieldText]
  rw [messageText, hopen, hclose, hfield, List.map_map]
  rfl

theorem length_intercalate (c : UInt8) {ls : List Bytes} (hne : ls ≠ []) :
    ([c].intercalate ls).length + 1 = (ls.map fun l => l.length + 1).sum := by
  induction ls with
  | nil => exact absurd rfl hne
  | cons l ls ih =>
    cases ls with
    | nil => simp [List.intercalate]
    | cons l' ls =>
      have hrest := ih (by simp)
      rw [List.intercalate_cons_cons, List.map_cons, List.sum_cons, ← hrest]
      simp only [List.length_append, List.length_singleton]
      omega

/-- The length of a message and of the escapes it lacks, by the fields. -/
theorem length_messageText {fields : List (String × Bytes)} (hne : fields ≠ []) :
    ((fields.map fun f => (asciiBytes f.1, f.2)).map Json.fieldLength).sum + 1 =
      (messageText fields).length + (fields.map fun f => f.2.countP Json.needsEscape).sum := by
  have hsome : (fields.map fun f => (asciiBytes f.1, f.2)).map Json.fieldText ≠ [] := by
    simpa using hne
  have hlength := length_intercalate 44 hsome
  have hsum : ∀ fields : List (String × Bytes), ((fields.map fun f => (asciiBytes f.1, f.2)).map Json.fieldLength).sum =
      (((fields.map fun f => (asciiBytes f.1, f.2)).map Json.fieldText).map fun l => l.length + 1).sum +
        (fields.map fun f => f.2.countP Json.needsEscape).sum := by
    intro fields
    induction fields with
    | nil => rfl
    | cons f fields ih =>
      simp only [List.map_cons, List.sum_cons, ih, Json.fieldText, Json.fieldLength, List.length_cons, List.length_append,
        List.length_nil]
      omega
  rw [hsum, ← hlength, messageText_eq, List.length_cons, List.length_append, List.length_singleton]
  omega

theorem isUtf8_intercalate {ls : List Bytes} (h : ∀ l ∈ ls, IsUtf8 l) : IsUtf8 ([44].intercalate ls) := by
  have hcomma : IsUtf8 [44] := isUtf8_of_ascii (by simp)
  induction ls with
  | nil => exact ⟨[], rfl⟩
  | cons l ls ih =>
    obtain ⟨hl, hls⟩ := List.forall_mem_cons.mp h
    cases ls with
    | nil => simpa [List.intercalate] using hl
    | cons l' ls =>
      rw [List.intercalate_cons_cons]
      exact (hl.append hcomma).append (ih hls)

theorem tells_of_plain {fields : List (Bytes × Bytes)} (hne : fields ≠ [])
    (hplain : ∀ f ∈ fields, Json.Plain f.1 ∧ Json.Plain f.2) (hutf8 : ∀ f ∈ fields, IsUtf8 f.1 ∧ IsUtf8 f.2)
    (hnodup : (fields.map Prod.fst).Nodup) : Tells (123 :: ([44].intercalate (fields.map Json.fieldText) ++ [125])) fields := by
  have hopen : IsUtf8 [123] := isUtf8_of_ascii (by simp)
  have hclose : IsUtf8 [125] := isUtf8_of_ascii (by simp)
  have hquote : IsUtf8 [34] := isUtf8_of_ascii (by simp)
  have hcolon : IsUtf8 [34, 58, 34] := isUtf8_of_ascii (by simp)
  have hfield : ∀ l ∈ fields.map Json.fieldText, IsUtf8 l := by
    intro l hl
    obtain ⟨f, hf, rfl⟩ := List.mem_map.mp hl
    obtain ⟨hname, hvalue⟩ := hutf8 f hf
    have htext := ((((hquote.append hname).append hcolon).append hvalue).append hquote)
    simpa [Json.fieldText] using htext
  obtain ⟨f, fields, rfl⟩ := List.exists_cons_of_ne_nil hne
  refine ⟨?_, .empty, .empty, Json.plainMembers f fields, ?_, Json.hasMembers_plainMembers hplain hnodup⟩
  · exact (hopen.append (isUtf8_intercalate hfield)).append hclose
  · rw [Json.Node.text, Json.text_plainMembers hplain]
    simp [Json.Blank.empty]

/-- A body that tells the members is long enough for their plain spelling. -/
theorem Tells.length_le {body : Bytes} {fields : List (Bytes × Bytes)} (h : Tells body fields)
    (hnodup : (fields.map Prod.fst).Nodup) : (fields.map Json.fieldLength).sum + 1 ≤ body.length := by
  obtain ⟨-, w, w', ms, rfl, hmembers⟩ := h
  have hle := hmembers.length_le hnodup
  simp only [Json.Node.text, List.length_append, List.length_cons, List.length_nil]
  omega

theorem needsEscape_eq_false_iff (b : UInt8) : Json.needsEscape b = false ↔ 32 ≤ b ∧ b ≠ 34 ∧ b ≠ 92 := by
  simp [Json.needsEscape, and_assoc]

theorem names_nodup (n : Notification) (s : Sharing) : ((n.data s).map Prod.fst).Nodup := by
  have hstart : [asciiBytes "requestType", asciiBytes "sessionId", asciiBytes "hostname", asciiBytes "port",
      asciiBytes "ipv6port", asciiBytes "password"].Nodup := by decide +kernel
  have hstop : [asciiBytes "requestType", asciiBytes "sessionId"].Nodup := by decide +kernel
  cases n with
  | start => simpa only [Notification.data, Notification.fields, Conn.startFields, List.map_cons, List.map_nil] using hstart
  | stop => simpa only [Notification.data, Notification.fields, Conn.stopFields, List.map_cons, List.map_nil] using hstop

theorem simple_texts :
    (Simple remoteControlStart ∧ Simple remoteControlStop) ∧
      Simple (asciiBytes "requestType") ∧ Simple (asciiBytes "sessionId") ∧ Simple (asciiBytes "hostname") ∧
        Simple (asciiBytes "port") ∧ Simple (asciiBytes "ipv6port") ∧ Simple (asciiBytes "password") := by
  decide +kernel

/-- What the server itself puts into a notification is simple. -/
theorem simple_or_string (n : Notification) (s : Sharing) :
    ∀ f ∈ n.data s, Simple f.1 ∧ (Simple f.2 ∨ f.2 ∈ n.strings s ∧ IsUtf8 f.2) := by
  have hid : IsUtf8 (Unicode.utf8 s.sessionId) := ⟨_, rfl⟩
  have hhost : IsUtf8 (Unicode.utf8 s.hostname) := ⟨_, rfl⟩
  obtain ⟨⟨hstart, hstop⟩, hnames⟩ := simple_texts
  cases n with
  | start =>
    simp [Notification.data, Notification.fields, Conn.startFields, Notification.strings, Sharing.conn, Conn.start, SessionId.text,
      hnames, hstart, hid, hhost, simple_decimal, simple_getRandomString]
  | stop =>
    simp [Notification.data, Notification.fields, Conn.stopFields, Notification.strings, Sharing.conn, SessionId.text, hnames,
      hstop, hid]

/-- The strings are among what is told. -/
theorem string_mem (n : Notification) (s : Sharing) : ∀ t ∈ n.strings s, ∃ f ∈ n.fields s, f.2 = t := by
  cases n <;> simp [Notification.fields, Conn.startFields, Conn.stopFields, Notification.strings, Sharing.conn, SessionId.text]

/-- A body that tells the data lacks no escape and no byte at its end. -/
theorem Tells.spliced {n : Notification} {s : Sharing} (h : Tells (n.body s) (n.data s)) : n.Spliced s := by
  have hne : n.fields s ≠ [] := by
    cases n <;> simp [Notification.fields, Conn.startFields, Conn.stopFields]
  have hle := h.length_le (names_nodup n s)
  have hlength := length_messageText hne
  rw [← Notification.data] at hlength
  have hbody : (n.body s).length = min 1023 (messageText (n.fields s)).length := List.length_take
  have hnone : ((n.fields s).map fun f => f.2.countP Json.needsEscape).sum = 0 := by omega
  refine ⟨fun t ht b hb => ?_, by omega⟩
  obtain ⟨f, hf, rfl⟩ := string_mem n s t ht
  have hcount := List.sum_eq_zero_iff_forall_eq_nat.mp hnone _ (List.mem_map_of_mem hf)
  rw [← needsEscape_eq_false_iff]
  simpa using List.countP_eq_zero.mp hcount b hb

theorem tells_of_spliced {n : Notification} {s : Sharing} (h : n.Spliced s) : Tells (n.body s) (n.data s) := by
  obtain ⟨hplain, hfits⟩ := h
  have hne : n.data s ≠ [] := by
    cases n <;> simp [Notification.data, Notification.fields, Conn.startFields, Conn.stopFields]
  have hbody : n.body s = messageText (n.fields s) := List.take_of_length_le hfits
  rw [hbody, messageText_eq]
  refine tells_of_plain hne (fun f hf => ?_) (fun f hf => ?_) (names_nodup n s)
  · obtain ⟨hname, hsimple | ⟨hstring, -⟩⟩ := simple_or_string n s f hf
    · exact ⟨hname.plain, hsimple.plain⟩
    · exact ⟨hname.plain, fun b hb => (needsEscape_eq_false_iff b).mpr (hplain f.2 hstring b hb)⟩
  · obtain ⟨hname, hsimple | ⟨-, hutf8⟩⟩ := simple_or_string n s f hf
    · exact ⟨hname.isUtf8, hsimple.isUtf8⟩
    · exact ⟨hname.isUtf8, hutf8⟩

/-- A notification carries the data of its session exactly if its strings can be pasted. -/
theorem notification_tells_iff (n : Notification) (s : Sharing) : Tells (n.body s) (n.data s) ↔ n.Spliced s :=
  ⟨Tells.spliced, tells_of_spliced⟩

/-- A projector whose session id has a quote. -/
def quotedSession : Sharing where
  sessionId := ['a', '"', 'b']
  hostname := ['p', 'c']
  port := 7000
  ipv6port := 7001
  random := List.replicate 12 0
  length_random := rfl
  noZero := by decide +kernel

theorem quoted_session_garbled : ¬ ∀ n s, Tells (Notification.body n s) (Notification.data n s) := by
  intro h
  have hplain := (h .stop quotedSession).spliced.plain
  have hquote := hplain (Unicode.utf8 ['a', '"', 'b']) (by simp [Notification.strings, quotedSession]) 34 (by decide +kernel)
  exact hquote.2.1 rfl

end Lifecycle
end LilitunRemote

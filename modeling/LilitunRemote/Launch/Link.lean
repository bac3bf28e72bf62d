import LilitunRemote.Foundation.Terminated
import LilitunRemote.Launch.Base64Decode
import LilitunRemote.Protocol.JsonFields

/-! # The launch link

`desktop.php` puts a JSON text into the link as base64, and `extract_json_params` takes
it apart. The slash that a browser may append is cut off at the first slash, but base64
has slashes of its own.
-/
namespace LilitunRemote
namespace Launch
open Base64 Json Jsmn JsonFields

/-- `extract_json_params`: what it returns and the fields it sets. -/
def extractJsonParams (instr : Bytes) : ℕ × Option Fields :=
  match base64Decode (instr.takeWhile (· ≠ 47)) with
  | none => (0, some Fields.unset)
  | some outstr =>
    match extract linkNames (outstr.takeWhile (· ≠ 0)) with
    | .refused => (0, some Fields.unset)
    | .fields f => (1, f)

structure PlainText where
  text : Bytes
  plain : ∀ b ∈ text, 32 ≤ b ∧ b ≤ 126 ∧ b ≠ 34 ∧ b ≠ 92

structure Link where
  appServer : PlainText
  controlServer : PlainText
  sessionId : PlainText

def xSchemeHandler : Bytes := asciiBytes "lilink://"

namespace Link
variable (l : Link)

def json : Bytes :=
  asciiBytes "\x7b\"authHeader\":\"authHeader value\"," ++
    (asciiBytes "\"requestType\":\"remoteControl\"," ++
      (asciiBytes "\"appServerUrl\":\"" ++ (l.appServer.text ++ (asciiBytes "\"," ++
        (asciiBytes "\"controlServerUrl\":\"" ++ (l.controlServer.text ++ (asciiBytes "\"," ++
          (asciiBytes "\"sessionId\":\"" ++ (l.sessionId.text ++ asciiBytes "\"\x7d")))))))))

def url (slash : Bool) : Bytes := xSchemeHandler ++ (encode l.json ++ if slash then [47] else [])

def RoundTrips (slash : Bool) : Prop :=
  ∃ f, extractJsonParams ((l.url slash).drop xSchemeHandler.length) = (1, some f) ∧
    f (asciiBytes "requestType") = some (asciiBytes "remoteControl") ∧
    f (asciiBytes "appServerUrl") = some l.appServer.text ∧
    f (asciiBytes "controlServerUrl") = some l.controlServer.text ∧
    f (asciiBytes "sessionId") = some l.sessionId.text

end Link

/-! ## The text as an object -/

def PlainText.items (t : PlainText) : List Item :=
  plainItems t.text (fun b hb => ⟨(t.plain b hb).1, (t.plain b hb).2.2⟩)

theorem PlainText.stringText_items (t : PlainText) : stringText t.items = t.text := stringText_plainItems t.text _

namespace Link
variable (l : Link)

def authHeader : List Item × List Item :=
  (plainItems (asciiBytes "authHeader") (by decide +kernel), plainItems (asciiBytes "authHeader value") (by decide +kernel))

def fields : List (List Item × List Item) :=
  [(requestTypeItems, plainItems (asciiBytes "remoteControl") (by decide +kernel)),
    (plainItems (asciiBytes "appServerUrl") (by decide +kernel), l.appServer.items),
    (plainItems (asciiBytes "controlServerUrl") (by decide +kernel), l.controlServer.items),
    (sessionIdItems, l.sessionId.items)]

def document : Document where
  before := .empty
  inner := .inr (.flat authHeader.1 authHeader.2 l.fields)
  after := .empty
  fits := by change 11 ≤ 16; decide

theorem document_text : l.document.text = l.json := by
  simp only [Document.text, document, objectOf, fields, Node.flat, Node.text, quoted, PlainText.stringText_items, Blank.empty,
    List.nil_append, List.append_nil, List.append_assoc, List.cons_append, json]
  rfl

theorem json_plain : ∀ b ∈ l.json, 0 < b ∧ b < 127 := by
  have hplain : ∀ t : PlainText, ∀ b ∈ t.text, 0 < b ∧ b < 127 := by
    intro t b hb
    obtain ⟨hlow, hhigh, _⟩ := t.plain b hb
    rw [UInt8.le_iff_toNat_le] at hlow hhigh
    rw [UInt8.lt_iff_toNat_lt, UInt8.lt_iff_toNat_lt]
    change 32 ≤ b.toNat at hlow
    change b.toNat ≤ 126 at hhigh
    change 0 < b.toNat ∧ b.toNat < 127
    omega
  simp only [json, List.forall_mem_append]
  refine ⟨?_, ?_, ?_, hplain _, ?_, ?_, hplain _, ?_, ?_, hplain _, ?_⟩ <;> decide +kernel

def read : Fields := (authHeader :: l.fields).foldl (setMember linkNames) Fields.unset

theorem extract_json : extract linkNames l.json = .fields (some l.read) := by
  have hkeys : ∀ e ∈ authHeader :: l.fields, KeyFirst linkNames e := by
    simp only [fields, List.forall_mem_cons]
    have hname : ∀ {name} (hplain : ∀ b ∈ name, 32 ≤ b ∧ b ≠ 34 ∧ b ≠ 92), name ∈ linkNames →
        stringText (plainItems name hplain) ∈ linkNames := fun _ hmem => (stringText_plainItems _ _).symm ▸ hmem
    exact ⟨Or.inr (by decide), Or.inl (hname _ (by decide)), Or.inl (hname _ (by decide)), Or.inl (hname _ (by decide)),
      Or.inl (hname _ (by decide)), nofun⟩
  have hjs : l.document.text.drop 1 = (Node.flat authHeader.1 authHeader.2 l.fields).text ++ [125] := by
    simp [Document.text, document, objectOf, Node.text, Blank.empty]
  rw [← document_text, Document.extract_text]
  exact congrArg Extraction.fields (walk_flat l.fields Fields.unset hjs hkeys)

theorem read_eq :
    l.read (asciiBytes "requestType") = some (asciiBytes "remoteControl") ∧
      l.read (asciiBytes "appServerUrl") = some l.appServer.text ∧
      l.read (asciiBytes "controlServerUrl") = some l.controlServer.text ∧
      l.read (asciiBytes "sessionId") = some l.sessionId.text := by
  have hread : l.read = (((Fields.unset.set (asciiBytes "requestType") (asciiBytes "remoteControl")).set
      (asciiBytes "appServerUrl") l.appServer.text).set (asciiBytes "controlServerUrl") l.controlServer.text).set
        (asciiBytes "sessionId") l.sessionId.text := by
    rw [← l.appServer.stringText_items, ← l.controlServer.stringText_items, ← l.sessionId.stringText_items]
    rfl
  rw [hread]
  exact ⟨rfl, rfl, rfl, rfl⟩

/-- A question mark in a third place makes a slash, at which the text is cut. -/
theorem refused_of_thirdMark (hmark : ThirdMark l.json) (slash : Bool) :
    extractJsonParams ((l.url slash).drop xSchemeHandler.length) = (0, some Fields.unset) := by
  obtain ⟨cut, rest, hencode, hplain, hlength⟩ := encode_eq_cut (fun b hb => (l.json_plain b hb).2) hmark
  have hslash : 47 ∉ cut := fun h => (hplain 47 h).ne_slash rfl
  rw [url, List.drop_left, hencode, List.append_assoc, List.cons_append, extractJsonParams, Terminated.takeWhile_append hslash,
    base64Decode_cut hplain hlength]

theorem read_of_not_thirdMark (hmark : ¬ ThirdMark l.json) (slash : Bool) :
    extractJsonParams ((l.url slash).drop xSchemeHandler.length) = (1, some l.read) := by
  have hslash : 47 ∉ encode l.json := slash_notMem_encode (fun b hb => (l.json_plain b hb).2) hmark
  have hcut : (encode l.json ++ if slash then [47] else []).takeWhile (· ≠ 47) = encode l.json := by
    cases slash with
    | false =>
      rw [if_neg Bool.false_ne_true, List.append_nil]
      exact Terminated.takeWhile_eq_self hslash
    | true =>
      rw [if_pos rfl]
      exact Terminated.takeWhile_append hslash []
  have hnul : l.json.takeWhile (· ≠ 0) = l.json := by
    refine Terminated.takeWhile_eq_self (fun h => ?_)
    exact absurd (l.json_plain 0 h).1 (by decide)
  have hne : l.json ≠ [] := by
    rw [json]
    exact List.append_ne_nil_of_left_ne_nil (by decide) _
  rw [url, List.drop_left, extractJsonParams, hcut, base64Decode_encode hne]
  dsimp only
  rw [hnul, extract_json]

end Link

/-- A link comes through unless a question mark is the third byte of its group of three. -/
theorem link_round_trips_iff (l : Link) (slash : Bool) : l.RoundTrips slash ↔ ¬ ThirdMark l.json := by
  constructor
  · rintro ⟨f, hf, _⟩ hmark
    rw [l.refused_of_thirdMark hmark] at hf
    have hzero : 0 = 1 := congrArg Prod.fst hf
    omega
  · intro hmark
    exact ⟨l.read, l.read_of_not_thirdMark hmark slash, l.read_eq⟩

/-- A link whose application server has a query. -/
def queryLink : Link where
  appServer := ⟨asciiBytes "https://remote.lilitun.link/?id=1", by decide +kernel⟩
  controlServer := ⟨asciiBytes "wss://remote.lilitun.link/projector-ws", by decide +kernel⟩
  sessionId := ⟨asciiBytes "1", by decide +kernel⟩

/-- Its question mark becomes a slash. -/
theorem query_link_refused : ¬ queryLink.RoundTrips false ∧ ¬ queryLink.RoundTrips true := by
  have hmark : ThirdMark queryLink.json := ⟨107, rfl, rfl⟩
  have hrefused : ∀ slash, ¬ queryLink.RoundTrips slash := by
    rintro slash ⟨f, hf, _⟩
    rw [queryLink.refused_of_thirdMark hmark] at hf
    have hzero : 0 = 1 := congrArg Prod.fst hf
    omega
  exact ⟨hrefused false, hrefused true⟩

end Launch
end LilitunRemote

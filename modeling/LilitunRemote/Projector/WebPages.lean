import LilitunRemote.Server.Notification
import LilitunRemote.Transport.Handshake
import Mathlib.Data.Nat.Digits.Defs

/-! # The web pages of the projector

A projector in server mode carries the files of its browser client, packed one behind the
other, and `http_thread` answers with them what is not a request for a switch.
-/
namespace LilitunRemote
namespace Projector
namespace WebPages
open CString Handshake
open Control (getHttpHeader)
open Lifecycle (decimal)

/-! ## The packed files -/

def mimeTypes : List (Bytes × Bytes) :=
  [(".css", "text/css"), (".html", "text/html"), (".htm", "text/html"), (".jpg", "image/jpeg"), (".jpeg", "image/jpeg"),
    (".js", "text/javascript"), (".png", "image/png"), (".svg", "image/svg+xml"), (".txt", "text/plain"),
    (".zip", "application/x-compressed")].map fun m => (asciiBytes m.1, asciiBytes m.2)

def getMime (name : Bytes) : Bytes :=
  ((mimeTypes.find? (fun m => m.1.isSuffixOf name)).map (·.2)).getD (asciiBytes "application/octet-stream")

structure PseudoFile where
  name : Bytes
  len : ℕ
  mime : Bytes
  offset : ℕ
  deriving DecidableEq, Repr

structure PseudoFs where
  files : List PseudoFile
  data : Bytes

def makeFsFrom : ℕ → List (Bytes × Bytes) → List PseudoFile
  | _, [] => []
  | offset, (name, content) :: files =>
    ⟨47 :: name, content.length, getMime name, offset⟩ :: makeFsFrom (offset + content.length) files

def makeFs (files : List (Bytes × Bytes)) : PseudoFs := ⟨makeFsFrom 0 files, files.flatMap (·.2)⟩

/-- `pseudofs_get_file`: the data from the file's first byte on, its length and its type. -/
def PseudoFs.getFile (fs : PseudoFs) (name : Bytes) : Option (Bytes × ℕ × Bytes) :=
  (fs.files.find? (fun f => decide (f.name = name))).map fun f => (fs.data.drop f.offset, f.len, f.mime)

/-! ## Answers -/

/-- `header_get_path` of `projector.c`, which copies the path whatever its length is. -/
def headerGetPath (header : Bytes) : Option Bytes :=
  (strchr header 32).bind fun tmp => (strchr tmp.tail 32).map fun tmp1 => tmp.tail.take (tmp.tail.length - tmp1.length)

def okHead (mime : Bytes) (len : ℕ) : Bytes :=
  joinLines [asciiBytes "HTTP/1.1 200 OK", headerLine "Content-type" mime, headerLine "Content-Length" (decimal len),
    headerLine "Connection" (asciiBytes "close")]

def notFound : Bytes := joinLines [asciiBytes "HTTP/1.1 404 Not Found"]

def notImplemented : Bytes := joinLines [asciiBytes "HTTP/1.1 501 Not Implemented"]

def localJs (path : Bytes) (connected : Bool) : Bytes :=
  (asciiBytes "// autogenerated begin\nconst local_wspath=\"" ++ path ++ asciiBytes "\";\nconst local_connected = " ++
    [if connected then 49 else 48] ++ asciiBytes ";\n// autogenerated end\n").take 1023

/-- What `http_thread` writes for a request that is not upgraded; `sent` tells whether the
head goes out. -/
def pageWrites (fs : PseudoFs) (path : Bytes) (connected sent : Bool) (request : Bytes) : List Bytes :=
  match headerGetPath request with
  | none => [notImplemented]
  | some filePath =>
    if strncmp request (asciiBytes "GET ") 4 then
      let name := if filePath = [47] then asciiBytes "/index.html" else filePath
      match fs.getFile name with
      | none => [notFound]
      | some (file, len, mime) =>
        let body := if name = asciiBytes "/local.js" then localJs path connected else file.take len
        let head := (okHead mime body.length).take 1023
        if sent then [head, body] else [head]
    else [notImplemented]

inductive Answer
  | session (reply rest : Bytes)
  | pages (writes : List Bytes)
  deriving DecidableEq, Repr

/-- `http_thread` on the bytes of a client: a session with the answer to its handshake, or
the writes of the pages. -/
def answerClient (sha1 : Bytes → Digest) (fs : PseudoFs) (path : Bytes) (connected sent : Bool) (stream : Bytes) :
    Except Fault Answer :=
  match httpWsMethodServer sha1 path stream with
  | .error e => .error e
  | .ok (some (reply, rest)) => .ok (.session reply rest)
  | .ok none =>
    let request := match getHttpHeader stream with
      | none => []
      | some (head, _) => cString head
    .ok (.pages (pageWrites fs path connected sent request))

def page (files : List (Bytes × Bytes)) (path : Bytes) (connected : Bool) (target : Bytes) : Option (Bytes × Bytes) :=
  let name := if target = [47] then asciiBytes "/index.html" else target
  (files.find? (fun f => decide (47 :: f.1 = name))).map fun f =>
    (getMime f.1, if name = asciiBytes "/local.js" then localJs path connected else f.2)

/-! ## Lookups -/

/-- A lookup meets the first file of the name, whatever is packed before it. -/
theorem getFile_from (before : Bytes) (files : List (Bytes × Bytes)) (name : Bytes) :
    match files.find? (fun f => decide (47 :: f.1 = name)) with
    | none => (PseudoFs.mk (makeFsFrom before.length files) (before ++ files.flatMap (·.2))).getFile name = none
    | some f => ∃ more, (PseudoFs.mk (makeFsFrom before.length files) (before ++ files.flatMap (·.2))).getFile name =
        some (f.2 ++ more, f.2.length, getMime f.1) := by
  induction files generalizing before with
  | nil => rfl
  | cons f files ih =>
    obtain ⟨file, content⟩ := f
    by_cases hname : 47 :: file = name
    · have hfirst : ((file, content) :: files).find? (fun f => decide (47 :: f.1 = name)) = some (file, content) := by
        simp [hname]
      rw [hfirst]
      refine ⟨files.flatMap (·.2), ?_⟩
      simp [PseudoFs.getFile, makeFsFrom, hname]
    · have hrest := ih (before ++ content)
      have hget : (PseudoFs.mk (makeFsFrom before.length ((file, content) :: files))
            (before ++ ((file, content) :: files).flatMap (·.2))).getFile name =
          (PseudoFs.mk (makeFsFrom (before ++ content).length files)
            ((before ++ content) ++ files.flatMap (·.2))).getFile name := by
        simp [PseudoFs.getFile, makeFsFrom, hname]
      rw [List.find?_cons_of_neg (by simpa using hname), hget]
      exact hrest

theorem pageWrites_eq (files : List (Bytes × Bytes)) (path : Bytes) (connected : Bool) {request target : Bytes}
    (hpath : headerGetPath request = some target) (hget : strncmp request (asciiBytes "GET ") 4 = true) :
    pageWrites (makeFs files) path connected true request =
      match page files path connected target with
      | none => [notFound]
      | some (mime, body) => [(okHead mime body.length).take 1023, body] := by
  have hfile := getFile_from [] files (if target = [47] then asciiBytes "/index.html" else target)
  simp only [pageWrites, hpath, hget, if_true, page]
  cases hfind : files.find? (fun f => decide (47 :: f.1 = if target = [47] then asciiBytes "/index.html" else target)) with
  | none =>
    rw [hfind] at hfile
    have hnone : (makeFs files).getFile (if target = [47] then asciiBytes "/index.html" else target) = none := hfile
    rw [hnone]
    rfl
  | some f =>
    rw [hfind] at hfile
    obtain ⟨more, hsome⟩ := hfile
    have hsome : (makeFs files).getFile (if target = [47] then asciiBytes "/index.html" else target) =
        some (f.2 ++ more, f.2.length, getMime f.1) := hsome
    rw [hsome]
    simp

/-! ## Requests -/

theorem cString_text (h : Head) : cString h.text = h.text := cString_joinLines h.plain_lines

theorem text_eq (h : Head) :
    ∃ rest, h.text = h.method ++ 32 :: (h.target ++ 32 :: (h.version ++ rest)) := by
  refine ⟨13 :: 10 :: joinLines (h.fields.map Head.fieldLine), ?_⟩
  rw [Head.text, joinLines_cons, Head.requestLine]
  simp

theorem headerGetPath_text (h : Head) : headerGetPath h.text = some h.target := by
  obtain ⟨rest, htext⟩ := text_eq h
  rw [headerGetPath, htext, strchr_append h.method_word.noSpace, Option.bind_some, List.tail_cons,
    strchr_append h.target_plain.2]
  simp

theorem strncmp_get (h : Head) : strncmp h.text (asciiBytes "GET ") 4 = true ↔ h.method = asciiBytes "GET" := by
  obtain ⟨rest, htext⟩ := text_eq h
  have hget : asciiBytes "GET" = [71, 69, 84] := by decide +kernel
  have hfour : (cString (asciiBytes "GET ")).take 4 = [71, 69, 84, 32] := by decide +kernel
  rw [strncmp, decide_eq_true_iff, hfour, cString_text, hget]
  constructor
  · intro htake
    have hsplit : [71, 69, 84] ++ 32 :: h.text.drop 4 = h.method ++ 32 :: (h.target ++ 32 :: (h.version ++ rest)) := by
      rw [← htext]
      conv_rhs => rw [← List.take_append_drop 4 h.text, htake]
      rfl
    have hmethod : h.method.takeWhile (fun b => decide (b ≠ 32)) = h.method := by
      rw [List.takeWhile_eq_self_iff]
      intro b hb
      refine decide_eq_true ?_
      rintro rfl
      exact h.method_word.noSpace hb
    have hwords := congrArg (List.takeWhile (fun b => decide (b ≠ 32))) hsplit
    rw [takeWhile_stop (by decide), takeWhile_stop (by decide), hmethod] at hwords
    exact hwords.symm
  · intro hmethod
    rw [htext, hmethod]
    rfl

/-! ## Responses -/

theorem mem_mimes (name : Bytes) : getMime name ∈ asciiBytes "application/octet-stream" :: mimeTypes.map (·.2) := by
  unfold getMime
  cases hfind : mimeTypes.find? (fun m => m.1.isSuffixOf name) with
  | none => exact List.mem_cons_self
  | some m => exact List.mem_cons_of_mem _ (List.mem_map_of_mem (List.mem_of_find?_eq_some hfind))

theorem mime_plain (name : Bytes) :
    Plain (getMime name) ∧ (getMime name).head? ≠ some 32 ∧ (getMime name).length ≤ 24 := by
  have hall : ∀ mime ∈ asciiBytes "application/octet-stream" :: mimeTypes.map (·.2),
      Plain mime ∧ mime.head? ≠ some 32 ∧ mime.length ≤ 24 := by decide +kernel
  exact hall _ (mem_mimes name)

theorem decimal_bytes (len : ℕ) : ∀ b ∈ decimal len, b = 45 ∨ (48 ≤ b ∧ b ≤ 57) := by
  intro b hb
  obtain ⟨c, hc, rfl⟩ := List.mem_map.mp hb
  rcases Lifecycle.digit_or_minus _ c hc with hdigit | rfl
  · have hrange : 48 ≤ c.toNat ∧ c.toNat ≤ 57 := by
      simpa [Char.isDigit, UInt32.le_iff_toNat_le] using hdigit
    refine Or.inr ⟨?_, ?_⟩
    · rw [UInt8.le_iff_toNat_le, UInt8.toNat_ofNat']
      have h48 : (48 : UInt8).toNat = 48 := rfl
      omega
    · rw [UInt8.le_iff_toNat_le, UInt8.toNat_ofNat']
      have h57 : (57 : UInt8).toNat = 57 := rfl
      omega
  · exact Or.inl rfl

theorem decimal_plain (len : ℕ) : Plain (decimal len) ∧ 32 ∉ decimal len := by
  have hplain : ∀ b : UInt8, b = 45 ∨ (48 ≤ b ∧ b ≤ 57) → (b ≠ 0 ∧ isLineEnd b = false) ∧ b ≠ 32 :=
    CString.forall_byte (by decide +kernel)
  exact ⟨fun b hb => (hplain b (decimal_bytes len b hb)).1, fun h => (hplain 32 (decimal_bytes len 32 h)).2 rfl⟩

theorem decimal_length (len : ℕ) : (decimal len).length ≤ 11 := by
  have hbounds := Memory.wrapInt_bounds len
  rw [decimal, asciiBytes, List.length_map, String.length_toList, Int.toString_eq_repr, Int.repr_eq_if]
  split
  · have hlength := Nat.repr_length (Memory.wrapInt len).toNat 10 (by decide) (by omega)
    omega
  · have hlength := Nat.repr_length (-Memory.wrapInt len).toNat 10 (by decide) (by omega)
    have hminus : "-".length = 1 := rfl
    rw [String.length_append, hminus]
    omega

theorem http_word : Word (asciiBytes "HTTP/1.1") := ⟨by decide +kernel, by decide +kernel, by decide +kernel⟩

theorem okFields_plain (name : Bytes) (len : ℕ) :
    ∀ f ∈ [(asciiBytes "Content-type", getMime name), (asciiBytes "Content-Length", decimal len),
        (asciiBytes "Connection", asciiBytes "close")], Plain f.1 ∧ 58 ∉ f.1 ∧ Plain f.2 := by
  simp only [List.forall_mem_cons, List.not_mem_nil, false_implies, implies_true, and_true]
  refine ⟨⟨?_, ?_, (mime_plain name).1⟩, ⟨?_, ?_, (decimal_plain len).1⟩, ?_⟩ <;> decide +kernel

/-- The head of a page by its parts. -/
def okResponse (name : Bytes) (len : ℕ) : Head where
  method := asciiBytes "HTTP/1.1"
  target := asciiBytes "200"
  version := asciiBytes "OK"
  fields :=
    [(asciiBytes "Content-type", getMime name), (asciiBytes "Content-Length", decimal len),
      (asciiBytes "Connection", asciiBytes "close")]
  method_word := http_word
  target_plain := by decide +kernel
  version_plain := by decide +kernel
  fields_plain := okFields_plain name len

theorem okHead_eq (name : Bytes) (len : ℕ) : okHead (getMime name) len = (okResponse name len).text := by
  have hstatus : asciiBytes "HTTP/1.1 200 OK" =
      asciiBytes "HTTP/1.1" ++ 32 :: (asciiBytes "200" ++ 32 :: asciiBytes "OK") := by decide +kernel
  simp [okHead, Head.text, Head.requestLine, Head.fieldLine, okResponse, headerLine, hstatus]

theorem okHead_length (mime : Bytes) (len : ℕ) : (okHead mime len).length = 72 + mime.length + (decimal len).length := by
  have hlines (text : Bytes) : (joinLines [asciiBytes "HTTP/1.1 200 OK", headerLine "Content-type" mime,
      headerLine "Content-Length" text, headerLine "Connection" (asciiBytes "close")]).length =
        72 + mime.length + text.length := by
    have hfixed : (joinLines [asciiBytes "HTTP/1.1 200 OK", headerLine "Content-type" [], headerLine "Content-Length" [],
        headerLine "Connection" (asciiBytes "close")]).length = 72 := by decide +kernel
    rw [← hfixed]
    simp only [joinLines, headerLine, List.flatMap_cons, List.flatMap_nil, List.length_append, List.length_cons,
      List.length_nil]
    omega
  exact hlines (decimal len)

theorem okHead_fits (name : Bytes) (len : ℕ) : (okResponse name len).text.length ≤ 1023 := by
  rw [← okHead_eq, okHead_length]
  calc
    72 + (getMime name).length + (decimal len).length ≤ 72 + 24 + 11 :=
      Nat.add_le_add (Nat.add_le_add_left (mime_plain name).2.2 72) (decimal_length len)
    _ ≤ 1023 := by simp

/-- The client finds the length and the type, and behind the head the file. -/
theorem okHead_read (name : Bytes) (len : ℕ) (body : Bytes) :
    getHttpHeader (okHead (getMime name) len ++ body) = some (okHead (getMime name) len, body) ∧
      headerGetField (okHead (getMime name) len) (asciiBytes "Content-Length") = .ok (some (decimal len)) ∧
      headerGetField (okHead (getMime name) len) (asciiBytes "Content-Type") = .ok (some (getMime name)) := by
  have hword : Word (asciiBytes "Content-Length") ∧ Word (asciiBytes "Content-Type") :=
    ⟨⟨by decide +kernel, by decide +kernel, by decide +kernel⟩,
      ⟨by decide +kernel, by decide +kernel, by decide +kernel⟩⟩
  have hstart : ∀ value : Bytes, value.head? ≠ some 32 → value.dropWhile (· = 32) = value := by
    rintro (_ | ⟨b, value⟩) hvalue
    · rfl
    · exact List.dropWhile_cons_of_neg (by simpa using hvalue)
  obtain ⟨-, hspace, hshort⟩ := mime_plain name
  have hdecimal : (decimal len).head? ≠ some 32 := fun h => (decimal_plain len).2 (List.mem_of_mem_head? h)
  have hnames : strcasecmp (asciiBytes "Content-Length") (asciiBytes "Content-type") = false ∧
      strcasecmp (asciiBytes "Content-Length") (asciiBytes "Content-Length") = true ∧
      strcasecmp (asciiBytes "Content-Type") (asciiBytes "Content-type") = true := by decide +kernel
  obtain ⟨hother, hlength, htype⟩ := hnames
  rw [okHead_eq]
  refine ⟨getHttpHeader_lines (okResponse name len).plain_lines (okHead_fits name len) body, ?_, ?_⟩
  · refine (Head.headerGetField_iff hword.1).mpr ⟨?_, (decimal_length len).trans_lt (by simp)⟩
    simp [Head.find, okResponse, hother, hlength, hstart _ hdecimal]
  · refine (Head.headerGetField_iff hword.2).mpr ⟨?_, hshort.trans_lt (by simp)⟩
    simp [Head.find, okResponse, htype, hstart _ hspace]

/-- The type of a page is that of a name. -/
theorem page_mime {files : List (Bytes × Bytes)} {path target mime body : Bytes} {connected : Bool}
    (hpage : page files path connected target = some (mime, body)) : ∃ name, mime = getMime name := by
  simp only [page, Option.map_eq_some_iff, Prod.mk.injEq] at hpage
  obtain ⟨f, -, hmime, -⟩ := hpage
  exact ⟨f.1, hmime.symm⟩

theorem server_answers_none (sha1 : Bytes → Digest) {path : Bytes} {h : Head} (hfits : h.text.length ≤ 1023)
    (rest : Bytes) (hinside : ¬ h.Overflows path) (hpage : ∀ key, ¬ h.Switches path key) :
    httpWsMethodServer sha1 path (h.text ++ rest) = .ok none := by
  have hhead : getHttpHeader (h.text ++ rest) = some (h.text, rest) := getHttpHeader_lines h.plain_lines hfits rest
  simp only [httpWsMethodServer, hhead, cString_text]
  cases hanswer : answer sha1 path h.text with
  | error e => exact absurd ((Head.answer_error_iff sha1).mp hanswer).2 hinside
  | ok reply =>
    cases reply with
    | none => rfl
    | some reply =>
      obtain ⟨key, hswitches, -⟩ := (Head.answer_iff sha1).mp hanswer
      exact absurd hswitches (hpage key)

/-- A request of a client is one for a session or is answered by a page: a file goes out
whole behind a head that tells its length and its type, and any other target and any other
method has its status. -/
theorem request_answered (sha1 : Bytes → Digest) (files : List (Bytes × Bytes)) (path : Bytes) (connected : Bool)
    (h : Head) (hfits : h.text.length ≤ 1023) (rest : Bytes) (hinside : ¬ h.Overflows path)
    (hpage : ∀ key, ¬ h.Switches path key) :
    ∃ writes, answerClient sha1 (makeFs files) path connected true (h.text ++ rest) = .ok (.pages writes) ∧
      if h.method = asciiBytes "GET" then
        match page files path connected h.target with
        | none => writes = [notFound]
        | some (mime, body) => ∃ head, writes = [head, body] ∧ asciiBytes "HTTP/1.1 200 OK" <+: head ∧
            getHttpHeader writes.flatten = some (head, body) ∧
            headerGetField head (asciiBytes "Content-Length") = .ok (some (decimal body.length)) ∧
            headerGetField head (asciiBytes "Content-Type") = .ok (some mime)
      else writes = [notImplemented] := by
  have hserver := server_answers_none sha1 hfits rest hinside hpage
  have hhead : getHttpHeader (h.text ++ rest) = some (h.text, rest) := getHttpHeader_lines h.plain_lines hfits rest
  simp only [answerClient, hserver, hhead, cString_text]
  refine ⟨_, rfl, ?_⟩
  by_cases hmethod : h.method = asciiBytes "GET"
  · rw [if_pos hmethod, pageWrites_eq files path connected (headerGetPath_text h) ((strncmp_get h).mpr hmethod)]
    cases hfound : page files path connected h.target with
    | none => rfl
    | some found =>
      obtain ⟨mime, body⟩ := found
      obtain ⟨name, rfl⟩ := page_mime hfound
      obtain ⟨hread, hlength, htype⟩ := okHead_read name body.length body
      have hwhole : (okHead (getMime name) body.length).take 1023 = okHead (getMime name) body.length := by
        rw [okHead_eq]
        exact List.take_of_length_le (okHead_fits name body.length)
      have hstatus : asciiBytes "HTTP/1.1 200 OK" <+: okHead (getMime name) body.length := by
        rw [okHead, joinLines_cons]
        exact List.prefix_append _ _
      simp only [hwhole]
      exact ⟨_, rfl, hstatus, by simpa using hread, hlength, htype⟩
  · rw [if_neg hmethod, pageWrites, headerGetPath_text]
    exact if_neg (fun hget => hmethod ((strncmp_get h).mp hget))

theorem get_word : Word (asciiBytes "GET") := ⟨by decide +kernel, by decide +kernel, by decide +kernel⟩

theorem http_plain : Plain (asciiBytes "HTTP/1.1") := http_word.plain

/-- The request of a browser for the first page. -/
def firstPage : Head where
  method := asciiBytes "GET"
  target := asciiBytes "/"
  version := asciiBytes "HTTP/1.1"
  fields := [(asciiBytes "Host", asciiBytes "localhost"), (asciiBytes "Connection", asciiBytes "keep-alive")]
  method_word := get_word
  target_plain := by decide +kernel
  version_plain := http_plain
  fields_plain := by decide +kernel

def sampleFiles : List (Bytes × Bytes) :=
  [(asciiBytes "local.js", []), (asciiBytes "index.html", asciiBytes "<html></html>")]

theorem first_page_answered :
    ∃ head, answerClient sampleSha1 (makeFs sampleFiles) (asciiBytes "/ws") false true (firstPage.text ++ []) =
        .ok (.pages [head, asciiBytes "<html></html>"]) ∧
      getHttpHeader (head ++ asciiBytes "<html></html>") = some (head, asciiBytes "<html></html>") ∧
      headerGetField head (asciiBytes "Content-Length") = .ok (some (asciiBytes "13")) ∧
      headerGetField head (asciiBytes "Content-Type") = .ok (some (asciiBytes "text/html")) := by
  have hfits : firstPage.text.length ≤ 1023 := by decide +kernel
  have hupgrade : firstPage.find (asciiBytes "Upgrade") = none := by decide +kernel
  have hasks : ¬ firstPage.AsksUpgrade := by simp [Head.AsksUpgrade, hupgrade]
  have hinside : ¬ firstPage.Overflows (asciiBytes "/ws") := by
    rintro (⟨v, hfound, -⟩ | ⟨hpassed, -⟩ | ⟨hpassed, -⟩ | ⟨hpassed, -⟩)
    · simp [hupgrade] at hfound
    all_goals exact hasks hpassed
  have hpage : page sampleFiles (asciiBytes "/ws") false firstPage.target =
      some (asciiBytes "text/html", asciiBytes "<html></html>") := by decide +kernel
  have hlength : decimal (asciiBytes "<html></html>").length = asciiBytes "13" := by decide +kernel
  obtain ⟨writes, hanswer, hwrites⟩ := request_answered sampleSha1 sampleFiles (asciiBytes "/ws") false firstPage
    hfits [] hinside (fun _ hswitches => hasks hswitches.upgrade)
  have hmethod : firstPage.method = asciiBytes "GET" := rfl
  rw [if_pos hmethod, hpage] at hwrites
  obtain ⟨head, rfl, -, hread, hfields⟩ := hwrites
  rw [hlength] at hfields
  exact ⟨head, hanswer, by simpa using hread, hfields⟩

end WebPages
end Projector
end LilitunRemote

import LilitunRemote.Projector.Thread
import Mathlib.Data.List.TakeWhile

/-! # The projector's side of a dialogue

A client sends whole records: its signature, its password, requests and input
events. The projector reads one record at a time, dispatches it by its first word
and answers it before it reads the next one. `dialogue` is this protocol as a
monitor of the projector's thread: it lets the client choose the records and the
network the pieces in which their bytes arrive.
-/
namespace LilitunRemote
namespace Projector
open Memory

/-- The exchanges of a session in their order; the last one is repeated. -/
inductive Exchange
  | signature | authorization | screenInfo | hostname | screenUpdate
  deriving DecidableEq, Repr

namespace Exchange

def next : Exchange → Exchange
  | signature => authorization
  | authorization => screenInfo
  | screenInfo => hostname
  | hostname | screenUpdate => screenUpdate

def authorized : Exchange → Bool
  | signature | authorization => false
  | screenInfo | hostname | screenUpdate => true

end Exchange

inductive Record
  | hello
  | password (text : Bytes)
  | request (req : Req)
  | input (event : InputEvent)
  deriving DecidableEq, Repr

namespace Record

def word : Record → UInt32
  | hello => UInt32.ofNat clientId.length
  | password _ => Req.authorization.code
  | request req => req.code
  | input event => event.req.code

def payload : Record → Bytes
  | hello => clientId
  | password text => htonl (UInt32.ofNat text.length) ++ text
  | request _ => []
  | input event => wordBytes event.payload

def bytes (q : Record) : Bytes := htonl q.word ++ q.payload

end Record

abbrev Message := WriteKind × Bytes

def regionMessages : List RegionData → List Message
  | [] => []
  | r :: regions =>
    (.answer (.regionHeader regions.length), regionHeaderBytes r) ::
      (.answer (.regionData regions.length), r.data) :: regionMessages regions

def updateMessages (regions : List RegionData) : List Message :=
  (.answer (.screenUpdate regions.length), screenRegionsBytes regions.length) :: regionMessages regions

def reply (v : Vars) : Exchange → List Message
  | .signature => [(.signatureLength, htonl (UInt32.ofNat remoteId.length)), (.signature, remoteId)]
  | .authorization => [(.authorizationStatus true, htonl 0)]
  | .screenInfo => [(.answer .screenInfo, screenInfoBytes v)]
  | .hostname =>
    [(.answer (.stringHeader .hostname), stringHeaderBytes .hostname v.hostname),
      (.answer (.stringText .hostname), v.hostname)]
  | .screenUpdate => []

def Asks (v : Vars) : Exchange → Record → Prop
  | .signature, q => q = .hello
  | .authorization, q => q = .password v.sessionId
  | .screenInfo, q => q = .request .screenInfo
  | .hostname, q => q = .request .hostname
  | .screenUpdate, q => q = .request .screenUpdate ∨ ∃ event, q = .input event

def effectOf : InputEvent → Effect
  | .keyboard down key => .keyboardEvent down key
  | .pointer buttons x y _ => .mouseEvent buttons x y

/-- What a successful grab gives `update_screen`: the count and the lengths are C ints,
and no region is empty. -/
def Sendable (regions : List RegionData) : Prop :=
  regions.length < 2 ^ 31 ∧
    ∀ r ∈ regions, 0 < r.data.length ∧ r.data.length < 2 ^ 31 ∧ r.length = UInt32.ofNat r.data.length

/-- Where the projector stands: between two records, before or after it polled
`is_started`; inside a record with the bytes of it still to come; writing the rest
of an answer; or on its way out. -/
inductive Position
  | idle (x : Exchange) (polled : Bool)
  | reading (x : Exchange) (q : Record) (dispatched : Bool) (rest : Bytes)
  | writing (x : Exchange) (left : List Message)
  | ended

namespace Position

def after (x : Exchange) : List Message → Position
  | [] => idle x.next false
  | m :: left => writing x (m :: left)

/-- What the thread may do. A refused password is answered before it is read to its end. -/
def Allows (v : Vars) : Position → Effect → Prop
  | idle _ false, .isStarted => True
  | idle _ true, .tcpRead n => n = 4
  | reading _ _ _ rest, .tcpRead n => 0 < n ∧ n ≤ rest.length
  | reading x q false rest, .dispatch req => req = q.word ∧ rest = q.payload ∧ x ≠ .signature
  | reading _ (.input event) true rest, .keyboardEvent down key => rest = [] ∧ effectOf event = .keyboardEvent down key
  | reading _ (.input event) true rest, .mouseEvent buttons x y => rest = [] ∧ effectOf event = .mouseEvent buttons x y
  | reading x q true rest, .grabScreen => x = .screenUpdate ∧ q = .request .screenUpdate ∧ rest = []
  | reading x _ _ _, .tcpWrite (.authorizationStatus false) data =>
    x = .authorization ∧ data = htonl 1 ∧ 255 < v.sessionId.length
  | reading x _ dispatched rest, .tcpWrite kind data =>
    rest = [] ∧ (dispatched = true ∨ x = .signature) ∧ (reply v x).head? = some (kind, data)
  | writing _ left, .tcpWrite kind data => left.head? = some (kind, data)
  | reading x _ _ _, .setStatus _ => x = .authorization
  | ended, .setStatus _ | ended, .tcpClose | ended, .setConnected _ => True
  | _, _ => False

/-- How the position moves on with a response. The text of an empty password is an
empty message, which the next read takes for the end of the connection. -/
def Moves (v : Vars) : Position → (e : Effect) → Response e → Position → Prop
  | idle x _, .isStarted, started, p => p = if started then idle x true else ended
  | idle x _, .tcpRead n, got, p =>
    (∃ q, Asks v x q ∧ got ≠ [] ∧ got.length ≤ n ∧ got <+: q.bytes ∧
      p = reading x q false (q.bytes.drop got.length)) ∨
    (v.sessionId = [] ∧ x = .screenInfo ∧ got = [] ∧ p = ended)
  | reading x q d rest, .tcpRead n, got, p =>
    got ≠ [] ∧ got.length ≤ n ∧ got <+: rest ∧ p = reading x q d (rest.drop got.length)
  | reading x q _ rest, .dispatch _, _, p => p = reading x q true rest
  | reading x _ _ _, .keyboardEvent _ _, _, p => p = idle x false
  | reading x _ _ _, .mouseEvent _ _ _, _, p => p = idle x false
  | reading x _ _ _, .grabScreen, grabbed, p =>
    ∃ regions, grabbed = some regions ∧ Sendable regions ∧ p = writing x (updateMessages regions)
  | reading _ _ _ _, .tcpWrite (.authorizationStatus false) _, _, p => p = ended
  | reading x _ _ _, .tcpWrite _ _, sent, p => sent = true ∧ p = after x (reply v x).tail
  | writing x left, .tcpWrite _ _, sent, p => sent = true ∧ p = after x left.tail
  | q, _, _, p => p = q

end Position

def dialogue (v : Vars) : Monitor Position Effect Response where
  ok := Position.Allows v
  step := Position.Moves v

namespace Dialogue

theorem act_obeys {v : Vars} {p : Position} {e : Effect} {α : Type} {f : Response e → Action α} {Q : Position → α → Prop}
    (hok : p.Allows v e) (hf : ∀ r t, p.Moves v e r t → (dialogue v).Obeys t (f r) Q) :
    (dialogue v).Obeys p (act e >>= f) Q := ⟨hok, hf⟩

/-! ## Reads inside a record -/

section Read
variable {v : Vars} {x : Exchange} {q : Record} {d : Bool} {α : Type}

/-- A reading loop that wants no more than the rest of the record gets what it wants. -/
theorem readLoop_obeys {len fuel : ℕ} {buf rest : Bytes} (hbuf : buf.length ≤ len) (hfuel : len - buf.length ≤ fuel)
    (hrest : len - buf.length ≤ rest.length) :
    (dialogue v).Obeys (.reading x q d rest) (readLoop len fuel buf) (fun p out =>
      p = .reading x q d (rest.drop (len - buf.length)) ∧ out = buf ++ rest.take (len - buf.length)) := by
  induction fuel generalizing buf rest with
  | zero =>
    have hzero : len - buf.length = 0 := by omega
    simp [readLoop, hzero]
  | succ fuel ih =>
    unfold readLoop
    by_cases hlen : buf.length = len
    · simp [hlen]
    · rw [if_neg hlen]
      refine act_obeys ⟨by omega, hrest⟩ ?_
      rintro got _ ⟨hne, hgot, hprefix, rfl⟩
      obtain ⟨tail, rfl⟩ := hprefix
      have hpos : ¬ got.length ≤ 0 := by
        have := List.length_pos_iff.mpr hne
        omega
      rw [List.length_append] at hrest
      have hstep := @ih (buf ++ got) tail (by rw [List.length_append]; omega)
        (by rw [List.length_append]; omega) (by rw [List.length_append]; omega)
      rw [if_neg hpos, List.drop_left]
      apply hstep.mono
      rintro p out ⟨rfl, rfl⟩
      have hsplit : len - buf.length = got.length + (len - (buf ++ got).length) := by
        rw [List.length_append]
        omega
      rw [hsplit, List.drop_length_add_append, List.take_length_add_append, List.append_assoc]
      exact ⟨rfl, rfl⟩

theorem tcpReadAll_obeys {len : ℕ} {rest : Bytes} (h : len ≤ rest.length) :
    (dialogue v).Obeys (.reading x q d rest) (tcpReadAll len) (fun p out =>
      p = .reading x q d (rest.drop len) ∧ out = rest.take len) := by
  have hloop := @readLoop_obeys v x q d len len [] rest (Nat.zero_le _) (Nat.sub_le _ _) (by simpa using h)
  simpa only [tcpReadAll, List.length_nil, Nat.sub_zero, List.nil_append] using hloop

theorem recvUint32_obeys {w : UInt32} {rest : Bytes} :
    (dialogue v).Obeys (.reading x q d (htonl w ++ rest)) recvUint32 (fun p out =>
      p = .reading x q d rest ∧ out = some w) := by
  unfold recvUint32
  rw [Monitor.obeys_bind]
  have hlen : 4 ≤ (htonl w ++ rest).length := by
    rw [List.length_append, htonl_length]
    omega
  refine (tcpReadAll_obeys hlen).mono ?_
  rintro p out ⟨rfl, rfl⟩
  have htake : (htonl w ++ rest).take 4 = htonl w := List.take_left' (htonl_length w)
  have hdrop : (htonl w ++ rest).drop 4 = rest := List.drop_left' (htonl_length w)
  simp [htake, hdrop]

theorem recvWord_obeys {w : UInt32} {rest : Bytes} {f : Option UInt32 → Action α} {Q : Position → α → Prop}
    (hf : (dialogue v).Obeys (.reading x q d rest) (f (some w)) Q) :
    (dialogue v).Obeys (.reading x q d (htonl w ++ rest)) (recvUint32 >>= f) Q := by
  rw [Monitor.obeys_bind]
  apply recvUint32_obeys.mono
  rintro p out ⟨rfl, rfl⟩
  exact hf

theorem recvRecord_obeys {f : Option UInt32 → Action α} {Q : Position → α → Prop}
    (hsome : ∀ q, Asks v x q → (dialogue v).Obeys (.reading x q false q.payload) (f (some q.word)) Q)
    (hnone : x = .screenInfo → (dialogue v).Obeys .ended (f none) Q) :
    (dialogue v).Obeys (.idle x true) (recvUint32 >>= f) Q := by
  rw [Monitor.obeys_bind]
  unfold recvUint32
  rw [Monitor.obeys_bind]
  have hunfold : tcpReadAll 4 = tcpRead 4 >>= fun got =>
      if got.length ≤ 0 then pure [] else readLoop 4 3 got := rfl
  rw [hunfold]
  refine act_obeys rfl ?_
  rintro got _ (⟨q, hasks, hne, hgot, ⟨tail, htail⟩, rfl⟩ | ⟨_, hx, rfl, rfl⟩)
  · have hpos : ¬ got.length ≤ 0 := by
      have := List.length_pos_iff.mpr hne
      omega
    have hlen : 4 ≤ got.length + tail.length := by
      rw [← List.length_append, htail, Record.bytes, List.length_append, htonl_length]
      omega
    rw [if_neg hpos, ← htail, List.drop_left]
    refine (readLoop_obeys hgot (by omega) (by omega)).mono ?_
    rintro p out ⟨rfl, rfl⟩
    -- the word is whole, whatever the pieces were
    have hsplit : 4 = got.length + (4 - got.length) := by omega
    have htake : got ++ tail.take (4 - got.length) = htonl q.word := by
      rw [← List.take_length_add_append, ← hsplit, htail]
      exact List.take_left' (htonl_length _)
    have hdrop : tail.drop (4 - got.length) = q.payload := by
      have hshift : (got ++ tail).drop (got.length + (4 - got.length)) = tail.drop (4 - got.length) :=
        List.drop_length_add_append _
      rw [← hshift, ← hsplit, htail]
      exact List.drop_left' (htonl_length _)
    rw [htake, hdrop]
    simpa using hsome q hasks
  · simpa using hnone hx

end Read

/-! ## Answers -/

section Answer
variable {v : Vars} {x : Exchange} {q : Record} {α : Type}

theorem write_obeys {m : Message} {left : List Message} {f : Bool → Action α} {Q : Position → α → Prop}
    (hf : (dialogue v).Obeys (.after x left) (f true) Q) :
    (dialogue v).Obeys (.writing x (m :: left)) (tcpWriteAll m.1 m.2 >>= f) Q := by
  refine act_obeys rfl ?_
  rintro sent _ ⟨rfl, rfl⟩
  exact hf

theorem firstWrite_obeys {d : Bool} {kind : WriteKind} {data : Bytes} {left : List Message} {f : Bool → Action α}
    {Q : Position → α → Prop} (hd : d = true ∨ x = .signature) (hreply : reply v x = (kind, data) :: left)
    (hkind : kind ≠ .authorizationStatus false) (hf : (dialogue v).Obeys (.after x left) (f true) Q) :
    (dialogue v).Obeys (.reading x q d []) (tcpWriteAll kind data >>= f) Q := by
  have hhead : (reply v x).head? = some (kind, data) := by rw [hreply, List.head?_cons]
  have htail : (reply v x).tail = left := by rw [hreply, List.tail_cons]
  cases kind with
  | authorizationStatus accepted =>
    cases accepted with
    | false => exact absurd rfl hkind
    | true =>
      refine act_obeys ⟨rfl, hd, hhead⟩ ?_
      rintro sent _ ⟨rfl, rfl⟩
      rw [htail]
      exact hf
  | signatureLength | signature | answer =>
    refine act_obeys ⟨rfl, hd, hhead⟩ ?_
    rintro sent _ ⟨rfl, rfl⟩
    rw [htail]
    exact hf

theorem sendRegions_obeys (r : RegionData) (regions : List RegionData) :
    (dialogue v).Obeys (.after .screenUpdate (regionMessages (r :: regions))) (sendRegions (r :: regions))
      (fun p _ => p = .idle .screenUpdate false) := by
  induction regions generalizing r with
  | nil =>
    refine write_obeys (write_obeys ?_)
    exact (rfl : Position.after .screenUpdate [] = _)
  | cons r' regions ih => exact write_obeys (write_obeys (ih r'))

theorem updateScreenSend_obeys (regions : List RegionData) :
    (dialogue v).Obeys (.writing .screenUpdate (updateMessages regions)) (updateScreenSend regions)
      (fun p _ => p = .idle .screenUpdate false) := by
  apply write_obeys
  cases regions with
  | nil => exact (rfl : Position.after .screenUpdate [] = _)
  | cons r regions => exact sendRegions_obeys r regions

end Answer

/-! ## The request loop -/

section Serve
variable {v : Vars}

/-- Where a round of the request loop leaves the dialogue: before the next record, or
with the channel closed. -/
def Rests (x : Exchange) (p : Position) (out : Loop ⊕ Unit) : Prop :=
  (p = .idle x false ∧ out = Sum.inl (.serve true)) ∨ (p = .ended ∧ out = Sum.inr ())

theorem finish_obeys (x : Exchange) : (dialogue v).Obeys .ended (finish v) (Rests x) := by
  refine act_obeys trivial ?_
  rintro _ _ rfl
  cases v.server with
  | false => exact Or.inr ⟨rfl, rfl⟩
  | true =>
    refine act_obeys trivial ?_
    rintro _ _ rfl
    exact Or.inr ⟨rfl, rfl⟩

theorem leave_obeys (x : Exchange) (status : Status) : (dialogue v).Obeys .ended (leave v status) (Rests x) := by
  refine act_obeys trivial ?_
  rintro _ _ rfl
  exact finish_obeys x

theorem proceed_obeys {p : Position} {y : Exchange} {request : Action Bool}
    (h : (dialogue v).Obeys p request (fun p' ok => p' = .idle y false ∧ ok = true)) :
    (dialogue v).Obeys p (proceed v true request) (Rests y) := by
  unfold proceed
  rw [Monitor.obeys_bind]
  apply h.mono
  rintro _ _ ⟨rfl, rfl⟩
  exact Or.inl ⟨rfl, rfl⟩

theorem recvKeyboard_obeys {x : Exchange} (down key : UInt32) :
    (dialogue v).Obeys (.reading x (.input (.keyboard down key)) true (wordBytes [down, key])) recvKeyboard
      (fun p ok => p = .idle x false ∧ ok = true) := by
  refine recvWord_obeys (recvWord_obeys ?_)
  refine act_obeys ⟨rfl, rfl⟩ ?_
  rintro _ _ rfl
  exact ⟨rfl, rfl⟩

theorem recvPointer_obeys {x : Exchange} (buttons px py wheel : UInt32) :
    (dialogue v).Obeys (.reading x (.input (.pointer buttons px py wheel)) true (wordBytes [buttons, px, py, wheel]))
      recvPointer (fun p ok => p = .idle x false ∧ ok = true) := by
  refine recvWord_obeys (recvWord_obeys (recvWord_obeys (recvWord_obeys ?_)))
  refine act_obeys ⟨rfl, rfl⟩ ?_
  rintro _ _ rfl
  exact ⟨rfl, rfl⟩

theorem dispatch_obeys {x : Exchange} {q : Record} {α : Type} {f : Unit → Action α} {Q : Position → α → Prop}
    (hx : x ≠ .signature) (hf : (dialogue v).Obeys (.reading x q true q.payload) (f ()) Q) :
    (dialogue v).Obeys (.reading x q false q.payload) (act (.dispatch q.word) >>= f) Q := by
  refine act_obeys ⟨rfl, rfl, hx⟩ ?_
  rintro _ _ rfl
  exact hf

/-- Every record of an authorized client is dispatched by its first word and handled
to its last byte. -/
theorem dispatchRequest_obeys {x : Exchange} {q : Record} (hx : x.authorized = true) (hasks : Asks v x q) :
    (dialogue v).Obeys (.reading x q false q.payload) (dispatchRequest v true q.word) (Rests x.next) := by
  unfold dispatchRequest
  rw [if_neg (by simp)]
  have hfirst : x ≠ .signature := by
    rintro rfl
    cases hx
  apply dispatch_obeys hfirst
  cases x with
  | signature | authorization => cases hx
  | screenInfo =>
    obtain rfl : q = .request .screenInfo := hasks
    apply proceed_obeys
    exact @firstWrite_obeys v .screenInfo _ _ true _ _ [] pure _ (Or.inl rfl) rfl (by simp) ⟨rfl, rfl⟩
  | hostname =>
    obtain rfl : q = .request .hostname := hasks
    refine proceed_obeys (firstWrite_obeys (Or.inl rfl) rfl (by simp) ?_)
    exact @write_obeys v .hostname _ (_, _) [] pure _ ⟨rfl, rfl⟩
  | screenUpdate =>
    rcases hasks with rfl | ⟨event, rfl⟩
    · refine proceed_obeys (act_obeys ⟨rfl, rfl, rfl⟩ ?_)
      rintro _ _ ⟨regions, rfl, _, rfl⟩
      refine Monitor.obeys_bind.mpr ((updateScreenSend_obeys regions).mono ?_)
      rintro _ _ rfl
      exact ⟨rfl, rfl⟩
    · cases event with
      | keyboard down key => exact proceed_obeys (recvKeyboard_obeys down key)
      | pointer buttons px py wheel => exact proceed_obeys (recvPointer_obeys buttons px py wheel)

theorem serve_obeys {x : Exchange} (hx : x.authorized = true) :
    (dialogue v).Obeys (.idle x false) (body v (.serve true)) (Rests x.next) := by
  refine act_obeys trivial ?_
  rintro started _ rfl
  cases started with
  | false => exact finish_obeys _
  | true =>
    refine recvRecord_obeys (fun q hasks => ?_) (fun _ => leave_obeys _ _)
    exact dispatchRequest_obeys hx hasks

end Serve

/-! ## The start of a session -/

section Start
variable {v : Vars}

theorem checkRemoteSig_obeys :
    (dialogue v).Obeys (.idle .signature true) (checkRemoteSig true) (fun p ok => p = .idle .authorization false ∧ ok = true) := by
  have hword : min (UInt32.ofNat clientId.length).toNat 256 = clientId.length := by decide
  have hmatch : strncmp clientId clientId clientId.length = true := by decide
  unfold checkRemoteSig
  rw [if_pos rfl]
  refine recvRecord_obeys ?_ (fun hx => nomatch hx)
  rintro q rfl
  simp only [Record.word, hword, Record.payload]
  rw [Monitor.obeys_bind]
  refine (tcpReadAll_obeys (Nat.le_refl _)).mono ?_
  rintro _ _ ⟨rfl, rfl⟩
  rw [List.take_length, List.drop_length, hmatch, decide_eq_true rfl]
  apply firstWrite_obeys (Or.inr rfl) rfl (by simp)
  exact @write_obeys v .signature _ (_, _) [] _ _ ⟨rfl, rfl⟩

theorem cString_eq_self {text : Bytes} (h : 0 ∉ text) : cString text = text :=
  List.takeWhile_eq_self_iff.mpr fun _ hb => decide_eq_true (fun hzero => h (hzero ▸ hb))

theorem recvAuthorization_obeys (hlen : v.sessionId.length < 2 ^ 31) :
    (dialogue v).Obeys (.reading .authorization (.password v.sessionId) true (Record.password v.sessionId).payload)
      recvAuthorization (fun p out => p = .reading .authorization (.password v.sessionId) true (v.sessionId.drop 255) ∧
        out = some (v.sessionId.take 255)) := by
  have hword : (UInt32.ofNat v.sessionId.length).toNat = v.sessionId.length := Memory.toNat_ofNat (by omega)
  have hdrop : v.sessionId.drop (min v.sessionId.length 255) = v.sessionId.drop 255 := by
    rcases Nat.le_total v.sessionId.length 255 with hle | hle
    · rw [Nat.min_eq_left hle, List.drop_length, List.drop_eq_nil_of_le hle]
    · rw [Nat.min_eq_right hle]
  have htake : v.sessionId.take (min v.sessionId.length 255) = v.sessionId.take 255 := by
    rcases Nat.le_total v.sessionId.length 255 with hle | hle
    · rw [Nat.min_eq_left hle, List.take_length, List.take_of_length_le hle]
    · rw [Nat.min_eq_right hle]
  apply recvWord_obeys
  simp only [hword]
  rw [Monitor.obeys_bind]
  refine (tcpReadAll_obeys (Nat.min_le_left _ _)).mono ?_
  rintro _ _ ⟨rfl, rfl⟩
  have hread : ¬ (v.sessionId.take (min v.sessionId.length 255)).length ≠ min v.sessionId.length 255 := by
    rw [List.length_take]
    omega
  rw [if_neg hread, hdrop, htake]
  exact ⟨rfl, rfl⟩

theorem password_obeys (hnul : 0 ∉ v.sessionId) (hlen : v.sessionId.length < 2 ^ 31) :
    (dialogue v).Obeys (.reading .authorization (.password v.sessionId) false (Record.password v.sessionId).payload)
      (dispatchRequest v false Req.authorization.code) (Rests .screenInfo) := by
  unfold dispatchRequest
  rw [if_neg (by simp)]
  apply @dispatch_obeys v .authorization (.password v.sessionId) _ _ _ (by decide)
  simp only [Req.ofCode_code]
  rw [Monitor.obeys_bind]
  refine (recvAuthorization_obeys hlen).mono ?_
  rintro _ _ ⟨rfl, rfl⟩
  have hnul' : 0 ∉ v.sessionId.take 255 := fun hmem => hnul (List.mem_of_mem_take hmem)
  by_cases hle : v.sessionId.length ≤ 255
  · have hsame : ¬ (!strcmp v.sessionId v.sessionId) = true := by
      rw [strcmp, decide_eq_true rfl]
      decide
    simp only [List.drop_eq_nil_of_le hle, List.take_of_length_le hle]
    rw [if_neg hsame]
    exact @firstWrite_obeys v .authorization _ _ true _ _ [] _ _ (Or.inl rfl) rfl (by simp) (Or.inl ⟨rfl, rfl⟩)
  · have hother : (!strcmp v.sessionId (v.sessionId.take 255)) = true := by
      rw [strcmp, cString_eq_self hnul, cString_eq_self hnul', Bool.not_eq_true', decide_eq_false_iff_not]
      intro heq
      have hlength := congrArg List.length heq
      rw [List.length_take] at hlength
      omega
    simp only
    rw [if_pos hother]
    refine act_obeys rfl ?_
    rintro _ _ rfl
    refine act_obeys ⟨rfl, rfl, by omega⟩ ?_
    rintro _ _ rfl
    exact finish_obeys _

theorem authorization_obeys (hnul : 0 ∉ v.sessionId) (hlen : v.sessionId.length < 2 ^ 31) :
    (dialogue v).Obeys (.idle .authorization false) (body v (.serve false)) (Rests .screenInfo) := by
  refine act_obeys trivial ?_
  rintro started _ rfl
  cases started with
  | false => exact finish_obeys _
  | true =>
    refine recvRecord_obeys ?_ (fun hx => nomatch hx)
    rintro q rfl
    exact password_obeys hnul hlen

def AtLoop (loop : Loop) (p : Position) : Prop :=
  loop = .serve false ∧ p = .idle .authorization false ∨
    ∃ x : Exchange, x.authorized = true ∧ loop = .serve true ∧ p = .idle x false

def AtEnd (p : Position) (_ : Unit) : Prop := p = .ended

theorem Rests.atLoop {x : Exchange} {p : Position} {out : Loop ⊕ Unit} (hx : x.authorized = true) (h : Rests x p out) :
    Monitor.LoopPost AtLoop AtEnd p out := by
  rcases h with ⟨rfl, rfl⟩ | ⟨rfl, rfl⟩
  · exact Or.inr ⟨x, hx, rfl, rfl⟩
  · exact (rfl : Position.ended = .ended)

theorem body_obeys (hnul : 0 ∉ v.sessionId) (hlen : v.sessionId.length < 2 ^ 31) (loop : Loop) (p : Position)
    (h : AtLoop loop p) : (dialogue v).Obeys p (body v loop) (Monitor.LoopPost AtLoop AtEnd) := by
  rcases h with ⟨rfl, rfl⟩ | ⟨x, hx, rfl, rfl⟩
  · exact (authorization_obeys hnul hlen).mono fun _ _ => Rests.atLoop rfl
  · have hnext : x.next.authorized = true := by cases x <;> first | rfl | cases hx
    exact (serve_obeys hx).mono fun _ _ => Rests.atLoop hnext

theorem projectorThread_obeys (hserver : v.server = true) :
    (dialogue v).Obeys (.idle .signature true) (projectorThread v) (Monitor.LoopPost AtLoop AtEnd) := by
  unfold projectorThread
  rw [hserver, Monitor.obeys_bind]
  apply checkRemoteSig_obeys.mono
  rintro _ _ ⟨rfl, rfl⟩
  exact Or.inl ⟨rfl, rfl⟩

end Start

end Dialogue
end Projector
end LilitunRemote

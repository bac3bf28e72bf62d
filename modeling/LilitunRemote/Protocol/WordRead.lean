import LilitunRemote.Protocol.Wire
import LilitunRemote.Transport.WebSocket

/-! # Words under any segmentation

`recv_uint32` of the control server is one `tcp_read` of four bytes, that of the
projector repeats `tcp_read` until the four are there. The transport may end every
`tcp_read` after its first byte.
-/
namespace LilitunRemote
namespace WordRead

abbrev Receive (σ α : Type) := σ → Option α × σ

section Requests
variable {σ : Type} (recvUint32 : Receive σ UInt32)

def recvWords : ℕ → Receive σ (List UInt32)
  | 0, s => (some [], s)
  | n + 1, s =>
    match recvUint32 s with
    | (none, s) => (none, s)
    | (some data, s) =>
      match recvWords n s with
      | (none, s) => (none, s)
      | (some words, s) => (some (data :: words), s)

/-- `do_req_initial` after its request has been sent, or has not. -/
def recvInitial (req : Req) (sent : Bool) : Receive σ Unit := fun s =>
  if !sent then (none, s)
  else
    match recvUint32 s with
    | (none, s) => (none, s)
    | (some tmp, s) => if tmp ≠ req.code then (none, s) else (some (), s)

def recvScreenInfo (sent : Bool) : Receive σ (List UInt32) := fun s =>
  match recvInitial recvUint32 .screenInfo sent s with
  | (none, s) => (none, s)
  | (some _, s) => recvWords recvUint32 4 s

def recvUpdateRegion : Receive σ (List UInt32) := recvWords recvUint32 6

end Requests

/-- The bytes still to come, and how many bytes after its first each `tcp_read` returns at most. -/
structure Segments where
  bytes : Bytes
  shorts : ℕ → ℕ

namespace Segments

def tcpRead (s : Segments) (len : ℕ) : Bytes × Segments :=
  let got := s.bytes.take (min len (s.shorts 0 + 1))
  (got, ⟨s.bytes.drop got.length, fun k => s.shorts (k + 1)⟩)

/-- What is still to come arrives in time; at the end of the stream `select` waits in vain. -/
def selectReadTimeout (s : Segments) : ℤ := if s.bytes = [] then 0 else 1

end Segments

namespace ControlServer

def recvUint32 : Receive Segments UInt32 := fun s =>
  if s.selectReadTimeout = 0 then (none, s)
  else
    let (tmp, s) := s.tcpRead 4
    if tmp.length ≠ 4 then (none, s) else (some (ntohl tmp), s)

end ControlServer

namespace Projector

def readLoop : ℕ → ℕ → Bytes → Segments → Bytes × Segments
  | 0, _, total, s => (total, s)
  | fuel + 1, avail, total, s =>
    if avail = 0 then (total, s)
    else
      let (got, s) := s.tcpRead avail
      if got.length = 0 then (total, s) else readLoop fuel (avail - got.length) (total ++ got) s

def tcpReadAll (s : Segments) (len : ℕ) : Bytes × Segments := readLoop len len [] s

def recvUint32 : Receive Segments UInt32 := fun s =>
  let (tmp, s) := tcpReadAll s 4
  if tmp.length ≠ 4 then (none, s) else (some (ntohl tmp), s)

end Projector

def ReadsWord (recvUint32 : Receive Segments UInt32) (s : Segments) : Prop :=
  (recvUint32 s).1 = some (ntohl (s.bytes.take 4)) ∧ (recvUint32 s).2.bytes = s.bytes.drop 4

def ReadsReply (receive : Receive Segments (List UInt32)) (s : Segments) (words : List UInt32) (rest : Bytes) : Prop :=
  (receive s).1 = some words ∧ (receive s).2.bytes = rest

def Segments.WholeWord (s : Segments) (k : ℕ) : Prop := 4 ≤ s.shorts k + 1

instance (s : Segments) (k : ℕ) : Decidable (s.WholeWord k) := inferInstanceAs (Decidable (_ ≤ _))

section
variable {s : Segments}

/-! ## The projector -/

theorem tcpRead_append (len : ℕ) : (s.tcpRead len).1 ++ (s.tcpRead len).2.bytes = s.bytes := by
  simp only [Segments.tcpRead, List.length_take]
  rw [List.take_eq_take_min, List.take_append_drop]

theorem length_tcpRead (len : ℕ) : (s.tcpRead len).1.length = min (min len (s.shorts 0 + 1)) s.bytes.length :=
  List.length_take

/-- However the transport cuts the stream, the loop collects the next bytes of it. -/
theorem readLoop_bytes {fuel avail : ℕ} (hfuel : avail ≤ fuel) (total : Bytes) (s : Segments) (henough : avail ≤ s.bytes.length) :
    (Projector.readLoop fuel avail total s).1 = total ++ s.bytes.take avail ∧
      (Projector.readLoop fuel avail total s).2.bytes = s.bytes.drop avail := by
  induction fuel generalizing avail total s with
  | zero =>
    obtain rfl : avail = 0 := by omega
    simp [Projector.readLoop]
  | succ fuel ih =>
    unfold Projector.readLoop
    split
    · next hzero => simp [hzero]
    · next hpos =>
      have hlen := length_tcpRead (s := s) avail
      have hall := tcpRead_append (s := s) avail
      obtain ⟨got, rest, hread⟩ : ∃ got rest, s.tcpRead avail = (got, rest) := ⟨_, _, rfl⟩
      simp only [hread] at hlen hall ⊢
      rw [if_neg (by omega)]
      have hrest : avail - got.length ≤ rest.bytes.length := by
        have := congrArg List.length hall
        rw [List.length_append] at this
        omega
      obtain ⟨hgot, hleft⟩ := ih (by omega) (total ++ got) rest hrest
      have hsplit : avail = got.length + (avail - got.length) := by omega
      rw [hgot, hleft, ← hall]
      constructor
      · conv_rhs => rw [hsplit, List.take_length_add_append]
        exact List.append_assoc _ _ _
      · conv_rhs => rw [hsplit, List.drop_length_add_append]

theorem projector_readsWord (henough : 4 ≤ s.bytes.length) : ReadsWord Projector.recvUint32 s := by
  obtain ⟨hgot, hleft⟩ := readLoop_bytes (le_refl 4) [] s henough
  rw [List.nil_append] at hgot
  have hlen : ¬ (s.bytes.take 4).length ≠ 4 := by
    rw [List.length_take_of_le henough]
    omega
  simp only [ReadsWord, Projector.recvUint32, Projector.tcpReadAll, hgot]
  rw [if_neg hlen]
  exact ⟨rfl, hleft⟩

/-! ## The control server -/

theorem selectReadTimeout_ne_zero (hs : s.bytes ≠ []) : s.selectReadTimeout ≠ 0 := by
  rw [Segments.selectReadTimeout, if_neg hs]
  decide

/-- The single `tcp_read` of four bytes is enough exactly if it returns them all. -/
theorem controlServer_readsWord_iff (henough : 4 ≤ s.bytes.length) :
    ReadsWord ControlServer.recvUint32 s ↔ s.WholeWord 0 := by
  have hne : s.bytes ≠ [] := by
    intro h
    rw [h] at henough
    cases henough
  have hlen := length_tcpRead (s := s) 4
  simp only [ReadsWord, ControlServer.recvUint32, Segments.WholeWord]
  rw [if_neg (selectReadTimeout_ne_zero hne)]
  constructor
  · intro h
    by_contra hshort
    rw [if_pos (by omega)] at h
    cases h.1
  · intro hwhole
    rw [if_neg (by omega)]
    have hmin : min 4 (s.shorts 0 + 1) = 4 := by omega
    have hfour : (s.bytes.take 4).length = 4 := List.length_take_of_le henough
    simp only [Segments.tcpRead, hmin, hfour]
    exact ⟨trivial, trivial⟩

theorem controlServer_word {shorts : ℕ → ℕ} (hwhole : 4 ≤ shorts 0 + 1) (w : UInt32) (rest : Bytes) :
    ControlServer.recvUint32 ⟨htonl w ++ rest, shorts⟩ = (some w, ⟨rest, fun k => shorts (k + 1)⟩) := by
  have hne : htonl w ++ rest ≠ [] := List.append_ne_nil_of_left_ne_nil (htonl_ne_nil w) rest
  have hmin : min 4 (shorts 0 + 1) = 4 := by omega
  have htake : (htonl w ++ rest).take 4 = htonl w := List.take_left' (htonl_length w)
  have hdrop : (htonl w ++ rest).drop 4 = rest := List.drop_left' (htonl_length w)
  rw [ControlServer.recvUint32, if_neg (selectReadTimeout_ne_zero hne)]
  simp only [Segments.tcpRead, hmin, htake, htonl_length, ntohl_htonl, hdrop]
  rfl

theorem controlServer_torn {shorts : ℕ → ℕ} (hshort : ¬ 4 ≤ shorts 0 + 1) (bytes : Bytes) :
    (ControlServer.recvUint32 ⟨bytes, shorts⟩).1 = none := by
  have hlen := length_tcpRead (s := ⟨bytes, shorts⟩) 4
  rw [ControlServer.recvUint32]
  split
  · rfl
  · dsimp only at hlen ⊢
    rw [if_pos (by omega)]

theorem readsReply_cons {recvUint32 : Receive Segments UInt32} {s t : Segments} {w : UInt32} (h : recvUint32 s = (some w, t))
    (words : List UInt32) (rest : Bytes) :
    ReadsReply (recvWords recvUint32 (words.length + 1)) s (w :: words) rest ↔
      ReadsReply (recvWords recvUint32 words.length) t words rest := by
  simp only [ReadsReply, recvWords, h]
  split
  · next hrest =>
    rw [hrest]
    simp
  · next hrest =>
    rw [hrest]
    simp

theorem not_readsReply_cons {recvUint32 : Receive Segments UInt32} {s : Segments} (h : (recvUint32 s).1 = none) (n : ℕ)
    (words : List UInt32) (rest : Bytes) : ¬ ReadsReply (recvWords recvUint32 (n + 1)) s words rest := by
  obtain ⟨t, ht⟩ : ∃ t, recvUint32 s = (none, t) := ⟨_, Prod.ext h rfl⟩
  simp [ReadsReply, recvWords, ht]

/-- The words of a reply are read one by one, each of them whole. -/
theorem controlServer_readsReply_iff (words : List UInt32) (rest : Bytes) (shorts : ℕ → ℕ) :
    ReadsReply (recvWords ControlServer.recvUint32 words.length) ⟨wordBytes words ++ rest, shorts⟩ words rest ↔
      ∀ k < words.length, 4 ≤ shorts k + 1 := by
  induction words generalizing shorts with
  | nil => simp [ReadsReply, recvWords]
  | cons w words ih =>
    rw [wordBytes_cons, List.append_assoc, List.length_cons]
    by_cases hwhole : 4 ≤ shorts 0 + 1
    · rw [readsReply_cons (controlServer_word hwhole w _), ih]
      exact ⟨fun h k hk => Nat.casesOn k (fun _ => hwhole) (fun k hk => h k (Nat.lt_of_succ_lt_succ hk)) hk,
        fun h k hk => h (k + 1) (Nat.succ_lt_succ hk)⟩
    · constructor
      · intro h
        exact absurd h (not_readsReply_cons (controlServer_torn hwhole _) _ _ _)
      · intro h
        exact absurd (h 0 (Nat.succ_pos _)) hwhole

theorem controlServer_screenInfo_iff {info : List UInt32} (hinfo : info.length = 4) (rest : Bytes) (shorts : ℕ → ℕ) :
    ReadsReply (recvScreenInfo ControlServer.recvUint32 true) ⟨wordBytes (Req.screenInfo.code :: info) ++ rest, shorts⟩
        info rest ↔
      ∀ k < 5, 4 ≤ shorts k + 1 := by
  have hwords := controlServer_readsReply_iff (Req.screenInfo.code :: info) rest shorts
  rw [List.length_cons, hinfo] at hwords
  rw [← hwords, wordBytes_cons, List.append_assoc]
  by_cases hwhole : 4 ≤ shorts 0 + 1
  · have hecho := controlServer_word hwhole Req.screenInfo.code (wordBytes info ++ rest)
    have hcons := readsReply_cons hecho info rest
    rw [hinfo] at hcons
    rw [hcons]
    simp [ReadsReply, recvScreenInfo, recvInitial, hecho]
  · have htorn := controlServer_torn hwhole (htonl Req.screenInfo.code ++ (wordBytes info ++ rest))
    obtain ⟨t, ht⟩ : ∃ t, ControlServer.recvUint32 ⟨htonl Req.screenInfo.code ++ (wordBytes info ++ rest), shorts⟩ = (none, t) :=
      ⟨_, Prod.ext htorn rfl⟩
    refine iff_of_false ?_ (not_readsReply_cons htorn _ _ _)
    simp [ReadsReply, recvScreenInfo, recvInitial, ht]

end

/-- Every `tcp_read` of a WebSocket channel is a `tcp_read` of the bytes written to it, cut somewhere. -/
theorem webSocket_segments {client : Bool} {cur : Bytes} {later : List WebSocket.Written} {ws : WebSocket.State}
    {stream : Bytes} (h : WebSocket.Inside client cur later ws stream) {len : ℕ} (hlen : 0 < len)
    (hmore : cur ++ (later.map WebSocket.Written.msg).flatten ≠ []) (short : ℕ) :
    ∃ n cur' later', (WebSocket.tcpRead ws stream len short).1 =
        (Segments.tcpRead ⟨cur ++ (later.map WebSocket.Written.msg).flatten, fun _ => n⟩ len).1 ∧
      cur' ++ (later'.map WebSocket.Written.msg).flatten =
        (Segments.tcpRead ⟨cur ++ (later.map WebSocket.Written.msg).flatten, fun _ => n⟩ len).2.bytes ∧
      WebSocket.Inside client cur' later' (WebSocket.tcpRead ws stream len short).2.1
        (WebSocket.tcpRead ws stream len short).2.2 := by
  obtain ⟨cur', later', hall, hle, hempty, hinside⟩ := WebSocket.tcpRead_inside h len short
  obtain ⟨got, hgot⟩ : ∃ got, (WebSocket.tcpRead ws stream len short).1 = got := ⟨_, rfl⟩
  rw [hgot] at hall hle hempty
  have hpos : got.length ≠ 0 := by
    intro hzero
    rcases hempty (List.length_eq_zero_iff.mp hzero) with h | h
    · omega
    · exact hmore h
  have hcut : min len (got.length - 1 + 1) = got.length := by omega
  refine ⟨got.length - 1, cur', later', ?_, ?_, hinside⟩
  · rw [hgot, ← hall, Segments.tcpRead]
    simp only [hcut, List.take_left]
  · rw [← hall, Segments.tcpRead]
    simp only [hcut, List.take_left, List.drop_left]

/-- The projector reads every word, however it is cut; the control server reads it, and the
replies made of words, if and only if each of its `tcp_read` calls returns a whole word. -/
theorem words_read_iff (s : Segments) (info region : List UInt32) (rest : Bytes) (shorts : ℕ → ℕ) :
    (4 ≤ s.bytes.length →
      ReadsWord Projector.recvUint32 s ∧ (ReadsWord ControlServer.recvUint32 s ↔ s.WholeWord 0)) ∧
    (info.length = 4 →
      (ReadsReply (recvScreenInfo ControlServer.recvUint32 true) ⟨wordBytes (Req.screenInfo.code :: info) ++ rest, shorts⟩
          info rest ↔
        ∀ k < 5, Segments.WholeWord ⟨wordBytes (Req.screenInfo.code :: info) ++ rest, shorts⟩ k)) ∧
    (region.length = 6 →
      (ReadsReply (recvUpdateRegion ControlServer.recvUint32) ⟨wordBytes region ++ rest, shorts⟩ region rest ↔
        ∀ k < 6, Segments.WholeWord ⟨wordBytes region ++ rest, shorts⟩ k)) := by
  refine ⟨?_, ?_, ?_⟩
  · intro hs
    exact ⟨projector_readsWord hs, controlServer_readsWord_iff hs⟩
  · intro hinfo
    exact controlServer_screenInfo_iff hinfo rest shorts
  · intro hregion
    have hwords := controlServer_readsReply_iff region rest shorts
    rw [hregion] at hwords
    exact hwords

/-- The six words of a region header that come one by one. -/
theorem whole_region_read :
    ReadsReply (recvUpdateRegion ControlServer.recvUint32) ⟨wordBytes [0, 0, 8, 8, 1, 256] ++ [7], fun _ => 3⟩
      [0, 0, 8, 8, 1, 256] [7] :=
  ((words_read_iff ⟨[], fun _ => 3⟩ [] [0, 0, 8, 8, 1, 256] [7] (fun _ => 3)).2.2 rfl).mpr (fun _ _ => le_refl 4)

/-- A word of four bytes that comes as two and two. -/
def tornWord : Segments := ⟨[0, 0, 1, 2], fun _ => 1⟩

theorem torn_word_lost :
    4 ≤ tornWord.bytes.length ∧ ReadsWord Projector.recvUint32 tornWord ∧ ¬ ReadsWord ControlServer.recvUint32 tornWord := by
  refine ⟨by decide, projector_readsWord (by decide), ?_⟩
  rw [controlServer_readsWord_iff (by decide)]
  decide

end WordRead
end LilitunRemote

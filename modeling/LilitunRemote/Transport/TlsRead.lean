import LilitunRemote.Foundation.Records
import LilitunRemote.Transport.WebSocket

/-! # Words below a TLS layer

With `projectorusessl` the bytes of a WebSocket come through `SSL_read`, which takes a
whole record from the socket and keeps the rest of it. `recv_uint32` of the control server asks
`select` whether the socket has bytes before it reads, and does not see what the layer keeps.
-/
namespace LilitunRemote
namespace TlsRead
open Memory WebSocket RecordReader

structure Channel where
  ws : WebSocket.State
  tls : RecordReader UInt8

/-- `select_read_timeout`: only records still in the socket make it readable. -/
def selectReadTimeout (channel : Channel) : ℤ := if channel.tls.records = [] then 0 else 1

def recvLengthAndMask (b0 b1 : UInt8) (h : Header) (tls : RecordReader UInt8) : ℤ × Header × RecordReader UInt8 :=
  let (bytes, tls) := if lengthBytes b1 = 0 then ([], tls) else tls.read (lengthBytes b1)
  let u := WebSocket.store h.u 0 bytes
  if bytes.length ≠ lengthBytes b1 then (0, ⟨b0, b1, u⟩, tls)
  else
    let len : ℤ := if lengthBytes b1 = 0 then (b1 &&& 0x7f).toNat else wrapInt (ofBigEndian bytes)
    if b1 &&& 0x80 = 0 then (len, ⟨b0, b1, u⟩, tls)
    else
      let (mask, tls) := tls.read 4
      let u := WebSocket.store u (maskOffset b1) mask
      if mask.length ≠ 4 then (0, ⟨b0, b1, u⟩, tls) else (len, ⟨b0, b1, u⟩, tls)

/-- `recv_ws_header` with `SSL_read` for its reads; an empty continuation frame is skipped. -/
def recvWsHeader : ℕ → Header → RecordReader UInt8 → ℤ × Header × RecordReader UInt8
  | 0, h, tls => (0, h, tls)
  | fuel + 1, h, tls =>
    match tls.read 1 with
    | ([b0], tls) =>
      match tls.read 1 with
      | ([b1], tls) =>
        if b0 ≠ 0x82 ∧ b0 ≠ 0x88 ∧ b0 ≠ 0x00 then (0, ⟨b0, b1, h.u⟩, tls)
        else if b0 = 0x00 ∧ b1 &&& 0x7f = 0 then recvWsHeader fuel ⟨b0, b1, h.u⟩ tls
        else if b0 = 0x88 then (0, ⟨b0, b1, h.u⟩, (tls.read b1.toNat).2)
        else recvLengthAndMask b0 b1 h tls
      | (_, tls) => (0, { h with b0 := b0 }, tls)
    | (_, tls) => (0, h, tls)

def openFrame (channel : Channel) : ℤ × Channel :=
  if channel.ws.avail > 0 then (channel.ws.avail, channel)
  else
    let (len, header, tls) := recvWsHeader channel.tls.remaining.length channel.ws.header channel.tls
    if len = 0 then (0, ⟨{ channel.ws with header := header }, tls⟩) else (len, ⟨⟨header, len, 0⟩, tls⟩)

def tcpRead (channel : Channel) (len : ℕ) : Bytes × Channel :=
  let (avail, channel) := openFrame channel
  if avail = 0 then ([], channel)
  else
    let (got, tls) := channel.tls.read (if sizeT avail < len then sizeT avail else len)
    (wsMaskData channel.ws got,
      ⟨{ channel.ws with avail := channel.ws.avail - got.length, pos := channel.ws.pos + got.length }, tls⟩)

/-- The ways `recv_uint32` ends: with a word, by its timeout branch, or by a short read. -/
inductive Recv
  | word (data : UInt32)
  | timeout
  | failed
  deriving DecidableEq, Repr

def recvUint32 (channel : Channel) : Recv × Channel :=
  if selectReadTimeout channel = 0 then (.timeout, channel)
  else
    let (tmp, channel) := tcpRead channel 4
    if tmp.length ≠ 4 then (.failed, channel) else (.word (ntohl tmp), channel)

/-- Calls of `recv_uint32` up to the first that fails: the bytes undelivered before each, and how it ended. -/
def recvCalls : ℕ → Channel → List (Bytes × Recv)
  | 0, _ => []
  | n + 1, channel =>
    match recvUint32 channel with
    | (.word data, next) => (channel.tls.remaining, .word data) :: recvCalls n next
    | (r, _) => [(channel.tls.remaining, r)]

/-! ## Replies -/

/-- A reply of the projector: words written at once, and the mask key drawn for them. -/
structure Message where
  key : Bytes
  words : List UInt32
  key_length : key.length = 4
  nonempty : words ≠ []
  length_lt : (wordBytes words).length < 2 ^ 31

def Message.frame (m : Message) : Bytes := WebSocket.frame true m.key (wordBytes m.words)

def headFields (len : ℕ) : List ℕ := [1, 1, (extendedLength len).length, 4]

def Message.fields (m : Message) : List (List ℕ) :=
  (headFields (wordBytes m.words).length ++ [4]) :: List.replicate (m.words.length - 1) [4]

/-- When a word begins, some record starts here or later, and none starts inside a field of the word. -/
def Readable (starts : List ℕ) : ℕ → List (List ℕ) → Prop
  | _, [] => True
  | p, fields :: words => (∃ c ∈ starts, p ≤ c) ∧ FieldsUncut starts p fields ∧ Readable starts (p + fields.sum) words

instance decidableReadable (starts : List ℕ) : (p : ℕ) → (words : List (List ℕ)) → Decidable (Readable starts p words)
  | _, [] => isTrue trivial
  | p, fields :: words =>
    have := decidableReadable starts (p + fields.sum) words
    inferInstanceAs (Decidable ((∃ c ∈ starts, p ≤ c) ∧ FieldsUncut starts p fields ∧ Readable starts (p + fields.sum) words))

def DeliversWords (channel : Channel) (words : List UInt32) : Prop :=
  (recvCalls words.length channel).map Prod.snd = words.map Recv.word ∧
    ∀ call ∈ recvCalls words.length channel, call.2 = .timeout → call.1 = []

section Header
variable {tls : RecordReader UInt8} {p : ℕ} {key msg rest : Bytes}

theorem uncut_one (starts : List ℕ) (p : ℕ) : Uncut starts p 1 := by
  intro c _ hcut
  omega

/-- The two fixed bytes of a binary frame are never cut. -/
theorem recvWsHeader_head (fuel : ℕ) (h : Header) (hrem : tls.remaining = WebSocket.frame true key msg ++ rest) :
    ∃ t, recvWsHeader (fuel + 1) h tls = recvLengthAndMask 0x82 (secondByte true msg.length) h t ∧
      t.remaining = extendedLength msg.length ++ (key ++ (masked (some key) 0 msg ++ rest)) ∧
      Later (tls.starts p) (p + 1 + 1) (t.starts (p + 1 + 1)) := by
  have hsplit : tls.remaining =
      [0x82] ++ ([secondByte true msg.length] ++ (extendedLength msg.length ++ (key ++ (masked (some key) 0 msg ++ rest)))) := by
    rw [hrem, WebSocket.frame]
    simp [keyOf]
  obtain ⟨t1, hread1, hrem1, hstarts1⟩ := read_front hsplit (List.cons_ne_nil _ _) (uncut_one _ p)
  obtain ⟨t2, hread2, hrem2, hstarts2⟩ := read_front hrem1 (List.cons_ne_nil _ _) (uncut_one _ (p + 1))
  refine ⟨t2, ?_, hrem2, ?_⟩
  · simp only [List.length_singleton] at hread1 hread2
    rw [recvWsHeader, hread1]
    simp only [hread2]
    rw [if_neg (by decide), if_neg (by simp), if_neg (by decide)]
  · exact hstarts1.trans hstarts2 (Nat.le_add_right _ _)

/-- The extended length, which short frames do without. -/
theorem read_extendedLength {t : RecordReader UInt8} (hrem : t.remaining = extendedLength msg.length ++ rest)
    (huncut : Uncut (t.starts p) p (extendedLength msg.length).length) :
    ∃ t', (if lengthBytes (secondByte true msg.length) = 0 then ([], t) else t.read (lengthBytes (secondByte true msg.length))) =
        (extendedLength msg.length, t') ∧ t'.remaining = rest ∧
      Later (t.starts p) (p + (extendedLength msg.length).length) (t'.starts (p + (extendedLength msg.length).length)) := by
  rw [(secondByte_layout true msg.length).1]
  by_cases hnil : extendedLength msg.length = []
  · rw [hnil] at hrem ⊢
    refine ⟨t, rfl, hrem, fun c => ?_⟩
    simp only [List.length_nil, Nat.add_zero]
    constructor
    · intro hc
      have hle := le_of_mem_startsFrom hc
      exact ⟨hc, by omega⟩
    · exact And.left
  · rw [if_neg (fun h => hnil (List.length_eq_zero_iff.mp h))]
    exact read_front hrem hnil huncut

theorem recvLengthAndMask_whole (hkey : key.length = 4) (hlen : msg.length < 2 ^ 31) (h : Header) {t : RecordReader UInt8}
    (hrem : t.remaining = extendedLength msg.length ++ (key ++ rest))
    (hextended : Uncut (t.starts p) p (extendedLength msg.length).length)
    (hmask : Uncut (t.starts p) (p + (extendedLength msg.length).length) 4) :
    ∃ header t', recvLengthAndMask 0x82 (secondByte true msg.length) h t = ((msg.length : ℤ), header, t') ∧
      header.Masks (some key) ∧ t'.remaining = rest ∧
      Later (t.starts p) (p + (extendedLength msg.length).length + 4)
        (t'.starts (p + (extendedLength msg.length).length + 4)) := by
  obtain ⟨hflag, _⟩ := secondByte_spec true msg.length
  obtain ⟨hlayout, hoffset⟩ := secondByte_layout true msg.length
  have hmasked : ¬ secondByte true msg.length &&& 0x80 = 0 := fun h => absurd (hflag.mp h) (by decide)
  obtain ⟨t1, hread1, hrem1, hstarts1⟩ := read_extendedLength hrem hextended
  have hmask1 : Uncut (t1.starts (p + (extendedLength msg.length).length)) (p + (extendedLength msg.length).length) key.length := by
    rw [hkey]
    intro c hc
    exact hmask c ((hstarts1 c).mp hc).1
  have hne : key ≠ [] := by
    intro hnil
    rw [hnil] at hkey
    cases hkey
  obtain ⟨t2, hread2, hrem2, hstarts2⟩ := read_front hrem1 hne hmask1
  have hstored : (WebSocket.store h.u 0 (extendedLength msg.length)).take (extendedLength msg.length).length =
      extendedLength msg.length := by
    rw [WebSocket.store, List.take_zero, List.nil_append, List.take_left]
  rw [hkey] at hread2 hstarts2
  refine ⟨⟨0x82, secondByte true msg.length, WebSocket.store (WebSocket.store h.u 0 (extendedLength msg.length))
    (extendedLength msg.length).length key⟩, t2, ?_, ⟨hmasked, mask_store hoffset hstored hkey⟩, hrem2, ?_⟩
  · simp only [recvLengthAndMask, hread1]
    rw [if_neg (fun hne => hne hlayout.symm), secondByte_length hlen, if_neg hmasked]
    simp only [hread2]
    rw [if_neg (fun hne => hne hkey), hoffset]
  · exact hstarts1.trans hstarts2 (Nat.le_add_right _ _)

theorem recvLengthAndMask_cut (h : Header) {t : RecordReader UInt8}
    (hrem : t.remaining = extendedLength msg.length ++ (key ++ rest))
    (hcut : ¬ (Uncut (t.starts p) p (extendedLength msg.length).length ∧
      Uncut (t.starts p) (p + (extendedLength msg.length).length) 4)) :
    (recvLengthAndMask 0x82 (secondByte true msg.length) h t).1 = 0 := by
  obtain ⟨hflag, _⟩ := secondByte_spec true msg.length
  obtain ⟨hlayout, _⟩ := secondByte_layout true msg.length
  have hmasked : ¬ secondByte true msg.length &&& 0x80 = 0 := fun h => absurd (hflag.mp h) (by decide)
  by_cases hextended : Uncut (t.starts p) p (extendedLength msg.length).length
  · obtain ⟨t1, hread1, hrem1, hstarts1⟩ := read_extendedLength hrem hextended
    have hshort : (t1.read 4).1.length < 4 := by
      apply read_cut (p := p + (extendedLength msg.length).length)
      intro huncut
      apply hcut
      refine ⟨hextended, fun c hc hin => ?_⟩
      exact huncut c ((hstarts1 c).mpr ⟨hc, hin.1.le⟩) hin
    simp only [recvLengthAndMask, hread1]
    rw [if_neg (fun hne => hne hlayout.symm), if_neg hmasked, if_pos (by omega)]
  · have hshort := read_cut hextended
    have hpos : ¬ lengthBytes (secondByte true msg.length) = 0 := by
      rw [hlayout]
      omega
    rw [← hlayout] at hshort
    rw [recvLengthAndMask, if_neg hpos]
    simp only
    rw [if_pos (by omega)]

theorem recvWsHeader_whole (hkey : key.length = 4) (hlen : msg.length < 2 ^ 31) (fuel : ℕ) (h : Header)
    (hrem : tls.remaining = WebSocket.frame true key msg ++ rest)
    (huncut : FieldsUncut (tls.starts p) p (headFields msg.length)) :
    ∃ header t, recvWsHeader (fuel + 1) h tls = ((msg.length : ℤ), header, t) ∧ header.Masks (some key) ∧
      t.remaining = masked (some key) 0 msg ++ rest ∧
      Later (tls.starts p) (p + (headFields msg.length).sum) (t.starts (p + (headFields msg.length).sum)) := by
  obtain ⟨t, hhead, hrem', hlater⟩ := @recvWsHeader_head tls p key msg rest fuel h hrem
  obtain ⟨_, _, hextended, hmask, _⟩ := huncut
  rw [uncut_congr (fun c hc => hlater.mem_iff hc)] at hextended
  rw [uncut_congr (fun c hc => hlater.mem_iff (by omega))] at hmask
  obtain ⟨header, t', hrest, hmasks, hrem'', hlater'⟩ := recvLengthAndMask_whole hkey hlen h hrem' hextended hmask
  have hsum : p + (headFields msg.length).sum = p + 1 + 1 + (extendedLength msg.length).length + 4 := by
    simp only [headFields, List.sum_cons, List.sum_nil]
    omega
  refine ⟨header, t', hhead.trans hrest, hmasks, hrem'', ?_⟩
  rw [hsum]
  exact hlater.trans hlater' (by omega)

theorem recvWsHeader_cut (fuel : ℕ) (h : Header) (hrem : tls.remaining = WebSocket.frame true key msg ++ rest)
    (hcut : ¬ FieldsUncut (tls.starts p) p (headFields msg.length)) : (recvWsHeader (fuel + 1) h tls).1 = 0 := by
  obtain ⟨t, hhead, hrem', hlater⟩ := @recvWsHeader_head tls p key msg rest fuel h hrem
  rw [hhead]
  apply recvLengthAndMask_cut h hrem'
  rintro ⟨hextended, hmask⟩
  rw [← uncut_congr (fun c hc => hlater.mem_iff hc)] at hextended
  rw [← uncut_congr (fun c hc => hlater.mem_iff (by omega))] at hmask
  exact hcut ⟨uncut_one _ _, uncut_one _ _, hextended, hmask, trivial⟩

end Header

/-! ## One word -/

/-- The channel holds a reply, with the words `cur` left of the message it is in. -/
structure Carried (cur : List UInt32) (later : List Message) (channel : Channel) : Prop where
  avail : channel.ws.avail = (wordBytes cur).length
  short : (wordBytes cur).length < 2 ^ 31
  next : ∃ key, ∃ pos : ℕ,
    channel.tls.remaining = masked (some key) pos (wordBytes cur) ++ later.flatMap Message.frame ∧
      (cur ≠ [] → channel.ws.header.Masks (some key) ∧ channel.ws.pos = pos)

def wordFields (cur : List UInt32) (later : List Message) : List (List ℕ) :=
  List.replicate cur.length [4] ++ later.flatMap Message.fields

section Word
variable {channel opened : Channel} {w : UInt32} {cur : List UInt32} {later : List Message} {p : ℕ}

/-- The part of `tcp_read` after the frame is open, for the four bytes of a word. -/
theorem tcpRead_open (hopen : openFrame channel = (opened.ws.avail, opened)) (h : Carried (w :: cur) later opened) :
    tcpRead channel 4 = (wsMaskData opened.ws (opened.tls.read 4).1,
      ⟨{ opened.ws with
          avail := opened.ws.avail - (opened.tls.read 4).1.length
          pos := opened.ws.pos + (opened.tls.read 4).1.length }, (opened.tls.read 4).2⟩) := by
  have hlen : opened.ws.avail = ((wordBytes cur).length + 4 : ℕ) := by
    rw [h.avail, wordBytes_cons, List.length_append, htonl_length, Nat.add_comm]
  have hshort := h.short
  rw [wordBytes_cons, List.length_append, htonl_length] at hshort
  have hsize : sizeT opened.ws.avail = (wordBytes cur).length + 4 := by
    rw [sizeT, hlen, Int.emod_eq_of_lt (by omega) (by omega), Int.toNat_natCast]
  rw [tcpRead, hopen]
  simp only
  rw [if_neg (by rw [hlen]; omega), hsize, if_neg (by omega)]

theorem wsMaskData_length (ws : WebSocket.State) (data : Bytes) : (wsMaskData ws data).length = data.length := by
  rw [wsMaskData]
  split
  · rfl
  · exact List.length_mapIdx

theorem recvUint32_open_whole (hselect : channel.tls.records ≠ []) (hopen : openFrame channel = (opened.ws.avail, opened))
    (h : Carried (w :: cur) later opened) (huncut : Uncut (opened.tls.starts p) p 4) :
    ∃ next, recvUint32 channel = (.word w, next) ∧ Carried cur later next ∧
      Later (opened.tls.starts p) (p + 4) (next.tls.starts (p + 4)) := by
  obtain ⟨key, pos, hrem, hmask⟩ := h.next
  obtain ⟨hmasks, hpos⟩ := hmask (List.cons_ne_nil _ _)
  have hlen : (masked (some key) pos (htonl w)).length = 4 := masked_length _ _ _
  have hfront : opened.tls.remaining =
      masked (some key) pos (htonl w) ++ (masked (some key) (pos + 4) (wordBytes cur) ++ later.flatMap Message.frame) := by
    rw [hrem, wordBytes_cons, masked_append, List.append_assoc, htonl_length]
  have hne : masked (some key) pos (htonl w) ≠ [] := by
    intro hnil
    rw [hnil] at hlen
    cases hlen
  obtain ⟨t, hread, hrest, hlater⟩ := read_front hfront hne (by rw [hlen]; exact huncut)
  rw [hlen] at hread hlater
  have hword : wsMaskData opened.ws (masked (some key) pos (htonl w)) = htonl w := by
    have hws : opened.ws = ⟨opened.ws.header, opened.ws.avail, pos⟩ := by rw [← hpos]
    rw [hws, wsMaskData_eq hmasks, masked_masked]
  have hshort := h.short
  have havail := h.avail
  rw [wordBytes_cons, List.length_append, htonl_length] at hshort havail
  refine ⟨⟨{ opened.ws with avail := opened.ws.avail - (4 : ℕ), pos := opened.ws.pos + (4 : ℕ) }, t⟩, ?_,
    ⟨?_, ?_, key, pos + 4, hrest, ?_⟩, hlater⟩
  · rw [recvUint32, if_neg (by rw [selectReadTimeout, if_neg hselect]; decide), tcpRead_open hopen h, hread, hword, hlen]
    simp only
    rw [if_neg (by rw [htonl_length]; omega), ntohl_htonl]
  · show opened.ws.avail - (4 : ℕ) = (wordBytes cur).length
    omega
  · omega
  · intro _
    refine ⟨hmasks, ?_⟩
    show opened.ws.pos + (4 : ℕ) = (pos + 4 : ℕ)
    omega

theorem recvUint32_open_cut (hselect : channel.tls.records ≠ []) (hopen : openFrame channel = (opened.ws.avail, opened))
    (h : Carried (w :: cur) later opened) (hcut : ¬ Uncut (opened.tls.starts p) p 4) :
    (recvUint32 channel).1 = .failed := by
  have hshort := read_cut hcut
  rw [recvUint32, if_neg (by rw [selectReadTimeout, if_neg hselect]; decide), tcpRead_open hopen h]
  simp only
  rw [if_pos (by rw [wsMaskData_length]; omega)]

theorem openFrame_inside (h : Carried (w :: cur) later channel) : openFrame channel = (channel.ws.avail, channel) := by
  have havail := h.avail
  rw [wordBytes_cons, List.length_append, htonl_length] at havail
  rw [openFrame, if_pos (by omega)]

theorem wordBytes_length (words : List UInt32) : (wordBytes words).length = 4 * words.length := by
  induction words with
  | nil => rfl
  | cons w words ih => simp [ih]; omega

variable {m : Message}

theorem Message.wordBytes_ne_zero (m : Message) : ¬ ((wordBytes m.words).length : ℤ) = 0 := by
  have hpos := List.length_pos_iff.mpr m.nonempty
  rw [wordBytes_length]
  omega

theorem Carried.frame (h : Carried [] (m :: later) channel) :
    channel.tls.remaining = WebSocket.frame true m.key (wordBytes m.words) ++ later.flatMap Message.frame := by
  obtain ⟨key, pos, hrem, _⟩ := h.next
  exact hrem

theorem Carried.fuel (h : Carried [] (m :: later) channel) : ∃ fuel, channel.tls.remaining.length = fuel + 1 := by
  rw [h.frame]
  exact ⟨_, rfl⟩

theorem openFrame_whole (h : Carried [] (m :: later) channel)
    (huncut : FieldsUncut (channel.tls.starts p) p (headFields (wordBytes m.words).length)) :
    ∃ opened, openFrame channel = (opened.ws.avail, opened) ∧ Carried m.words later opened ∧
      Later (channel.tls.starts p) (p + (headFields (wordBytes m.words).length).sum)
        (opened.tls.starts (p + (headFields (wordBytes m.words).length).sum)) := by
  obtain ⟨fuel, hfuel⟩ := h.fuel
  have havail : channel.ws.avail = 0 := h.avail
  obtain ⟨header, t, hrecv, hmasks, hrem, hlater⟩ :=
    recvWsHeader_whole m.key_length m.length_lt fuel channel.ws.header h.frame huncut
  refine ⟨⟨⟨header, (wordBytes m.words).length, 0⟩, t⟩, ?_,
    ⟨rfl, m.length_lt, m.key, 0, hrem, fun _ => ⟨hmasks, rfl⟩⟩, hlater⟩
  rw [openFrame, if_neg (by omega), hfuel, hrecv]
  exact if_neg m.wordBytes_ne_zero

theorem openFrame_cut (h : Carried [] (m :: later) channel)
    (hcut : ¬ FieldsUncut (channel.tls.starts p) p (headFields (wordBytes m.words).length)) : (openFrame channel).1 = 0 := by
  obtain ⟨fuel, hfuel⟩ := h.fuel
  have havail : channel.ws.avail = 0 := h.avail
  have hzero := recvWsHeader_cut fuel channel.ws.header h.frame hcut
  rw [openFrame, if_neg (by omega), hfuel]
  simp only
  rw [if_pos hzero]

theorem recvUint32_no_frame (hselect : channel.tls.records ≠ []) (h : (openFrame channel).1 = 0) :
    (recvUint32 channel).1 = .failed := by
  obtain ⟨avail, opened, hopen⟩ : ∃ avail opened, openFrame channel = (avail, opened) := ⟨_, _, rfl⟩
  rw [hopen] at h
  simp only at h
  rw [recvUint32, if_neg (by rw [selectReadTimeout, if_neg hselect]; decide), tcpRead, hopen, h]
  rfl

/-- One call: it returns the next word if and only if a record is still in the socket and no field
of the word is cut. -/
theorem recvUint32_step (h : Carried cur later channel) {rest : List UInt32}
    (hwords : cur ++ later.flatMap Message.words = w :: rest) (p : ℕ) :
    ∃ fields cur' later', wordFields cur later = fields :: wordFields cur' later' ∧
      cur' ++ later'.flatMap Message.words = rest ∧
      ((channel.tls.records ≠ [] ∧ FieldsUncut (channel.tls.starts p) p fields →
        ∃ next, recvUint32 channel = (.word w, next) ∧ Carried cur' later' next ∧
          Later (channel.tls.starts p) (p + fields.sum) (next.tls.starts (p + fields.sum))) ∧
        (¬ (channel.tls.records ≠ [] ∧ FieldsUncut (channel.tls.starts p) p fields) →
          ∀ data, (recvUint32 channel).1 ≠ .word data)) := by
  have htimeout : channel.tls.records = [] → ∀ data, (recvUint32 channel).1 ≠ .word data := by
    intro hnone data
    rw [recvUint32, if_pos (by rw [selectReadTimeout, if_pos hnone])]
    simp
  have hfailed : (recvUint32 channel).1 = .failed → ∀ data, (recvUint32 channel).1 ≠ .word data := by
    intro hf data
    rw [hf]
    simp
  cases cur with
  | cons v cur =>
    obtain ⟨rfl, rfl⟩ := List.cons.inj hwords
    have hopen := openFrame_inside h
    refine ⟨[4], cur, later, rfl, rfl, ?_, ?_⟩
    · rintro ⟨hselect, huncut, _⟩
      exact recvUint32_open_whole hselect hopen h huncut
    · intro hnot
      by_cases hselect : channel.tls.records = []
      · exact htimeout hselect
      · exact hfailed (recvUint32_open_cut hselect hopen h (fun huncut => hnot ⟨hselect, huncut, trivial⟩))
  | nil =>
    cases later with
    | nil => cases hwords
    | cons m later =>
      obtain ⟨v, cur, hm⟩ := List.exists_cons_of_ne_nil m.nonempty
      rw [List.nil_append, List.flatMap_cons, hm] at hwords
      obtain ⟨rfl, rfl⟩ := List.cons.inj hwords
      refine ⟨headFields (wordBytes m.words).length ++ [4], cur, later, ?_, rfl, ?_, ?_⟩
      · simp [wordFields, Message.fields, hm]
      · rintro ⟨hselect, huncut⟩
        rw [fieldsUncut_append] at huncut
        obtain ⟨opened, hopen, hcarried, hlater⟩ := openFrame_whole h huncut.1
        rw [hm] at hcarried
        have hword := (uncut_congr (fun c hc => hlater.mem_iff hc)).mp huncut.2.1
        obtain ⟨next, hrecv, hnext, hlater'⟩ := recvUint32_open_whole hselect hopen hcarried hword
        refine ⟨next, hrecv, hnext, ?_⟩
        rw [List.sum_append, List.sum_singleton, ← Nat.add_assoc]
        exact hlater.trans hlater' (Nat.le_add_right _ _)
      · intro hnot
        by_cases hselect : channel.tls.records = []
        · exact htimeout hselect
        · by_cases hhead : FieldsUncut (channel.tls.starts p) p (headFields (wordBytes m.words).length)
          · obtain ⟨opened, hopen, hcarried, hlater⟩ := openFrame_whole h hhead
            rw [hm] at hcarried
            apply hfailed
            apply recvUint32_open_cut hselect hopen hcarried
            intro huncut
            rw [← uncut_congr (fun c hc => hlater.mem_iff hc)] at huncut
            exact hnot ⟨hselect, fieldsUncut_append.mpr ⟨hhead, huncut, trivial⟩⟩
          · exact hfailed (recvUint32_no_frame hselect (openFrame_cut h hhead))

end Word

/-! ## A reply -/

theorem readable_congr {starts later : List ℕ} {p : ℕ} {words : List (List ℕ)} (h : ∀ c, p ≤ c → (c ∈ starts ↔ c ∈ later)) :
    Readable starts p words ↔ Readable later p words := by
  induction words generalizing p with
  | nil => exact Iff.rfl
  | cons fields words ih =>
    have hstart : (∃ c ∈ starts, p ≤ c) ↔ ∃ c ∈ later, p ≤ c := by
      constructor
      · rintro ⟨c, hc, hle⟩
        exact ⟨c, (h c hle).mp hc, hle⟩
      · rintro ⟨c, hc, hle⟩
        exact ⟨c, (h c hle).mpr hc, hle⟩
    rw [Readable, Readable, hstart, fieldsUncut_congr h, ih (fun c hc => h c (by omega))]

/-- The calls return the words that are left if and only if the records leave each of them readable. -/
theorem recvCalls_iff {words : List UInt32} {cur : List UInt32} {later : List Message} {channel : Channel}
    (h : Carried cur later channel) (hwords : cur ++ later.flatMap Message.words = words) (p : ℕ) :
    (recvCalls words.length channel).map Prod.snd = words.map Recv.word ↔
      Readable (channel.tls.starts p) p (wordFields cur later) := by
  induction words generalizing cur later channel p with
  | nil =>
    obtain ⟨rfl, hlater⟩ := List.append_eq_nil_iff.mp hwords
    cases later with
    | nil => simp [recvCalls, wordFields, Readable]
    | cons m later =>
      rw [List.flatMap_cons, List.append_eq_nil_iff] at hlater
      exact absurd hlater.1 m.nonempty
  | cons w words ih =>
    obtain ⟨fields, cur', later', hfields, hrest, hread, hnot⟩ := recvUint32_step h hwords p
    rw [hfields, Readable, exists_start_iff, List.length_cons, List.map_cons, recvCalls]
    by_cases hready : channel.tls.records ≠ [] ∧ FieldsUncut (channel.tls.starts p) p fields
    · obtain ⟨next, hrecv, hnext, hlater⟩ := hread hready
      rw [hrecv]
      simp only [List.map_cons, List.cons.injEq, true_and]
      rw [ih hnext hrest (p + fields.sum), ← readable_congr (fun c hc => hlater.mem_iff hc)]
      exact ⟨fun hr => ⟨hready.1, hready.2, hr⟩, fun hr => hr.2.2⟩
    · have hno := hnot hready w
      constructor
      · intro heq
        exfalso
        obtain ⟨r, next, hrecv⟩ : ∃ r next, recvUint32 channel = (r, next) := ⟨_, _, rfl⟩
        rw [hrecv] at hno heq
        cases r with
        | word data => exact hno (List.cons.inj heq).1
        | timeout => cases (List.cons.inj heq).1
        | failed => cases (List.cons.inj heq).1
      · rintro ⟨hselect, huncut, _⟩
        exact absurd ⟨hselect, huncut⟩ hready

/-- The bytes of a reply, in records of any lengths, at a channel between two frames. -/
def Channel.ofLayout (ws : WebSocket.State) (layout : List Bytes) : Channel := ⟨ws, ⟨[], layout⟩⟩

/-- A reply is delivered whole, without a timeout while bytes of it are undelivered, if and only if
at the beginning of each word some record starts there or later, and no record starts inside a field. -/
theorem deliversWords_iff (reply : List Message) (ws : WebSocket.State) (hws : ws.avail = 0) (layout : List Bytes)
    (hlayout : layout.flatten = reply.flatMap Message.frame) :
    DeliversWords (Channel.ofLayout ws layout) (reply.flatMap Message.words) ↔
      Readable (startsFrom 0 layout) 0 (reply.flatMap Message.fields) := by
  have hcarried : Carried [] reply (Channel.ofLayout ws layout) :=
    ⟨hws, by rw [wordBytes_nil, List.length_nil]; omega, [], 0, hlayout, fun h => absurd rfl h⟩
  have hcalls := recvCalls_iff hcarried rfl 0
  rw [DeliversWords]
  constructor
  · intro h
    exact hcalls.mp h.1
  · intro h
    have hwords := hcalls.mpr h
    refine ⟨hwords, fun call hcall htimeout => ?_⟩
    have hmem : call.2 ∈ (reply.flatMap Message.words).map Recv.word := hwords ▸ List.mem_map_of_mem hcall
    obtain ⟨w, _, hw⟩ := List.mem_map.mp hmem
    rw [htimeout] at hw
    cases hw

/-! ## The records of the projector -/

/-- `tcp_write_ws` writes the header and the payload of a frame as one record each. -/
def Message.written (m : Message) : List Bytes :=
  [m.frame.take (headFields (wordBytes m.words).length).sum, m.frame.drop (headFields (wordBytes m.words).length).sum]

theorem Message.written_flatten (m : Message) : m.written.flatten = m.frame := by
  simp [written]

theorem Message.frame_length (m : Message) :
    m.frame.length = (headFields (wordBytes m.words).length).sum + (wordBytes m.words).length := by
  simp only [frame, WebSocket.frame, keyOf, headFields, List.length_cons, List.length_append, masked_length, Option.getD_some,
    if_true, m.key_length, List.sum_cons, List.sum_nil]
  omega

/-- A message as the projector writes it is delivered only if it is a single word: what follows the first
word of a longer one lies in the TLS layer, and `select` waits for the socket. -/
theorem written_delivered_iff (m : Message) (ws : WebSocket.State) (hws : ws.avail = 0) :
    DeliversWords (Channel.ofLayout ws m.written) m.words ↔ m.words.length = 1 := by
  have hflat : m.written.flatten = [m].flatMap Message.frame := by
    rw [m.written_flatten, List.flatMap_singleton]
  have hwords : [m].flatMap Message.words = m.words := List.flatMap_singleton _ _
  have hiff := deliversWords_iff [m] ws hws m.written hflat
  rw [hwords, List.flatMap_singleton] at hiff
  rw [hiff]
  have hpos := List.length_pos_iff.mpr m.nonempty
  have hhead : (m.frame.take (headFields (wordBytes m.words).length).sum).length =
      6 + (extendedLength (wordBytes m.words).length).length := by
    rw [List.length_take, m.frame_length]
    simp only [headFields, List.sum_cons, List.sum_nil]
    omega
  have hstarts : startsFrom 0 m.written = [0, 6 + (extendedLength (wordBytes m.words).length).length] := by
    rw [Message.written, startsFrom, startsFrom, startsFrom, Nat.zero_add, hhead]
  rw [hstarts, Message.fields, Readable]
  constructor
  · rintro ⟨_, _, hrest⟩
    by_contra hlong
    obtain ⟨n, hn⟩ : ∃ n, m.words.length - 1 = n + 1 := ⟨m.words.length - 2, by omega⟩
    rw [hn, List.replicate_succ, Readable] at hrest
    obtain ⟨⟨c, hc, hle⟩, _⟩ := hrest
    simp only [headFields, List.cons_append, List.nil_append, List.sum_cons, List.sum_nil] at hle
    simp only [List.mem_cons, List.not_mem_nil, or_false] at hc
    omega
  · intro hone
    rw [hone]
    refine ⟨⟨0, List.mem_cons_self, le_refl 0⟩, ?_, trivial⟩
    simp only [headFields, List.cons_append, List.nil_append, fieldsUncut_cons, fieldsUncut_nil, Uncut, List.mem_cons,
      List.not_mem_nil, or_false, forall_eq_or_imp, forall_eq, and_true]
    omega

/-- The answer to a screen request: the request code, a screen of 16 × 16 pixels at depth 32, and the pixel format. -/
def screenInfoReply : Message where
  key := [7, 5, 3, 1]
  words := [Req.screenInfo.code, 16, 16, 32, 0]
  key_length := rfl
  nonempty := List.cons_ne_nil _ _
  length_lt := by
    rw [wordBytes_length, List.length_cons]
    simp

/-- The second word is in the TLS layer when its read times out. -/
theorem screen_info_times_out :
    screenInfoReply.written.flatten = screenInfoReply.frame ∧
      (recvCalls 5 (Channel.ofLayout ⟨⟨0, 0, List.replicate 12 0⟩, 0, 0⟩ screenInfoReply.written)).map
        (fun call => (call.1.length, call.2)) = [(26, .word 1), (16, .timeout)] ∧
      ¬ DeliversWords (Channel.ofLayout ⟨⟨0, 0, List.replicate 12 0⟩, 0, 0⟩ screenInfoReply.written) screenInfoReply.words := by
  have hlong := written_delivered_iff screenInfoReply ⟨⟨0, 0, List.replicate 12 0⟩, 0, 0⟩ rfl
  refine ⟨screenInfoReply.written_flatten, by decide +kernel, fun h => ?_⟩
  exact absurd (hlong.mp h) (by decide)

/-- The echo of a request that has no other words. -/
def echoReply : Message where
  key := [9, 9, 9, 9]
  words := [Req.hostname.code]
  key_length := rfl
  nonempty := List.cons_ne_nil _ _
  length_lt := by
    rw [wordBytes_length, List.length_singleton]
    simp

theorem echo_delivered :
    DeliversWords (Channel.ofLayout ⟨⟨0, 0, List.replicate 12 0⟩, 0, 0⟩ echoReply.written)
      ([echoReply].flatMap Message.words) :=
  (deliversWords_iff [echoReply] ⟨⟨0, 0, List.replicate 12 0⟩, 0, 0⟩ rfl echoReply.written (by decide)).mpr (by decide)

end TlsRead
end LilitunRemote

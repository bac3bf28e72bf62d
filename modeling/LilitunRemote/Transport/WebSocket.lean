import LilitunRemote.Foundation.Memory
import LilitunRemote.Foundation.Transition
import LilitunRemote.Protocol.Wire
import LilitunRemote.Protocol.StringRead

/-! # WebSocket frames over a byte stream

The framing of `tcp.c`. A header has two fixed bytes and a union of three layouts: a
mask alone, a 16-bit length with a mask, and a 64-bit length with a mask. One header
struct serves both directions of a channel, with the bytes left of the frame being
read (`avail`) and the phase of its mask (`pos`).
-/
namespace LilitunRemote
namespace WebSocket
open Memory

/-- `ws_header_t`; `u` holds the bytes of the union. -/
structure Header where
  b0 : UInt8
  b1 : UInt8
  u : Bytes
  deriving DecidableEq, Repr

structure State where
  header : Header
  avail : ℤ
  pos : ℤ
  deriving DecidableEq, Repr

def bigEndian : ℕ → ℕ → Bytes
  | 0, _ => []
  | n + 1, value => UInt8.ofNat (value / 256 ^ n) :: bigEndian n value

def ofBigEndian (bytes : Bytes) : ℕ := bytes.foldl (fun value b => value * 256 + b.toNat) 0

def store (u : Bytes) (offset : ℕ) (data : Bytes) : Bytes := u.take offset ++ data ++ u.drop (offset + data.length)

/-- Where the mask lies in the union, by the layout the second byte selects. -/
def maskOffset (b1 : UInt8) : ℕ := if b1 &&& 0x7f = 0x7e then 2 else if b1 &&& 0x7f = 0x7f then 8 else 0

def Header.mask (h : Header) : Bytes := (h.u.drop (maskOffset h.b1)).take 4

/-! ## Writing -/

def wsMaskData (ws : State) (data : Bytes) : Bytes :=
  if ws.header.b1 &&& 0x80 = 0 then data
  else data.mapIdx (fun i d => d ^^^ ws.header.mask.getD ((ws.pos + i) % 4).toNat 0)

/-- `send_ws_header` with the mask key it draws: the header and the bytes sent. -/
def sendWsHeader (client : Bool) (key : Bytes) (h : Header) (opcode : UInt8) (len : ℕ) : Header × Bytes :=
  let b0 := 0x80 ||| (opcode &&& 0x0f)
  let (b1, u, offset, sz) :=
    if len ≤ 125 then (UInt8.ofNat len, h.u, 0, 2)
    else if len ≤ 65535 then (0x7e, store h.u 0 (bigEndian 2 len), 2, 4)
    else (0x7f, store h.u 0 (bigEndian 8 len), 8, 10)
  let (b1, u, sz) := if client then (b1 ||| 0x80, store u offset key, sz + 4) else (b1, u, sz)
  (⟨b0, b1, u⟩, (b0 :: b1 :: u).take sz)

def opcodeBinaryFrame : UInt8 := 0x02

def tcpWriteWs (client : Bool) (key : Bytes) (ws : State) (buf : Bytes) : State × Bytes :=
  let (header, head) := sendWsHeader client key ws.header opcodeBinaryFrame buf.length
  let ws : State := { ws with header := header, pos := 0 }
  (ws, head ++ if client then wsMaskData ws buf else buf)

/-! ## Reading -/

def lengthBytes (b1 : UInt8) : ℕ := if b1 &&& 0x7f = 0x7e then 2 else if b1 &&& 0x7f = 0x7f then 8 else 0

/-- `recv_ws_header`: the payload length or 0, the header, and the stream after it.
An empty continuation frame is skipped; every skip takes two bytes, so the length of
the stream is enough fuel. -/
def recvWsHeader : ℕ → Header → Bytes → ℤ × Header × Bytes
  | 0, h, stream => (0, h, stream)
  | _, h, [] => (0, h, [])
  | _, h, [b0] => (0, { h with b0 := b0 }, [])
  | fuel + 1, h, b0 :: b1 :: stream =>
    if b0 ≠ 0x82 ∧ b0 ≠ 0x88 ∧ b0 ≠ 0x00 then (0, ⟨b0, b1, h.u⟩, stream)
    else if b0 = 0x00 ∧ b1 &&& 0x7f = 0 then recvWsHeader fuel ⟨b0, b1, h.u⟩ stream
    else if b0 = 0x88 then (0, ⟨b0, b1, h.u⟩, stream.drop b1.toNat)
    else if stream.length < lengthBytes b1 then (0, ⟨b0, b1, h.u⟩, [])
    else
      let len : ℤ :=
        if lengthBytes b1 = 0 then (b1 &&& 0x7f).toNat else wrapInt (ofBigEndian (stream.take (lengthBytes b1)))
      let u := store h.u 0 (stream.take (lengthBytes b1))
      let stream := stream.drop (lengthBytes b1)
      if b1 &&& 0x80 = 0 then (len, ⟨b0, b1, u⟩, stream)
      else if stream.length < 4 then (0, ⟨b0, b1, u⟩, [])
      else (len, ⟨b0, b1, store u (maskOffset b1) (stream.take 4)⟩, stream.drop 4)

def openFrame (ws : State) (stream : Bytes) : ℤ × State × Bytes :=
  if ws.avail > 0 then (ws.avail, ws, stream)
  else
    let (len, header, stream) := recvWsHeader stream.length ws.header stream
    if len = 0 then (0, { ws with header := header }, stream) else (len, ⟨header, len, 0⟩, stream)

/-- `tcp_read` of `len` bytes. The socket returns what it has, but never more than
`short + 1` bytes of the payload at once. -/
def tcpRead (ws : State) (stream : Bytes) (len short : ℕ) : Bytes × State × Bytes :=
  let (avail, ws, stream) := openFrame ws stream
  if avail = 0 then ([], ws, stream)
  else
    let wanted := if sizeT avail < len then sizeT avail else len
    let got := stream.take (min wanted (short + 1))
    (wsMaskData ws got, { ws with avail := ws.avail - got.length, pos := ws.pos + got.length }, stream.drop got.length)

/-- The reading end of a channel: how much the `k`th read of the socket returns at
most is given by `shorts`. -/
structure Reader where
  ws : State
  stream : Bytes
  reads : ℕ
  received : Bytes
  deriving DecidableEq, Repr

/-- The loop of `tcp_read_all` with `left` bytes still wanted: each round reads at
least one byte or ends it, so as many rounds as bytes are enough. -/
def readLoop (shorts : ℕ → ℕ) : ℕ → ℕ → Reader → Reader
  | 0, _, r => r
  | fuel + 1, left, r =>
    if left = 0 then r
    else
      let (got, ws, stream) := tcpRead r.ws r.stream left (shorts r.reads)
      let r' : Reader := ⟨ws, stream, r.reads + 1, r.received ++ got⟩
      if got.length = 0 then r' else readLoop shorts fuel (left - got.length) r'

def tcpReadAll (shorts : ℕ → ℕ) (len : ℕ) (r : Reader) : Reader := readLoop shorts len len r

inductive Use
  | readAll (len : ℕ)
  | write (client : Bool) (key msg : Bytes)

def Use.isWrite : Use → Bool
  | .readAll _ => false
  | .write .. => true

def Use.wanted : Use → ℕ
  | .readAll len => len
  | .write .. => 0

def Reader.use (shorts : ℕ → ℕ) (r : Reader) : Use → Reader
  | .readAll len => tcpReadAll shorts len r
  | .write client key msg => { r with ws := (tcpWriteWs client key r.ws msg).1 }

/-- A message on its way to the reader: the state of the writer's channel before it,
the mask key drawn for it and the message. -/
structure Written where
  ws : State
  key : Bytes
  msg : Bytes
  key_length : key.length = 4
  nonempty : msg ≠ []
  length_lt : msg.length < 2 ^ 31

def onSocket (client : Bool) (writes : List Written) : Bytes :=
  writes.flatMap (fun w => (tcpWriteWs client w.key w.ws w.msg).2)

/-! ## Bytes and lengths -/

theorem bigEndian_length (n value : ℕ) : (bigEndian n value).length = n := by
  induction n with
  | zero => rfl
  | succ n ih => rw [bigEndian, List.length_cons, ih]

theorem foldl_bigEndian (n value acc : ℕ) :
    (bigEndian n value).foldl (fun v b => v * 256 + b.toNat) acc = acc * 256 ^ n + value % 256 ^ n := by
  induction n generalizing acc with
  | zero => simp [bigEndian, Nat.mod_one]
  | succ n ih =>
    have hsplit : value % 256 ^ (n + 1) = value / 256 ^ n % 256 * 256 ^ n + value % 256 ^ n := by
      rw [Nat.pow_succ, Nat.mod_mul]
      ring
    rw [bigEndian, List.foldl_cons, ih, UInt8.toNat_ofNat', hsplit, Nat.pow_succ]
    ring

theorem ofBigEndian_bigEndian {n value : ℕ} (h : value < 256 ^ n) : ofBigEndian (bigEndian n value) = value := by
  rw [ofBigEndian, foldl_bigEndian, Nat.zero_mul, Nat.zero_add, Nat.mod_eq_of_lt h]

/-! ## Masks -/

def masked (key : Option Bytes) (pos : ℕ) (data : Bytes) : Bytes :=
  match key with
  | none => data
  | some key => data.mapIdx (fun i d => d ^^^ key.getD ((pos + i) % 4) 0)

theorem masked_length (key : Option Bytes) (pos : ℕ) (data : Bytes) : (masked key pos data).length = data.length := by
  cases key <;> simp [masked]

theorem masked_append (key : Option Bytes) (pos : ℕ) (a b : Bytes) :
    masked key pos (a ++ b) = masked key pos a ++ masked key (pos + a.length) b := by
  cases key with
  | none => rfl
  | some key =>
    simp only [masked, List.mapIdx_append]
    congr 2
    funext i d
    rw [Nat.add_comm i, Nat.add_assoc]

theorem masked_masked (key : Option Bytes) (pos : ℕ) (data : Bytes) : masked key pos (masked key pos data) = data := by
  cases key with
  | none => rfl
  | some key =>
    apply List.ext_getElem?
    intro i
    simp only [masked, List.getElem?_mapIdx, Option.map_map]
    cases data[i]? with
    | none => rfl
    | some d =>
      have hxor : ∀ k : UInt8, d ^^^ k ^^^ k = d := by
        intro k
        rw [UInt8.xor_assoc, UInt8.xor_self, UInt8.xor_zero]
      simp only [Option.map_some, Function.comp_apply, hxor]

def keyOf (client : Bool) (key : Bytes) : Option Bytes := if client then some key else none

def Header.Masks (h : Header) : Option Bytes → Prop
  | none => h.b1 &&& 0x80 = 0
  | some key => h.b1 &&& 0x80 ≠ 0 ∧ h.mask = key

theorem wsMaskData_eq {h : Header} {key : Option Bytes} (hmask : h.Masks key) (avail : ℤ) (pos : ℕ) (data : Bytes) :
    wsMaskData ⟨h, avail, pos⟩ data = masked key pos data := by
  cases key with
  | none => exact if_pos hmask
  | some key =>
    rw [wsMaskData, if_neg hmask.1, hmask.2]
    simp only [masked]
    congr 1

/-! ## A frame on the stream -/

def lengthByte (len : ℕ) : UInt8 := if len ≤ 125 then UInt8.ofNat len else if len ≤ 65535 then 0x7e else 0x7f

def extendedLength (len : ℕ) : Bytes :=
  if len ≤ 125 then [] else if len ≤ 65535 then bigEndian 2 len else bigEndian 8 len

def secondByte (client : Bool) (len : ℕ) : UInt8 := if client then lengthByte len ||| 0x80 else lengthByte len

def frame (client : Bool) (key msg : Bytes) : Bytes :=
  0x82 :: secondByte client msg.length :: (extendedLength msg.length ++ (keyOf client key).getD [] ++
    masked (keyOf client key) 0 msg)

theorem secondByte_spec (client : Bool) (len : ℕ) :
    (secondByte client len &&& 0x80 = 0 ↔ client = false) ∧ secondByte client len &&& 0x7f = lengthByte len := by
  have hsmall : ∀ n : Fin 128, ∀ c : Bool,
      ((if c then UInt8.ofNat n ||| 0x80 else UInt8.ofNat n) &&& 0x80 = 0 ↔ c = false) ∧
        (if c then UInt8.ofNat n ||| 0x80 else UInt8.ofNat n) &&& 0x7f = UInt8.ofNat n := by decide +kernel
  have hbyte : ∃ n : Fin 128, lengthByte len = UInt8.ofNat n := by
    unfold lengthByte
    split
    · next h => exact ⟨⟨len, by omega⟩, rfl⟩
    · split
      · exact ⟨⟨0x7e, by omega⟩, rfl⟩
      · exact ⟨⟨0x7f, by omega⟩, rfl⟩
  obtain ⟨n, hn⟩ := hbyte
  rw [secondByte, hn]
  exact hsmall n client

theorem lengthByte_spec (len : ℕ) :
    (lengthByte len = 0x7e ↔ 125 < len ∧ len ≤ 65535) ∧ (lengthByte len = 0x7f ↔ 65535 < len) := by
  have hsmall : ∀ n : Fin 126, UInt8.ofNat n ≠ 0x7e ∧ UInt8.ofNat n ≠ 0x7f := by decide +kernel
  unfold lengthByte
  split
  · next h =>
    obtain ⟨h1, h2⟩ := hsmall ⟨len, by omega⟩
    exact ⟨⟨fun h => absurd h h1, fun h => by omega⟩, ⟨fun h => absurd h h2, fun h => by omega⟩⟩
  · split
    · exact ⟨⟨fun _ => by omega, fun _ => rfl⟩, ⟨fun h => absurd h (by decide), fun h => by omega⟩⟩
    · exact ⟨⟨fun h => absurd h (by decide), fun h => by omega⟩, ⟨fun _ => by omega, fun _ => rfl⟩⟩

theorem secondByte_layout (client : Bool) (len : ℕ) :
    lengthBytes (secondByte client len) = (extendedLength len).length ∧
      maskOffset (secondByte client len) = (extendedLength len).length := by
  obtain ⟨h7e, h7f⟩ := lengthByte_spec len
  unfold lengthBytes maskOffset extendedLength
  rw [(secondByte_spec client len).2]
  by_cases hs : len ≤ 125
  · rw [if_neg (fun h => by have := h7e.mp h; omega), if_neg (fun h => by have := h7f.mp h; omega), if_pos hs]
    exact ⟨rfl, rfl⟩
  · by_cases hm : len ≤ 65535
    · rw [if_pos (h7e.mpr ⟨by omega, hm⟩), if_neg hs, if_pos hm, bigEndian_length]
      exact ⟨rfl, rfl⟩
    · rw [if_neg (fun h => by have := h7e.mp h; omega), if_pos (h7f.mpr (by omega)), if_neg hs, if_neg hm,
        bigEndian_length]
      exact ⟨rfl, rfl⟩

theorem mask_store {b0 b1 : UInt8} {u d key : Bytes} (hd : maskOffset b1 = d.length) (hu : u.take d.length = d)
    (hkey : key.length = 4) : Header.mask ⟨b0, b1, store u d.length key⟩ = key := by
  rw [Header.mask, hd, store, hu, List.append_assoc, List.drop_left, ← hkey, List.take_left]

theorem sendWsHeader_eq (client : Bool) {key : Bytes} (hkey : key.length = 4) (h : Header) (len : ℕ) :
    ∃ u, sendWsHeader client key h opcodeBinaryFrame len =
      (⟨0x82, secondByte client len, u⟩, 0x82 :: secondByte client len :: (extendedLength len ++ (keyOf client key).getD [])) ∧
      Header.Masks ⟨0x82, secondByte client len, u⟩ (keyOf client key) := by
  -- the length bytes end where the mask begins
  have hsend : ∃ u, u.take (extendedLength len).length = extendedLength len ∧
      sendWsHeader client key h opcodeBinaryFrame len =
        if client then
          (⟨0x82, secondByte client len, store u (extendedLength len).length key⟩,
            (0x82 :: secondByte client len :: store u (extendedLength len).length key).take
              (2 + (extendedLength len).length + 4))
        else
          (⟨0x82, secondByte client len, u⟩,
            (0x82 :: secondByte client len :: u).take (2 + (extendedLength len).length)) := by
    unfold sendWsHeader secondByte lengthByte extendedLength opcodeBinaryFrame
    by_cases hs : len ≤ 125
    · refine ⟨h.u, ?_, ?_⟩
      · simp [hs]
      · cases client <;> simp [hs] <;> decide
    · by_cases hm : len ≤ 65535
      · refine ⟨store h.u 0 (bigEndian 2 len), ?_, ?_⟩
        · simp [hs, hm, store, bigEndian_length]
        · cases client <;> simp [hs, hm, bigEndian_length] <;> decide
      · refine ⟨store h.u 0 (bigEndian 8 len), ?_, ?_⟩
        · simp [hs, hm, store, bigEndian_length]
        · cases client <;> simp [hs, hm, bigEndian_length] <;> decide
  obtain ⟨u, htake, hsend⟩ := hsend
  obtain ⟨hflag, _⟩ := secondByte_spec client len
  obtain ⟨_, hoffset⟩ := secondByte_layout client len
  rw [hsend]
  cases client with
  | false =>
    refine ⟨u, ?_, hflag.mpr rfl⟩
    rw [if_neg (by decide), Nat.add_comm 2, List.take_succ_cons, List.take_succ_cons, htake]
    simp [keyOf]
  | true =>
    refine ⟨store u (extendedLength len).length key, ?_, fun h => absurd (hflag.mp h) (by decide),
      mask_store hoffset htake hkey⟩
    have hsz : 2 + (extendedLength len).length + 4 = (extendedLength len ++ key).length + 2 := by
      rw [List.length_append, hkey]
      omega
    rw [if_pos rfl, hsz, List.take_succ_cons, List.take_succ_cons, store, htake, List.take_left]
    rfl

/-- What a write puts on the socket does not depend on the state of its channel. -/
theorem tcpWriteWs_bytes (client : Bool) {key : Bytes} (hkey : key.length = 4) (ws : State) (msg : Bytes) :
    (tcpWriteWs client key ws msg).2 = frame client key msg := by
  obtain ⟨u, hsend, hmasks⟩ := sendWsHeader_eq client hkey ws.header msg.length
  unfold tcpWriteWs frame
  rw [hsend]
  cases client with
  | false => simp [keyOf, masked]
  | true =>
    have hmask := wsMaskData_eq hmasks ws.avail 0 msg
    simp [keyOf] at hmask ⊢
    exact hmask

theorem wrapInt_length {len : ℕ} (h : len < 2 ^ 31) : wrapInt len = len :=
  wrapInt_of_range (by omega) (by omega)

theorem secondByte_length {len : ℕ} (h : len < 2 ^ 31) (client : Bool) :
    (if lengthBytes (secondByte client len) = 0 then ((secondByte client len &&& 0x7f).toNat : ℤ)
      else wrapInt (ofBigEndian (extendedLength len))) = len := by
  rw [(secondByte_layout client len).1, (secondByte_spec client len).2]
  unfold extendedLength lengthByte
  by_cases hs : len ≤ 125
  · rw [if_pos hs, if_pos hs, List.length_nil, if_pos rfl, UInt8.toNat_ofNat', Nat.mod_eq_of_lt (by omega)]
  · by_cases hm : len ≤ 65535
    · rw [if_neg hs, if_pos hm, if_neg (by rw [bigEndian_length]; decide), ofBigEndian_bigEndian (by omega),
        wrapInt_length h]
    · rw [if_neg hs, if_neg hm, if_neg (by rw [bigEndian_length]; decide), ofBigEndian_bigEndian (by omega),
        wrapInt_length h]

/-- A frame is opened with its length and its key, whatever header was there before. -/
theorem recvWsHeader_frame (client : Bool) {key msg : Bytes} (hkey : key.length = 4) (hlen : msg.length < 2 ^ 31)
    (fuel : ℕ) (h : Header) (stream : Bytes) :
    ∃ header, recvWsHeader (fuel + 1) h (frame client key msg ++ stream) =
      ((msg.length : ℤ), header, masked (keyOf client key) 0 msg ++ stream) ∧ header.Masks (keyOf client key) := by
  obtain ⟨hflag, _⟩ := secondByte_spec client msg.length
  obtain ⟨hlayout, hoffset⟩ := secondByte_layout client msg.length
  have hlength := secondByte_length hlen client
  have htake : ∀ rest : Bytes, (extendedLength msg.length ++ rest).take (lengthBytes (secondByte client msg.length)) =
      extendedLength msg.length := by
    intro rest
    rw [hlayout, List.take_left]
  have hdrop : ∀ rest : Bytes, (extendedLength msg.length ++ rest).drop (lengthBytes (secondByte client msg.length)) =
      rest := by
    intro rest
    rw [hlayout, List.drop_left]
  unfold frame recvWsHeader
  simp only [List.cons_append, List.append_assoc]
  rw [if_neg (by decide), if_neg (by simp), if_neg (by decide), if_neg (by rw [hlayout, List.length_append]; omega),
    htake, hdrop, hlength]
  cases client with
  | false =>
    rw [if_pos (hflag.mpr rfl)]
    exact ⟨_, rfl, hflag.mpr rfl⟩
  | true =>
    have hkeyOf : (keyOf true key).getD [] = key := rfl
    have hstored : (store h.u 0 (extendedLength msg.length)).take (extendedLength msg.length).length =
        extendedLength msg.length := by
      rw [store, List.take_zero, List.nil_append, List.take_left]
    rw [if_neg (fun h => absurd (hflag.mp h) (by decide)), hkeyOf, if_neg (by rw [List.length_append]; omega), hoffset,
      List.take_append_of_le_length (by omega), List.take_of_length_le (by omega), ← hkey, List.drop_left]
    exact ⟨_, rfl, fun h => absurd (hflag.mp h) (by decide), mask_store hoffset hstored hkey⟩

/-! ## The reading end -/

theorem onSocket_cons (client : Bool) (w : Written) (writes : List Written) :
    onSocket client (w :: writes) = frame client w.key w.msg ++ onSocket client writes := by
  rw [onSocket, List.flatMap_cons, tcpWriteWs_bytes client w.key_length]
  rfl

/-- The channel of a reader with `cur` left of the frame it is in: its mask and the
phase of it are those of the bytes that come next. -/
structure Inside (client : Bool) (cur : Bytes) (later : List Written) (ws : State) (stream : Bytes) : Prop where
  avail : ws.avail = cur.length
  short : cur.length < 2 ^ 31
  next : ∃ key, ∃ pos : ℕ, stream = masked key pos cur ++ onSocket client later ∧
    (cur ≠ [] → ws.header.Masks key ∧ ws.pos = pos)

theorem openFrame_inside {client : Bool} {cur : Bytes} {later : List Written} {ws : State} {stream : Bytes}
    (h : Inside client cur later ws stream) :
    ∃ cur' later', cur' ++ (later'.map Written.msg).flatten = cur ++ (later.map Written.msg).flatten ∧
      (cur' = [] → later' = []) ∧ (openFrame ws stream).1 = cur'.length ∧
      Inside client cur' later' (openFrame ws stream).2.1 (openFrame ws stream).2.2 := by
  obtain ⟨havail, hshort, key, pos, hstream, hmask⟩ := h
  unfold openFrame
  cases cur with
  | cons b cur =>
    rw [if_pos (by rw [havail]; exact Int.natCast_pos.mpr (Nat.succ_pos _))]
    exact ⟨b :: cur, later, rfl, fun h => absurd h (List.cons_ne_nil _ _), havail, havail, hshort, key, pos, hstream, hmask⟩
  | nil =>
    have hnil : masked key pos [] = [] := by cases key <;> rfl
    rw [if_neg (by rw [havail]; decide)]
    rw [hnil, List.nil_append] at hstream
    subst hstream
    cases later with
    | nil =>
      exact ⟨[], [], rfl, fun _ => rfl, rfl, havail, hshort, none, 0, rfl, fun h => absurd rfl h⟩
    | cons w later =>
      rw [onSocket_cons]
      obtain ⟨fuel, hfuel⟩ : ∃ fuel, (frame client w.key w.msg ++ onSocket client later).length = fuel + 1 :=
        ⟨_, rfl⟩
      obtain ⟨header, hrecv, hmasks⟩ :=
        recvWsHeader_frame client w.key_length w.length_lt fuel ws.header (onSocket client later)
      have hne : ¬ (w.msg.length : ℤ) = 0 := by
        have := List.length_pos_iff.mpr w.nonempty
        omega
      simp only [hfuel, hrecv]
      rw [if_neg hne]
      exact ⟨w.msg, later, rfl, fun h => absurd h w.nonempty, rfl, rfl, w.length_lt, keyOf client w.key, 0, rfl,
        fun _ => ⟨hmasks, rfl⟩⟩

theorem tcpRead_of_zero {ws : State} {stream : Bytes} (h : (openFrame ws stream).1 = 0) (len short : ℕ) :
    tcpRead ws stream len short = ([], (openFrame ws stream).2.1, (openFrame ws stream).2.2) := if_pos h

/-- A `tcp_read` in an open frame returns a first piece of what is left of it, and keeps
the phase of the mask. -/
theorem tcpRead_piece {ws ws' : State} {stream stream' cur more : Bytes} {avail : ℤ} {key : Option Bytes} {pos : ℕ}
    (hopen : openFrame ws stream = (avail, ws', stream')) (hne : cur ≠ []) (hshort : cur.length < 2 ^ 31)
    (havail : avail = cur.length) (havail' : ws'.avail = cur.length) (hstream : stream' = masked key pos cur ++ more)
    (hmasks : ws'.header.Masks key) (hpos : ws'.pos = pos) (len short : ℕ) :
    ∃ n ≤ cur.length, n ≤ len ∧ (n = 0 → len = 0) ∧
      tcpRead ws stream len short =
        (cur.take n, ⟨ws'.header, (cur.drop n).length, (pos + n : ℕ)⟩, masked key (pos + n) (cur.drop n) ++ more) := by
  have hlength := List.length_pos_iff.mpr hne
  have hsize : sizeT avail = cur.length := by
    rw [sizeT, havail, Int.emod_eq_of_lt (by omega) (by omega), Int.toNat_natCast]
  -- what is read stops at the end of the frame
  obtain ⟨n, hn, hle, hlen', hn0⟩ : ∃ n, min (if sizeT avail < len then sizeT avail else len) (short + 1) = n ∧
      n ≤ cur.length ∧ n ≤ len ∧ (n = 0 → len = 0) := by
    refine ⟨_, rfl, ?_⟩
    rw [hsize]
    split <;> omega
  refine ⟨n, hle, hlen', hn0, ?_⟩
  unfold tcpRead
  rw [hopen]
  simp only
  rw [if_neg (by omega), hn]
  have hsplit : masked key pos cur = masked key pos (cur.take n) ++ masked key (pos + n) (cur.drop n) := by
    conv_lhs => rw [← List.take_append_drop n cur, masked_append, List.length_take_of_le hle]
  have hlen : (masked key pos (cur.take n)).length = n := by rw [masked_length, List.length_take_of_le hle]
  have hgot : stream'.take n = masked key pos (cur.take n) := by
    rw [hstream, hsplit, List.append_assoc]
    exact List.take_left' hlen
  have hrest : stream'.drop n = masked key (pos + n) (cur.drop n) ++ more := by
    rw [hstream, hsplit, List.append_assoc]
    exact List.drop_left' hlen
  obtain ⟨header, wsAvail, wsPos⟩ := ws'
  simp only at havail' hmasks hpos
  subst hpos havail'
  rw [hgot, hlen, hrest, wsMaskData_eq hmasks, masked_masked, List.length_drop, Nat.cast_sub hle, Nat.cast_add]

/-- One `tcp_read` returns the next bytes of the messages, and at least one while there are any. -/
theorem tcpRead_inside {client : Bool} {cur : Bytes} {later : List Written} {ws : State} {stream : Bytes}
    (h : Inside client cur later ws stream) (len short : ℕ) :
    ∃ cur' later', (tcpRead ws stream len short).1 ++ (cur' ++ (later'.map Written.msg).flatten) =
        cur ++ (later.map Written.msg).flatten ∧
      (tcpRead ws stream len short).1.length ≤ len ∧
      ((tcpRead ws stream len short).1 = [] → len = 0 ∨ cur ++ (later.map Written.msg).flatten = []) ∧
      Inside client cur' later' (tcpRead ws stream len short).2.1 (tcpRead ws stream len short).2.2 := by
  obtain ⟨cur', later', hcur, hend, havail, hinside⟩ := openFrame_inside h
  by_cases hnil : cur' = []
  · have hzero : (openFrame ws stream).1 = 0 := by
      rw [havail, hnil]
      rfl
    rw [tcpRead_of_zero hzero]
    refine ⟨cur', later', hcur, Nat.zero_le _, fun _ => Or.inr ?_, hinside⟩
    rw [← hcur, hnil, hend hnil]
    rfl
  · obtain ⟨havail', hshort, key, pos, hstream, hmask⟩ := hinside
    obtain ⟨hmasks, hpos⟩ := hmask hnil
    obtain ⟨n, hle, hlen, hn0, hread⟩ := tcpRead_piece rfl hnil hshort havail havail' hstream hmasks hpos len short
    rw [hread]
    refine ⟨cur'.drop n, later', ?_, ?_, ?_, rfl, ?_, key, pos + n, rfl, fun _ => ⟨hmasks, rfl⟩⟩
    · rw [← List.append_assoc, List.take_append_drop, hcur]
    · rw [List.length_take_of_le hle]
      exact hlen
    · intro hgot
      have := congrArg List.length hgot
      rw [List.length_take_of_le hle] at this
      exact Or.inl (hn0 this)
    · rw [List.length_drop]
      omega

/-- A reader that has received `received` of the bytes `total` that were written. -/
def Reader.Follows (client : Bool) (total : Bytes) (r : Reader) : Prop :=
  ∃ cur later, Inside client cur later r.ws r.stream ∧ r.received ++ (cur ++ (later.map Written.msg).flatten) = total

theorem Reader.Follows.length_le {client : Bool} {total : Bytes} {r : Reader} (h : r.Follows client total) :
    r.received.length ≤ total.length := by
  obtain ⟨cur, later, _, htotal⟩ := h
  rw [← htotal, List.length_append]
  exact Nat.le_add_right _ _

theorem readLoop_follows {client : Bool} {total : Bytes} (shorts : ℕ → ℕ) {fuel left : ℕ} (hfuel : left ≤ fuel)
    {r : Reader} (h : r.Follows client total) :
    (readLoop shorts fuel left r).Follows client total ∧
      (readLoop shorts fuel left r).received.length = min (r.received.length + left) total.length := by
  have hle := h.length_le
  induction fuel generalizing left r with
  | zero =>
    refine ⟨h, ?_⟩
    rw [readLoop]
    omega
  | succ fuel ih =>
    unfold readLoop
    by_cases hleft : left = 0
    · rw [if_pos hleft]
      exact ⟨h, by omega⟩
    · rw [if_neg hleft]
      obtain ⟨cur, later, hinside, htotal⟩ := h
      obtain ⟨cur', later', hread, hmost, hnone, hinside'⟩ := tcpRead_inside hinside left (shorts r.reads)
      generalize tcpRead r.ws r.stream left (shorts r.reads) = result at hread hmost hnone hinside'
      obtain ⟨got, ws, stream⟩ := result
      simp only at hread hmost hnone hinside' ⊢
      have hnext : Reader.Follows client total ⟨ws, stream, r.reads + 1, r.received ++ got⟩ := by
        refine ⟨cur', later', hinside', ?_⟩
        rw [List.append_assoc, hread, htotal]
      split
      · next hgot =>
        -- nothing is returned only when every message has been read
        have hgot := List.length_eq_zero_iff.mp hgot
        have hdone := (hnone hgot).resolve_left hleft
        rw [hdone, List.append_nil] at htotal
        refine ⟨hnext, ?_⟩
        rw [hgot, List.append_nil, htotal]
        omega
      · have hfuel' : left - got.length ≤ fuel := by omega
        obtain ⟨hfollows, hlength⟩ := ih hfuel' hnext hnext.length_le
        refine ⟨hfollows, ?_⟩
        rw [hlength, List.length_append]
        omega

theorem write_follows {client own : Bool} {total key msg : Bytes} {r : Reader} (h : r.Follows client total)
    (hidle : r.ws.avail = 0) :
    ({ r with ws := (tcpWriteWs own key r.ws msg).1 } : Reader).Follows client total := by
  obtain ⟨cur, later, ⟨havail, hshort, key', pos, hstream, _⟩, htotal⟩ := h
  have hcur : cur = [] := by
    rw [hidle] at havail
    exact List.length_eq_zero_iff.mp (by omega)
  subst hcur
  exact ⟨[], later, ⟨havail, hshort, key', pos, hstream, fun h => absurd rfl h⟩, htotal⟩

def Reader.WritesBetweenFrames (shorts : ℕ → ℕ) : Reader → List Use → Prop
  | _, [] => True
  | r, u :: uses =>
    (u.isWrite → r.ws.avail = 0) ∧ (r.use shorts u).WritesBetweenFrames shorts uses

instance decidableWrites (shorts : ℕ → ℕ) : ∀ (r : Reader) (uses : List Use), Decidable (r.WritesBetweenFrames shorts uses)
  | _, [] => isTrue trivial
  | r, u :: uses =>
    have := decidableWrites shorts (r.use shorts u) uses
    inferInstanceAs (Decidable (_ ∧ _))

theorem uses_follows {client : Bool} {total : Bytes} {shorts : ℕ → ℕ} {uses : List Use} {r : Reader}
    (h : r.Follows client total) (hwrites : r.WritesBetweenFrames shorts uses) :
    (uses.foldl (Reader.use shorts) r).Follows client total ∧
      (uses.foldl (Reader.use shorts) r).received.length =
        min (r.received.length + (uses.map Use.wanted).sum) total.length := by
  induction uses generalizing r with
  | nil =>
    have hle := h.length_le
    exact ⟨h, by simp only [List.foldl_nil, List.map_nil, List.sum_nil]; omega⟩
  | cons u uses ih =>
    have hstep : (r.use shorts u).Follows client total ∧
        (r.use shorts u).received.length = min (r.received.length + u.wanted) total.length := by
      cases u with
      | readAll len => exact readLoop_follows shorts (Nat.le_refl len) h
      | write own key msg => exact ⟨write_follows h (hwrites.1 rfl), (Nat.min_eq_left h.length_le).symm⟩
    obtain ⟨hfollows, hlength⟩ := ih hstep.1 hwrites.2
    refine ⟨hfollows, ?_⟩
    rw [List.foldl_cons, hlength, hstep.2, List.map_cons, List.sum_cons]
    omega

/-- What `tcp_read_all` returns, over a whole run of reads and writes of the reading
peer, is a prefix of what the writing peer wrote, for both roles, and as long as the
reads ask for. -/
theorem received_prefix_of_written (client : Bool) (writes : List Written) (shorts : ℕ → ℕ) (uses : List Use)
    (header : Header) (pos : ℤ)
    (hwrites : Reader.WritesBetweenFrames shorts ⟨⟨header, 0, pos⟩, onSocket client writes, 0, []⟩ uses) :
    (uses.foldl (Reader.use shorts) ⟨⟨header, 0, pos⟩, onSocket client writes, 0, []⟩).received <+:
        (writes.map Written.msg).flatten ∧
      (uses.foldl (Reader.use shorts) ⟨⟨header, 0, pos⟩, onSocket client writes, 0, []⟩).received.length =
        min (uses.map Use.wanted).sum (writes.map Written.msg).flatten.length := by
  have hstart : Reader.Follows client (writes.map Written.msg).flatten
      ⟨⟨header, 0, pos⟩, onSocket client writes, 0, []⟩ :=
    ⟨[], writes, ⟨rfl, by decide, none, 0, rfl, fun h => absurd rfl h⟩, rfl⟩
  obtain ⟨⟨cur, later, _, htotal⟩, hlength⟩ := uses_follows hstart hwrites
  refine ⟨⟨_, htotal⟩, ?_⟩
  rw [hlength, List.length_nil, Nat.zero_add]

/-- Two masked frames read in pieces, with a write between them. -/
def twoFrames : List Written :=
  [⟨⟨⟨0, 0, []⟩, 0, 0⟩, [1, 2, 3, 4], [10, 20, 30], rfl, by decide, by decide⟩,
    ⟨⟨⟨0, 0, []⟩, 0, 0⟩, [5, 6, 7, 8], [40, 50, 60], rfl, by decide, by decide⟩]

theorem received_two_frames :
    (([.readAll 2, .readAll 1, .write false [0, 0, 0, 0] [9], .readAll 2] : List Use).foldl (Reader.use fun _ => 0)
      ⟨⟨⟨0, 0, []⟩, 0, 0⟩, onSocket true twoFrames, 0, []⟩).received = [10, 20, 30, 40, 50] ∧
    [10, 20, 30, 40, 50] <+: (twoFrames.map Written.msg).flatten := by
  have hreceived : (([.readAll 2, .readAll 1, .write false [0, 0, 0, 0] [9], .readAll 2] : List Use).foldl
      (Reader.use fun _ => 0) ⟨⟨⟨0, 0, []⟩, 0, 0⟩, onSocket true twoFrames, 0, []⟩).received =
        [10, 20, 30, 40, 50] := by decide +kernel
  have hprefix := (received_prefix_of_written true twoFrames (fun _ => 0)
    [.readAll 2, .readAll 1, .write false [0, 0, 0, 0] [9], .readAll 2] ⟨0, 0, []⟩ 0 (by decide +kernel)).1
  rw [hreceived] at hprefix
  exact ⟨hreceived, hprefix⟩

end WebSocket
end LilitunRemote

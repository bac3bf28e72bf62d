import LilitunRemote.Protocol.Wire
import LilitunRemote.Foundation.Memory

/-! # Length-prefixed strings

`tcp_read_all` and the four functions that read a string with it: the length is
an unsigned word, the buffer has `length + 1` bytes in 32-bit arithmetic, and the
loop compares a running total with the length as a signed `int`. The transport
answers each `tcp_read` with a chunk of the stream, cut to what was asked for; an
empty answer is a closed or failed connection.
-/
namespace LilitunRemote
open Memory

/-- The conversion of an `int` argument to the `size_t` of `tcp_read`. -/
def sizeT (z : ℤ) : ℕ := (z % 2 ^ 64).toNat

/-- One call of `tcp_read`: how many bytes it asks for, where in the buffer they go,
and what it returned. -/
structure ReadCall where
  asked : ℕ
  offset : ℤ
  got : Bytes
  deriving DecidableEq, Repr

/-- The calls of a read and its returned total; without one the last call still waits. -/
structure ReadTrace where
  calls : List ReadCall
  total : Option ℤ
  deriving DecidableEq, Repr

def tcpReadLoop (len : ℤ) : ℤ → List Bytes → ReadTrace
  | total, [] =>
    if total = len then ⟨[], some total⟩ else ⟨[⟨sizeT (wrapInt (len - total)), total, []⟩], none⟩
  | total, chunk :: answers =>
    if total = len then ⟨[], some total⟩
    else
      let asked := sizeT (wrapInt (len - total))
      let got := chunk.take asked
      if got.length ≤ 0 then ⟨[⟨asked, total, []⟩], some total⟩
      else
        let rest := tcpReadLoop len (wrapInt (total + got.length)) answers
        ⟨⟨asked, total, got⟩ :: rest.calls, rest.total⟩

def tcpReadAll (len : ℤ) (answers : List Bytes) : ReadTrace := tcpReadLoop len 0 answers

/-- What a string read does: the size of the allocated buffer, the calls of
`tcp_read`, and where the terminator goes if the read is complete. -/
structure StringRun where
  mallocSize : ℕ
  calls : List ReadCall
  terminator : Option ℕ
  deriving DecidableEq, Repr

def readString (length : UInt32) (answers : List Bytes) : StringRun :=
  let read := tcpReadAll (asInt length) answers
  ⟨(length + 1).toNat, read.calls,
    read.total.bind (fun total => if wordOfInt total ≠ length then none else some length.toNat)⟩

/-- The words around a request of the control server: whether the request was sent,
and the two received words, if they arrived in time. -/
structure Reply where
  sent : Bool
  req : Option UInt32
  length : Option UInt32

def doReqInitial (req : Req) (reply : Reply) : Bool :=
  if !reply.sent then false
  else
    match reply.req with
    | none => false
    | some tmp => if tmp ≠ req.code then false else true

def doReqString (req : Req) (reply : Reply) (answers : List Bytes) : Option StringRun :=
  if !doReqInitial req reply then none
  else reply.length.map (fun len => readString len answers)

def doReqAppserverHost (reply : Reply) (answers : List Bytes) : Option StringRun :=
  doReqString .appserverHost reply answers

def doReqSessionId (reply : Reply) (answers : List Bytes) : Option StringRun :=
  doReqString .sessionId reply answers

def doReqHostname (reply : Reply) (answers : List Bytes) : Option StringRun :=
  doReqString .hostname reply answers

def recvUserPassword (length : Option UInt32) (answers : List Bytes) : Option StringRun :=
  length.map (fun length => readString length answers)

/-! ## Where the bytes go -/

/-- The read of `length` bytes stays inside the allocated buffer, terminator
included, and never asks for more than what remains. -/
def StringRun.Inside (length : UInt32) (run : StringRun) : Prop :=
  (∀ call ∈ run.calls, 0 ≤ call.offset ∧ call.offset + call.got.length ≤ run.mallocSize ∧
    call.offset + call.asked ≤ length.toNat) ∧
  ∀ i, run.terminator = some i → i < run.mallocSize

/-- The loop asks for exactly the remaining bytes, as long as the length is an `int`. -/
theorem tcpReadLoop_calls {len : ℤ} (hlen : len < 2 ^ 31) (answers : List Bytes) {total : ℤ} (h0 : 0 ≤ total)
    (hle : total ≤ len) : ∀ call ∈ (tcpReadLoop len total answers).calls,
      0 ≤ call.offset ∧ call.got.length ≤ call.asked ∧ call.offset + call.asked = len := by
  induction answers generalizing total with
  | nil =>
    intro call hcall
    unfold tcpReadLoop at hcall
    split at hcall
    · cases hcall
    · obtain rfl := List.mem_singleton.mp hcall
      have hasked : sizeT (wrapInt (len - total)) = (len - total).toNat := by
        rw [sizeT, wrapInt_of_range (by omega) (by omega)]
        omega
      refine ⟨h0, by simp, ?_⟩
      simp only [hasked]
      omega
  | cons chunk answers ih =>
    intro call hcall
    have hasked : sizeT (wrapInt (len - total)) = (len - total).toNat := by
      rw [sizeT, wrapInt_of_range (by omega) (by omega)]
      omega
    have htake : (chunk.take (len - total).toNat).length ≤ (len - total).toNat := List.length_take_le _ _
    unfold tcpReadLoop at hcall
    simp only [hasked] at hcall
    split at hcall
    · cases hcall
    · split at hcall
      · obtain rfl := List.mem_singleton.mp hcall
        exact ⟨h0, by simp, by simp only; omega⟩
      · have hwrap : wrapInt (total + (chunk.take (len - total).toNat).length) =
            total + (chunk.take (len - total).toNat).length := wrapInt_of_range (by omega) (by omega)
        rw [hwrap] at hcall
        rcases List.mem_cons.mp hcall with rfl | hcall
        · exact ⟨h0, htake, by simp only; omega⟩
        · exact ih (by omega) (by omega) call hcall

/-- A length from `2^31` on makes the first call ask for almost the whole address space. -/
theorem tcpReadAll_first {len : ℤ} (hneg : len < 0) (hlo : -2 ^ 31 ≤ len) (answers : List Bytes) :
    ∃ call ∈ (tcpReadAll len answers).calls, call.offset = 0 ∧ call.asked = (2 ^ 64 + len).toNat := by
  have hasked : sizeT (wrapInt (len - 0)) = (2 ^ 64 + len).toNat := by
    rw [sizeT, wrapInt_of_range (by omega) (by omega)]
    omega
  have hne : ¬ (0 : ℤ) = len := by omega
  unfold tcpReadAll tcpReadLoop
  cases answers with
  | nil =>
    simp only [hne, if_false]
    exact ⟨_, List.mem_singleton.mpr rfl, rfl, hasked⟩
  | cons chunk answers =>
    simp only [hne, if_false]
    split
    · exact ⟨_, List.mem_singleton.mpr rfl, rfl, hasked⟩
    · exact ⟨_, List.mem_cons_self, rfl, hasked⟩

theorem asInt_of_lt {w : UInt32} (h : w.toNat < 2 ^ 31) : asInt w = w.toNat :=
  wrapInt_of_range (by omega) (by exact_mod_cast h)

theorem asInt_of_ge {w : UInt32} (h : 2 ^ 31 ≤ w.toNat) : asInt w = w.toNat - 2 ^ 32 := by
  have hlt := w.toNat_lt
  rw [asInt, wrapInt]
  omega

theorem readString_inside_iff (length : UInt32) (answers : List Bytes) :
    (readString length answers).Inside length ↔ length.toNat < 2 ^ 31 := by
  constructor
  · intro h
    by_contra hge
    have hlt := length.toNat_lt
    have hint := asInt_of_ge (Nat.le_of_not_lt hge)
    obtain ⟨call, hcall, hoff, hasked⟩ := @tcpReadAll_first (asInt length) (by omega) (by omega) answers
    have hmore := (h.1 call hcall).2.2
    rw [hoff, hasked, hint] at hmore
    omega
  · intro h
    have hsize : (length + 1).toNat = length.toNat + 1 := by
      rw [UInt32.toNat_add]
      exact Nat.mod_eq_of_lt (by simp only [UInt32.reduceToNat]; omega)
    refine ⟨fun call hcall => ?_, fun i hi => ?_⟩
    · simp only [readString, tcpReadAll, asInt_of_lt h] at hcall ⊢
      obtain ⟨h0, hgot, hsum⟩ := tcpReadLoop_calls (by exact_mod_cast h) answers (le_refl 0) (by omega) call hcall
      rw [hsize]
      omega
    · simp only [readString] at hi ⊢
      obtain ⟨total, _, hi⟩ := Option.bind_eq_some_iff.mp hi
      split at hi
      · cases hi
      · cases hi
        omega

inductive StringRead
  | appserverHost (reply : Reply)
  | sessionId (reply : Reply)
  | hostname (reply : Reply)
  | userPassword (length : Option UInt32)

namespace StringRead

def run : StringRead → List Bytes → Option StringRun
  | appserverHost reply => doReqAppserverHost reply
  | sessionId reply => doReqSessionId reply
  | hostname reply => doReqHostname reply
  | userPassword length => recvUserPassword length

def prefixWord : StringRead → Option UInt32
  | appserverHost reply | sessionId reply | hostname reply => reply.length
  | userPassword length => length

/-- The words before the string are those the function waits for. -/
def reachesString : StringRead → Bool
  | appserverHost reply => doReqInitial .appserverHost reply
  | sessionId reply => doReqInitial .sessionId reply
  | hostname reply => doReqInitial .hostname reply
  | userPassword _ => true

theorem run_eq (read : StringRead) {length : UInt32} (hlen : read.prefixWord = some length)
    (hreach : read.reachesString = true) (answers : List Bytes) : read.run answers = some (readString length answers) := by
  cases read with
  | appserverHost reply | sessionId reply | hostname reply =>
    simp only [prefixWord, reachesString] at hlen hreach
    simp [run, doReqAppserverHost, doReqSessionId, doReqHostname, doReqString, hreach, hlen]
  | userPassword word =>
    simp only [prefixWord] at hlen
    simp [run, recvUserPassword, hlen]

/-- Each of the four reads of a string with a received length prefix stays inside
its buffer, and asks for no more than remains, exactly when the length is below `2^31`. -/
theorem string_read_inside_iff (read : StringRead) (length : UInt32) (hlen : read.prefixWord = some length)
    (hreach : read.reachesString = true) (answers : List Bytes) :
    (∃ run, read.run answers = some run ∧ run.Inside length) ↔ length.toNat < 2 ^ 31 := by
  rw [run_eq read hlen hreach answers, ← readString_inside_iff length answers]
  constructor
  · rintro ⟨run, hrun, hin⟩
    exact Option.some.inj hrun ▸ hin
  · exact fun hin => ⟨_, rfl, hin⟩

theorem password_read_inside :
    (∃ run, (userPassword (some 3)).run [[97], [98, 99, 100]] = some run ∧ run.Inside 3) ∧
      (userPassword (some 3)).prefixWord = some 3 ∧ (userPassword (some 3)).reachesString = true :=
  ⟨(string_read_inside_iff (userPassword (some 3)) 3 rfl rfl [[97], [98, 99, 100]]).mpr (by decide), rfl, rfl⟩

/-- A length prefix of `2^32 - 1` allocates nothing and asks for `2^64 - 1` bytes. -/
theorem wrapped_length_reads_outside :
    ¬ ∃ run, (userPassword (some 0xFFFFFFFF)).run [[97]] = some run ∧ run.Inside 0xFFFFFFFF := by
  rw [run_eq (userPassword (some 0xFFFFFFFF)) rfl rfl]
  rintro ⟨run, hrun, hin⟩
  rw [← Option.some.inj hrun, readString_inside_iff] at hin
  revert hin
  decide

end StringRead

/-! ## What arrives -/

/-- The bytes that come before the transport has none. -/
def arrived (answers : List Bytes) : Bytes := (answers.takeWhile (· ≠ [])).flatten

/-- A stream in the pieces of its calls; each call counts its bytes in an `int`. -/
def InPieces (stream : Bytes) (answers : List Bytes) : Prop :=
  (∀ chunk ∈ answers, chunk.length < 2 ^ 31) ∧ arrived answers = stream

def ReadTrace.received (read : ReadTrace) : Bytes := read.calls.flatMap ReadCall.got

def ReadTrace.Stores (size : ℕ) (read : ReadTrace) : Prop :=
  ∀ call ∈ read.calls, call.got ≠ [] → 0 ≤ call.offset ∧ call.offset + call.got.length ≤ size

instance (size : ℕ) (read : ReadTrace) : Decidable (read.Stores size) := inferInstanceAs (Decidable (∀ _ ∈ _, _))

theorem arrived_cons {chunk : Bytes} (h : chunk ≠ []) (answers : List Bytes) :
    arrived (chunk :: answers) = chunk ++ arrived answers := by
  simp [arrived, h]

theorem arrived_single (stream : Bytes) : arrived (stream.map ([·])) = stream := by
  induction stream with
  | nil => rfl
  | cons b stream ih =>
    rw [List.map_cons, arrived_cons (List.cons_ne_nil _ _), ih]
    rfl

/-- A stream may come byte by byte. -/
theorem inPieces_single (stream : Bytes) : InPieces stream (stream.map ([·])) := by
  refine ⟨?_, arrived_single stream⟩
  intro chunk hchunk
  obtain ⟨b, -, rfl⟩ := List.mem_map.mp hchunk
  exact Nat.one_lt_two_pow (by decide)

section Arrive
variable {length : UInt32} {n : ℕ}

/-- The running total is the length when all the bytes have come. -/
theorem total_eq_iff (hle : n ≤ length.toNat) : wrapInt n = asInt length ↔ n = length.toNat := by
  have hlt := length.toNat_lt
  rw [asInt, wrapInt, wrapInt]
  omega

theorem wordOfInt_ne (hlt : n < length.toNat) : wordOfInt (wrapInt n) ≠ length := by
  have hword := length.toNat_lt
  intro heq
  have hback := congrArg UInt32.toNat heq
  rw [wordOfInt, toNat_ofNat (by rw [wrapInt]; omega), wrapInt] at hback
  omega

theorem wordOfInt_asInt (length : UInt32) : wordOfInt (asInt length) = length := by
  have hword := length.toNat_lt
  apply UInt32.toNat.inj
  rw [wordOfInt, toNat_ofNat (by rw [asInt, wrapInt]; omega), asInt, wrapInt]
  omega

/-- A call gets no more than the rest, although it may ask for more. -/
theorem take_asked (hle : n ≤ length.toNat) {chunk : Bytes} (hchunk : chunk.length < 2 ^ 31) :
    chunk.take (sizeT (wrapInt (asInt length - wrapInt n))) = chunk.take (length.toNat - n) := by
  have hword := length.toNat_lt
  by_cases hrest : length.toNat - n < 2 ^ 31
  · have hasked : sizeT (wrapInt (asInt length - wrapInt n)) = length.toNat - n := by
      simp only [sizeT, asInt, wrapInt]
      omega
    rw [hasked]
  · have hasked : 2 ^ 31 ≤ sizeT (wrapInt (asInt length - wrapInt n)) := by
      simp only [sizeT, asInt, wrapInt]
      omega
    rw [List.take_of_length_le (by omega), List.take_of_length_le (by omega)]

theorem wrapInt_add (n m : ℕ) : wrapInt (wrapInt n + m) = wrapInt ((n + m : ℕ) : ℤ) := by
  simp only [wrapInt]
  omega

/-- A call for the rest of a payload of which `n` bytes have come. -/
theorem tcpReadLoop_cons (hlt : n < length.toNat) {chunk : Bytes} (hne : chunk ≠ []) (hchunk : chunk.length < 2 ^ 31)
    (answers : List Bytes) : ∃ asked, tcpReadLoop (asInt length) (wrapInt n) (chunk :: answers) =
      ⟨⟨asked, wrapInt n, chunk.take (length.toNat - n)⟩ ::
          (tcpReadLoop (asInt length) (wrapInt ↑(n + (chunk.take (length.toNat - n)).length)) answers).calls,
        (tcpReadLoop (asInt length) (wrapInt ↑(n + (chunk.take (length.toNat - n)).length)) answers).total⟩ := by
  have htotal := mt (total_eq_iff hlt.le).mp hlt.ne
  have hgot : ¬ (chunk.take (length.toNat - n)).length ≤ 0 := by
    have hpos := List.length_pos_iff.mpr hne
    rw [List.length_take]
    omega
  refine ⟨sizeT (wrapInt (asInt length - wrapInt n)), ?_⟩
  rw [tcpReadLoop, if_neg htotal]
  simp only [take_asked hlt.le hchunk, if_neg hgot, wrapInt_add]

/-- What a read with `n` bytes behind it makes of the stream that comes. -/
structure ReadTrace.Takes (length : UInt32) (n : ℕ) (stream : Bytes) (read : ReadTrace) : Prop where
  received : read.received = stream.take (length.toNat - n)
  complete : length.toNat - n ≤ stream.length → read.total = some (asInt length)
  short : stream.length < length.toNat - n → ∀ total, read.total = some total → wordOfInt total ≠ length

theorem tcpReadLoop_full (answers : List Bytes) :
    tcpReadLoop (asInt length) (wrapInt length.toNat) answers = ⟨[], some (asInt length)⟩ := by
  cases answers <;> exact if_pos rfl

theorem takes_full (answers : List Bytes) (stream : Bytes) :
    (tcpReadLoop (asInt length) (wrapInt length.toNat) answers).Takes length length.toNat stream := by
  rw [tcpReadLoop_full]
  refine ⟨?_, fun _ => rfl, fun hlt => ?_⟩
  · rw [Nat.sub_self, List.take_zero]
    rfl
  · rw [Nat.sub_self] at hlt
    exact absurd hlt (Nat.not_lt_zero _)

/-- A read that ends or waits without its bytes. -/
theorem takes_nothing (hlt : n < length.toNat) {read : ReadTrace} (hnone : read.received = [])
    (htotal : ∀ total, read.total = some total → total = wrapInt n) : read.Takes length n [] := by
  refine ⟨by rw [hnone, List.take_nil], fun hle => ?_, fun _ total h => ?_⟩
  · rw [List.length_nil] at hle
    omega
  · rw [htotal total h]
    exact wordOfInt_ne hlt

/-- The loop stores the rest of the payload as far as it comes, and its total tells whether
that is all. -/
theorem tcpReadLoop_takes {answers : List Bytes} (hle : n ≤ length.toNat) (hchunks : ∀ chunk ∈ answers, chunk.length < 2 ^ 31) :
    (tcpReadLoop (asInt length) (wrapInt n) answers).Takes length n (arrived answers) := by
  induction answers generalizing n with
  | nil =>
    rcases hle.eq_or_lt with rfl | hlt
    · exact takes_full _ _
    · have htotal := mt (total_eq_iff hle).mp hlt.ne
      rw [tcpReadLoop, if_neg htotal]
      exact takes_nothing hlt rfl nofun
  | cons chunk answers ih =>
    rcases hle.eq_or_lt with rfl | hlt
    · exact takes_full _ _
    obtain ⟨hchunk, hlater⟩ := List.forall_mem_cons.mp hchunks
    by_cases hne : chunk = []
    · subst hne
      have htotal := mt (total_eq_iff hle).mp hlt.ne
      rw [tcpReadLoop, if_neg htotal]
      refine takes_nothing hlt (by simp [ReadTrace.received]) fun total h => ?_
      simpa using h.symm
    · obtain ⟨asked, hstep⟩ := tcpReadLoop_cons hlt hne hchunk answers
      have hgot : (chunk.take (length.toNat - n)).length = min (length.toNat - n) chunk.length := List.length_take
      have hnext := ih (n := n + (chunk.take (length.toNat - n)).length) (by omega) hlater
      rw [hstep, arrived_cons hne]
      refine ⟨?_, fun hall => hnext.complete ?_, fun hshort => hnext.short ?_⟩
      · have hreceived := hnext.received
        rw [ReadTrace.received] at hreceived ⊢
        have hrest : length.toNat - (n + (chunk.take (length.toNat - n)).length) = length.toNat - n - chunk.length := by
          omega
        rw [List.flatMap_cons, hreceived, List.take_append, hrest]
      · rw [List.length_append] at hall
        omega
      · rw [List.length_append] at hshort
        omega

/-- No byte is stored outside, unless the total leaves the `int`s. -/
theorem tcpReadLoop_stores {answers : List Bytes} (hle : n ≤ length.toNat) (hchunks : ∀ chunk ∈ answers, chunk.length < 2 ^ 31)
    (hint : length.toNat ≤ 2 ^ 31 ∨ n + (arrived answers).length ≤ 2 ^ 31) :
    (tcpReadLoop (asInt length) (wrapInt n) answers).Stores length.toNat := by
  induction answers generalizing n with
  | nil =>
    unfold tcpReadLoop
    split <;> simp [ReadTrace.Stores]
  | cons chunk answers ih =>
    rcases hle.eq_or_lt with rfl | hlt
    · rw [tcpReadLoop_full]
      exact nofun
    obtain ⟨hchunk, hlater⟩ := List.forall_mem_cons.mp hchunks
    by_cases hne : chunk = []
    · subst hne
      have htotal := mt (total_eq_iff hle).mp hlt.ne
      rw [tcpReadLoop, if_neg htotal]
      simp [ReadTrace.Stores]
    · obtain ⟨asked, hstep⟩ := tcpReadLoop_cons hlt hne hchunk answers
      have hgot : (chunk.take (length.toNat - n)).length = min (length.toNat - n) chunk.length := List.length_take
      have hpos := List.length_pos_iff.mpr hne
      rw [arrived_cons hne, List.length_append] at hint
      rw [hstep]
      refine List.forall_mem_cons.mpr ⟨fun _ => ?_, ih (by omega) hlater (by omega)⟩
      have hoffset : wrapInt n = n := wrapInt_of_range (by omega) (by omega)
      simp only [hoffset]
      omega

/-- Byte by byte a longer payload comes to where the total is negative. -/
theorem tcpReadLoop_leaves {stream : Bytes} (hlong : 2 ^ 31 < length.toNat) (hn : n ≤ 2 ^ 31)
    (hstream : 2 ^ 31 < n + stream.length) :
    ¬ (tcpReadLoop (asInt length) (wrapInt n) (stream.map ([·]))).Stores length.toNat := by
  induction stream generalizing n with
  | nil =>
    rw [List.length_nil] at hstream
    omega
  | cons b stream ih =>
    obtain ⟨asked, hstep⟩ := @tcpReadLoop_cons length n (by omega) [b] (List.cons_ne_nil _ _)
      (Nat.one_lt_two_pow (by decide)) (stream.map ([·]))
    have htake : [b].take (length.toNat - n) = [b] := by
      rw [List.take_of_length_le]
      rw [List.length_singleton]
      omega
    rw [htake] at hstep
    rw [List.map_cons, hstep]
    intro hstores
    obtain ⟨hfirst, hlater⟩ := List.forall_mem_cons.mp hstores
    rcases hn.eq_or_lt with rfl | hlt
    · -- the running total is `INT_MIN` here
      have hoffset : 0 ≤ wrapInt ↑(2 ^ 31) := (hfirst (List.cons_ne_nil _ _)).1
      exact absurd hoffset (by decide)
    · rw [List.length_cons] at hstream
      exact ih (n := n + 1) (by omega) (by omega) hlater

variable {stream : Bytes} {answers : List Bytes}

theorem tcpReadAll_eq (answers : List Bytes) :
    tcpReadAll (asInt length) answers = tcpReadLoop (asInt length) (wrapInt (0 : ℕ)) answers := by
  rw [tcpReadAll, wrapInt_of_range (by omega) (by omega), Nat.cast_zero]

theorem tcpReadAll_takes (length : UInt32) (h : InPieces stream answers) :
    (tcpReadAll (asInt length) answers).Takes length 0 stream := by
  rw [tcpReadAll_eq, ← h.2]
  exact tcpReadLoop_takes (Nat.zero_le _) h.1

theorem tcpReadAll_stores (h : InPieces stream answers) (hint : length.toNat ≤ 2 ^ 31 ∨ stream.length ≤ 2 ^ 31) :
    (tcpReadAll (asInt length) answers).Stores length.toNat := by
  rw [tcpReadAll_eq]
  refine tcpReadLoop_stores (Nat.zero_le _) h.1 ?_
  rw [h.2, Nat.zero_add]
  exact hint

theorem tcpReadAll_leaves (hlength : 2 ^ 31 < length.toNat) (hstream : 2 ^ 31 < stream.length) :
    ¬ (tcpReadAll (asInt length) (stream.map ([·]))).Stores length.toNat := by
  rw [tcpReadAll_eq]
  exact tcpReadLoop_leaves hlength (Nat.zero_le _) (by rwa [Nat.zero_add])

end Arrive

end LilitunRemote

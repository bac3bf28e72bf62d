import LilitunRemote.Protocol.StringRead
import LilitunRemote.Server.Control

/-! # Zeros behind received data

Five functions of the projector and of the control server put a zero behind the bytes they
have read. Three of them leave a byte of the array free for it; `check_remote_sig` clamps
its length to the whole array, and `message_send` reads into the whole array.
-/
namespace LilitunRemote
open Memory

namespace Terminators
open Projector (cString strncmp)
open Control (Received headerFrom getHttpHeader requestParse)

/-- The zero that `check_remote_sig` stores in `buf[256]`, by the received length and the
answers to its reads. The other mode compares without one. -/
def checkRemoteSig (mode : Bool) (length : Option UInt32) (answers : List Bytes) : Option ℤ :=
  if mode then
    length.bind fun length =>
      let length := if length.toNat > 256 then 256 else length
      (tcpReadAll (asInt length) answers).total.bind fun r => if wordOfInt r = length then some r else none
  else none

/-- The zero that `recv_authorization` stores; the comparison is one of unsigned words. -/
def recvAuthorization (len : ℤ) (length : Option UInt32) (answers : List Bytes) : Option ℤ :=
  length.bind fun length =>
    let len := len - 1
    let length := if length < wordOfInt len then length else wordOfInt len
    (tcpReadAll (asInt length) answers).total.bind fun total =>
      if wordOfInt total ≠ length then none else some length.toNat

/-- The zero that `message_send` stores in `tmp[2048]`, if the request and the message were written. -/
def messageSend (written : Bool) (answer : Bytes) : Option ℤ :=
  if written then
    let len := (answer.take 2048).length
    if len > 0 then some len else none
  else none

/-- The zero that `get_http_header` stores behind what it has read, except for the result -1. -/
def getHttpHeaderZero (headLen : ℕ) (bytes : Bytes) : Option ℤ :=
  (headerFrom (headLen - 1) (0, 0, 0) bytes).map fun r => (r.1.length : ℤ)

def controlConnectionThread (r : Received) : Option ℤ :=
  (getHttpHeader r.bytes).bind fun (req, rest) =>
    if strncmp req (asciiBytes "POST /") 5 ∧ requestParse (cString (req.drop 5)) (asciiBytes "action") = some (asciiBytes "message") then
      let len := (r.body rest).length
      if len > 0 then some len else none
    else none

inductive Site
  | checkRemoteSig (mode : Bool) (length : Option UInt32) (answers : List Bytes)
  | recvAuthorization (length : Option UInt32) (answers : List Bytes)
  | messageSend (written : Bool) (answer : Bytes)
  | getHttpHeader (head : {headLen : ℕ // 0 < headLen}) (bytes : Bytes)
  | controlConnectionThread (r : Received)

namespace Site

def arraySize : Site → ℕ
  | checkRemoteSig .. => 256
  | recvAuthorization .. => 256
  | messageSend .. => 2048
  | getHttpHeader head _ => head.val
  | controlConnectionThread _ => 1024

def terminator : Site → Option ℤ
  | checkRemoteSig mode length answers => Terminators.checkRemoteSig mode length answers
  | recvAuthorization length answers => Terminators.recvAuthorization 256 length answers
  | messageSend written answer => Terminators.messageSend written answer
  | getHttpHeader head bytes => getHttpHeaderZero head.val bytes
  | controlConnectionThread r => Terminators.controlConnectionThread r

def Fits (site : Site) : Prop := ∀ i, site.terminator = some i → Inside site.arraySize i

end Site

/-! ## What a read returns -/

def sentBytes (answers : List Bytes) : Bytes := (answers.takeWhile (· ≠ [])).flatten

theorem sentBytes_cons {chunk : Bytes} (h : chunk ≠ []) (answers : List Bytes) :
    sentBytes (chunk :: answers) = chunk ++ sentBytes answers := by
  simp [sentBytes, h]

section Loop
variable {len total : ℤ} (hlen : len < 2 ^ 31) (h0 : 0 ≤ total)
include hlen h0

/-- One answer is added to the total, cut to what is still missing. -/
theorem tcpReadLoop_step (hlt : total < len) (chunk : Bytes) (answers : List Bytes) :
    (tcpReadLoop len total (chunk :: answers)).total =
      if chunk = [] then some total else (tcpReadLoop len (min (total + chunk.length) len) answers).total := by
  have hasked : sizeT (wrapInt (len - total)) = (len - total).toNat := by
    rw [sizeT, wrapInt_of_range (by omega) (by omega)]
    omega
  have hgot : (chunk.take (len - total).toNat).length = min (len - total).toNat chunk.length := List.length_take
  by_cases hchunk : chunk = []
  · subst hchunk
    simp [tcpReadLoop, hlt.ne]
  · have hpos : 0 < chunk.length := List.length_pos_iff.mpr hchunk
    have hnext : wrapInt (total + (chunk.take (len - total).toNat).length) = min (total + chunk.length) len := by
      rw [wrapInt_of_range] <;> omega
    have hmore : ¬ (chunk.take (len - total).toNat).length ≤ 0 := by omega
    simp only [tcpReadLoop, hasked, if_neg hlt.ne, if_neg hmore, hnext, if_neg hchunk]

theorem tcpReadLoop_total (hle : total ≤ len) (answers : List Bytes) {r : ℤ}
    (h : (tcpReadLoop len total answers).total = some r) : total ≤ r ∧ r ≤ len := by
  induction answers generalizing total with
  | nil =>
    rcases hle.eq_or_lt with rfl | hlt
    · simp [tcpReadLoop] at h
      omega
    · simp [tcpReadLoop, hlt.ne] at h
  | cons chunk answers ih =>
    rcases hle.eq_or_lt with rfl | hlt
    · simp [tcpReadLoop] at h
      omega
    · rw [tcpReadLoop_step hlen h0 hlt] at h
      by_cases hchunk : chunk = []
      · simp [hchunk] at h
        omega
      · rw [if_neg hchunk] at h
        obtain ⟨hlow, hhigh⟩ := ih (by omega) (by omega) h
        omega

/-- A read returns what was asked for exactly if so many bytes come. -/
theorem tcpReadLoop_full_iff (hle : total ≤ len) (answers : List Bytes) :
    (tcpReadLoop len total answers).total = some len ↔ len ≤ total + (sentBytes answers).length := by
  induction answers generalizing total with
  | nil =>
    rcases hle.eq_or_lt with rfl | hlt
    · simp [tcpReadLoop]
    · simp [tcpReadLoop, hlt.ne, sentBytes, hlt]
  | cons chunk answers ih =>
    rcases hle.eq_or_lt with rfl | hlt
    · simp [tcpReadLoop]
    · rw [tcpReadLoop_step hlen h0 hlt]
      by_cases hchunk : chunk = []
      · simp [hchunk, hlt.ne, sentBytes, hlt]
      · rw [if_neg hchunk, sentBytes_cons hchunk, ih (by omega) (by omega), List.length_append]
        omega

end Loop

/-- Every byte of the array is filled with received data. -/
def Site.Filled : Site → Prop
  | checkRemoteSig mode length answers =>
    mode = true ∧ ∃ w ∈ length, 256 ≤ w.toNat ∧ 256 ≤ (sentBytes answers).length
  | messageSend written answer => written = true ∧ 2048 ≤ answer.length
  | _ => False

/-! ## The sites -/

/-- The comparison of the total with an unsigned length finds the complete reads. -/
theorem tcpReadAll_complete_iff {w : UInt32} (hw : w.toNat < 2 ^ 31) (answers : List Bytes) (i : ℤ) :
    ((tcpReadAll (asInt w) answers).total = some i ∧ wordOfInt i = w) ↔ i = w.toNat ∧ w.toNat ≤ (sentBytes answers).length := by
  have hint := asInt_of_lt hw
  have hfull := @tcpReadLoop_full_iff (asInt w) 0 (by omega) (le_refl 0) (by omega) answers
  constructor
  · rintro ⟨htotal, hword⟩
    obtain ⟨h0, hle⟩ := tcpReadLoop_total (by omega) (le_refl 0) (by omega) answers htotal
    have hi : asInt w = i := by rw [← hword, asInt_wordOfInt (by omega) (by omega)]
    rw [tcpReadAll, ← hi, hfull] at htotal
    omega
  · rintro ⟨rfl, hle⟩
    rw [tcpReadAll, ← hint]
    refine ⟨hfull.mpr (by omega), ?_⟩
    rw [hint, wordOfInt_natCast (by omega), UInt32.ofNat_toNat]

/-- The clamp of `check_remote_sig` leaves no room behind 256 bytes. -/
theorem checkRemoteSig_fits_iff (mode : Bool) (length : Option UInt32) (answers : List Bytes) :
    (Site.checkRemoteSig mode length answers).Fits ↔ ¬ (Site.checkRemoteSig mode length answers).Filled := by
  unfold Site.Fits Site.Filled Site.terminator checkRemoteSig
  cases mode with
  | false => simp
  | true =>
    cases length with
    | none => simp
    | some w =>
      have hclamp : (if w.toNat > 256 then 256 else w).toNat = min w.toNat 256 := by
        split
        · change 256 = _
          omega
        · omega
      have hzero := tcpReadAll_complete_iff (w := if w.toNat > 256 then 256 else w) (by omega) answers
      simp only [hclamp] at hzero
      simp only [if_true, Option.bind_some, Option.bind_eq_some_iff, Option.ite_none_right_eq_some, Option.some.injEq,
        Option.mem_def, true_and, exists_eq_left', Site.arraySize, Inside]
      constructor
      · rintro h ⟨hlong, hsent⟩
        obtain ⟨htotal, hword⟩ := (hzero (min w.toNat 256 : ℕ)).mpr ⟨rfl, by omega⟩
        have := h _ ⟨_, htotal, hword, rfl⟩
        omega
      · rintro h i ⟨r, htotal, hword, rfl⟩
        obtain ⟨hr, hsent⟩ := (hzero r).mp ⟨htotal, hword⟩
        omega

/-- `recv_authorization` keeps a byte of every array for the zero. -/
theorem recvAuthorization_fits (length : Option UInt32) (answers : List Bytes) :
    (Site.recvAuthorization length answers).Fits := by
  intro i hi
  obtain ⟨w, -, hw⟩ := Option.bind_eq_some_iff.mp hi
  obtain ⟨total, -, htotal⟩ := Option.bind_eq_some_iff.mp hw
  have hroom : wordOfInt (256 - 1) = 255 := by decide
  simp only [hroom, ite_not, Option.ite_none_right_eq_some, Option.some.injEq] at htotal
  obtain ⟨-, rfl⟩ := htotal
  refine ⟨by omega, ?_⟩
  change _ < (256 : ℤ)
  split
  · next hlt =>
    have : w.toNat < 255 := UInt32.lt_iff_toNat_lt.mp hlt
    omega
  · decide

theorem messageSend_fits_iff (written : Bool) (answer : Bytes) :
    (Site.messageSend written answer).Fits ↔ ¬ (Site.messageSend written answer).Filled := by
  unfold Site.Fits Site.Filled Site.terminator messageSend
  cases written with
  | false => simp
  | true =>
    have htake : (answer.take 2048).length = min 2048 answer.length := List.length_take
    simp only [if_true, htake, Option.ite_none_right_eq_some, Option.some.injEq, true_and, Site.arraySize, Inside]
    constructor
    · rintro h hlong
      have := h _ ⟨by omega, rfl⟩
      omega
    · rintro h i ⟨hpos, rfl⟩
      omega

theorem headerFrom_length {room : ℕ} {crlf : Control.Crlf} {bytes head rest : Bytes}
    (h : headerFrom room crlf bytes = some (head, rest)) : head.length ≤ room := by
  induction room generalizing crlf bytes head with
  | zero =>
    cases h
    exact le_refl 0
  | succ room ih =>
    cases bytes with
    | nil => cases h
    | cons b bytes =>
      rw [Control.headerFrom_cons] at h
      split at h
      · cases h
        exact Nat.succ_le_succ (Nat.zero_le room)
      · obtain ⟨⟨more, rest'⟩, hmore, heq⟩ := Option.map_eq_some_iff.mp h
        cases heq
        exact Nat.succ_le_succ (ih hmore)

/-- The loop of `get_http_header` ends one byte before the array does. -/
theorem getHttpHeader_fits (head : {headLen : ℕ // 0 < headLen}) (bytes : Bytes) :
    (Site.getHttpHeader head bytes).Fits := by
  intro i hi
  obtain ⟨⟨read, rest⟩, hread, rfl⟩ := Option.map_eq_some_iff.mp hi
  have hlength := headerFrom_length hread
  have hpos := head.property
  change 0 ≤ (read.length : ℤ) ∧ (read.length : ℤ) < head.val
  omega

theorem controlConnectionThread_fits (r : Received) : (Site.controlConnectionThread r).Fits := by
  intro i hi
  obtain ⟨⟨req, rest⟩, -, hzero⟩ := Option.bind_eq_some_iff.mp hi
  simp only [Option.ite_none_right_eq_some, Option.some.injEq] at hzero
  obtain ⟨-, -, rfl⟩ := hzero
  have hbody : (r.body rest).length ≤ min (max r.arrived 1) 1023 := List.length_take_le _ _
  change 0 ≤ ((r.body rest).length : ℤ) ∧ ((r.body rest).length : ℤ) < (1024 : ℕ)
  omega

/-- A zero lies outside its array exactly behind a signature, or an answer to a message,
that fills the array. -/
theorem terminator_fits_iff (site : Site) : site.Fits ↔ ¬ site.Filled := by
  cases site with
  | checkRemoteSig mode length answers => exact checkRemoteSig_fits_iff mode length answers
  | recvAuthorization length answers => exact iff_of_true (recvAuthorization_fits length answers) id
  | messageSend written answer => exact messageSend_fits_iff written answer
  | getHttpHeader head bytes => exact iff_of_true (getHttpHeader_fits head bytes) id
  | controlConnectionThread r => exact iff_of_true (controlConnectionThread_fits r) id

/-- An announced signature of 256 bytes that all arrive at once. -/
def fullSignature : Site := .checkRemoteSig true (some 256) [List.replicate 256 97]

theorem fullSignature_outside : ¬ ∀ site : Site, site.Fits := by
  intro h
  have hzero : fullSignature.terminator = some 256 := by decide +kernel
  exact absurd (h fullSignature 256 hzero) (by decide)

end Terminators
end LilitunRemote

import LilitunRemote.Foundation.CString
import LilitunRemote.Foundation.Memory
import LilitunRemote.Protocol.Wire

/-! # Links of servers

`parse_url`, which `projector.c` and `messaging.c` have in the same words. The number of
the port goes through a 64-bit `long` into an `unsigned int` of 32 bits.
-/
namespace LilitunRemote
namespace Url
open CString Memory

structure Parsed where
  ret : ℤ
  scheme : Option Bytes
  host : Option Bytes
  port : UInt16
  path : Option Bytes
  deriving DecidableEq, Repr

def separator : Bytes := asciiBytes "://"

def erange : ℤ := 34

/-- The bytes of a host: no colon (58) and no slash (47). -/
def isHostByte (b : UInt8) : Bool := b ≠ 58 && b ≠ 47

def defaultPort (scheme : Option Bytes) : UInt16 :=
  if scheme = some (asciiBytes "ws://") ∨ scheme = some (asciiBytes "http://") then 80
  else if scheme = some (asciiBytes "wss://") ∨ scheme = some (asciiBytes "https://") then 443
  else 9998

def parsePort (errno : ℤ) (ptr : Bytes) : ℤ × UInt16 × Bytes :=
  let read := strtol ptr
  let p := wordOfInt read.value
  let errno := if read.range then erange else errno
  if p = 0 ∨ p ≥ 65535 ∨ (errno = erange ∧ (p = 65535 ∨ p = 0)) ∨ (ptr = read.rest ∧ p = 0) then (1, 0, read.rest)
  else (0, p.toUInt16, read.rest)

def readPort (errno : ℤ) : Bytes → ℤ × UInt16 × Bytes
  | 58 :: ptr => parsePort errno ptr
  | ptr => (0, 0, ptr)

/-- `parse_url`; `errno` is what an earlier call has left in it. -/
def parseUrl (errno : ℤ) : Option Bytes → Parsed
  | none | some [] => ⟨1, none, none, 0, none⟩
  | some link =>
    let (scheme, ptr) :=
      match strstr separator link with
      | some i => (some (link.take (i + 3)), link.drop (i + 3))
      | none => (none, link)
    let host := if ptr.takeWhile isHostByte = [] then none else some (ptr.takeWhile isHostByte)
    let (ret, port, ptr) := readPort errno (ptr.dropWhile isHostByte)
    let path := if ptr.head? = some 47 then ptr else asciiBytes "/"
    ⟨ret, scheme, host, if port = 0 then defaultPort scheme else port, some path⟩

structure Link where
  name : Bytes
  host : Bytes
  digits : Option Bytes
  path : Bytes
  first_separator : ∀ i < name.length, ¬ separator <+: (name ++ separator).drop i
  host_ne : host ≠ []
  host_bytes : ∀ b ∈ host, isHostByte b = true
  digits_ne : ∀ ds ∈ digits, ds ≠ []
  digits_decimal : ∀ ds ∈ digits, ∀ d ∈ ds, isDigit d = true
  path_slash : ∀ b ∈ path.head?, b = 47

namespace Link
variable (u : Link)

def scheme : Bytes := u.name ++ separator

def portText : Bytes :=
  match u.digits with
  | none => []
  | some ds => 58 :: ds

def text : Bytes := u.scheme ++ (u.host ++ (u.portText ++ u.path))

def InRange : Prop := ∀ ds ∈ u.digits, 1 ≤ number ds ∧ number ds ≤ 65535

def portNumber : ℕ :=
  match u.digits with
  | none => (defaultPort (some u.scheme)).toNat
  | some ds => number ds

/-- The link is accepted if and only if its port is in range, and then it is taken apart. -/
structure Recognised (parse : ℤ → Option Bytes → Parsed) (errno : ℤ) : Prop where
  accepts : (parse errno (some u.text)).ret = 0 ↔ u.InRange
  scheme : (parse errno (some u.text)).ret = 0 → (parse errno (some u.text)).scheme = some u.scheme
  host : (parse errno (some u.text)).ret = 0 → (parse errno (some u.text)).host = some u.host
  port : (parse errno (some u.text)).ret = 0 → (parse errno (some u.text)).port.toNat = u.portNumber
  path : (parse errno (some u.text)).ret = 0 →
    (parse errno (some u.text)).path = some (if u.path = [] then asciiBytes "/" else u.path)

/-- The number is not 65535, and not one that fits a `long` and becomes a port when it loses
its high bits. -/
def Exact : Prop :=
  ∀ ds ∈ u.digits, number ds ≠ 65535 ∧
    ¬ (2 ^ 32 ≤ number ds ∧ number ds < 2 ^ 63 ∧ 1 ≤ number ds % 2 ^ 32 ∧ number ds % 2 ^ 32 ≤ 65534)

/-! ## Scanning -/

theorem length_separator : separator.length = 3 := by decide

theorem strstr_text : strstr separator u.text = some u.name.length := by
  have hsep := length_separator
  have htext : u.text = u.name ++ (separator ++ (u.host ++ (u.portText ++ u.path))) := by
    rw [text, scheme, List.append_assoc]
  rw [htext]
  refine strstr_append (by decide) (fun i hi hprefix => ?_)
  -- an occurrence that begins in the name ends before the separator does
  have hlong : separator.length ≤ ((u.name ++ separator).drop i).length := by
    rw [List.length_drop, List.length_append]
    omega
  have hsplit : (u.name ++ (separator ++ (u.host ++ (u.portText ++ u.path)))).drop i =
      (u.name ++ separator).drop i ++ (u.host ++ (u.portText ++ u.path)) := by
    rw [← List.append_assoc, List.drop_append_of_le_length (by rw [List.length_append]; omega)]
  rw [hsplit] at hprefix
  exact u.first_separator i hi (List.prefix_of_prefix_length_le hprefix (List.prefix_append _ _) hlong)

theorem scheme_take : u.text.take (u.name.length + 3) = u.scheme := by
  have hlen : u.scheme.length = u.name.length + 3 := by rw [scheme, List.length_append, length_separator]
  rw [text, ← hlen, List.take_left]

theorem scheme_drop : u.text.drop (u.name.length + 3) = u.host ++ (u.portText ++ u.path) := by
  have hlen : u.scheme.length = u.name.length + 3 := by rw [scheme, List.length_append, length_separator]
  rw [text, ← hlen, List.drop_left]

theorem host_span :
    (u.host ++ (u.portText ++ u.path)).takeWhile isHostByte = u.host ∧
      (u.host ++ (u.portText ++ u.path)).dropWhile isHostByte = u.portText ++ u.path := by
  refine span_append u.host_bytes ?_
  intro b hb
  cases hport : u.digits with
  | none =>
    rw [portText, hport, List.nil_append] at hb
    rw [u.path_slash b hb]
    rfl
  | some ds =>
    rw [portText, hport] at hb
    cases hb
    rfl

/-- What the function makes of a link, but for its port. -/
theorem parseUrl_text {errno ret : ℤ} {port : UInt16} (hport : readPort errno (u.portText ++ u.path) = (ret, port, u.path)) :
    parseUrl errno (some u.text) =
      ⟨ret, some u.scheme, some u.host, if port = 0 then defaultPort (some u.scheme) else port,
        some (if u.path = [] then asciiBytes "/" else u.path)⟩ := by
  obtain ⟨hhost, hrest⟩ := u.host_span
  have hpath : (if u.path.head? = some 47 then u.path else asciiBytes "/") = if u.path = [] then asciiBytes "/" else u.path := by
    cases hpath : u.path with
    | nil => rfl
    | cons b path =>
      have hb : b = 47 := u.path_slash b (by rw [hpath]; rfl)
      simp [hb]
  obtain ⟨b, link, hlink⟩ : ∃ b link, u.text = b :: link :=
    List.exists_cons_of_ne_nil (List.append_ne_nil_of_right_ne_nil _ (List.append_ne_nil_of_left_ne_nil u.host_ne _))
  rw [hlink, parseUrl, ← hlink, u.strstr_text]
  · simp only [u.scheme_take, u.scheme_drop, hhost, hrest, hport, if_neg u.host_ne, hpath]
  · exact fun h => nomatch h

theorem readPort_none {errno : ℤ} (h : u.digits = none) : readPort errno (u.portText ++ u.path) = (0, 0, u.path) := by
  rw [portText, h, List.nil_append]
  cases hpath : u.path with
  | nil => rfl
  | cons b path =>
    rw [u.path_slash b (by rw [hpath]; rfl)]
    rfl

/-- The word that is compared with the bounds of a port. -/
def narrowed (ds : Bytes) : UInt32 := wordOfInt (min (number ds : ℤ) (2 ^ 63 - 1))

theorem readPort_some {errno : ℤ} {ds : Bytes} (h : u.digits = some ds) :
    readPort errno (u.portText ++ u.path) =
      if narrowed ds = 0 ∨ narrowed ds ≥ 65535 then (1, 0, u.path) else (0, (narrowed ds).toUInt16, u.path) := by
  have hrest : ∀ b ∈ u.path.head?, isDigit b = false := by
    intro b hb
    rw [u.path_slash b hb]
    rfl
  obtain ⟨hvalue, hend⟩ := strtol_digits (u.digits_ne ds h) (u.digits_decimal ds h) hrest
  have hread : readPort errno (u.portText ++ u.path) = parsePort errno (ds ++ u.path) := by
    rw [portText, h]
    rfl
  rw [hread, parsePort, hvalue, hend]
  change (if narrowed ds = 0 ∨ narrowed ds ≥ 65535 ∨ (_ ∧ (narrowed ds = 65535 ∨ narrowed ds = 0)) ∨ (_ ∧ narrowed ds = 0)
    then _ else _) = _
  congr 1
  apply propext
  constructor
  · rintro (hzero | hlarge | ⟨_, hmax | hzero⟩ | ⟨_, hzero⟩)
    · exact Or.inl hzero
    · exact Or.inr hlarge
    · exact Or.inr (hmax ▸ UInt32.le_refl _)
    · exact Or.inl hzero
    · exact Or.inl hzero
  · rintro (hzero | hlarge)
    · exact Or.inl hzero
    · exact Or.inr (Or.inl hlarge)

theorem toNat_narrowed (ds : Bytes) :
    (narrowed ds).toNat = if number ds < 2 ^ 63 then number ds % 2 ^ 32 else 2 ^ 32 - 1 := by
  rw [narrowed, wordOfInt, toNat_ofNat (by omega)]
  split
  · next hfits =>
    rw [min_eq_left (by omega)]
    omega
  · next hlarge =>
    rw [min_eq_right (by omega)]
    rfl

/-- A narrowed number that passes the test is a port. -/
theorem accepted_iff (ds : Bytes) :
    ¬ (narrowed ds = 0 ∨ narrowed ds ≥ 65535) ↔
      number ds < 2 ^ 63 ∧ 1 ≤ number ds % 2 ^ 32 ∧ number ds % 2 ^ 32 ≤ 65534 := by
  have hzero : narrowed ds = 0 ↔ (narrowed ds).toNat = 0 := by rw [← UInt32.toNat_inj]; rfl
  have hlarge : narrowed ds ≥ 65535 ↔ 65535 ≤ (narrowed ds).toNat := Iff.rfl
  rw [hzero, hlarge, toNat_narrowed]
  split
  · omega
  · omega

theorem inRange_some {ds : Bytes} (h : u.digits = some ds) : u.InRange ↔ 1 ≤ number ds ∧ number ds ≤ 65535 := by
  simp [InRange, h]

theorem exact_some {ds : Bytes} (h : u.digits = some ds) :
    u.Exact ↔ number ds ≠ 65535 ∧
      ¬ (2 ^ 32 ≤ number ds ∧ number ds < 2 ^ 63 ∧ 1 ≤ number ds % 2 ^ 32 ∧ number ds % 2 ^ 32 ≤ 65534) := by
  simp [Exact, h]

theorem parseUrl_recognises_iff (errno : ℤ) : u.Recognised parseUrl errno ↔ u.Exact := by
  cases hdigits : u.digits with
  | none =>
    have hparse := u.parseUrl_text (@readPort_none u errno hdigits)
    have hexact : u.Exact := by simp [Exact, hdigits]
    have hrange : u.InRange := by simp [InRange, hdigits]
    refine iff_of_true ⟨?_, ?_, ?_, ?_, ?_⟩ hexact
    · rw [hparse]
      exact iff_of_true rfl hrange
    · exact fun _ => by rw [hparse]
    · exact fun _ => by rw [hparse]
    · exact fun _ => by rw [hparse, portNumber, hdigits]; rfl
    · exact fun _ => by rw [hparse]
  | some ds =>
    have hport := @readPort_some u errno _ hdigits
    have hnumber : u.portNumber = number ds := by rw [portNumber, hdigits]
    have haccepted := accepted_iff ds
    rw [u.exact_some hdigits]
    split at hport
    · next hbad =>
      have hparse := u.parseUrl_text hport
      have hret : (parseUrl errno (some u.text)).ret ≠ 0 := by
        rw [hparse]
        exact (by decide : (1 : ℤ) ≠ 0)
      have hrejected := mt haccepted.mpr (not_not.mpr hbad)
      have hrecognised : u.Recognised parseUrl errno ↔ ¬ u.InRange := by
        constructor
        · intro h hrange
          exact hret (h.accepts.mpr hrange)
        · intro h
          exact ⟨iff_of_false hret h, fun h0 => absurd h0 hret, fun h0 => absurd h0 hret, fun h0 => absurd h0 hret,
            fun h0 => absurd h0 hret⟩
      rw [hrecognised, u.inRange_some hdigits]
      omega
    · next hgood =>
      obtain ⟨hfits, hlow, hhigh⟩ := haccepted.mp hgood
      have hnarrow : (narrowed ds).toUInt16.toNat = number ds % 2 ^ 32 := by
        rw [UInt32.toNat_toUInt16, toNat_narrowed, if_pos hfits]
        omega
      have hne : (narrowed ds).toUInt16 ≠ 0 := by
        intro h
        rw [h] at hnarrow
        change 0 = _ at hnarrow
        omega
      have hparse := u.parseUrl_text hport
      rw [if_neg hne] at hparse
      have hrecognised : u.Recognised parseUrl errno ↔ u.InRange ∧ number ds % 2 ^ 32 = number ds := by
        constructor
        · intro h
          have hret : (parseUrl errno (some u.text)).ret = 0 := by rw [hparse]
          refine ⟨h.accepts.mp hret, ?_⟩
          have hsame := h.port hret
          rwa [hparse, hnumber, hnarrow] at hsame
        · rintro ⟨hrange, hsame⟩
          refine ⟨?_, ?_, ?_, ?_, ?_⟩
          · rw [hparse]
            exact iff_of_true rfl hrange
          · exact fun _ => by rw [hparse]
          · exact fun _ => by rw [hparse]
          · exact fun _ => by rw [hparse, hnumber, ← hsame, ← hnarrow]
          · exact fun _ => by rw [hparse]
      rw [hrecognised, u.inRange_some hdigits]
      omega

end Link
end Url

/-- `parse_url` of `projector.c`, and of `messaging.c`. -/
def Projector.parseUrl (errno : ℤ) (link : Option Bytes) : Url.Parsed := Url.parseUrl errno link
def Messaging.parseUrl (errno : ℤ) (link : Option Bytes) : Url.Parsed := Url.parseUrl errno link

namespace Url

/-- Both functions recognise exactly the links whose number the conversions leave alone. -/
theorem link_recognised_iff (u : Link) (errno : ℤ) :
    (u.Recognised Projector.parseUrl errno ↔ u.Exact) ∧ (u.Recognised Messaging.parseUrl errno ↔ u.Exact) :=
  ⟨u.parseUrl_recognises_iff errno, u.parseUrl_recognises_iff errno⟩

/-- ws://h:4294967376/, whose number is 80 and 2 to the power of 32. -/
def wrappedLink : Link where
  name := asciiBytes "ws"
  host := asciiBytes "h"
  digits := some (asciiBytes "4294967376")
  path := asciiBytes "/"
  first_separator := by decide
  host_ne := by decide
  host_bytes := by decide +kernel
  digits_ne := by decide
  digits_decimal := by decide +kernel
  path_slash := by decide +kernel

theorem wrapped_port_accepted : ¬ wrappedLink.Recognised Projector.parseUrl 0 := by
  intro h
  have hret : (Projector.parseUrl 0 (some wrappedLink.text)).ret = 0 := by decide
  have hrange := h.accepts.mp hret
  have hbound := (hrange _ rfl).2
  exact absurd hbound (by decide)

end Url
end LilitunRemote

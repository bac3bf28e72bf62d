import LilitunRemote.Foundation.Script
import LilitunRemote.Projector.Thread
import LilitunRemote.Server.Connection

/-! # The setup exchange

Before it starts a translator the control server asks the projector for three strings
and tells it the ports and the password of the users. The strings are answered with a
header and a text in two frames. A server that expects a text of length 0 reads nothing,
and leaves the empty frame to its next read, which takes it for the end of the connection.
A word is one read of the server, which gives up if the transport cuts it.
-/
namespace LilitunRemote
namespace Setup
open Script (Item readLoop resumeGet)

/-! ## The parties -/

/-- The answers of `do_req_appserver_host`, `do_req_session_id` and `do_req_hostname`. -/
abbrev Strings := Bytes × Bytes × Bytes

/-- The condition under which `translator_init` is called, with the strings it leaves in
the connection. -/
def exchange (c : Connection.Vars) : Connection.Action (Option Strings) := do
  match ← Connection.doReqString .appserverHost with
  | none => return none
  | some apphost =>
    match ← Connection.doReqString .sessionId with
    | none => return none
    | some sessionId =>
      match ← Connection.doReqString .hostname with
      | none => return none
      | some hostname =>
        if !(← Connection.sendUserConnection c) then return none
        if !(← Connection.sendUserPassword c) then return none
        return some (apphost, sessionId, hostname)

/-- The exchange is what the connection thread does before it starts the translator. -/
theorem introduce_eq (c : Connection.Vars) : Connection.introduce c = (do
    match ← exchange c with
    | none => return false
    | some _ =>
      if !(← Connection.act .translatorInit) then return false
      Connection.act .messageSend) := by
  unfold Connection.introduce exchange
  simp only [Proc.bind_assoc]
  congr 1
  funext apphost
  cases apphost with
  | none => rfl
  | some apphost =>
    simp only [Proc.bind_assoc]
    congr 1
    funext sessionId
    cases sessionId with
    | none => rfl
    | some sessionId =>
      simp only [Proc.bind_assoc]
      congr 1
      funext hostname
      cases hostname with
      | none => rfl
      | some hostname =>
        simp only [Proc.bind_assoc]
        congr 1
        funext connection
        cases connection with
        | false => rfl
        | true =>
          have hgo : ¬ (!true) = true := by decide
          rw [if_neg hgo, if_neg hgo, Proc.bind_assoc]
          congr 1
          funext password
          cases password <;> rfl

/-- The effects of the server as calls of `tcp_read` and `tcp_write`, for lengths that
are positive as C ints. -/
def serverIo : (e : Connection.Effect) → Script.Action UInt8 Connection.Response (Connection.Response e)
  | .sendUint32 data => .op (.write (htonl data)) .ret
  | .tcpWrite data => .op (.write data) .ret
  | .recvUint32 => .op (.take 4) fun tmp => .ret (if tmp.length ≠ 4 then none else some (ntohl tmp))
  | .tcpReadAll len =>
    readLoop _ len.toNat len.toNat [] >>= fun str => .ret (if str.length ≠ len.toNat then none else some str)
  | e => .op (.call e) .ret

def projectorIo : (e : Projector.Effect) → Script.Action UInt8 Projector.Response (Projector.Response e)
  | .tcpRead n => .op (.read n) .ret
  | .tcpWrite _ data => .op (.write data) .ret
  | e => .op (.call e) .ret

def serverRole : Script.Role UInt8 Connection.Response Empty (Option Strings) where
  body := Empty.elim
  good _ _ := true

def projectorRole (v : Projector.Vars) : Script.Role UInt8 Projector.Response Projector.Loop Unit where
  body loop := (Projector.body v loop).handle projectorIo
  good
    | .isStarted, started => started
    | _, _ => true

abbrev System := Script.Pair UInt8 Connection.Response Projector.Response Empty Projector.Loop (Option Strings) Unit

def start (v : Projector.Vars) (c : Connection.Vars) : System where
  left := ⟨(exchange c).handle serverIo >>= fun out => .ret (Sum.inr out), [], []⟩
  right := ⟨(projectorRole v).body (.serve true), [], []⟩

def step (v : Projector.Vars) : System → Script.Turn UInt8 Connection.Response Projector.Response → Option System :=
  Script.step serverRole (projectorRole v)

/-! ## The scripts -/

def askString (req : Req) (text : Bytes) (rest : List (Item UInt8 Connection.Effect)) : List (Item UInt8 Connection.Effect) :=
  .put (htonl req.code) :: .get (Projector.stringHeaderBytes req text) :: resumeGet text rest

def tell (c : Connection.Vars) : List (Item UInt8 Connection.Effect) :=
  [.put (htonl Req.userConnection.code), .put (htonl c.port), .put (htonl c.ipv6port), .put (htonl Req.userPassword.code),
    .put (htonl (UInt32.ofNat c.password.length)), .put c.password]

def serverScript (v : Projector.Vars) (c : Connection.Vars) : List (Item UInt8 Connection.Effect) :=
  askString .appserverHost v.apphost (askString .sessionId v.sessionId (askString .hostname v.hostname (tell c)))

def request (req : Req) (rest : List (Item UInt8 Projector.Effect)) : List (Item UInt8 Projector.Effect) :=
  .call .isStarted :: .get (htonl req.code) :: .call (.dispatch req.code) :: rest

def answerString (req : Req) (text : Bytes) (rest : List (Item UInt8 Projector.Effect)) : List (Item UInt8 Projector.Effect) :=
  request req (.put (Projector.stringHeaderBytes req text) :: .put text :: rest)

def idle : List (Item UInt8 Projector.Effect) := [.call .isStarted, .wait]

def hearPassword (c : Connection.Vars) : List (Item UInt8 Projector.Effect) :=
  request .userPassword (.get (htonl (UInt32.ofNat c.password.length)) :: resumeGet c.password (.call (.userPassword c.password) :: idle))

def hearConnection (c : Connection.Vars) : List (Item UInt8 Projector.Effect) :=
  request .userConnection (.get (htonl c.port) :: .get (htonl c.ipv6port) :: .call (.userConnection c.port c.ipv6port) ::
    hearPassword c)

def projectorScript (v : Projector.Vars) (c : Connection.Vars) : List (Item UInt8 Projector.Effect) :=
  answerString .appserverHost v.apphost (answerString .sessionId v.sessionId (answerString .hostname v.hostname (hearConnection c)))

/-! ## The server's side -/

section Server
variable {s : List (Item UInt8 Connection.Effect)} {α : Type} {Q : List (Item UInt8 Connection.Effect) → α → Prop}

abbrev ServerObeys (s : List (Item UInt8 Connection.Effect)) (p : Connection.Action α)
    (Q : List (Item UInt8 Connection.Effect) → α → Prop) : Prop :=
  (Script.monitor serverRole.good).Obeys s (p.handle serverIo) Q

theorem server_bind {β : Type} {p : Connection.Action β} {f : β → Connection.Action α} :
    ServerObeys s (p >>= f) Q ↔ ServerObeys s p (fun t a => ServerObeys t (f a) Q) := by
  rw [ServerObeys, Proc.handle_bind, Monitor.obeys_bind]

theorem sendUint32_obeys (data : UInt32) :
    ServerObeys (.put (htonl data) :: s) (Connection.sendUint32 data) (fun t sent => t = s ∧ sent = true) := by
  refine ⟨rfl, ?_⟩
  rintro sent _ ⟨rfl, rfl⟩
  exact ⟨rfl, rfl⟩

theorem tcpWrite_obeys (data : Bytes) :
    ServerObeys (.put data :: s) (Connection.act (.tcpWrite data)) (fun t sent => t = s ∧ sent = true) := by
  refine ⟨rfl, ?_⟩
  rintro sent _ ⟨rfl, rfl⟩
  exact ⟨rfl, rfl⟩

theorem tcpReadAll_handle (len : UInt32) : (Connection.tcpReadAll len).handle serverIo =
    readLoop Connection.Response len.toNat len.toNat [] >>= fun str =>
      Proc.ret (if str.length ≠ len.toNat then none else some str) :=
  Proc.handle_perform serverIo (.tcpReadAll len)

theorem recvUint32_obeys (w : UInt32) (rest : Bytes) :
    ServerObeys (.get (htonl w ++ rest) :: s) Connection.recvUint32 (fun t out => t = resumeGet rest s ∧ out = some w) := by
  refine ⟨⟨by decide, Or.inr (by simp)⟩, ?_⟩
  rintro got _ (⟨hnil, -⟩ | ⟨-, hlength, hprefix, rfl⟩)
  · exact absurd hnil (by simp [← List.length_pos_iff])
  · obtain rfl : got = htonl w := by
      rw [List.prefix_iff_eq_take.mp hprefix, hlength, List.take_left' (htonl_length w)]
    have hword : (if (htonl w).length ≠ 4 then none else some (ntohl (htonl w))) = some w := by
      rw [if_neg (not_not.mpr hlength), ntohl_htonl]
    rw [List.drop_left]
    exact ⟨rfl, hword⟩

theorem recvUint32_obeys_empty : ServerObeys (.get [] :: s) Connection.recvUint32 (fun t out => t = s ∧ out = none) := by
  refine ⟨⟨by decide, Or.inl rfl⟩, ?_⟩
  rintro got _ (⟨-, rfl, rfl⟩ | ⟨hne, -, hprefix, -⟩)
  · exact ⟨rfl, rfl⟩
  · exact absurd (List.prefix_nil.mp hprefix) hne

theorem tcpReadAll_obeys {text : Bytes} (h : text.length < 2 ^ 31) :
    ServerObeys (resumeGet text s) (Connection.tcpReadAll (UInt32.ofNat text.length)) (fun t out => t = s ∧ out = some text) := by
  have hlen : (UInt32.ofNat text.length).toNat = text.length := by
    rw [UInt32.toNat_ofNat', Nat.mod_eq_of_lt (by omega)]
  rw [ServerObeys, tcpReadAll_handle, hlen, Monitor.obeys_bind]
  refine (Script.readLoop_obeys (Nat.zero_le _) (Nat.sub_le _ _) (Nat.sub_le _ _)).mono ?_
  rintro t out ⟨rfl, rfl⟩
  simp [resumeGet]

theorem doReqInitial_obeys (req : Req) (rest : Bytes) :
    ServerObeys (.put (htonl req.code) :: .get (htonl req.code ++ rest) :: s) (Connection.doReqInitial req)
      (fun t ok => t = resumeGet rest s ∧ ok = true) := by
  unfold Connection.doReqInitial
  rw [server_bind]
  refine (sendUint32_obeys req.code).mono ?_
  rintro _ _ ⟨rfl, rfl⟩
  rw [if_neg (by decide), server_bind]
  refine (recvUint32_obeys req.code rest).mono ?_
  rintro _ _ ⟨rfl, rfl⟩
  exact ⟨rfl, decide_eq_true rfl⟩

theorem doReqString_obeys (req : Req) {text : Bytes} (h : text.length < 2 ^ 31) :
    ServerObeys (askString req text s) (Connection.doReqString req) (fun t out => t = s ∧ out = some text) := by
  unfold Connection.doReqString
  rw [server_bind]
  refine (doReqInitial_obeys req (htonl (UInt32.ofNat text.length))).mono ?_
  rintro _ _ ⟨rfl, rfl⟩
  rw [if_neg (by decide), server_bind]
  refine (recvUint32_obeys (UInt32.ofNat text.length) []).mono ?_
  rintro _ _ ⟨rfl, rfl⟩
  exact tcpReadAll_obeys h

theorem doReqString_obeys_empty (req : Req) :
    ServerObeys (.put (htonl req.code) :: .get [] :: s) (Connection.doReqString req) (fun t out => t = s ∧ out = none) := by
  unfold Connection.doReqString Connection.doReqInitial
  rw [server_bind, server_bind]
  refine (sendUint32_obeys req.code).mono ?_
  rintro _ _ ⟨rfl, rfl⟩
  rw [if_neg (by decide), server_bind]
  apply recvUint32_obeys_empty.mono
  rintro _ _ ⟨rfl, rfl⟩
  exact ⟨rfl, rfl⟩

theorem sendUserConnection_obeys (c : Connection.Vars) :
    ServerObeys (.put (htonl Req.userConnection.code) :: .put (htonl c.port) :: .put (htonl c.ipv6port) :: s)
      (Connection.sendUserConnection c) (fun t sent => t = s ∧ sent = true) := by
  unfold Connection.sendUserConnection
  rw [server_bind]
  refine (sendUint32_obeys _).mono ?_
  rintro _ _ ⟨rfl, rfl⟩
  rw [if_neg (by decide), server_bind]
  refine (sendUint32_obeys _).mono ?_
  rintro _ _ ⟨rfl, rfl⟩
  rw [if_neg (by decide)]
  exact sendUint32_obeys _

theorem sendUserPassword_obeys (c : Connection.Vars) :
    ServerObeys (.put (htonl Req.userPassword.code) :: .put (htonl (UInt32.ofNat c.password.length)) :: .put c.password :: s)
      (Connection.sendUserPassword c) (fun t sent => t = s ∧ sent = true) := by
  unfold Connection.sendUserPassword
  rw [server_bind]
  refine (sendUint32_obeys _).mono ?_
  rintro _ _ ⟨rfl, rfl⟩
  rw [if_neg (by decide), server_bind]
  refine (sendUint32_obeys _).mono ?_
  rintro _ _ ⟨rfl, rfl⟩
  rw [if_neg (by decide)]
  exact tcpWrite_obeys _

theorem exchange_obeys (v : Projector.Vars) (c : Connection.Vars) (happhost : v.apphost.length < 2 ^ 31)
    (hsessionId : v.sessionId.length < 2 ^ 31) (hhostname : v.hostname.length < 2 ^ 31) :
    ServerObeys (serverScript v c) (exchange c)
      (fun t out => t = [] ∧ out = some (v.apphost, v.sessionId, v.hostname)) := by
  unfold exchange
  rw [server_bind]
  refine (doReqString_obeys .appserverHost happhost).mono ?_
  rintro _ _ ⟨rfl, rfl⟩
  simp only [server_bind]
  refine (doReqString_obeys .sessionId hsessionId).mono ?_
  rintro _ _ ⟨rfl, rfl⟩
  simp only [server_bind]
  refine (doReqString_obeys .hostname hhostname).mono ?_
  rintro _ _ ⟨rfl, rfl⟩
  simp only [server_bind]
  refine (sendUserConnection_obeys c).mono ?_
  rintro _ _ ⟨rfl, rfl⟩
  rw [if_neg (by decide), server_bind]
  refine (sendUserPassword_obeys c).mono ?_
  rintro _ _ ⟨rfl, rfl⟩
  exact ⟨rfl, rfl⟩

def refusedHost (v : Projector.Vars) : List (Item UInt8 Connection.Effect) :=
  askString .appserverHost v.apphost [.put (htonl Req.sessionId.code), .get []]

def refusedId (v : Projector.Vars) : List (Item UInt8 Connection.Effect) :=
  askString .appserverHost v.apphost (askString .sessionId v.sessionId [.put (htonl Req.hostname.code), .get []])

theorem exchange_obeys_refusedHost (v : Projector.Vars) (c : Connection.Vars) (happhost : v.apphost.length < 2 ^ 31) :
    ServerObeys (refusedHost v) (exchange c) (fun t out => t = [] ∧ out = none) := by
  unfold exchange
  rw [server_bind]
  refine (doReqString_obeys .appserverHost happhost).mono ?_
  rintro _ _ ⟨rfl, rfl⟩
  simp only [server_bind]
  refine (doReqString_obeys_empty .sessionId).mono ?_
  rintro _ _ ⟨rfl, rfl⟩
  exact ⟨rfl, rfl⟩

theorem exchange_obeys_refusedId (v : Projector.Vars) (c : Connection.Vars) (happhost : v.apphost.length < 2 ^ 31)
    (hsessionId : v.sessionId.length < 2 ^ 31) :
    ServerObeys (refusedId v) (exchange c) (fun t out => t = [] ∧ out = none) := by
  unfold exchange
  rw [server_bind]
  refine (doReqString_obeys .appserverHost happhost).mono ?_
  rintro _ _ ⟨rfl, rfl⟩
  simp only [server_bind]
  refine (doReqString_obeys .sessionId hsessionId).mono ?_
  rintro _ _ ⟨rfl, rfl⟩
  simp only [server_bind]
  refine (doReqString_obeys_empty .hostname).mono ?_
  rintro _ _ ⟨rfl, rfl⟩
  exact ⟨rfl, rfl⟩

abbrev ServerGives {α : Type} (P : α → Prop) (p : Connection.Action α) : Prop := Script.GivesUp P (p.handle serverIo)

section Gives
variable {β : Type} {P : α → Prop} {R : β → Prop}

theorem ServerGives.bind {p : Connection.Action α} {f : α → Connection.Action β} (hp : ServerGives P p)
    (hf : ∀ a, ServerGives R (f a)) (hcut : ∀ a, P a → ∃ b, f a = .ret b ∧ R b) : ServerGives R (p >>= f) := by
  unfold ServerGives
  rw [Proc.handle_bind]
  refine Script.GivesUp.bind hp hf (fun a ha => ?_)
  obtain ⟨b, hb, hR⟩ := hcut a ha
  exact ⟨b, by rw [hb]; rfl, hR⟩

theorem serverGives_ret (a : α) : ServerGives P (.ret a : Connection.Action α) := fun h => h.elim

theorem readLoop_patient (len fuel : ℕ) (buf : Bytes) : (readLoop Connection.Response len fuel buf).Uses Script.Io.Patient := by
  induction fuel generalizing buf with
  | zero => trivial
  | succ fuel ih =>
    unfold readLoop
    split
    · trivial
    · refine ⟨trivial, fun got => ?_⟩
      by_cases hgot : got.length ≤ 0
      · simp [hgot]
      · simpa [hgot] using ih _

/-- Only words are taken in one read. -/
theorem serverIo_patient {e : Connection.Effect} (he : e ≠ .recvUint32) : (serverIo e).Uses Script.Io.Patient := by
  cases e with
  | recvUint32 => exact absurd rfl he
  | tcpReadAll len => exact (readLoop_patient _ _ _).bind (fun _ => trivial)
  | _ => exact ⟨trivial, fun _ => trivial⟩

theorem serverGives_of_patient {p : Connection.Action α} (h : p.Uses (· ≠ .recvUint32)) : ServerGives P p :=
  Script.GivesUp.of_patient (h.handle fun _ he => serverIo_patient he)

/-- A word that is cut is none. -/
theorem recvUint32_gives : ServerGives (· = none) Connection.recvUint32 := by
  refine ⟨id, ?_⟩
  rintro got cut rfl ⟨-, hshort⟩
  exact if_pos (Nat.ne_of_lt hshort)

theorem doReqInitial_gives (req : Req) : ServerGives (· = false) (Connection.doReqInitial req) := by
  have hsend : ServerGives (fun _ => False) (Connection.sendUint32 req.code) :=
    serverGives_of_patient ⟨nofun, fun _ => trivial⟩
  unfold Connection.doReqInitial
  refine hsend.bind (fun sent => ?_) (fun _ h => h.elim)
  cases sent with
  | false => exact serverGives_ret false
  | true =>
    refine recvUint32_gives.bind (fun tmp => ?_) ?_
    · cases tmp with
      | none => exact serverGives_ret false
      | some tmp => exact serverGives_ret _
    · rintro _ rfl
      exact ⟨false, rfl, rfl⟩

theorem doReqString_gives (req : Req) : ServerGives (· = none) (Connection.doReqString req) := by
  unfold Connection.doReqString
  refine (doReqInitial_gives req).bind (fun ok => ?_) ?_
  · cases ok with
    | false => exact serverGives_ret none
    | true =>
      refine recvUint32_gives.bind (fun len => ?_) ?_
      · cases len with
        | none => exact serverGives_ret none
        | some len => exact serverGives_of_patient ⟨nofun, fun _ => trivial⟩
      · rintro _ rfl
        exact ⟨none, rfl, rfl⟩
  · rintro _ rfl
    exact ⟨none, rfl, rfl⟩

/-- What the server tells it only writes. -/
theorem tell_gives {P : Option Strings → Prop} (c : Connection.Vars) (strings : Strings) : ServerGives P (do
    if !(← Connection.sendUserConnection c) then return none
    if !(← Connection.sendUserPassword c) then return none
    return some strings : Connection.Action (Option Strings)) := by
  have hsend : ∀ (data : UInt32), (Connection.sendUint32 data).Uses (· ≠ .recvUint32) := fun _ => ⟨nofun, fun _ => trivial⟩
  have hgo : ∀ {γ : Type} (sent : Bool) (a : γ) {p : Connection.Action γ}, p.Uses (· ≠ .recvUint32) →
      (if (!sent) = true then .ret a else p : Connection.Action γ).Uses (· ≠ .recvUint32) := by
    intro γ sent a p hp
    cases sent with
    | false => trivial
    | true => exact hp
  have hconnection : (Connection.sendUserConnection c).Uses (· ≠ .recvUint32) :=
    (hsend _).bind fun sent => hgo sent _ ((hsend _).bind fun sent => hgo sent _ (hsend _))
  have hpassword : (Connection.sendUserPassword c).Uses (· ≠ .recvUint32) :=
    (hsend _).bind fun sent => hgo sent _ ((hsend _).bind fun sent => hgo sent _ ⟨nofun, fun _ => trivial⟩)
  exact serverGives_of_patient
    (hconnection.bind fun sent => hgo sent _ (hpassword.bind fun sent => hgo sent none (Proc.uses_ret _ (some strings))))

theorem exchange_gives (c : Connection.Vars) : ServerGives (· = none) (exchange c) := by
  have hstring : ∀ (req : Req) {f : Option Bytes → Connection.Action (Option Strings)}, f none = .ret none →
      (∀ text, ServerGives (· = none) (f (some text))) → ServerGives (· = none) (Connection.doReqString req >>= f) := by
    intro req f hnone hsome
    refine (doReqString_gives req).bind (fun text => ?_) ?_
    · cases text with
      | none =>
        rw [hnone]
        exact serverGives_ret none
      | some text => exact hsome text
    · rintro _ rfl
      exact ⟨none, hnone, rfl⟩
  exact hstring _ rfl fun apphost => hstring _ rfl fun sessionId => hstring _ rfl fun hostname => tell_gives c _

end Gives

end Server

/-! ## The projector's side -/

section Projector
variable {v : Projector.Vars} {s : List (Item UInt8 Projector.Effect)} {α : Type}
  {Q : List (Item UInt8 Projector.Effect) → α → Prop}

/-- The projector follows a script with one of its functions. -/
abbrev ProjectorObeys (v : Projector.Vars) (s : List (Item UInt8 Projector.Effect)) (p : Projector.Action α)
    (Q : List (Item UInt8 Projector.Effect) → α → Prop) : Prop :=
  (Script.monitor (projectorRole v).good).Obeys s (p.handle projectorIo) Q

theorem projector_bind {β : Type} {p : Projector.Action β} {f : β → Projector.Action α} :
    ProjectorObeys v s (p >>= f) Q ↔ ProjectorObeys v s p (fun t a => ProjectorObeys v t (f a) Q) := by
  rw [ProjectorObeys, Proc.handle_bind, Monitor.obeys_bind]

theorem readLoop_handle (len fuel : ℕ) (buf : Bytes) :
    (Projector.readLoop len fuel buf).handle projectorIo = readLoop Projector.Response len fuel buf := by
  induction fuel generalizing buf with
  | zero => rfl
  | succ fuel ih =>
    unfold Projector.readLoop readLoop
    split
    · rfl
    · rw [Proc.handle_bind]
      apply congrArg (Proc.op (Script.Io.read (len - buf.length)))
      funext got
      rw [← ih]
      exact apply_ite (Proc.handle projectorIo) _ _ _

theorem recvWord_obeys {w : UInt32} {f : Option UInt32 → Projector.Action α} (h : ProjectorObeys v s (f (some w)) Q) :
    ProjectorObeys v (.get (htonl w) :: s) (Projector.recvUint32 >>= f) Q := by
  unfold Projector.recvUint32 Projector.tcpReadAll
  rw [projector_bind, projector_bind, ProjectorObeys, readLoop_handle]
  have hread := @Script.readLoop_obeys UInt8 Projector.Effect Projector.Response (projectorRole v).good 4 4 [] (htonl w) s
    (by decide) (by decide) (by simp)
  apply hread.mono
  rintro t out ⟨rfl, rfl⟩
  have htake : (htonl w).take 4 = htonl w := List.take_of_length_le (by simp)
  simp only [List.length_nil, Nat.sub_zero, List.nil_append, htake, htonl_length, ntohl_htonl]
  exact h

theorem write_obeys {kind : Projector.WriteKind} {data : Bytes} {f : Bool → Projector.Action α}
    (h : ProjectorObeys v s (f true) Q) : ProjectorObeys v (.put data :: s) (Projector.tcpWriteAll kind data >>= f) Q := by
  refine ⟨rfl, ?_⟩
  rintro sent _ ⟨rfl, rfl⟩
  exact h

theorem request_obeys {req : Req} {Q : List (Item UInt8 Projector.Effect) → Projector.Loop ⊕ Unit → Prop}
    (h : ProjectorObeys v (.call (.dispatch req.code) :: s) (Projector.dispatchRequest v true req.code) Q) :
    ProjectorObeys v (request req s) (Projector.body v (.serve true)) Q := by
  refine ⟨rfl, ?_⟩
  rintro started _ ⟨hstarted, rfl⟩
  obtain rfl : started = true := hstarted
  exact recvWord_obeys h

def Rests (rest : List (Item UInt8 Projector.Effect)) (t : List (Item UInt8 Projector.Effect)) (out : Projector.Loop ⊕ Unit) :
    Prop := t = rest ∧ out = Sum.inl (.serve true)

theorem proceed_obeys {request : Projector.Action Bool} {rest : List (Item UInt8 Projector.Effect)}
    (h : ProjectorObeys v s request (fun t ok => t = rest ∧ ok = true)) :
    ProjectorObeys v s (Projector.proceed v true request) (Rests rest) := by
  unfold Projector.proceed
  rw [projector_bind]
  apply h.mono
  rintro _ _ ⟨rfl, rfl⟩
  exact ⟨rfl, rfl⟩

theorem sendString_obeys (req : Req) (text : Bytes) :
    ProjectorObeys v (.put (Projector.stringHeaderBytes req text) :: .put text :: s) (Projector.sendString req text)
      (fun t ok => t = s ∧ ok = true) := by
  apply write_obeys
  refine ⟨rfl, ?_⟩
  rintro sent _ ⟨rfl, rfl⟩
  exact ⟨rfl, rfl⟩

theorem answerHost_obeys : ProjectorObeys v (answerString .appserverHost v.apphost s) (Projector.body v (.serve true)) (Rests s) := by
  refine request_obeys ⟨rfl, ?_⟩
  rintro _ _ ⟨-, rfl⟩
  exact proceed_obeys (sendString_obeys _ _)

theorem answerId_obeys : ProjectorObeys v (answerString .sessionId v.sessionId s) (Projector.body v (.serve true)) (Rests s) := by
  refine request_obeys ⟨rfl, ?_⟩
  rintro _ _ ⟨-, rfl⟩
  exact proceed_obeys (sendString_obeys _ _)

theorem answerHostname_obeys :
    ProjectorObeys v (answerString .hostname v.hostname s) (Projector.body v (.serve true)) (Rests s) := by
  refine request_obeys ⟨rfl, ?_⟩
  rintro _ _ ⟨-, rfl⟩
  exact proceed_obeys (sendString_obeys _ _)

theorem hearConnection_obeys (c : Connection.Vars) :
    ProjectorObeys v (hearConnection c) (Projector.body v (.serve true)) (Rests (hearPassword c)) := by
  refine request_obeys ⟨rfl, ?_⟩
  rintro _ _ ⟨-, rfl⟩
  refine proceed_obeys (recvWord_obeys (recvWord_obeys ⟨rfl, ?_⟩))
  rintro _ _ ⟨-, rfl⟩
  exact ⟨rfl, rfl⟩

def AtLoop (v : Projector.Vars) (c : Connection.Vars) : Projector.Loop → List (Item UInt8 Projector.Effect) → Prop
  | .serve authorized, s => authorized = true ∧ (s = projectorScript v c ∨
      s = answerString .sessionId v.sessionId (answerString .hostname v.hostname (hearConnection c)) ∨
      s = answerString .hostname v.hostname (hearConnection c) ∨ s = hearConnection c ∨ s = hearPassword c ∨ s = idle)
  | .password authorized len total buf, s =>
    authorized = true ∧ len = c.password.length ∧ total = buf.length ∧
      ∃ rest, buf ++ rest = c.password ∧ s = resumeGet rest (.call (.userPassword c.password) :: idle)

def NotLeft (_ : List (Item UInt8 Projector.Effect)) (_ : Unit) : Prop := False

theorem Rests.atLoop {c : Connection.Vars} {rest t : List (Item UInt8 Projector.Effect)} {out : Projector.Loop ⊕ Unit}
    (hrest : AtLoop v c (.serve true) rest) (h : Rests rest t out) : Monitor.LoopPost (AtLoop v c) NotLeft t out := by
  obtain ⟨rfl, rfl⟩ := h
  exact hrest

theorem hearPassword_obeys {c : Connection.Vars} (hpassword : c.password.length < 2 ^ 31) :
    ProjectorObeys v (hearPassword c) (Projector.body v (.serve true)) (Monitor.LoopPost (AtLoop v c) NotLeft) := by
  refine request_obeys ⟨rfl, ?_⟩
  rintro _ _ ⟨-, rfl⟩
  apply recvWord_obeys
  exact ⟨rfl, Memory.asInt_ofNat hpassword, rfl, c.password, rfl, rfl⟩

theorem idle_obeys {c : Connection.Vars} :
    ProjectorObeys v idle (Projector.body v (.serve true)) (Monitor.LoopPost (AtLoop v c) NotLeft) := by
  refine ⟨rfl, ?_⟩
  rintro started _ ⟨hstarted, rfl⟩
  obtain rfl : started = true := hstarted
  exact ⟨(by decide : 0 < 4), fun _ _ h => absurd h id⟩

theorem tcpRead_obeys {n : ℕ} {f : Bytes → Projector.Action α} (hok : Script.Allows s (.read n))
    (h : ∀ got t, Script.Moves (projectorRole v).good s (.read n) got t → ProjectorObeys v t (f got) Q) :
    ProjectorObeys v s (Projector.tcpRead n >>= f) Q := ⟨hok, h⟩

theorem password_obeys {c : Connection.Vars} (hpassword : c.password.length < 2 ^ 31) {len total : ℤ} {buf : Bytes}
    (hlen : len = c.password.length) (htotal : total = buf.length) {rest : Bytes} (hbuf : buf ++ rest = c.password) :
    ProjectorObeys v (resumeGet rest (.call (.userPassword c.password) :: idle)) (Projector.body v (.password true len total buf))
      (Monitor.LoopPost (AtLoop v c) NotLeft) := by
  have hlength : buf.length + rest.length = c.password.length := by rw [← hbuf, List.length_append]
  subst hlen htotal
  cases rest with
  | nil =>
    rw [List.append_nil] at hbuf
    subst hbuf
    rw [Projector.body, if_pos rfl]
    refine ⟨rfl, ?_⟩
    rintro _ _ ⟨-, rfl⟩
    exact ⟨rfl, Or.inr (Or.inr (Or.inr (Or.inr (Or.inr rfl))))⟩
  | cons b rest =>
    rw [List.length_cons] at hlength
    have hwanted : sizeT (Memory.wrapInt (c.password.length - buf.length)) = rest.length + 1 := by
      rw [Memory.wrapInt_of_range (by omega) (by omega), sizeT, Int.emod_eq_of_lt (by omega) (by omega)]
      omega
    have hmore : ¬ (buf.length : ℤ) = c.password.length := by omega
    rw [Projector.body, if_neg hmore, hwanted]
    refine tcpRead_obeys ⟨Nat.succ_pos _, Or.inr (Nat.le_refl _)⟩ ?_
    rintro got _ (⟨hnil, -⟩ | ⟨hne, -, ⟨tail, htail⟩, rfl⟩)
    · cases hnil
    · have hpos := List.length_pos_iff.mpr hne
      have hgot := congrArg List.length htail
      rw [List.length_append, List.length_cons] at hgot
      have htotal : Memory.wrapInt (buf.length + got.length) = (buf ++ got).length := by
        rw [Memory.wrapInt_of_range (by omega) (by omega), List.length_append, Nat.cast_add]
      have hgo : ¬ got.length ≤ 0 := by omega
      rw [← htail, List.drop_left, if_neg hgo, htotal]
      refine ⟨rfl, rfl, rfl, tail, ?_, rfl⟩
      rw [List.append_assoc, htail, hbuf]

theorem body_obeys {c : Connection.Vars} (hpassword : c.password.length < 2 ^ 31) (loop : Projector.Loop)
    (s : List (Item UInt8 Projector.Effect)) (h : AtLoop v c loop s) :
    (Script.monitor (projectorRole v).good).Obeys s ((projectorRole v).body loop) (Monitor.LoopPost (AtLoop v c) NotLeft) := by
  cases loop with
  | serve authorized =>
    obtain ⟨rfl, rfl | rfl | rfl | rfl | rfl | rfl⟩ := h
    · exact answerHost_obeys.mono fun _ _ => Rests.atLoop ⟨rfl, Or.inr (Or.inl rfl)⟩
    · exact answerId_obeys.mono fun _ _ => Rests.atLoop ⟨rfl, Or.inr (Or.inr (Or.inl rfl))⟩
    · exact answerHostname_obeys.mono fun _ _ => Rests.atLoop ⟨rfl, Or.inr (Or.inr (Or.inr (Or.inl rfl)))⟩
    · exact (hearConnection_obeys c).mono fun _ _ => Rests.atLoop ⟨rfl, Or.inr (Or.inr (Or.inr (Or.inr (Or.inl rfl))))⟩
    · exact hearPassword_obeys hpassword
    · exact idle_obeys
  | password authorized len total buf =>
    obtain ⟨rfl, hlen, htotal, rest, hbuf, rfl⟩ := h
    exact password_obeys hpassword hlen htotal hbuf

end Projector

/-! ## The exchange as a whole -/

def heldConnection (log : List Projector.Effect) : Option (UInt32 × UInt32) :=
  log.reverse.findSome? fun
    | .userConnection port ipv6port => some (port, ipv6port)
    | _ => none

def heldPassword (log : List Projector.Effect) : Option Bytes :=
  log.reverse.findSome? fun
    | .userPassword password => some password
    | _ => none

/-- The server has the three strings, the projector the ports and the password, and
every frame has been read. -/
structure Delivered (v : Projector.Vars) (c : Connection.Vars) (x : System) : Prop where
  strings : x.left.thread = .ret (Sum.inr (some (v.apphost, v.sessionId, v.hostname)))
  connection : heldConnection x.right.log = some (c.port, c.ipv6port)
  password : heldPassword x.right.log = some c.password
  consumed : x.left.inbox = [] ∧ x.right.inbox = []

theorem Delivered.not_failed {v : Projector.Vars} {c : Connection.Vars} {x : System} (h : Delivered v c x) :
    x.left.thread ≠ .ret (Sum.inr none) := by
  intro hfailed
  rw [h.strings] at hfailed
  cases hfailed

def Delivers (v : Projector.Vars) (c : Connection.Vars) : Prop :=
  ∃ bound, ∀ turns x, Transition.run (step v) (start v c) turns = some x →
    turns.length ≤ bound ∧ ((∀ turn, step v x turn = none) → Delivered v c x)

def NeverDelivers (v : Projector.Vars) (c : Connection.Vars) : Prop :=
  ∃ bound, ∀ turns x, Transition.run (step v) (start v c) turns = some x → turns.length ≤ bound ∧ ¬ Delivered v c x

theorem NeverDelivers.not_delivers {v : Projector.Vars} {c : Connection.Vars} (h : NeverDelivers v c) : ¬ Delivers v c := by
  rintro ⟨bound, hdelivers⟩
  obtain ⟨never, hnever⟩ := h
  obtain ⟨turns, x, hrun, hstuck⟩ := Transition.exists_stuck (fun turns x hrun => (hdelivers turns x hrun).1)
  exact (hnever turns x hrun).2 ((hdelivers turns x hrun).2 hstuck)

/-- Every word the server reads comes as a whole, as far as there is one. -/
def Uncut (turns : List (Script.Turn UInt8 Connection.Response Projector.Response)) : Prop := ∀ turn ∈ turns, ¬ turn.Cut

section Exchange
variable {v : Projector.Vars} {c : Connection.Vars}

theorem body_ne_inl (loop loop' : Projector.Loop) : (projectorRole v).body loop ≠ .ret (Sum.inl loop') := by
  intro h
  cases loop with
  | serve authorized => cases h
  | password authorized len total buf =>
    simp only [projectorRole, Projector.body] at h
    split at h <;> cases h

/-- The exchange starts at the beginning of both scripts, whatever the server's is. -/
theorem start_between (hpassword : c.password.length < 2 ^ 31) {s₀ : List (Item UInt8 Connection.Effect)}
    {result : Option Strings} (hserver : ServerObeys s₀ (exchange c) (fun t out => t = [] ∧ out = result))
    {extra never : Script.Channel UInt8} (htoLeft : Script.gets s₀ ++ extra = Script.puts (projectorScript v c))
    (htoRight : Script.gets (projectorScript v c) = Script.puts s₀ ++ never) (hwait : .wait ∈ s₀ → extra = []) :
    Script.Between serverRole (projectorRole v) (fun loop _ => loop.elim) (fun t out => t = [] ∧ out = result)
      (AtLoop v c) NotLeft s₀ (projectorScript v c) extra never (start v c) s₀ (projectorScript v c) where
  left := by
    refine ⟨?_, fun loop => loop.elim, rfl, List.suffix_rfl⟩
    rw [start, Monitor.obeys_bind]
    exact hserver
  right := ⟨body_obeys hpassword _ _ ⟨rfl, Or.inl rfl⟩, body_ne_inl _, rfl, List.suffix_rfl⟩
  toLeft := htoLeft
  toRight := htoRight
  noWait := hwait

theorem projector_patient (v : Projector.Vars) (loop : Projector.Loop) :
    ((projectorRole v).body loop).Uses Script.Io.Patient := by
  have hany : ∀ {α : Type} (p : Projector.Action α), p.Uses (fun _ => True) := by
    intro α p
    induction p with
    | ret a => trivial
    | op e k ih => exact ⟨trivial, ih⟩
  refine (hany _).handle (fun e _ => ?_)
  cases e <;> exact ⟨trivial, fun _ => trivial⟩

theorem start_gives : Script.GivesUp (· = Sum.inr none) (start v c).left.thread :=
  Script.GivesUp.bind (exchange_gives c) (fun _ h => h.elim) (fun _ h => ⟨_, rfl, h ▸ rfl⟩)

/-- In a run no word is cut and both are in their scripts, or the server has given up. -/
theorem run_between (hpassword : c.password.length < 2 ^ 31) {s₀ : List (Item UInt8 Connection.Effect)}
    {result : Option Strings} {extra never : Script.Channel UInt8}
    (h : Script.Between serverRole (projectorRole v) (fun loop _ => loop.elim) (fun t out => t = [] ∧ out = result)
      (AtLoop v c) NotLeft s₀ (projectorScript v c) extra never (start v c) s₀ (projectorScript v c))
    {turns : List (Script.Turn UInt8 Connection.Response Projector.Response)} {x : System}
    (hrun : Transition.run (step v) (start v c) turns = some x) :
    turns.length ≤ Script.size s₀ + Script.size (projectorScript v c) ∧
      (Uncut turns ∧ (∃ s t,
        Script.Between serverRole (projectorRole v) (fun loop _ => loop.elim) (fun t out => t = [] ∧ out = result)
          (AtLoop v c) NotLeft s₀ (projectorScript v c) extra never x s t) ∨
        ¬ Uncut turns ∧ x.left.thread = .ret (Sum.inr none)) := by
  have hpatient := projector_patient v
  obtain ⟨hlength, hcases⟩ := Script.run_between (fun loop => loop.elim) (fun loop => loop.elim) (body_obeys hpassword)
    body_ne_inl hpatient (fun loop => loop.elim) h start_gives (hpatient _) hrun
  refine ⟨hlength, hcases.imp id (fun hcut => ⟨fun hwhole => ?_, hcut.2⟩)⟩
  obtain ⟨turn, hturn, hcut⟩ := hcut.1
  exact hwhole turn hturn hcut

theorem projectorScript_frames (hpassword : c.password ≠ []) :
    Script.puts (projectorScript v c) =
        [Projector.stringHeaderBytes .appserverHost v.apphost, v.apphost, Projector.stringHeaderBytes .sessionId v.sessionId,
          v.sessionId, Projector.stringHeaderBytes .hostname v.hostname, v.hostname] ∧
      Script.gets (projectorScript v c) =
        [htonl Req.appserverHost.code, htonl Req.sessionId.code, htonl Req.hostname.code, htonl Req.userConnection.code,
          htonl c.port, htonl c.ipv6port, htonl Req.userPassword.code, htonl (UInt32.ofNat c.password.length), c.password] := by
  unfold projectorScript answerString hearConnection hearPassword request
  rw [Script.resumeGet_of_ne_nil hpassword]
  exact ⟨rfl, rfl⟩

theorem projectorScript_tags (hpassword : c.password ≠ []) : (projectorScript v c).map Item.tag =
    [.call, .get, .call, .put, .put, .call, .get, .call, .put, .put, .call, .get, .call, .put, .put,
      .call, .get, .call, .get, .get, .call, .call, .get, .call, .get, .get, .call, .call, .wait] := by
  unfold projectorScript answerString hearConnection hearPassword request
  rw [Script.resumeGet_of_ne_nil hpassword]
  rfl

theorem projectorScript_calls : Script.calls (projectorScript v c) =
    [.isStarted, .dispatch Req.appserverHost.code, .isStarted, .dispatch Req.sessionId.code, .isStarted,
      .dispatch Req.hostname.code, .isStarted, .dispatch Req.userConnection.code, .userConnection c.port c.ipv6port,
      .isStarted, .dispatch Req.userPassword.code, .userPassword c.password, .isStarted] := by
  unfold projectorScript answerString hearConnection hearPassword request
  simp only [Script.calls, Script.calls_resumeGet]
  rfl

theorem serverRole_answers (e : Connection.Effect) : ∃ r, serverRole.good e r = true := by
  cases e <;> exact ⟨default, rfl⟩

theorem projectorRole_answers (e : Projector.Effect) : ∃ r, (projectorRole v).good e r = true := by
  cases e
  case isStarted => exact ⟨true, rfl⟩
  all_goals exact ⟨default, rfl⟩

theorem delivered_iff_uncut (happhost : v.apphost.length < 2 ^ 31) (hsessionId : v.sessionId.length < 2 ^ 31)
    (hhostname : v.hostname.length < 2 ^ 31) (hpassword : c.password ≠ []) (hshort : c.password.length < 2 ^ 31)
    (h : v.apphost ≠ [] ∧ v.sessionId ≠ [] ∧ v.hostname ≠ []) :
    ∃ bound, ∀ turns x, Transition.run (step v) (start v c) turns = some x →
      turns.length ≤ bound ∧ ((∀ turn, step v x turn = none) → (Delivered v c x ↔ Uncut turns)) := by
  obtain ⟨ha, hs, hh⟩ := h
  obtain ⟨hputs, hgets⟩ := @projectorScript_frames v c hpassword
  have hscript : serverScript v c = [.put (htonl Req.appserverHost.code),
      .get (Projector.stringHeaderBytes .appserverHost v.apphost), .get v.apphost, .put (htonl Req.sessionId.code),
      .get (Projector.stringHeaderBytes .sessionId v.sessionId), .get v.sessionId, .put (htonl Req.hostname.code),
      .get (Projector.stringHeaderBytes .hostname v.hostname), .get v.hostname] ++ tell c := by
    unfold serverScript askString
    rw [Script.resumeGet_of_ne_nil ha, Script.resumeGet_of_ne_nil hs, Script.resumeGet_of_ne_nil hh]
    rfl
  have hstart := start_between hshort (exchange_obeys v c happhost hsessionId hhostname)
    (by rw [hputs, hscript]; rfl : Script.gets (serverScript v c) ++ [] = _)
    (by rw [hgets, hscript]; rfl : _ = Script.puts (serverScript v c) ++ []) (fun _ => rfl)
  refine ⟨Script.size (serverScript v c) + Script.size (projectorScript v c), fun turns x hrun => ?_⟩
  obtain ⟨hlen, ⟨huncut, s, t, hbetween⟩ | ⟨hcut, hfailed⟩⟩ := run_between hshort hstart hrun
  swap
  · -- the server has none of the strings after a word that is cut
    exact ⟨hlen, fun _ => iff_of_false (fun hdelivered => hdelivered.not_failed hfailed) hcut⟩
  refine ⟨hlen, fun hstuck => iff_of_true ?_ huncut⟩
  have htags : (serverScript v c).map Item.tag =
      [.put, .get, .get, .put, .get, .get, .put, .get, .get, .put, .put, .put, .put, .put, .put] := by
    rw [hscript]
    rfl
  have hwaits : Script.NeverBothWait ((serverScript v c).map Item.tag) ((projectorScript v c).map Item.tag) := by
    rw [htags, projectorScript_tags hpassword]
    decide
  obtain ⟨hleft, hright, hconsumed⟩ := Script.ended_of_stuck serverRole_answers projectorRole_answers
    (fun _ _ hF => hF.1) (fun _ _ hF => absurd hF id) hwaits hbetween hstuck
  have hlog := hbetween.right.log
  rw [(hright.nothing_left (fun _ _ hF => absurd hF id)).2.2, List.append_nil, projectorScript_calls] at hlog
  rcases hleft with ⟨out, hthread, -, rfl⟩ | ⟨s', rfl⟩
  · refine ⟨hthread, ?_, ?_, hconsumed⟩
    · rw [hlog]
      rfl
    · rw [hlog]
      rfl
  · -- the server does not wait at the end of its script
    have hmem := hbetween.left.shape.subset (List.mem_cons_self : Script.Tag.wait ∈ _)
    rw [htags] at hmem
    exact absurd hmem (by decide)

/-! ## Strings that are empty -/

theorem never_of_none (hshort : c.password.length < 2 ^ 31) {s₀ : List (Item UInt8 Connection.Effect)}
    (hserver : ServerObeys s₀ (exchange c) (fun t out => t = [] ∧ out = none))
    (htoLeft : Script.gets s₀ <+: Script.puts (projectorScript v c))
    (htoRight : Script.puts s₀ <+: Script.gets (projectorScript v c)) (hwait : .wait ∉ s₀) : NeverDelivers v c := by
  obtain ⟨extra, hextra⟩ := htoLeft
  obtain ⟨never, hnever⟩ := htoRight
  refine ⟨Script.size s₀ + Script.size (projectorScript v c), fun turns x hrun => ?_⟩
  obtain ⟨hlen, hcases⟩ := run_between hshort
    (start_between hshort hserver hextra hnever.symm (fun hmem => absurd hmem hwait)) hrun
  refine ⟨hlen, fun hdelivered => ?_⟩
  rcases hcases with ⟨-, s, t, hbetween⟩ | ⟨-, hfailed⟩
  · have hobeys := hbetween.left.obeys
    rw [hdelivered.strings] at hobeys
    cases hobeys.2
  · exact hdelivered.not_failed hfailed

theorem never_of_apphost (happhost : v.apphost = []) (hpassword : c.password ≠ [])
    (hshort : c.password.length < 2 ^ 31) : NeverDelivers v c := by
  obtain ⟨hputs, hgets⟩ := @projectorScript_frames v c hpassword
  have hlen : v.apphost.length < 2 ^ 31 := by
    rw [happhost]
    decide
  have hscript : refusedHost v = [.put (htonl Req.appserverHost.code),
      .get (Projector.stringHeaderBytes .appserverHost v.apphost), .put (htonl Req.sessionId.code), .get []] := by
    rw [refusedHost, askString, happhost]
    rfl
  refine never_of_none hshort (exchange_obeys_refusedHost v c hlen) ?_ ?_ ?_
  · rw [hputs, hscript, happhost]
    exact ⟨_, rfl⟩
  · rw [hgets, hscript]
    exact ⟨_, rfl⟩
  · rw [hscript]
    simp

theorem never_of_sessionId (happhost : v.apphost ≠ []) (hlen : v.apphost.length < 2 ^ 31)
    (hsessionId : v.sessionId = []) (hpassword : c.password ≠ []) (hshort : c.password.length < 2 ^ 31) :
    NeverDelivers v c := by
  obtain ⟨hputs, hgets⟩ := @projectorScript_frames v c hpassword
  have hlen' : v.sessionId.length < 2 ^ 31 := by
    rw [hsessionId]
    decide
  have hscript : refusedId v = [.put (htonl Req.appserverHost.code),
      .get (Projector.stringHeaderBytes .appserverHost v.apphost), .get v.apphost, .put (htonl Req.sessionId.code),
      .get (Projector.stringHeaderBytes .sessionId v.sessionId), .put (htonl Req.hostname.code), .get []] := by
    rw [refusedId, askString, askString, Script.resumeGet_of_ne_nil happhost, hsessionId]
    rfl
  refine never_of_none hshort (exchange_obeys_refusedId v c hlen hlen') ?_ ?_ ?_
  · rw [hputs, hscript, hsessionId]
    exact ⟨_, rfl⟩
  · rw [hgets, hscript]
    exact ⟨_, rfl⟩
  · rw [hscript]
    simp

/-- After an empty `hostname` the server has its strings, and an empty frame is left. -/
theorem never_of_hostname (happhost : v.apphost ≠ []) (hlen : v.apphost.length < 2 ^ 31)
    (hsessionId : v.sessionId ≠ []) (hlen' : v.sessionId.length < 2 ^ 31) (hhostname : v.hostname = [])
    (hpassword : c.password ≠ []) (hshort : c.password.length < 2 ^ 31) : NeverDelivers v c := by
  obtain ⟨hputs, hgets⟩ := @projectorScript_frames v c hpassword
  have hscript : serverScript v c = [.put (htonl Req.appserverHost.code),
      .get (Projector.stringHeaderBytes .appserverHost v.apphost), .get v.apphost, .put (htonl Req.sessionId.code),
      .get (Projector.stringHeaderBytes .sessionId v.sessionId), .get v.sessionId, .put (htonl Req.hostname.code),
      .get (Projector.stringHeaderBytes .hostname v.hostname)] ++ tell c := by
    rw [serverScript, askString, askString, askString, Script.resumeGet_of_ne_nil happhost,
      Script.resumeGet_of_ne_nil hsessionId, hhostname]
    rfl
  have hstart := start_between hshort (exchange_obeys v c hlen hlen' (by rw [hhostname]; decide))
    (by rw [hputs, hscript, hhostname]; rfl : Script.gets (serverScript v c) ++ [[]] = _)
    (by rw [hgets, hscript]; rfl : _ = Script.puts (serverScript v c) ++ []) (by rw [hscript]; simp [tell])
  refine ⟨Script.size (serverScript v c) + Script.size (projectorScript v c), fun turns x hrun => ?_⟩
  obtain ⟨hlength, ⟨-, s, t, hbetween⟩ | ⟨-, hfailed⟩⟩ := run_between hshort hstart hrun
  swap
  · exact ⟨hlength, fun hdelivered => hdelivered.not_failed hfailed⟩
  refine ⟨hlength, fun hdelivered => ?_⟩
  have hobeys := hbetween.left.obeys
  rw [hdelivered.strings] at hobeys
  have htoLeft := hbetween.toLeft
  have htoRight := hbetween.toRight
  rw [hobeys.1, hdelivered.consumed.1] at htoLeft
  rw [hobeys.1, hdelivered.consumed.2] at htoRight
  -- the projector still has its last text to write, and nothing to read
  have hlast : ∀ tags ∈ ((projectorScript v c).map Item.tag).tails,
      Script.countTag .get tags = 0 → Script.countTag .put tags = 0 := by
    rw [projectorScript_tags hpassword]
    decide
  have hnone := hlast _ ((List.mem_tails _ _).mpr hbetween.right.shape)
    (by rw [← Script.gets_length, htoRight]; rfl)
  rw [← Script.puts_length, ← List.nil_append (Script.puts t), ← htoLeft] at hnone
  cases hnone

theorem never_of_empty (happhost : v.apphost.length < 2 ^ 31) (hsessionId : v.sessionId.length < 2 ^ 31)
    (hpassword : c.password ≠ []) (hshort : c.password.length < 2 ^ 31)
    (h : ¬ (v.apphost ≠ [] ∧ v.sessionId ≠ [] ∧ v.hostname ≠ [])) : NeverDelivers v c := by
  by_cases ha : v.apphost = []
  · exact never_of_apphost ha hpassword hshort
  by_cases hs : v.sessionId = []
  · exact never_of_sessionId ha happhost hs hpassword hshort
  by_cases hh : v.hostname = []
  · exact never_of_hostname ha happhost hs hsessionId hh hpassword hshort
  exact absurd ⟨ha, hs, hh⟩ h

end Exchange

/-- Every run of the exchange ends, and it has delivered its strings, ports and password
exactly, with every frame read, if and only if none of the three strings is empty and no
word came to the server in pieces; a missing string is sent as an empty one. -/
theorem setup_delivers_iff (v : Projector.Vars) (c : Connection.Vars) (happhost : v.apphost.length < 2 ^ 31)
    (hsessionId : v.sessionId.length < 2 ^ 31) (hhostname : v.hostname.length < 2 ^ 31) (hpassword : c.password ≠ [])
    (hshort : c.password.length < 2 ^ 31) :
    ∃ bound, ∀ turns x, Transition.run (step v) (start v c) turns = some x →
      turns.length ≤ bound ∧ ((∀ turn, step v x turn = none) →
        (Delivered v c x ↔ (v.apphost ≠ [] ∧ v.sessionId ≠ [] ∧ v.hostname ≠ []) ∧ Uncut turns)) := by
  by_cases hnonempty : v.apphost ≠ [] ∧ v.sessionId ≠ [] ∧ v.hostname ≠ []
  · obtain ⟨bound, hends⟩ := delivered_iff_uncut happhost hsessionId hhostname hpassword hshort hnonempty
    refine ⟨bound, fun turns x hrun => ⟨(hends turns x hrun).1, fun hstuck => ?_⟩⟩
    rw [(hends turns x hrun).2 hstuck]
    exact (and_iff_right hnonempty).symm
  · obtain ⟨bound, hnever⟩ := never_of_empty happhost hsessionId hpassword hshort hnonempty
    refine ⟨bound, fun turns x hrun => ⟨(hnever turns x hrun).1, fun _ => ?_⟩⟩
    exact iff_of_false (hnever turns x hrun).2 (fun h => hnonempty h.1)

/-- A projector that shares a screen for the application server `a`, with and without a
session id. -/
def withId : Projector.Vars := ⟨false, true, screen16, asciiBytes "a", asciiBytes "s", asciiBytes "pc"⟩
def withoutId : Projector.Vars := { withId with sessionId := [] }

def announced : Connection.Vars := ⟨5900, 5901, asciiBytes "0123456789abcdef01234567"⟩

theorem short_of_le {text : Bytes} (h : text.length ≤ 24) : text.length < 2 ^ 31 := by omega

theorem withId_delivers : ∃ bound, ∀ turns x, Transition.run (step withId) (start withId announced) turns = some x →
    turns.length ≤ bound ∧ ((∀ turn, step withId x turn = none) → (Delivered withId announced x ↔ Uncut turns)) := by
  obtain ⟨bound, hends⟩ := setup_delivers_iff withId announced (short_of_le (by decide)) (short_of_le (by decide))
    (short_of_le (by decide)) (by decide) (short_of_le (by decide))
  refine ⟨bound, fun turns x hrun => ⟨(hends turns x hrun).1, fun hstuck => ?_⟩⟩
  rw [(hends turns x hrun).2 hstuck]
  exact and_iff_right (by decide)

theorem withoutId_delivers_nothing : NeverDelivers withoutId announced ∧ ¬ Delivers withoutId announced := by
  have hnever : NeverDelivers withoutId announced := never_of_empty (short_of_le (by decide)) (short_of_le (by decide))
    (by decide) (short_of_le (by decide))
    (by decide : ¬ (withoutId.apphost ≠ [] ∧ withoutId.sessionId ≠ [] ∧ withoutId.hostname ≠ []))
  exact ⟨hnever, hnever.not_delivers⟩

end Setup
end LilitunRemote

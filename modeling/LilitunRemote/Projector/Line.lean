import LilitunRemote.Projector.Thread
import LilitunRemote.Protocol.WordRead

/-! # A projector thread on its connection

The connection cuts the received bytes into any segments and decides which writes go
through. Whatever the segments are, `tcp_read_all` collects the next bytes of the stream.
-/
namespace LilitunRemote
namespace Projector
open Memory WordRead

/-- The received bytes, the outcomes of the coming writes and of the grab, the calls of
`tcp_write` with their outcomes, and the status. -/
structure Line where
  input : Segments
  writes : ℕ → Bool
  grab : Option (List RegionData)
  attempts : List (WriteKind × Bytes × Bool)
  status : Option Status

def idVars (sessionId : Bytes) : Vars := ⟨true, false, screen16, [], sessionId, []⟩

namespace Line

/-- `is_started` stays set. -/
def answer (l : Line) : (e : Effect) → Response e × Line
  | .isStarted => (true, l)
  | .tcpRead len => ((l.input.tcpRead len).1, { l with input := (l.input.tcpRead len).2 })
  | .tcpWrite kind data =>
    (l.writes 0, { l with writes := fun k => l.writes (k + 1), attempts := l.attempts ++ [(kind, data, l.writes 0)] })
  | .grabScreen => (l.grab, l)
  | .connectionUpgrade => (true, l)
  | .setStatus status => ((), { l with status := some status })
  | .tcpClose | .dispatch _ | .keyboardEvent _ _ | .mouseEvent _ _ _ | .userPassword _ => ((), l)
  | .userConnection _ _ | .stop | .answerHttp | .setConnected _ | .assignChannel => ((), l)

structure After (l : Line) (count : ℕ) (t : Line) : Prop where
  input : t.input.bytes = l.input.bytes.drop count
  writes : t.writes = l.writes
  grab : t.grab = l.grab
  attempts : t.attempts = l.attempts
  status : t.status = l.status

theorem After.refl (l : Line) : After l 0 l := ⟨rfl, rfl, rfl, rfl, rfl⟩

theorem After.trans {l t u : Line} {m n : ℕ} (h : After l m t) (h' : After t n u) : After l (m + n) u where
  input := by rw [h'.input, h.input, List.drop_drop]
  writes := h'.writes.trans h.writes
  grab := h'.grab.trans h.grab
  attempts := h'.attempts.trans h.attempts
  status := h'.status.trans h.status

section Read
variable {l : Line}

theorem exec_act (e : Effect) : (act e).exec answer l = l.answer e := rfl

theorem isStarted_ends {α : Type} {f : Bool → Action α} {Q : α → Line → Prop} :
    (isStarted >>= f).Ends answer l Q ↔ (f true).Ends answer l Q := Iff.rfl

theorem dispatch_ends {α : Type} {req : UInt32} {f : Unit → Action α} {Q : α → Line → Prop} :
    (act (.dispatch req) >>= f).Ends answer l Q ↔ (f ()).Ends answer l Q := Iff.rfl

theorem setStatus_ends {α : Type} {status : Status} {f : Unit → Action α} {Q : α → Line → Prop} :
    (setStatus status >>= f).Ends answer l Q ↔ (f ()).Ends answer { l with status := some status } Q := Iff.rfl

theorem tcpRead_after (len : ℕ) :
    ((tcpRead len).exec answer l).1 = l.input.bytes.take (min len (l.input.shorts 0 + 1)) ∧
      After l ((tcpRead len).exec answer l).1.length ((tcpRead len).exec answer l).2 :=
  ⟨rfl, rfl, rfl, rfl, rfl, rfl⟩

/-- The loop of `tcp_read_all` stops at the length or at the end of the stream. -/
theorem readLoop_after (len fuel : ℕ) (buf : Bytes) (hle : buf.length ≤ len) (hfuel : len - buf.length ≤ fuel) :
    ((readLoop len fuel buf).exec answer l).1 = buf ++ l.input.bytes.take (len - buf.length) ∧
      After l (len - buf.length) ((readLoop len fuel buf).exec answer l).2 := by
  induction fuel generalizing buf l with
  | zero =>
    have hzero : len - buf.length = 0 := by omega
    rw [hzero]
    exact ⟨(List.append_nil buf).symm, After.refl l⟩
  | succ fuel ih =>
    unfold readLoop
    split
    · next hfull =>
      have hzero : len - buf.length = 0 := by omega
      rw [hzero]
      exact ⟨(List.append_nil buf).symm, After.refl l⟩
    · next hmore =>
      obtain ⟨hgot, hafter⟩ := tcpRead_after (l := l) (len - buf.length)
      rw [Proc.exec_bind]
      obtain ⟨got, t, hread⟩ : ∃ (got : Bytes) (t : Line), (tcpRead (len - buf.length)).exec answer l = (got, t) := ⟨_, _, rfl⟩
      rw [hread] at hgot hafter ⊢
      simp only at hgot hafter ⊢
      have hlen : got.length = min (min (len - buf.length) (l.input.shorts 0 + 1)) l.input.bytes.length := by
        rw [hgot, List.length_take]
      split
      · next hnone =>
        -- nothing is left to come
        have hempty : l.input.bytes = [] := List.length_eq_zero_iff.mp (by omega)
        have hrest : t.input.bytes = l.input.bytes.drop (len - buf.length) := by
          rw [hafter.input, hempty, List.drop_nil, List.drop_nil]
        rw [hempty, List.take_nil, List.append_nil]
        exact ⟨rfl, hrest, hafter.writes, hafter.grab, hafter.attempts, hafter.status⟩
      · next hsome =>
        have hstep : len - (buf ++ got).length = len - buf.length - got.length := by
          rw [List.length_append]
          omega
        obtain ⟨hall, hrest⟩ := ih (l := t) (buf ++ got) (by rw [List.length_append]; omega) (by omega)
        have hsum : got.length + (len - buf.length - got.length) = len - buf.length := by omega
        rw [hstep] at hall hrest
        refine ⟨?_, hsum ▸ hafter.trans hrest⟩
        have htake : l.input.bytes.take got.length = got := by
          conv_rhs => rw [hgot, List.take_eq_take_min, ← hlen]
        rw [hall, hafter.input, List.append_assoc]
        congr 1
        conv_rhs => rw [← hsum, List.take_add, htake]

theorem tcpReadAll_ends (len : ℕ) :
    (tcpReadAll len).Ends answer l (fun got t => got = l.input.bytes.take len ∧ After l len t) :=
  readLoop_after len len [] (Nat.zero_le _) (Nat.sub_le _ _)

theorem recvUint32_ends :
    recvUint32.Ends answer l (fun word t =>
      word = (if 4 ≤ l.input.bytes.length then some (ntohl (l.input.bytes.take 4)) else none) ∧ After l 4 t) := by
  rw [recvUint32, Proc.ends_bind]
  apply (tcpReadAll_ends 4).mono
  rintro got t ⟨rfl, hafter⟩
  have hlen : (l.input.bytes.take 4).length = min 4 l.input.bytes.length := List.length_take
  by_cases hfour : 4 ≤ l.input.bytes.length
  · rw [if_pos hfour, if_neg (by omega)]
    exact ⟨rfl, hafter⟩
  · rw [if_neg hfour, if_pos (by omega)]
    exact ⟨rfl, hafter⟩

/-- A word is there or it is missing; either way the stream goes on after four bytes. -/
theorem recvWord_ends {α : Type} {f : Option UInt32 → Action α} {Q : α → Line → Prop}
    (hsome : 4 ≤ l.input.bytes.length → ∀ t, After l 4 t → (f (some (ntohl (l.input.bytes.take 4)))).Ends answer t Q)
    (hnone : ¬ 4 ≤ l.input.bytes.length → ∀ t, After l 4 t → (f none).Ends answer t Q) :
    (recvUint32 >>= f).Ends answer l Q := by
  rw [Proc.ends_bind]
  apply recvUint32_ends.mono
  rintro word t ⟨rfl, hafter⟩
  split
  · next hfour => exact hsome hfour t hafter
  · next hfour => exact hnone hfour t hafter

theorem readAll_ends {α : Type} {len : ℕ} {f : Bytes → Action α} {Q : α → Line → Prop}
    (h : ∀ t, After l len t → (f (l.input.bytes.take len)).Ends answer t Q) :
    (tcpReadAll len >>= f).Ends answer l Q := by
  rw [Proc.ends_bind]
  apply (tcpReadAll_ends len).mono
  rintro got t ⟨rfl, hafter⟩
  exact h t hafter

end Read

/-! ## Writes -/

/-- The line after one call of `tcp_write_all`. -/
def write (l : Line) (kind : WriteKind) (data : Bytes) : Line := (l.answer (.tcpWrite kind data)).2

theorem exec_tcpWriteAll (l : Line) (kind : WriteKind) (data : Bytes) :
    (tcpWriteAll kind data).exec answer l = (l.writes 0, l.write kind data) := rfl

theorem write_ends {α : Type} {l : Line} {kind : WriteKind} {data : Bytes} {f : Bool → Action α} {Q : α → Line → Prop} :
    (tcpWriteAll kind data >>= f).Ends answer l Q ↔ (f (l.writes 0)).Ends answer (l.write kind data) Q := Iff.rfl

@[simp] theorem write_input (l : Line) (kind : WriteKind) (data : Bytes) : (l.write kind data).input = l.input := rfl
@[simp] theorem write_writes (l : Line) (kind : WriteKind) (data : Bytes) (k : ℕ) :
    (l.write kind data).writes k = l.writes (k + 1) := rfl
@[simp] theorem write_attempts (l : Line) (kind : WriteKind) (data : Bytes) :
    (l.write kind data).attempts = l.attempts ++ [(kind, data, l.writes 0)] := rfl

/-! ## The end of a thread -/

theorem finish_ends (v : Vars) (l : Line) : (finish v).Ends answer l (fun out _ => out = Sum.inr ()) := by
  cases hserver : v.server with
  | false => simp [finish, hserver, Proc.Ends, Proc.exec_bind]
  | true => simp [finish, hserver, Proc.Ends, Proc.exec_bind]

theorem leave_ends (v : Vars) (l : Line) (status : Status) :
    (leave v status).Ends answer l (fun out _ => out = Sum.inr ()) := setStatus_ends.mpr (finish_ends v _)

end Line
end Projector
end LilitunRemote

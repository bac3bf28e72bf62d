import LilitunRemote.Server.Connection

/-! # What a connection thread does with `projector_io_mutex`

Every path through the setup and the update loop, with all their early exits, takes the mutex
only when it does not hold it, and leaves the loop without it. A second region of an
update is read without the mutex and releases it all the same.
-/
namespace LilitunRemote
namespace Connection

def Effect.Plain : Effect → Prop
  | .lock | .unlock | .drawRegion _ | .translatorInit | .close => False
  | _ => True

theorem Effect.Talks.plain : ∀ e : Effect, e.Talks → e.Plain := by
  intro e he
  cases e <;> trivial

theorem uses_sendLoop (fuel i : ℕ) : (sendLoop fuel i).Uses Effect.Plain := by
  induction fuel generalizing i with
  | zero => exact Proc.uses_ret _ _
  | succ fuel ih =>
    apply Proc.Uses.bind (Proc.uses_perform.mpr trivial)
    intro more
    split
    · exact ih (i + 1)
    · exact Proc.uses_ret _ _

theorem uses_sendInputEvents : sendInputEvents.Uses Effect.Plain := by
  apply (uses_sendLoop 1025 0).bind
  intro _
  exact Proc.uses_perform.mpr trivial

theorem uses_flushOnOverflow : flushOnOverflow.Uses Effect.Plain := by
  apply Proc.Uses.bind (Proc.uses_perform.mpr trivial)
  intro full
  split
  · exact uses_sendInputEvents
  · exact Proc.uses_ret _ _

theorem uses_addAll (words : List UInt32) : (addAll words).Uses Effect.Plain := by
  induction words with
  | nil => exact Proc.uses_ret _ _
  | cons w words ih =>
    apply Proc.Uses.bind (Proc.uses_perform.mpr trivial)
    intro _
    exact ih

/-! ## All paths -/

/-- Whether the thread holds the mutex by its own account, and whether its translator has a thread. -/
structure Progress where
  locked : Bool
  created : Bool

def Progress.Allows (s : Progress) : Effect → Prop
  | .lock | .drawRegion _ | .close => s.locked = false
  | .translatorInit => s.created = false
  | _ => True

def Progress.next (s : Progress) : (e : Effect) → Response e → Progress
  | .lock, _ => { s with locked := true }
  | .unlock, _ => { s with locked := false }
  | .translatorInit, created => { s with created := created }
  | _, _ => s

/-- No mutex is taken, no region drawn and the loop not left while the mutex is held; a mutex
may be released that is not. -/
def releases : Monitor Progress Effect Response where
  ok := Progress.Allows
  step s e r t := t = s.next e r

def AtLoopReleased : Loop → Progress → Prop
  | .update, s => s.locked = false
  | .regions regions _, s => regions = 0 → s.locked = false

abbrev AtRestReleased : Progress → Loop ⊕ Unit → Prop :=
  Monitor.LoopPost AtLoopReleased (fun s _ => s.locked = false)

section Releases
variable {s : Progress} {α β : Type}

theorem releases_plain {p : Action α} {f : α → Action β} {Q : Progress → β → Prop} (hp : p.Uses Effect.Plain)
    (hf : ∀ a, releases.Obeys s (f a) Q) : releases.Obeys s (p >>= f) Q := by
  rw [Monitor.obeys_bind]
  have hkeep : releases.Obeys s p (fun t _ => t = s) := by
    apply Monitor.obeys_of_uses hp
    · intro e he
      cases e <;> trivial
    · intro e r t he ht
      cases e <;> first | exact ht | exact he.elim
  apply hkeep.mono
  intro t a ht
  rw [ht]
  exact hf a

theorem releases_talks {p : Action α} {f : α → Action β} {Q : Progress → β → Prop} (hp : p.Uses Effect.Talks)
    (hf : ∀ a, releases.Obeys s (f a) Q) : releases.Obeys s (p >>= f) Q :=
  releases_plain (hp.mono Effect.Talks.plain) hf

theorem releases_unlock {f : Unit → Action β} {Q : Progress → β → Prop}
    (hf : releases.Obeys { s with locked := false } (f ()) Q) : releases.Obeys s (unlock >>= f) Q := by
  rw [Monitor.obeys_bind]
  refine ⟨trivial, fun r t ht => ?_⟩
  rw [show t = { s with locked := false } from ht]
  exact hf

theorem finish_releases (h : s.locked = false) : releases.Obeys s finish AtRestReleased := by
  refine ⟨h, fun r t ht => ?_⟩
  rw [show t = s from ht]
  exact h

theorem giveUp_releases : releases.Obeys s giveUp AtRestReleased := by
  apply releases_unlock
  exact finish_releases rfl

/-- A region of an update is read with the mutex held or not, and ends without it. -/
theorem regionRound_releases (regions : UInt32) : releases.Obeys s (regionRound regions) AtRestReleased := by
  apply releases_talks uses_doReqScreenUpdateRegion
  intro header
  cases header with
  | none => exact giveUp_releases
  | some r =>
    dsimp only
    split
    · apply releases_unlock
      exact fun _ => rfl
    · apply releases_talks (uses_tcpReadAll _)
      intro pixdata
      cases pixdata with
      | none => exact giveUp_releases
      | some pixdata =>
        apply releases_unlock
        rw [Monitor.obeys_bind]
        refine ⟨rfl, fun drawn t ht => ?_⟩
        rw [show t = { s with locked := false } from ht, Monitor.obeys_ret]
        split
        · exact finish_releases rfl
        · exact fun _ => rfl

theorem update_releases (h : s.locked = false) : releases.Obeys s (body .update) AtRestReleased := by
  apply releases_plain (p := act .isNotExit) (Proc.uses_perform.mpr trivial)
  intro running
  split
  · exact finish_releases h
  · rw [Monitor.obeys_bind]
    refine ⟨h, fun _ t ht => ?_⟩
    apply releases_plain (p := act .stopRequested) (Proc.uses_perform.mpr trivial)
    intro stop
    split
    · apply releases_talks (uses_sendUint32 _)
      intro _
      exact giveUp_releases
    · apply releases_plain uses_sendInputEvents
      intro _
      apply releases_talks uses_doReqScreenUpdate
      intro regions
      cases regions with
      | none => exact giveUp_releases
      | some regions =>
        dsimp only
        split
        · apply releases_unlock
          exact fun _ => rfl
        · next hne => exact fun hzero => absurd hzero hne

theorem body_releases (loop : Loop) (h : AtLoopReleased loop s) : releases.Obeys s (body loop) AtRestReleased := by
  cases loop with
  | update => exact update_releases h
  | regions regions first =>
    apply releases_plain (p := act (.regionsLeft regions first)) (Proc.uses_perform.mpr trivial)
    intro _
    split
    · next hzero => exact h hzero
    · exact regionRound_releases regions

/-- The questions of the setup create the translator's thread at most once, and leave the mutex held. -/
theorem introduce_releases (v : Vars) (hlocked : s.locked = true) (hcreated : s.created = false) :
    releases.Obeys s (introduce v) (fun t _ => t.locked = true) := by
  apply releases_talks (uses_doReqString _)
  intro apphost
  cases apphost with
  | none => exact hlocked
  | some apphost =>
    apply releases_talks (uses_doReqString _)
    intro sessionId
    cases sessionId with
    | none => exact hlocked
    | some sessionId =>
      apply releases_talks (uses_doReqString _)
      intro hostname
      cases hostname with
      | none => exact hlocked
      | some hostname =>
        apply releases_talks (uses_sendUserConnection v)
        intro ok
        split
        · exact hlocked
        · apply releases_talks (uses_sendUserPassword v)
          intro ok
          split
          · exact hlocked
          · rw [Monitor.obeys_bind]
            refine ⟨hcreated, fun created t ht => ?_⟩
            rw [show t = { s with created := created } from ht, Monitor.obeys_ret]
            split
            · exact hlocked
            · refine ⟨trivial, fun r u hu => ?_⟩
              rw [show u = { s with created := created } from hu]
              exact hlocked

end Releases
end Connection
end LilitunRemote

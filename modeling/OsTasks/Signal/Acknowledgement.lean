import OsTasks.Signal.HandshakeInv

/-! Runs in which the sender's `pause` returns only on an acknowledgement that was earned lose no
package. -/
namespace OsTasks.Signal
open OsTasks.Lib

variable {setup : Setup}

/-- The sender's `pause` only returns when the package it waits for has been written. -/
def Earned (s : State) : Action → Prop
  | .senderSigint =>
    s.sender.pc = .paused → s.receiver.sigusr1 = none ∧ s.receiver.write = false
  | _ => True

/-- At most one package is on the way, and only while the sender pauses. -/
structure Outstanding (s : State) : Prop where
  idle : s.sender.pc ≠ .beforePause → s.sender.pc ≠ .paused →
    s.receiver.sigusr1 = none ∧ s.receiver.write = false
  one : s.receiver.sigusr1 = none ∨ s.receiver.write = false
  ended : s.receiver.sigusr2 = true ∨ s.receiver.ended = true → s.sender.pc = .done

theorem outstanding_init (file : List Byte) : Outstanding (transfer setup file).init where
  idle := fun _ _ => ⟨rfl, rfl⟩
  one := Or.inl rfl
  ended := fun h => h.elim nofun nofun

theorem outstanding_sender {s t : State} (h : Outstanding s)
    (ht : senderStep setup s = some t) : Outstanding t := by
  obtain ⟨hidle, hone, hended⟩ := h
  unfold senderStep at ht
  cases hpc : s.sender.pc with
  | sndPid =>
    simp only [hpc] at ht
    cases ht
    have hi := hidle (by rw [hpc]; decide) (by rw [hpc]; decide)
    exact ⟨fun _ _ => hi, hone, fun h => by rw [hended h] at hpc; cases hpc⟩
  | send =>
    have hi := hidle (by rw [hpc]; decide) (by rw [hpc]; decide)
    cases hts : s.sender.toSend with
    | nil =>
      simp only [hpc, hts] at ht
      cases ht
      exact ⟨fun _ _ => hi, hone, fun _ => rfl⟩
    | cons p ps =>
      simp only [hpc, hts] at ht
      cases ht
      exact ⟨fun h => absurd rfl h, Or.inr hi.2, fun h => by rw [hended h] at hpc; cases hpc⟩
  | beforePause =>
    simp only [hpc] at ht
    cases ht
    exact ⟨fun _ h => absurd rfl h, hone, fun h => by rw [hended h] at hpc; cases hpc⟩
  | paused => simp [hpc] at ht
  | done => simp [hpc] at ht

theorem outstanding_receiver {s t : State} (h : Outstanding s)
    (ht : receiverStep setup s = some t) : Outstanding t := by
  obtain ⟨hkr, hks⟩ := kill_receiver setup s
  obtain ⟨hidle, hone, hended⟩ := h
  unfold receiverStep at ht
  cases hpc : s.receiver.pc <;> simp only [hpc] at ht
  case clearWrite =>
    cases ht
    exact ⟨fun h1 h2 => ⟨(hidle h1 h2).1, rfl⟩, Or.inr rfl, hended⟩
  case killEnd =>
    cases ht
    simp only [State.at]
    rw [hkr, hks]
    exact ⟨hidle, hone, hended⟩
  case killAck =>
    cases ht
    simp only [State.at]
    rw [hkr, hks]
    exact ⟨hidle, hone, hended⟩
  all_goals cases ht
  all_goals exact ⟨hidle, hone, hended⟩

theorem outstanding_step {s t : State} {a : Action} (h : Outstanding s) (ha : Earned s a)
    (ht : step setup s a = some t) : Outstanding t := by
  cases a with
  | sender => exact outstanding_sender h ht
  | receiver => exact outstanding_receiver h ht
  | senderSigint =>
    obtain ⟨hc, ht⟩ := Option.ite_none_right_eq_some.mp ht
    cases ht
    refine ⟨fun h1 h2 => ?_, h.one, fun he => absurd (h.ended he) hc.2⟩
    by_cases hpc : s.sender.pc = .paused
    · exact ha hpc
    · simp only [hpc, if_false] at h1
      exact h.idle h1 hpc
  | sigint =>
    simp only [step] at ht
    split at ht
    · cases ht
    · split_ifs at ht
      cases ht
      exact ⟨h.idle, h.one, h.ended⟩
  | sigusr1 =>
    simp only [step] at ht
    split at ht
    · cases ht
    · rename_i p hp
      split_ifs at ht
      cases ht
      refine ⟨fun h1 h2 => ?_, Or.inl rfl, h.ended⟩
      have := (h.idle h1 h2).1
      rw [hp] at this
      cases this
  | sigusr2 =>
    obtain ⟨hc, ht⟩ := Option.ite_none_right_eq_some.mp ht
    cases ht
    exact ⟨h.idle, h.one, fun _ => h.ended (Or.inl hc.1)⟩

theorem ok_of_outstanding {s t : State} {a : Action} (h : Outstanding s)
    (ht : step setup s a = some t) : Ok s a := by
  cases a with
  | sender =>
    intro hpc _
    exact (h.idle (by rw [hpc]; decide) (by rw [hpc]; decide)).1
  | receiver =>
    intro _ he
    have hpc := h.ended (Or.inr he)
    exact h.idle (by rw [hpc]; decide) (by rw [hpc]; decide)
  | sigusr1 =>
    intro _
    rcases h.one with hu | hw
    · simp only [step, hu] at ht
      cases ht
    · exact hw
  | senderSigint => trivial
  | sigint => trivial
  | sigusr2 => trivial

/-- With one package and one acknowledgement outstanding no step loses a package. -/
theorem allSteps_ok_of_earned {file : List Byte} {as : List Action} {s : State}
    (h : (transfer setup file).run as = some s)
    (he : (transfer setup file).AllSteps Earned (transfer setup file).init as) :
    (transfer setup file).AllSteps Ok (transfer setup file).init as :=
  Machine.allSteps_of_allSteps (I := Outstanding)
    (fun _ _ _ hu hP hv => outstanding_step hu hP hv)
    (fun _ _ _ hu _ hv => ok_of_outstanding hu hv) (outstanding_init file) he h

end OsTasks.Signal

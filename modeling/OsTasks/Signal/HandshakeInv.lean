import OsTasks.Signal.Handshake

/-! What holds of the flags and the pending signals in every state of a signal transfer. -/
namespace OsTasks.Signal
open OsTasks.Lib

structure Inv (s : State) : Prop where
  write : s.receiver.pc = .fwrite ∨ s.receiver.pc = .clearWrite → s.receiver.write = true
  sent : s.receiver.sigusr2 = true ∨ s.receiver.ended = true → s.sender.toSend = []
  ended : s.receiver.pc = .killEnd ∨ s.receiver.pc = .returned → s.receiver.ended = true
  queued : ∀ p ∈ s.sender.toSend, payload p ≠ []
  pending : ∀ p ∈ s.receiver.sigusr1, payload p ≠ []
  val : s.receiver.write = true → payload s.receiver.val ≠ []

variable {setup : Setup}

theorem inv_init (file : List Byte) : Inv (transfer setup file).init where
  write := fun h => h.elim nofun nofun
  sent := fun h => h.elim nofun nofun
  ended := fun h => h.elim nofun nofun
  queued := fun _ hp => payload_ne_nil hp
  pending := nofun
  val := nofun

theorem kill_receiver (setup : Setup) (s : State) :
    (kill setup s).receiver = { s.receiver with sigint := (kill setup s).receiver.sigint } ∧
      (kill setup s).sender = { s.sender with sigint := (kill setup s).sender.sigint } := by
  unfold kill
  split_ifs <;> exact ⟨rfl, rfl⟩

/-- Waking up touches none of the statements that handle a package. -/
theorem woken_iff {pc pc' : ReceiverPc} (h : pc' ≠ .paused ∧ pc' ≠ .testWrite) :
    pc.woken = pc' ↔ pc = pc' := by
  cases pc <;> cases pc' <;> simp [ReceiverPc.woken] at h ⊢

theorem inv_senderStep {s t : State} (h : Inv s) (ht : senderStep setup s = some t) : Inv t := by
  obtain ⟨hw, hs, he, hq, hp, hv⟩ := h
  unfold senderStep at ht
  cases hpc : s.sender.pc with
  | sndPid =>
    simp only [hpc] at ht
    cases ht
    exact ⟨hw, hs, he, hq, hp, hv⟩
  | send =>
    cases hts : s.sender.toSend with
    | nil =>
      simp only [hpc, hts] at ht
      cases ht
      exact ⟨hw, fun _ => rfl, he, fun _ hm => absurd hm List.not_mem_nil, hp, hv⟩
    | cons p ps =>
      simp only [hpc, hts] at ht
      cases ht
      refine ⟨hw, fun h' => ?_, he, ?_, ?_, hv⟩
      · have := hs h'
        rw [hts] at this
        cases this
      · intro q hq'
        exact hq q (by rw [hts]; exact List.mem_cons_of_mem _ hq')
      · intro q hq'
        cases hu : s.receiver.sigusr1 with
        | none =>
          simp only [hu] at hq'
          cases hq'
          exact hq p (by rw [hts]; exact List.mem_cons_self)
        | some u =>
          simp only [hu] at hq'
          cases hq'
          exact hp q hu
  | beforePause =>
    simp only [hpc] at ht
    cases ht
    exact ⟨hw, hs, he, hq, hp, hv⟩
  | paused => simp [hpc] at ht
  | done => simp [hpc] at ht

theorem inv_receiverStep {s t : State} (h : Inv s) (ht : receiverStep setup s = some t) :
    Inv t := by
  obtain ⟨hw, hs, he, hq, hp, hv⟩ := h
  obtain ⟨hkr, hks⟩ := kill_receiver setup s
  unfold receiverStep at ht
  cases hpc : s.receiver.pc with
  | beforePause =>
    simp only [hpc] at ht
    cases ht
    exact ⟨fun h' => h'.elim nofun nofun, hs, fun h' => h'.elim nofun nofun, hq, hp, hv⟩
  | testWrite =>
    cases hwr : s.receiver.write with
    | true =>
      simp only [hpc, hwr, if_true] at ht
      cases ht
      exact ⟨fun _ => hwr, hs, fun h' => h'.elim nofun nofun, hq, hp, hv⟩
    | false =>
      simp only [hpc, hwr, Bool.false_eq_true, if_false] at ht
      cases ht
      exact ⟨fun h' => h'.elim nofun nofun, hs, fun h' => h'.elim nofun nofun, hq, hp, hv⟩
  | fwrite =>
    simp only [hpc] at ht
    cases ht
    exact ⟨fun _ => hw (Or.inl hpc), hs, fun h' => h'.elim nofun nofun, hq, hp, hv⟩
  | clearWrite =>
    simp only [hpc] at ht
    cases ht
    exact ⟨fun h' => h'.elim nofun nofun, hs, fun h' => h'.elim nofun nofun, hq, hp, nofun⟩
  | testEnd =>
    cases hend : s.receiver.ended with
    | true =>
      simp only [hpc, hend, if_true] at ht
      cases ht
      exact ⟨fun h' => h'.elim nofun nofun, hs, fun _ => hend, hq, hp, hv⟩
    | false =>
      simp only [hpc, hend, Bool.false_eq_true, if_false] at ht
      cases ht
      exact ⟨fun h' => h'.elim nofun nofun, hs, fun h' => h'.elim nofun nofun, hq, hp, hv⟩
  | killEnd =>
    simp only [hpc] at ht
    cases ht
    simp only [State.at]
    rw [hkr, hks]
    exact ⟨fun h' => h'.elim nofun nofun, hs, fun _ => he (Or.inl hpc), hq, hp, hv⟩
  | killAck =>
    simp only [hpc] at ht
    cases ht
    simp only [State.at]
    rw [hkr, hks]
    exact ⟨fun h' => h'.elim nofun nofun, hs, fun h' => h'.elim nofun nofun, hq, hp, hv⟩
  | paused => simp [hpc] at ht
  | returned => simp [hpc] at ht

theorem inv_step {s t : State} {a : Action} (h : Inv s) (ht : step setup s a = some t) :
    Inv t := by
  have hwake : ∀ pc', pc' ≠ .paused ∧ pc' ≠ .testWrite →
      (s.receiver.pc.woken = pc' ↔ s.receiver.pc = pc') := fun _ => woken_iff
  cases a with
  | sender => exact inv_senderStep h ht
  | receiver => exact inv_receiverStep h ht
  | senderSigint =>
    simp only [step] at ht
    obtain ⟨-, ht⟩ := Option.ite_none_right_eq_some.mp ht
    cases ht
    exact ⟨h.write, h.sent, h.ended, h.queued, h.pending, h.val⟩
  | sigint =>
    simp only [step] at ht
    split at ht
    · cases ht
    · split_ifs at ht
      cases ht
      obtain ⟨hw, hs, he, hq, hp, hv⟩ := h
      refine ⟨?_, hs, ?_, hq, hp, hv⟩
      · dsimp only
        rw [hwake _ (by decide), hwake _ (by decide)]
        exact hw
      · dsimp only
        rw [hwake _ (by decide), hwake _ (by decide)]
        exact he
  | sigusr1 =>
    simp only [step] at ht
    split at ht
    · cases ht
    · rename_i p hp1
      split_ifs at ht
      cases ht
      obtain ⟨hw, hs, he, hq, hp, hv⟩ := h
      refine ⟨fun _ => rfl, hs, ?_, hq, nofun, fun _ => hp p hp1⟩
      dsimp only
      rw [hwake _ (by decide), hwake _ (by decide)]
      exact he
  | sigusr2 =>
    simp only [step] at ht
    split_ifs at ht with hu
    cases ht
    obtain ⟨hw, hs, he, hq, hp, hv⟩ := h
    refine ⟨?_, fun _ => hs (Or.inl hu.1), fun _ => rfl, hq, hp, hv⟩
    dsimp only
    rw [hwake _ (by decide), hwake _ (by decide)]
    exact hw

end OsTasks.Signal

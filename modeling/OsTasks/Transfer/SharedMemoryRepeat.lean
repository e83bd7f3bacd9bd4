import OsTasks.Transfer.SharedMemoryContent

/-! What a finished transfer leaves in the named semaphores for the next one. -/
namespace OsTasks.Transfer.SharedMemory
open OsTasks.Lib

/-- The segment after the client has copied `blocks`. -/
def segmentAfter (seg : List Byte) (blocks : List (List Byte)) : List Byte :=
  blocks.foldl (fun seg b => strncpy seg b b.length) seg

/-- After one of the data blocks the segment reads "quit". -/
def QuitInside (file : List Byte) : Prop :=
  ∃ copied, copied ≠ [] ∧ copied <+: freadBlocks size file ∧
    quit ++ [0] <+: segmentAfter (List.replicate size 0) copied

theorem served_eq_none_iff {seg : List Byte} {blocks : List (List Byte)} :
    served seg blocks = none ↔
      ∃ copied, copied ≠ [] ∧ copied <+: blocks ∧ quit ++ [0] <+: segmentAfter seg copied := by
  induction blocks generalizing seg with
  | nil =>
    simp only [served, reduceCtorEq, false_iff]
    rintro ⟨copied, hne, hp, _⟩
    exact hne (List.prefix_nil.mp hp)
  | cons b bs ih =>
    simp only [served]
    split_ifs with hq
    · simp only [true_iff]
      exact ⟨[b], List.cons_ne_nil _ _, ⟨bs, rfl⟩, hq⟩
    · rw [Option.map_eq_none_iff, ih]
      constructor
      · rintro ⟨copied, _, hp, hc⟩
        exact ⟨b :: copied, List.cons_ne_nil _ _, List.cons_prefix_cons.mpr ⟨rfl, hp⟩, hc⟩
      · rintro ⟨copied, hne, hp, hc⟩
        rcases copied with _ | ⟨c, copied⟩
        · exact absurd rfl hne
        · obtain ⟨rfl, hrest⟩ := List.cons_prefix_cons.mp hp
          have hcopied : copied ≠ [] := by
            rintro rfl
            exact hq hc
          exact ⟨copied, hcopied, hrest, hc⟩

/-- The server ends with `mutex` and without a post of `full_sem`. -/
theorem Semaphores.spent {s : State} (h : Semaphores s) (hc : s.client = .done)
    (hs : s.server = .done) : s.full = 0 ∧ s.empty = 0 ∧ s.mutex = 0 := by
  have hturn := h.turn
  have hcrit := h.critical
  simp only [hc, hs, ClientPc.turn, ClientPc.critical, ServerPc.turn,
    ServerPc.critical] at hturn hcrit
  omega

/-- No run of the two ends when a data block is taken for the end marker. -/
theorem not_both_done_iff (file : List Byte) :
    (∀ s, (transfer file).Reachable s → s.client = .done → s.server ≠ .done) ↔
      QuitInside file := by
  unfold QuitInside
  rw [← served_eq_none_iff]
  constructor
  · intro h
    obtain ⟨s, hs, hh⟩ := exists_halted file
    obtain ⟨hd, hc⟩ := halted_done hs hh
    have hm : ¬ s.client.marked = true := by
      intro hm
      exact h s hs (hc hm) hd
    rw [outcome_done (inv_of_reachable hs) hd, if_neg hm]
  · intro h s hs hc hd
    have hout := outcome_done (inv_of_reachable hs) hd
    have hm : s.client.marked = true := by
      rw [hc]
      rfl
    rw [h, if_pos hm] at hout
    cases hout

/-- The semaphores are back at their first values after every finished transfer exactly when no
transfer of the file finishes. -/
theorem semaphores_restored_iff (file : List Byte) :
    (∀ s, (transfer file).Reachable s → s.client = .done → s.server = .done →
      s.full = 1 ∧ s.empty = 0 ∧ s.mutex = 1) ↔ QuitInside file := by
  rw [← not_both_done_iff]
  constructor
  · intro h s hs hc hd
    have hspent := (semaphores_of_reachable hs).spent hc hd
    have hfirst := h s hs hc hd
    omega
  · intro h s hs hc hd
    exact absurd hd (h s hs hc)

/-- After a file of one byte all three semaphores are at 0. -/
theorem one_byte_file_spends :
    ∃ s, (transfer [0x61]).Reachable s ∧ s.client = .done ∧ s.server = .done ∧
      ¬ (s.full = 1 ∧ s.empty = 0 ∧ s.mutex = 1) :=
  ⟨_, ⟨oneBlockRun, rfl⟩, rfl, rfl, by decide⟩

/-- A transfer that opens the semaphores as the state `s` of the last one left them. -/
def transferAfter (s : State) (file : List Byte) : Machine State Party where
  init := { (transfer file).init with full := s.full, empty := s.empty, mutex := s.mutex }
  step := step

/-- The client never gets past its first `sem_wait`, nor does the server. -/
structure Stuck (s : State) : Prop where
  full : s.full = 0
  empty : s.empty = 0
  client : s.client = .fread ∨ s.client = .waitFull ∨ s.client = .endWaitFull
  server : s.server = .waitEmpty
  output : s.output = []

theorem stuck_step {s t : State} {p : Party} (h : Stuck s) (ht : step s p = some t) :
    Stuck t := by
  obtain ⟨hfull, hempty, hclient, hserver, hout⟩ := h
  cases p with
  | client =>
    simp only [step, clientStep] at ht
    rcases hclient with hc | hc | hc
    · simp only [hc] at ht
      split at ht
      · cases ht
        exact ⟨hfull, hempty, Or.inr (Or.inr rfl), hserver, hout⟩
      · cases ht
        exact ⟨hfull, hempty, Or.inr (Or.inl rfl), hserver, hout⟩
    · simp [hc, hfull] at ht
    · simp [hc, hfull] at ht
  | server => simp [step, serverStep, hserver, hempty] at ht

/-- No second transfer follows a finished one. -/
theorem next_transfer_stuck {file next : List Byte} {s u : State}
    (hs : (transfer file).Reachable s) (hc : s.client = .done) (hd : s.server = .done)
    (hu : (transferAfter s next).Reachable u) : Stuck u := by
  obtain ⟨hfull, hempty, _⟩ := (semaphores_of_reachable hs).spent hc hd
  apply hu.invariant (I := Stuck)
  · exact ⟨hfull, hempty, Or.inl rfl, rfl, rfl⟩
  · intro v p w hv hw
    exact stuck_step hv hw

end OsTasks.Transfer.SharedMemory

import OsTasks.Signal.Delivery

/-! Every transfer comes to an end, and which transfers end with a program left in `pause`: those in
which a signal is handled too late for the `pause` it should have ended. -/
namespace OsTasks.Signal
open OsTasks.Lib

variable {setup : Setup} {file : List Byte} {s t : State}

/-- What the receiver has been told of the sender. -/
structure Told (setup : Setup) (s : State) : Prop where
  value : ∀ v ∈ s.receiver.sigint, v = setup.senderPid
  pid : s.receiver.sndPid = 0 ∨ s.receiver.sndPid = setup.senderPid
  known : s.sender.pc ≠ .sndPid → s.receiver.sigint ≠ none ∨ s.receiver.sndPid = setup.senderPid
  quiet : s.sender.pc = .sndPid → s.receiver.sigint = none ∧ s.receiver.sigusr1 = none ∧
    (s.receiver.pc = .beforePause ∨ s.receiver.pc = .paused)
  done : s.receiver.sigusr2 = true ∨ s.receiver.ended = true ↔ s.sender.pc = .done

theorem told_init (file : List Byte) : Told setup (transfer setup file).init where
  value := nofun
  pid := Or.inl rfl
  known := fun h => absurd rfl h
  quiet := fun _ => ⟨rfl, rfl, Or.inl rfl⟩
  done := ⟨fun h => h.elim nofun nofun, nofun⟩

/-- The statements of `rcv_file`. -/
inductive Next (ended : Bool) : ReceiverPc → ReceiverPc → Prop
  | pause : Next ended .beforePause .paused
  | write : Next ended .testWrite .fwrite
  | skip : Next ended .testWrite .testEnd
  | written : Next ended .fwrite .clearWrite
  | cleared : Next ended .clearWrite .testEnd
  | last : ended = true → Next ended .testEnd .killEnd
  | again : ended = false → Next ended .testEnd .killAck
  | killEnd : Next ended .killEnd .returned
  | killAck : Next ended .killAck .beforePause

/-- A statement of the receiver. Only `kill` changes anything of the sender, and while the receiver
does not know the sender, its process id is still pending. -/
structure ReceiverMove (s t : State) : Prop where
  sigint : t.receiver.sigint = s.receiver.sigint
  sigusr1 : t.receiver.sigusr1 = s.receiver.sigusr1
  sigusr2 : t.receiver.sigusr2 = s.receiver.sigusr2
  ended : t.receiver.ended = s.receiver.ended
  sndPid : t.receiver.sndPid = s.receiver.sndPid
  sender : t.sender.pc = s.sender.pc ∧ t.sender.toSend = s.sender.toSend
  kept : s.sender.sigint = true → t.sender.sigint = true
  same : s.receiver.pc ≠ .killEnd → s.receiver.pc ≠ .killAck → t.sender = s.sender
  acknowledged : s.receiver.pc = .killAck → t.sender.sigint = true ∨ s.receiver.sigint ≠ none
  pc : Next s.receiver.ended s.receiver.pc t.receiver.pc

/-- Where the receiver stands when it calls `kill`, it knows the sender or will be told. -/
theorem Told.kill (h : Told setup s) (hb : s.receiver.pc ≠ .beforePause)
    (hp : s.receiver.pc ≠ .paused) :
    (kill setup s).receiver = s.receiver ∧ (s.sender.sigint = true →
      (kill setup s).sender.sigint = true) ∧
      ((kill setup s).sender.sigint = true ∨ s.receiver.sigint ≠ none) := by
  have hsender : s.sender.pc ≠ .sndPid := by
    intro hpc
    rcases (h.quiet hpc).2.2 with hr | hr
    · exact hb hr
    · exact hp hr
  have hpos := setup.senderPid_pos
  unfold Signal.kill
  rcases h.pid with hzero | hpid
  · have hpending : s.receiver.sigint ≠ none := by
      rcases h.known hsender with hsome | hpid
      · exact hsome
      · omega
    obtain ⟨v, hv⟩ := Option.ne_none_iff_exists'.mp hpending
    rw [if_pos hzero, hv]
    refine ⟨?_, fun hc => ?_, Or.inr (Option.some_ne_none v)⟩
    · show { s.receiver with sigint := some v } = s.receiver
      rw [← hv]
    · show (s.sender.sigint || setup.sameGroup) = true
      rw [hc, Bool.true_or]
  · rw [if_neg (by omega), if_pos hpid]
    exact ⟨rfl, fun _ => rfl, Or.inl rfl⟩

theorem receiverMove_plain {pc : ReceiverPc} {output : List Byte} {write : Bool}
    (hack : s.receiver.pc ≠ .killAck) (hnext : Next s.receiver.ended s.receiver.pc pc) :
    ReceiverMove s
      ⟨s.sender, { s.receiver with pc := pc, output := output, write := write }⟩ where
  sigint := rfl
  sigusr1 := rfl
  sigusr2 := rfl
  ended := rfl
  sndPid := rfl
  sender := ⟨rfl, rfl⟩
  kept := id
  same := fun _ _ => rfl
  acknowledged := fun h => absurd h hack
  pc := hnext

theorem receiverMove_kill {pc : ReceiverPc} (h : Told setup s)
    (hkill : s.receiver.pc = .killEnd ∨ s.receiver.pc = .killAck)
    (hnext : Next s.receiver.ended s.receiver.pc pc) : ReceiverMove s ((kill setup s).at pc) := by
  have hb : s.receiver.pc ≠ .beforePause := by
    rcases hkill with hpc | hpc <;> simp [hpc]
  have hp : s.receiver.pc ≠ .paused := by
    rcases hkill with hpc | hpc <;> simp [hpc]
  obtain ⟨hreceiver, hkept, hack⟩ := h.kill hb hp
  have hpc : (kill setup s).sender.pc = s.sender.pc := by rw [(kill_receiver setup s).2]
  have hts : (kill setup s).sender.toSend = s.sender.toSend := by rw [(kill_receiver setup s).2]
  unfold State.at
  rw [hreceiver]
  exact {
    sigint := rfl
    sigusr1 := rfl
    sigusr2 := rfl
    ended := rfl
    sndPid := rfl
    sender := ⟨hpc, hts⟩
    kept := hkept
    same := fun h1 h2 => absurd hkill (not_or.mpr ⟨h1, h2⟩)
    acknowledged := fun _ => hack
    pc := hnext }

theorem receiverStep_move (h : Told setup s) (ht : receiverStep setup s = some t) :
    ReceiverMove s t := by
  unfold receiverStep at ht
  cases hpc : s.receiver.pc with
  | beforePause =>
    simp only [hpc] at ht
    cases ht
    exact receiverMove_plain (by simp [hpc]) (hpc ▸ .pause)
  | testWrite =>
    simp only [hpc] at ht
    cases ht
    apply receiverMove_plain (by simp [hpc])
    rw [hpc]
    split_ifs
    · exact .write
    · exact .skip
  | fwrite =>
    simp only [hpc] at ht
    cases ht
    exact receiverMove_plain (by simp [hpc]) (hpc ▸ .written)
  | clearWrite =>
    simp only [hpc] at ht
    cases ht
    exact receiverMove_plain (by simp [hpc]) (hpc ▸ .cleared)
  | testEnd =>
    simp only [hpc] at ht
    cases ht
    apply receiverMove_plain (by simp [hpc])
    rw [hpc]
    split_ifs with hended
    · exact .last hended
    · exact .again (Bool.eq_false_iff.mpr hended)
  | killEnd =>
    simp only [hpc] at ht
    cases ht
    exact receiverMove_kill h (Or.inl hpc) (hpc ▸ .killEnd)
  | killAck =>
    simp only [hpc] at ht
    cases ht
    exact receiverMove_kill h (Or.inr hpc) (hpc ▸ .killAck)
  | paused => simp [hpc] at ht
  | returned => simp [hpc] at ht

theorem Told.done_iff (h : Told setup s) (hs : s.sender.pc ≠ .done) {pc : SenderPc}
    (hpc : pc ≠ .done) :
    s.receiver.sigusr2 = true ∨ s.receiver.ended = true ↔ pc = .done :=
  h.done.trans (iff_of_false hs hpc)

theorem told_sender (h : Told setup s) (ht : senderStep setup s = some t) : Told setup t := by
  unfold senderStep at ht
  cases hpc : s.sender.pc with
  | sndPid =>
    simp only [hpc] at ht
    cases ht
    obtain ⟨hsigint, -, -⟩ := h.quiet hpc
    have hsome : (s.receiver.sigint <|> some setup.senderPid) = some setup.senderPid := by
      rw [hsigint]
      rfl
    refine ⟨fun v hv => ?_, h.pid, fun _ => Or.inl ?_, nofun, h.done_iff (by simp [hpc]) nofun⟩
    · exact (Option.some.inj (hsome.symm.trans hv)).symm
    · rw [hsome]
      exact Option.some_ne_none _
  | send =>
    have hknown := h.known (by simp [hpc])
    cases hts : s.sender.toSend with
    | nil =>
      simp only [hpc, hts] at ht
      cases ht
      exact ⟨h.value, h.pid, fun _ => hknown, nofun, ⟨fun _ => rfl, fun _ => Or.inl rfl⟩⟩
    | cons p ps =>
      simp only [hpc, hts] at ht
      cases ht
      exact ⟨h.value, h.pid, fun _ => hknown, nofun, h.done_iff (by simp [hpc]) nofun⟩
  | beforePause =>
    simp only [hpc] at ht
    cases ht
    have hknown := h.known (by simp [hpc])
    exact ⟨h.value, h.pid, fun _ => hknown, nofun, h.done_iff (by simp [hpc]) nofun⟩
  | paused => simp [hpc] at ht
  | done => simp [hpc] at ht

theorem told_move (h : Told setup s) (ht : ReceiverMove s t) : Told setup t where
  value := by
    rw [ht.sigint]
    exact h.value
  pid := by
    rw [ht.sndPid]
    exact h.pid
  known := by
    rw [ht.sender.1, ht.sigint, ht.sndPid]
    exact h.known
  quiet := by
    intro hpc
    rw [ht.sender.1] at hpc
    obtain ⟨hsigint, hsigusr1, hr⟩ := h.quiet hpc
    refine ⟨ht.sigint.trans hsigint, ht.sigusr1.trans hsigusr1, Or.inr ?_⟩
    have hnext := ht.pc
    generalize t.receiver.pc = pc at hnext
    rcases hr with hr | hr
    · rw [hr] at hnext
      cases hnext
      rfl
    · rw [hr] at hnext
      cases hnext
  done := by
    rw [ht.sender.1, ht.sigusr2, ht.ended]
    exact h.done

theorem told_step {a : Action} (h : Told setup s) (ht : step setup s a = some t) :
    Told setup t := by
  cases a with
  | sender => exact told_sender h ht
  | receiver => exact told_move h (receiverStep_move h ht)
  | senderSigint =>
    obtain ⟨hc, ht⟩ := Option.ite_none_right_eq_some.mp ht
    cases ht
    by_cases hpc : s.sender.pc = .paused
    · rw [if_pos hpc]
      have hknown := h.known (by simp [hpc])
      refine ⟨h.value, h.pid, fun _ => hknown, fun hsnd => ?_, h.done_iff hc.2 (by simp)⟩
      cases hsnd
    · rw [if_neg hpc]
      exact ⟨h.value, h.pid, h.known, h.quiet, h.done⟩
  | sigint =>
    simp only [step] at ht
    split at ht
    · cases ht
    · rename_i v hv
      split_ifs at ht
      cases ht
      have hpid : v = setup.senderPid := h.value v hv
      refine ⟨fun w hw => ?_, Or.inr hpid, fun _ => Or.inr hpid, fun hpc => ?_, h.done⟩
      · cases hw
      have hnone := (h.quiet hpc).1
      rw [hv] at hnone
      cases hnone
  | sigusr1 =>
    simp only [step] at ht
    split at ht
    · cases ht
    · rename_i p hp
      split_ifs at ht
      cases ht
      refine ⟨h.value, h.pid, h.known, fun hpc => ?_, h.done⟩
      have hnone := (h.quiet hpc).2.1
      rw [hp] at hnone
      cases hnone
  | sigusr2 =>
    obtain ⟨hc, ht⟩ := Option.ite_none_right_eq_some.mp ht
    cases ht
    have hpc := h.done.mp (Or.inl hc.1)
    refine ⟨h.value, h.pid, h.known, fun h' => ?_, ⟨fun _ => hpc, fun _ => Or.inr rfl⟩⟩
    rw [hpc] at h'
    cases h'

/-- The statements up to the next `pause`; an acknowledgement counts as one more. -/
def ReceiverPc.left : ReceiverPc → ℕ
  | .paused => 0
  | .returned => 0
  | .beforePause => 1
  | .killEnd => 2
  | .killAck => 3
  | .testEnd => 4
  | .clearWrite => 5
  | .fwrite => 6
  | .testWrite => 7

def Sender.left (c : Sender) : ℕ :=
  match c.pc with
  | .sndPid => 2 * c.toSend.length + 2
  | .send => 2 * c.toSend.length + 1
  | .beforePause => 2 * c.toSend.length + 2
  | .paused => 2 * c.toSend.length + 1
  | .done => 0

/-- The signals that the sender has not sent yet. -/
def Sender.unsent (c : Sender) : ℕ :=
  match c.pc with
  | .sndPid => c.toSend.length + 2
  | .done => 0
  | _ => c.toSend.length + 1

/-- The signals that the receiver has not handled yet. -/
def Receiver.pending (r : Receiver) : ℕ :=
  r.sigint.isSome.toNat + r.sigusr1.isSome.toNat + r.sigusr2.toNat

/-- A bound on the steps to come: each signal takes the receiver once around its loop. -/
def State.left (s : State) : ℕ :=
  8 * (s.sender.unsent + s.receiver.pending) + s.receiver.pc.left + s.sender.left +
    s.sender.sigint.toNat

theorem ReceiverPc.left_woken (pc : ReceiverPc) : pc.woken.left ≤ pc.left + 7 := by
  cases pc <;> decide

/-- One of the receiver's handlers. -/
structure Handled (s t : State) : Prop where
  sender : t.sender = s.sender
  pc : t.receiver.pc = s.receiver.pc.woken
  pending : t.receiver.pending + 1 = s.receiver.pending

theorem handled_sigint (ht : step setup s .sigint = some t) : Handled s t := by
  simp only [step] at ht
  split at ht
  · cases ht
  · rename_i v hv
    split_ifs at ht
    cases ht
    refine ⟨rfl, rfl, ?_⟩
    simp only [Receiver.pending, hv, Option.isSome_none, Option.isSome_some, Bool.toNat_false,
      Bool.toNat_true]
    omega

theorem handled_sigusr1 (ht : step setup s .sigusr1 = some t) : Handled s t := by
  simp only [step] at ht
  split at ht
  · cases ht
  · rename_i p hp
    split_ifs at ht
    cases ht
    refine ⟨rfl, rfl, ?_⟩
    simp only [Receiver.pending, hp, Option.isSome_none, Option.isSome_some, Bool.toNat_false,
      Bool.toNat_true]
    omega

theorem handled_sigusr2 (ht : step setup s .sigusr2 = some t) : Handled s t := by
  obtain ⟨hc, ht⟩ := Option.ite_none_right_eq_some.mp ht
  cases ht
  refine ⟨rfl, rfl, ?_⟩
  simp only [Receiver.pending, hc.1, Bool.toNat_false, Bool.toNat_true]

theorem pending_move (ht : ReceiverMove s t) : t.receiver.pending = s.receiver.pending := by
  unfold Receiver.pending
  rw [ht.sigint, ht.sigusr1, ht.sigusr2]

theorem left_handled (ht : Handled s t) : t.left < s.left := by
  have hpc := s.receiver.pc.left_woken
  have hpending := ht.pending
  unfold State.left
  rw [ht.sender, ht.pc]
  omega

theorem left_move (ht : ReceiverMove s t) : t.left < s.left := by
  have hunsent : t.sender.unsent = s.sender.unsent := by
    unfold Sender.unsent
    rw [ht.sender.1, ht.sender.2]
  have hleft : t.sender.left = s.sender.left := by
    unfold Sender.left
    rw [ht.sender.1, ht.sender.2]
  have hbit := Bool.toNat_le t.sender.sigint
  have hpc : t.receiver.pc.left + t.sender.sigint.toNat <
      s.receiver.pc.left + s.sender.sigint.toNat := by
    have hnext := ht.pc
    have hsame := ht.same
    generalize t.receiver.pc = pc at hnext
    generalize s.receiver.pc = pc' at hnext hsame
    cases hnext with
    | killEnd =>
      show 0 + _ < 2 + _
      omega
    | killAck =>
      show 1 + _ < 3 + _
      omega
    | _ =>
      rw [hsame nofun nofun]
      exact Nat.add_lt_add_right (by decide) _
  unfold State.left
  rw [hunsent, hleft, pending_move ht]
  omega

theorem left_sender (h : Told setup s) (ht : senderStep setup s = some t) : t.left < s.left := by
  unfold senderStep at ht
  cases hpc : s.sender.pc with
  | sndPid =>
    simp only [hpc] at ht
    cases ht
    have hsigint := (h.quiet hpc).1
    simp [State.left, Sender.left, Sender.unsent, Receiver.pending, hpc, hsigint]
    omega
  | send =>
    cases hts : s.sender.toSend with
    | nil =>
      simp only [hpc, hts] at ht
      cases ht
      have := Bool.toNat_le s.receiver.sigusr2
      simp [State.left, Sender.left, Sender.unsent, Receiver.pending, hpc, hts]
      omega
    | cons p ps =>
      simp only [hpc, hts] at ht
      cases ht
      have := Bool.toNat_le (s.receiver.sigusr1 <|> some p).isSome
      simp [State.left, Sender.left, Sender.unsent, Receiver.pending, hpc, hts]
      omega
  | beforePause =>
    simp only [hpc] at ht
    cases ht
    simp [State.left, Sender.left, Sender.unsent, hpc]
  | paused => simp [hpc] at ht
  | done => simp [hpc] at ht

theorem left_step {a : Action} (h : Told setup s) (ht : step setup s a = some t) :
    t.left < s.left := by
  cases a with
  | sender => exact left_sender h ht
  | receiver => exact left_move (receiverStep_move h ht)
  | senderSigint =>
    obtain ⟨hc, ht⟩ := Option.ite_none_right_eq_some.mp ht
    cases ht
    by_cases hpc : s.sender.pc = .paused
    · simp [State.left, Sender.left, Sender.unsent, hpc, hc.1]
    · simp [State.left, Sender.left, Sender.unsent, hpc, hc.1]
  | sigint => exact left_handled (handled_sigint ht)
  | sigusr1 => exact left_handled (handled_sigusr1 ht)
  | sigusr2 => exact left_handled (handled_sigusr2 ht)

/-- The sender is not in need of an acknowledgement, or has one. -/
def Sender.Free (c : Sender) : Prop :=
  c.pc = .sndPid ∨ c.pc = .send ∨ c.pc ≠ .done ∧ c.sigint = true

/-- The receiver is behind the statement that answers a signal and before its `pause`: behind `kill`
for the sender that waits, behind the test of END when all is sent. -/
def State.Late (s : State) : Prop :=
  s.receiver.pc = .beforePause ∨ s.receiver.pc = .killAck ∧ s.sender.pc = .done

/-- A handler that runs too late for the next `pause` of its process finds another signal on its
way that will end it. -/
def Heard (s : State) : Action → Prop
  | .senderSigint => s.sender.pc = .beforePause →
      0 < s.receiver.pending ∨ s.receiver.pc ≠ .paused ∧ ¬ s.Late
  | .sigint => s.Late → 1 < s.receiver.pending ∨ s.sender.Free
  | .sigusr1 => s.Late → 1 < s.receiver.pending ∨ s.sender.Free
  | .sigusr2 => s.Late → 1 < s.receiver.pending ∨ s.sender.Free
  | _ => True

/-- One of the programs still has something to do that ends the `pause` of the other. -/
def Alive (s : State) : Prop :=
  s.sender.Free ∨ 0 < s.receiver.pending ∨ s.receiver.pc ≠ .paused ∧ ¬ s.Late

theorem alive_sender (ht : senderStep setup s = some t) :
    Alive t ↔ Alive s := by
  unfold senderStep at ht
  cases hpc : s.sender.pc with
  | sndPid =>
    simp only [hpc] at ht
    cases ht
    exact iff_of_true (Or.inl (Or.inr (Or.inl rfl))) (Or.inl (Or.inl hpc))
  | send =>
    have hs : Alive s := Or.inl (Or.inr (Or.inl hpc))
    cases hts : s.sender.toSend with
    | nil =>
      simp only [hpc, hts] at ht
      cases ht
      have hpending : 0 < s.receiver.sigint.isSome.toNat + s.receiver.sigusr1.isSome.toNat +
          true.toNat := by
        rw [Bool.toNat_true]
        omega
      exact iff_of_true (Or.inr (Or.inl hpending)) hs
    | cons p ps =>
      simp only [hpc, hts] at ht
      cases ht
      have hsome : (s.receiver.sigusr1 <|> some p).isSome = true := by
        cases s.receiver.sigusr1 <;> rfl
      have hpending : 0 < s.receiver.sigint.isSome.toNat +
          (s.receiver.sigusr1 <|> some p).isSome.toNat + s.receiver.sigusr2.toNat := by
        rw [hsome, Bool.toNat_true]
        omega
      exact iff_of_true (Or.inr (Or.inl hpending)) hs
  | beforePause =>
    simp only [hpc] at ht
    cases ht
    simp [Alive, Sender.Free, State.Late, hpc]
  | paused => simp [hpc] at ht
  | done => simp [hpc] at ht

theorem alive_of_pc {pc : ReceiverPc} (hpc : s.receiver.pc = pc)
    (h : pc ≠ .paused ∧ pc ≠ .beforePause ∧ pc ≠ .killAck) : Alive s := by
  have hlate : ¬ s.Late := by
    rintro (hb | ⟨hk, -⟩)
    · exact h.2.1 (hpc.symm.trans hb)
    · exact h.2.2 (hpc.symm.trans hk)
  exact Or.inr (Or.inr ⟨fun hp => h.1 (hpc.symm.trans hp), hlate⟩)

theorem alive_move (h : Told setup s) (ht : ReceiverMove s t) : Alive t ↔ Alive s := by
  have hpending := pending_move ht
  have hnext := ht.pc
  generalize hpc : s.receiver.pc = pc at hnext
  generalize hpc' : t.receiver.pc = pc' at hnext
  cases hnext with
  | pause =>
    have hsender := ht.same (by simp [hpc]) (by simp [hpc])
    simp [Alive, State.Late, hpc, hpc', hpending, hsender]
  | again hended =>
    refine iff_of_true ?_ (alive_of_pc hpc (by decide))
    by_cases hdone : s.sender.pc = .done
    · -- END is not set yet, so SIGUSR2 is still pending
      have hsigusr2 := (h.done.mpr hdone).resolve_right (by simp [hended])
      have hpos : 0 < s.receiver.pending := by simp [Receiver.pending, hsigusr2]
      exact Or.inr (Or.inl (hpending ▸ hpos))
    · refine Or.inr (Or.inr ?_)
      simp [State.Late, hpc', ht.sender.1, hdone]
  | killAck =>
    by_cases hdone : s.sender.pc = .done
    · simp [Alive, Sender.Free, State.Late, hpc, hpc', hpending, ht.sender.1, hdone]
    · have hs : Alive s := by
        refine Or.inr (Or.inr ?_)
        simp [State.Late, hpc, hdone]
      refine iff_of_true ?_ hs
      rcases ht.acknowledged hpc with hack | hsigint
      · exact Or.inl (Or.inr (Or.inr ⟨ht.sender.1 ▸ hdone, hack⟩))
      · have hpos : 0 < s.receiver.pending := by
          simp [Receiver.pending, Option.isSome_iff_ne_none.mpr hsigint]
        exact Or.inr (Or.inl (hpending ▸ hpos))
  | _ => exact iff_of_true (alive_of_pc hpc' (by decide)) (alive_of_pc hpc (by decide))

theorem alive_handled (ht : Handled s t) :
    Alive t ↔ Alive s ∧ (s.Late → 1 < s.receiver.pending ∨ s.sender.Free) := by
  have hpending := ht.pending
  have hs : Alive s := Or.inr (Or.inl (by omega))
  have hpc := ht.pc
  by_cases hpaused : s.receiver.pc = .paused
  · have hlate : ¬ s.Late := by simp [State.Late, hpaused]
    have ht' : Alive t := by
      rw [hpaused] at hpc
      have hpc : t.receiver.pc = .testWrite := hpc
      exact Or.inr (Or.inr (by simp [State.Late, hpc]))
    exact iff_of_true ht' ⟨hs, fun hl => absurd hl hlate⟩
  · have hsame : t.receiver.pc = s.receiver.pc := hpc.trans (if_neg hpaused)
    have hlate : t.Late ↔ s.Late := by
      unfold State.Late
      rw [hsame, ht.sender]
    have hone : 0 < t.receiver.pending ↔ 1 < s.receiver.pending := by omega
    rw [and_iff_right hs]
    unfold Alive
    rw [hlate, hsame, ht.sender, hone]
    by_cases hl : s.Late
    · simp [hl, or_comm]
    · simp [hl, hpaused]

theorem alive_step {a : Action} (h : Told setup s) (ht : step setup s a = some t) :
    Alive t ↔ Alive s ∧ Heard s a := by
  cases a with
  | sender => exact (alive_sender ht).trans (and_iff_left trivial).symm
  | receiver => exact (alive_move h (receiverStep_move h ht)).trans (and_iff_left trivial).symm
  | senderSigint =>
    obtain ⟨hc, ht⟩ := Option.ite_none_right_eq_some.mp ht
    cases ht
    have hs : Alive s := Or.inl (Or.inr (Or.inr ⟨hc.2, hc.1⟩))
    rw [and_iff_right hs]
    cases hpc : s.sender.pc with
    | done => exact absurd hpc hc.2
    | beforePause => simp [Alive, Heard, Sender.Free, State.Late, hpc]
    | _ => simp [Alive, Heard, Sender.Free, hpc]
  | sigint => exact alive_handled (handled_sigint ht)
  | sigusr1 => exact alive_handled (handled_sigusr1 ht)
  | sigusr2 => exact alive_handled (handled_sigusr2 ht)

theorem halted_pcs (hh : (transfer setup file).Halted s) :
    (s.sender.pc = .paused ∨ s.sender.pc = .done) ∧
      (s.receiver.pc = .paused ∨ s.receiver.pc = .returned) := by
  have hsender : senderStep setup s = none := hh .sender
  have hreceiver : receiverStep setup s = none := hh .receiver
  constructor
  · unfold senderStep at hsender
    cases hpc : s.sender.pc with
    | paused => exact Or.inl rfl
    | done => exact Or.inr rfl
    | send => cases hts : s.sender.toSend <;> simp [hpc, hts] at hsender
    | _ => simp [hpc] at hsender
  · unfold receiverStep at hreceiver
    cases hpc : s.receiver.pc with
    | paused => exact Or.inl rfl
    | returned => exact Or.inr rfl
    | _ => simp [hpc] at hreceiver

theorem halted_pending (hh : (transfer setup file).Halted s) (hne : s.receiver.pc ≠ .returned) :
    s.receiver.pending = 0 := by
  have hsigint : s.receiver.sigint = none := by
    cases hv : s.receiver.sigint with
    | none => rfl
    | some v =>
      have hstep := hh .sigint
      simp [transfer, step, hv, hne] at hstep
  have hsigusr1 : s.receiver.sigusr1 = none := by
    cases hp : s.receiver.sigusr1 with
    | none => rfl
    | some p =>
      have hstep := hh .sigusr1
      simp [transfer, step, hp, hne] at hstep
  have hsigusr2 : s.receiver.sigusr2 = false := by
    have hstep := hh .sigusr2
    simpa [transfer, step, hne] using hstep
  unfold Receiver.pending
  rw [hsigint, hsigusr1, hsigusr2]
  rfl

/-- Where nothing can move, both programs have returned or one waits in vain. -/
theorem halted_alive_iff (h : Told setup s) (hinv : Inv s) (hh : (transfer setup file).Halted s) :
    Alive s ↔ s.sender.pc = .done ∧ s.receiver.pc = .returned := by
  obtain ⟨hsender, hreceiver⟩ := halted_pcs hh
  constructor
  · intro halive
    have hreturned : s.receiver.pc = .returned := by
      by_contra hne
      have hpending := halted_pending hh hne
      rcases halive with hfree | hpos | hpc
      · rcases hfree with hpc | hpc | hack
        · simp [hpc] at hsender
        · simp [hpc] at hsender
        · have hstep := hh .senderSigint
          simp [transfer, step, hack] at hstep
      · omega
      · exact hpc.1 (hreceiver.resolve_right hne)
    exact ⟨h.done.mp (Or.inr (hinv.ended (Or.inr hreturned))), hreturned⟩
  · intro hpcs
    exact alive_of_pc hpcs.2 (by decide)

/-- Every transfer comes to an end, and at its end both programs have returned exactly when no
handler ran too late in it. -/
theorem ends_iff_heard (setup : Setup) (file : List Byte) {as : List Action} {s : State}
    (h : (transfer setup file).run as = some s) :
    as.length ≤ 10 * (packages file).length + 19 ∧
      ((transfer setup file).Halted s →
        (s.sender.pc = .done ∧ s.receiver.pc = .returned ↔
          (transfer setup file).AllSteps Heard (transfer setup file).init as)) := by
  have htold : Told setup s := Machine.runFrom_invariant (fun _ _ _ => told_step) (told_init file) h
  have hinv : Inv s := Machine.runFrom_invariant (fun _ _ _ => inv_step) (inv_init file) h
  constructor
  · have hlength := Machine.runFrom_length_le (μ := State.left) (fun _ _ _ => told_step)
      (fun _ _ _ => left_step) (told_init file) h
    have hinit : (transfer setup file).init.left = 10 * (packages file).length + 19 := by
      show 8 * ((packages file).length + 2 + 0) + 1 + (2 * (packages file).length + 2) + 0 = _
      omega
    omega
  · intro hh
    have hsteps : Alive s ↔ Alive (transfer setup file).init ∧
        (transfer setup file).AllSteps Heard (transfer setup file).init as :=
      Machine.runFrom_iff_allSteps (fun _ _ _ => told_step) (fun _ _ _ => alive_step)
        (told_init file) h
    have hinit : Alive (transfer setup file).init := Or.inl (Or.inl rfl)
    rw [← halted_alive_iff htold hinv hh, hsteps]
    exact and_iff_right hinit

/-- The sender comes to its `pause` after the acknowledgement it waits for there. -/
def acknowledgedEarly : List Action :=
  [.sender, .sender, .receiver, .sigint, .sigusr1, .receiver, .receiver, .receiver, .receiver,
    .receiver, .senderSigint, .sender, .receiver]

theorem ends_iff_heard_oneByte :
    ∃ s, (transfer twoGroups [0x61]).run acknowledgedEarly = some s ∧
      s.receiver.output = [0x61] ∧ s.sender.pc = .paused ∧ s.receiver.pc = .paused ∧
      ¬ (transfer twoGroups [0x61]).AllSteps Heard (transfer twoGroups [0x61]).init
        acknowledgedEarly := by
  have hends := (@ends_iff_heard twoGroups [0x61] acknowledgedEarly _ rfl).2
  refine ⟨_, rfl, rfl, rfl, rfl, fun hheard => ?_⟩
  have hreturned := (hends fun a => by cases a <;> rfl).mpr hheard
  cases hreturned.1

end OsTasks.Signal

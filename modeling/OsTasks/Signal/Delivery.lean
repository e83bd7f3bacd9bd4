import OsTasks.Signal.HandshakeInv

/-! Which runs of the signal transfer deliver the file: what is written, on the way and not sent
makes up the file until a step loses a package. -/
namespace OsTasks.Signal
open OsTasks.Lib

/-- What the receiver has got and will still write. -/
def Receiver.unwritten (r : Receiver) : List Byte :=
  if r.pc = .killEnd ∨ r.pc = .returned then []
  else
    (if r.write = true ∧ r.pc ≠ .clearWrite then payload r.val else []) ++
      (r.sigusr1.map payload).getD []

/-- Written, on the way and not sent. -/
def account (s : State) : List Byte :=
  s.receiver.output ++ s.receiver.unwritten ++ (s.sender.toSend.map payload).flatten

variable {setup : Setup}

/-- What a step does to the account: it keeps it, or it is not `Ok` and loses a package. -/
def Accounts (s t : State) (a : Action) : Prop :=
  (Ok s a → account t = account s) ∧ (¬ Ok s a → (account t).length < (account s).length)

theorem accounts_of_eq {s t : State} {a : Action} (hok : Ok s a) (h : account t = account s) :
    Accounts s t a := ⟨fun _ => h, fun hn => absurd hok hn⟩

theorem accounts_sender {s t : State} (h : Inv s) (ht : senderStep setup s = some t) :
    Accounts s t .sender := by
  unfold senderStep at ht
  cases hpc : s.sender.pc with
  | send =>
    cases hts : s.sender.toSend with
    | nil =>
      simp only [hpc, hts] at ht
      cases ht
      refine accounts_of_eq (fun _ hne => absurd hts hne) ?_
      simp only [account, hts]
      rfl
    | cons p ps =>
      simp only [hpc, hts] at ht
      cases ht
      have hopen : ¬ (s.receiver.pc = .killEnd ∨ s.receiver.pc = .returned) := by
        intro he
        have := h.sent (Or.inr (h.ended he))
        rw [hts] at this
        cases this
      have hne : s.sender.toSend ≠ [] := by rw [hts]; exact List.cons_ne_nil _ _
      cases hu : s.receiver.sigusr1 with
      | none =>
        refine accounts_of_eq (fun _ _ => hu) ?_
        simp [account, Receiver.unwritten, hopen, hts, hu]
      | some q =>
        refine ⟨fun hok => ?_, fun _ => ?_⟩
        · have := hok hpc hne
          rw [hu] at this
          cases this
        · have hp := List.length_pos_of_ne_nil (h.queued p (by rw [hts]; exact List.mem_cons_self))
          simp [account, Receiver.unwritten, hopen, hts, hu]
          omega
  | sndPid =>
    simp only [hpc] at ht
    cases ht
    exact accounts_of_eq (fun he => by rw [hpc] at he; cases he) rfl
  | beforePause =>
    simp only [hpc] at ht
    cases ht
    exact accounts_of_eq (fun he => by rw [hpc] at he; cases he) rfl
  | paused => simp [hpc] at ht
  | done => simp [hpc] at ht

theorem unwritten_ne_nil {s : State} (h : Inv s) (hpc : s.receiver.pc = .testEnd)
    (hlost : ¬ (s.receiver.sigusr1 = none ∧ s.receiver.write = false)) :
    s.receiver.unwritten ≠ [] := by
  intro hnil
  simp only [Receiver.unwritten, hpc, reduceCtorEq, or_self, if_false, ne_eq,
    not_false_eq_true, and_true, List.append_eq_nil_iff] at hnil
  obtain ⟨hval, hpending⟩ := hnil
  apply hlost
  constructor
  · cases hu : s.receiver.sigusr1 with
    | none => rfl
    | some p => exact absurd (by simpa [hu] using hpending) (h.pending p hu)
  · cases hw : s.receiver.write with
    | false => rfl
    | true => exact absurd (by simpa [hw] using hval) (h.val hw)

theorem accounts_receiver {s t : State} (h : Inv s) (ht : receiverStep setup s = some t) :
    Accounts s t .receiver := by
  obtain ⟨hkr, hks⟩ := kill_receiver setup s
  unfold receiverStep at ht
  have hother : s.receiver.pc ≠ .testEnd → Ok s .receiver := fun hne he => absurd he hne
  cases hpc : s.receiver.pc with
  | beforePause =>
    simp only [hpc] at ht
    cases ht
    apply accounts_of_eq (hother (by rw [hpc]; decide))
    simp [account, Receiver.unwritten, State.at, hpc]
  | testWrite =>
    simp only [hpc] at ht
    cases ht
    apply accounts_of_eq (hother (by rw [hpc]; decide))
    cases hw : s.receiver.write <;> simp [account, Receiver.unwritten, State.at, hpc, hw]
  | fwrite =>
    simp only [hpc] at ht
    cases ht
    apply accounts_of_eq (hother (by rw [hpc]; decide))
    have hw := h.write (Or.inl hpc)
    simp [account, Receiver.unwritten, hpc, hw]
  | clearWrite =>
    simp only [hpc] at ht
    cases ht
    apply accounts_of_eq (hother (by rw [hpc]; decide))
    simp [account, Receiver.unwritten, hpc]
  | testEnd =>
    simp only [hpc] at ht
    cases ht
    cases hend : s.receiver.ended with
    | false =>
      refine accounts_of_eq (fun _ he => by rw [hend] at he; cases he) ?_
      simp [account, Receiver.unwritten, State.at, hpc]
    | true =>
      constructor
      · intro hok
        obtain ⟨hu, hw⟩ := hok hpc hend
        simp [account, Receiver.unwritten, State.at, hpc, hu, hw]
      · intro hok
        have hlost : ¬ (s.receiver.sigusr1 = none ∧ s.receiver.write = false) :=
          fun hno => hok fun _ _ => hno
        have hpos : 0 < s.receiver.unwritten.length :=
          List.length_pos_of_ne_nil (unwritten_ne_nil h hpc hlost)
        simp [account, Receiver.unwritten, State.at] at hpos ⊢
        simpa using hpos
  | killEnd =>
    simp only [hpc] at ht
    cases ht
    apply accounts_of_eq (hother (by rw [hpc]; decide))
    simp only [account, State.at]
    rw [hkr, hks]
    simp [Receiver.unwritten, hpc]
  | killAck =>
    simp only [hpc] at ht
    cases ht
    apply accounts_of_eq (hother (by rw [hpc]; decide))
    simp only [account, State.at]
    rw [hkr, hks]
    simp [Receiver.unwritten, hpc]
  | paused => simp [hpc] at ht
  | returned => simp [hpc] at ht

theorem accounts_step {s t : State} {a : Action} (h : Inv s) (ht : step setup s a = some t) :
    Accounts s t a := by
  have hwake : ∀ pc', pc' ≠ .paused ∧ pc' ≠ .testWrite →
      (s.receiver.pc.woken = pc' ↔ s.receiver.pc = pc') := fun _ => woken_iff
  have hend := hwake .killEnd (by decide)
  have hret := hwake .returned (by decide)
  have hclear := hwake .clearWrite (by decide)
  cases a with
  | sender => exact accounts_sender h ht
  | receiver => exact accounts_receiver h ht
  | senderSigint =>
    obtain ⟨-, ht⟩ := Option.ite_none_right_eq_some.mp ht
    cases ht
    exact accounts_of_eq trivial rfl
  | sigint =>
    simp only [step] at ht
    split at ht
    · cases ht
    · split_ifs at ht
      cases ht
      refine accounts_of_eq trivial ?_
      simp only [account, Receiver.unwritten, hend, hret, hclear, ne_eq]
  | sigusr2 =>
    obtain ⟨-, ht⟩ := Option.ite_none_right_eq_some.mp ht
    cases ht
    refine accounts_of_eq trivial ?_
    simp only [account, Receiver.unwritten, hend, hret, hclear, ne_eq]
  | sigusr1 =>
    simp only [step] at ht
    split at ht
    · cases ht
    · rename_i p hp
      split_ifs at ht with hpc
      cases ht
      by_cases hk : s.receiver.pc = .killEnd
      · refine accounts_of_eq (fun hne => absurd hk hne) ?_
        simp [account, Receiver.unwritten, ReceiverPc.woken, hk]
      have hopen : ¬ (s.receiver.pc = .killEnd ∨ s.receiver.pc = .returned) :=
        not_or.mpr ⟨hk, hpc⟩
      cases hw : s.receiver.write with
      | false =>
        have hc : s.receiver.pc ≠ .clearWrite := by
          intro he
          have := h.write (Or.inr he)
          rw [hw] at this
          cases this
        refine accounts_of_eq (fun _ => hw) ?_
        simp [account, Receiver.unwritten, hend, hret, hclear, hopen, hw, hc, hp]
      | true =>
        have hlt : 0 < (payload p).length := List.length_pos_of_ne_nil (h.pending p hp)
        have hval : 0 < (payload s.receiver.val).length := List.length_pos_of_ne_nil (h.val hw)
        refine ⟨fun hok => ?_, fun _ => ?_⟩
        · have := hok hk
          rw [hw] at this
          cases this
        · by_cases hc : s.receiver.pc = .clearWrite
          · simp [account, Receiver.unwritten, ReceiverPc.woken, hw, hc, hp]
            omega
          · simp [account, Receiver.unwritten, hend, hret, hclear, hopen, hw, hc, hp]
            omega

theorem account_init (file : List Byte) : account (transfer setup file).init = file := by
  change [] ++ (([] : List Byte) ++ []) ++ ((packages file).map payload).flatten = file
  rw [flatten_payload_packages]
  rfl

theorem account_of_returned {s : State} (h : Inv s) (hr : s.receiver.pc = .returned) :
    account s = s.receiver.output := by
  have hsent := h.sent (Or.inr (h.ended (Or.inr hr)))
  simp [account, Receiver.unwritten, hr, hsent]

/-- In a run of `Ok` steps the output is a prefix of the file all along, and a run in which the
receiver returns leaves the whole file exactly when its steps are `Ok`. -/
theorem output_of_ok (setup : Setup) (file : List Byte) {as : List Action} {s : State}
    (h : (transfer setup file).run as = some s) :
    ((transfer setup file).AllSteps Ok (transfer setup file).init as →
        s.receiver.output <+: file) ∧
      (s.receiver.pc = .returned → (s.receiver.output = file ↔
        (transfer setup file).AllSteps Ok (transfer setup file).init as)) := by
  have hstep : ∀ u a v, Inv u → (transfer setup file).step u a = some v → Inv v :=
    fun u a v hu hv => inv_step hu hv
  have hinv : Inv s := Machine.runFrom_invariant hstep (inv_init file) h
  have hok : (transfer setup file).AllSteps Ok (transfer setup file).init as →
      account s = file := by
    intro hall
    have hkeep := Machine.runFrom_invariant_of_allSteps (I := fun u => Inv u ∧ account u = file)
      (fun u a v hu hP hv => ⟨hstep u a v hu.1 hv,
        ((accounts_step hu.1 hv).1 hP).trans hu.2⟩)
      ⟨inv_init file, account_init file⟩ hall h
    exact hkeep.2
  constructor
  · intro hall
    rw [← hok hall, account, List.append_assoc]
    exact List.prefix_append _ _
  · intro hr
    have hacc := account_of_returned hinv hr
    constructor
    · intro ho
      by_contra hall
      have hle : ∀ u a v, Inv u → (transfer setup file).step u a = some v →
          (account v).length ≤ (account u).length := by
        intro u a v hu hv
        obtain ⟨h1, h2⟩ := accounts_step hu hv
        by_cases hP : Ok u a
        · rw [h1 hP]
        · exact (h2 hP).le
      have hlt : (account s).length < (account (transfer setup file).init).length :=
        Machine.runFrom_measure_lt (P := Ok) (μ := fun u => (account u).length) hstep hle
          (fun u a v hu hP hv => (accounts_step hu hv).2 hP) (inv_init file) hall h
      rw [account_init, hacc, ho] at hlt
      exact lt_irrefl _ hlt
    · intro hall
      rw [← hacc]
      exact hok hall

def twoGroups : Setup := ⟨100, by decide, false, 0⟩

/-- The first package arrives together with the process id, and the second one when the first has
been written. -/
def together : List Action :=
  [.sender, .sender, .sender, .receiver, .sigint, .sigusr1, .receiver, .receiver, .receiver,
    .receiver, .receiver, .senderSigint, .sender, .sender, .receiver, .sigusr1, .receiver,
    .receiver, .receiver, .receiver, .receiver, .senderSigint, .sender, .receiver, .sigusr2,
    .receiver, .receiver, .receiver]

theorem two_packages_delivered :
    ∃ s, (transfer twoGroups [0x61, 0x62, 0x63, 0x64]).run together = some s ∧
      s.receiver.output = [0x61, 0x62, 0x63, 0x64] ∧
      (transfer twoGroups [0x61, 0x62, 0x63, 0x64]).AllSteps Ok
        (transfer twoGroups [0x61, 0x62, 0x63, 0x64]).init together :=
  ⟨_, rfl, rfl, ((output_of_ok twoGroups [0x61, 0x62, 0x63, 0x64] rfl).2 rfl).mp rfl⟩

/-- The process id alone wakes the receiver, whose acknowledgement then releases the sender
while its first package is still pending. -/
def idAlone : List Action :=
  [.sender, .sender, .sender, .receiver, .sigint, .receiver, .receiver, .receiver,
    .senderSigint, .sender, .sender, .receiver, .sigusr1, .receiver, .receiver, .receiver,
    .receiver, .receiver, .senderSigint, .sender, .receiver, .sigusr2, .receiver, .receiver,
    .receiver]

theorem second_package_dropped :
    ∃ s, (transfer twoGroups [0x61, 0x62, 0x63, 0x64]).run idAlone = some s ∧
      s.receiver.pc = .returned ∧ s.receiver.ended = true ∧
      s.receiver.output = [0x61, 0x62, 0x63] ∧
      s.receiver.output ≠ [0x61, 0x62, 0x63, 0x64] :=
  ⟨_, rfl, rfl, rfl, rfl, by decide⟩

end OsTasks.Signal

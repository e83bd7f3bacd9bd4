import OsTasks.Threads.ProdConsProgress

/-! No wake-up is lost, and what the program prints as `main` starts it, with one producer and one
consumer. -/
namespace OsTasks.Threads.ProdCons
open OsTasks.Lib

/-- The values of the lines "Consume value %d". -/
def State.consumed (s : State) : List ℕ :=
  s.stdout.filterMap fun line => match line with
    | .consumed i => some i
    | _ => none

/-- The consumer has printed what it has taken, up to the value in its `i`. -/
def Printed (s : State) (h : History) : Prop :=
  s.consumed ++ (if (s.thread (.consumer 0)).pc.stored then [(s.thread (.consumer 0)).i] else []) =
    h.taken

/-- The values come from the threads that run. -/
def Created (producers : ℕ) (h : History) : Prop := ∀ p ∈ h.inserted, p.1 < producers

theorem created_move {producers consumers : ℕ} {s s' : State} {h h' : History} {a : Act}
    (hcr : Created producers h) (hm : Move producers consumers s h a s' h') :
    Created producers h' := by
  cases hm with
  | store k hk _ =>
    intro p hp
    rcases List.mem_append.mp hp with hp | hp
    · exact hcr p hp
    · rw [List.mem_singleton.mp hp]
      exact hk
  | _ => exact hcr

theorem Printed.goto {s s' : State} {h : History} (hp : Printed s h) {t : Thread} {pc pc' : Pc}
    (hstdout : s'.consumed = s.consumed) (hthread : s'.thread = s.thread)
    (hpc : (s.thread t).pc = pc) (hst : pc'.stored = pc.stored) : Printed (s'.goto t pc') h := by
  have hc : (s'.goto t pc').consumed = s.consumed := hstdout
  unfold Printed
  rw [hc]
  by_cases ht : Thread.consumer 0 = t
  · subst t
    rw [State.goto_thread_self, hthread]
    dsimp only
    rw [hst, ← hpc]
    exact hp
  · rw [State.goto_thread_of_ne _ _ ht, hthread]
    exact hp

theorem printed_move {producers : ℕ} {s s' : State} {h h' : History} {a : Act}
    (hp : Printed s h) (hm : Move producers 1 s h a s' h') : Printed s' h' := by
  cases hm with
  | lock t _ hpc _ => exact hp.goto rfl rfl hpc rfl
  | block t _ hpc _ => exact hp.goto rfl rfl hpc rfl
  | pass t _ hpc _ => exact hp.goto rfl rfl hpc rfl
  | relock t _ hpc _ => exact hp.goto rfl rfl hpc rfl
  | unlock t _ hpc => exact hp.goto rfl rfl hpc rfl
  | store k _ hpc =>
    unfold Printed
    rw [State.goto_thread_of_ne _ _ (show Thread.consumer 0 ≠ .producer k from nofun)]
    exact hp
  | load k hk hpc =>
    obtain rfl : k = 0 := by omega
    unfold Printed at hp ⊢
    rw [hpc] at hp
    rw [State.put_thread_self, ← hp]
    simp [Pc.stored, State.consumed, State.put]
  | addIndex k _ hpc => exact hp.goto rfl rfl (t := .producer k) hpc rfl
  | remIndex k _ hpc => exact hp.goto rfl rfl (t := .consumer k) hpc rfl
  | addCount k _ hpc => exact hp.goto rfl rfl (t := .producer k) hpc rfl
  | remCount k _ hpc => exact hp.goto rfl rfl (t := .consumer k) hpc rfl
  | printInserted k _ hpc =>
    unfold Printed at hp ⊢
    rw [State.put_thread_of_ne _ _ (show Thread.consumer 0 ≠ .producer k from nofun), ← hp]
    simp [State.consumed, State.put]
  | printQuiting k _ hpc =>
    unfold Printed at hp ⊢
    rw [State.goto_thread_of_ne _ _ (show Thread.consumer 0 ≠ .producer k from nofun), ← hp]
    simp [State.consumed, State.put, State.goto]
  | printConsumed k hk hpc =>
    obtain rfl : k = 0 := by omega
    unfold Printed at hp ⊢
    rw [hpc] at hp
    rw [State.goto_thread_self, ← hp]
    simp [Pc.stored, State.consumed, State.put, State.goto]
  | wake t u _ hpc _ _ hu =>
    have hsent : Printed (s.goto t .unlock) h := hp.goto rfl rfl hpc rfl
    have hne : u ≠ t := by
      intro he
      rw [he, hpc] at hu
      cases hu
    have hwait : ((s.goto t .unlock).thread u).pc = .wait := by
      rw [State.goto_thread_of_ne _ _ hne, hu]
    exact hsent.goto rfl rfl hwait rfl
  | wakeNobody t _ hpc _ => exact hp.goto rfl rfl hpc rfl
  | spurious t _ hpc => exact hp.goto rfl rfl hpc rfl

structure Program (p : State × History) : Prop where
  safe : Safe 1 1 p
  created : Created 1 p.2
  printed : Printed p.1 p.2

theorem program_init : Program (recorded 1 1).init where
  safe := safe_init 1 1
  created := fun _ h => by cases h
  printed := rfl

theorem program_step (p : State × History) (a : Act) (q : State × History) (hp : Program p)
    (ha : a.quiet = true) (h : (recorded 1 1).step p a = some q) : Program q :=
  have hm := move_of_recorded h
  ⟨safe_step (Or.inl le_rfl) (Or.inl le_rfl) p a q hp.safe ha h, created_move hp.created hm,
    printed_move hp.printed hm⟩

theorem Program.values {p : State × History} (hp : Program p) :
    p.2.values = List.range' 1 (p.1.thread (.producer 0)).stored := by
  have hall : (p.2.inserted.filter fun x => x.1 == 0) = p.2.inserted := by
    apply List.filter_eq_self.mpr
    intro x hx
    have hlt := hp.created x hx
    have hzero : x.1 = 0 := by omega
    exact beq_iff_eq.mpr hzero
  have hv := hp.safe.sound.2.values 0
  rw [hall] at hv
  exact hv

theorem Program.stored_le {p : State × History} (hp : Program p) :
    (p.1.thread (.producer 0)).stored ≤ 20 := by
  have hfine := hp.safe.sound.2.fine (.producer 0)
  rw [Thread.fine_producer] at hfine
  unfold Local.stored
  cases hpc : (p.1.thread (.producer 0)).pc <;> rw [hpc] at hfine <;>
    simp [Pc.stored, Pc.inLoop] at hfine ⊢ <;> omega

theorem Program.length_inserted {p : State × History} (hp : Program p) :
    p.2.inserted.length = (p.1.thread (.producer 0)).stored := by
  rw [← History.length_values, hp.values, List.length_range']

/-- The consumer prints 1, 2, 3, … -/
theorem Program.consumed_eq {p : State × History} (hp : Program p) :
    ∃ n ≤ 20, p.1.consumed = List.range' 1 n := by
  have hpre : p.1.consumed <+: p.2.values := by
    have htaken : p.2.taken <+: p.2.values := by
      rw [hp.safe.fifo.taken]
      exact List.take_prefix ..
    have hprinted : p.1.consumed <+: p.2.taken := ⟨_, hp.printed⟩
    exact hprinted.trans htaken
  obtain ⟨rest, hrest⟩ := hpre
  rw [hp.values] at hrest
  obtain ⟨n, hn, hconsumed, -⟩ := List.range'_eq_append_iff.mp hrest.symm
  exact ⟨n, hn.trans hp.stored_le, hconsumed⟩

/-- The statements the producer has left in its round. -/
def Pc.producerLeft : Pc → ℕ
  | .lock => 11 | .test => 10 | .wait => 9 | .relock => 8 | .cell => 7 | .index => 6 | .count => 5
  | .signal => 4 | .unlock => 3 | .print => 2 | .leave => 1 | .done => 0

/-- The statements the consumer has left until it loads the next value. -/
def Pc.consumerLeft : Pc → ℕ
  | .index => 13 | .count => 12 | .signal => 11 | .unlock => 10 | .print => 9 | .lock => 6
  | .test => 5 | .wait => 4 | .relock => 3 | .cell => 2 | .leave => 0 | .done => 0

def leftOf (producer consumer : Local) (taken : ℕ) : ℕ :=
  12 * (21 - producer.i) + producer.pc.producerLeft +
    (12 * (20 - taken) + consumer.pc.consumerLeft)

def left (p : State × History) : ℕ :=
  leftOf (p.1.thread (.producer 0)) (p.1.thread (.consumer 0)) p.2.taken.length

theorem left_put_producer (s : State) (h : History) (l : Local) :
    left (s.put (.producer 0) l, h) = leftOf l (s.thread (.consumer 0)) h.taken.length := by
  have hne : Thread.consumer 0 ≠ .producer 0 := nofun
  unfold left
  dsimp only
  rw [State.put_thread_self, State.put_thread_of_ne _ _ hne]

theorem left_put_consumer (s : State) (h : History) (l : Local) :
    left (s.put (.consumer 0) l, h) = leftOf (s.thread (.producer 0)) l h.taken.length := by
  have hne : Thread.producer 0 ≠ .consumer 0 := nofun
  unfold left
  dsimp only
  rw [State.put_thread_self, State.put_thread_of_ne _ _ hne]

theorem created_one {t : Thread} (ht : t.created 1 1 = true) :
    t = .producer 0 ∨ t = .consumer 0 := by
  cases t <;> simp_all [Thread.created]

theorem left_goto {s s' : State} {h : History} {t : Thread} {pc pc' : Pc}
    (ht : t.created 1 1 = true) (hthread : s'.thread = s.thread) (hpc : (s.thread t).pc = pc)
    (hp : pc'.producerLeft < pc.producerLeft) (hc : pc'.consumerLeft < pc.consumerLeft) :
    left (s'.goto t pc', h) < left (s, h) := by
  subst pc
  rcases created_one ht with rfl | rfl
  · rw [State.goto, left_put_producer, hthread]
    simp only [left, leftOf]
    omega
  · rw [State.goto, left_put_consumer, hthread]
    simp only [left, leftOf]
    omega

theorem left_move {s s' : State} {h h' : History} {a : Act} (hp : Program (s, h))
    (hm : Move 1 1 s h a s' h') : left (s', h') < left (s, h) := by
  cases hm with
  | lock t ht hpc _ => exact left_goto ht rfl hpc (by decide) (by decide)
  | block t ht hpc _ => exact left_goto ht rfl hpc (by decide) (by decide)
  | pass t ht hpc _ => exact left_goto ht rfl hpc (by decide) (by decide)
  | relock t ht hpc _ => exact left_goto ht rfl hpc (by decide) (by decide)
  | unlock t ht hpc => exact left_goto ht rfl hpc (by decide) (by decide)
  | store k hk hpc =>
    obtain rfl : k = 0 := by omega
    rw [State.goto, left_put_producer]
    simp only [left, leftOf, hpc, Pc.producerLeft]
    omega
  | load k hk hpc =>
    obtain rfl : k = 0 := by omega
    obtain ⟨hin, -⟩ := hp.safe.sound.1.inside (t := .consumer 0) hpc rfl
    have hlt : h.taken.length < h.inserted.length :=
      hp.safe.fifo.notEmpty 0 (phase_of_owner (hp.safe.sound.1.owner hin) hpc)
    have hle := hp.stored_le
    have hlen : h.inserted.length = _ := hp.length_inserted
    rw [left_put_consumer]
    simp only [left, leftOf, hpc, Pc.consumerLeft, List.length_append, List.length_singleton]
    dsimp only at hle hlen
    omega
  | addIndex k hk hpc => exact left_goto (decide_eq_true hk) rfl hpc (by decide) (by decide)
  | remIndex k hk hpc => exact left_goto (decide_eq_true hk) rfl hpc (by decide) (by decide)
  | addCount k hk hpc => exact left_goto (decide_eq_true hk) rfl hpc (by decide) (by decide)
  | remCount k hk hpc => exact left_goto (decide_eq_true hk) rfl hpc (by decide) (by decide)
  | printInserted k hk hpc =>
    obtain rfl : k = 0 := by omega
    have hfine := hp.safe.sound.2.fine (.producer 0)
    rw [Thread.fine_producer] at hfine
    dsimp only at hfine
    rw [hpc, if_pos (show Pc.inLoop .print = true from rfl)] at hfine
    rw [left_put_producer]
    simp only [left, leftOf, hpc]
    by_cases hi : (s.thread (.producer 0)).i + 1 ≤ 20
    · simp only [hi, if_true, Pc.producerLeft]
      omega
    · simp only [hi, if_false, Pc.producerLeft]
      omega
  | printQuiting k hk hpc =>
    obtain rfl : k = 0 := by omega
    rw [State.goto, left_put_producer]
    simp only [left, leftOf, hpc, Pc.producerLeft]
    omega
  | printConsumed k hk hpc =>
    obtain rfl : k = 0 := by omega
    rw [State.goto, left_put_consumer]
    simp only [left, leftOf, hpc, Pc.consumerLeft]
    omega
  | wake t u ht hpc hsig hu hw =>
    have hne : u ≠ t := by
      intro he
      rw [he, hpc] at hw
      cases hw
    have hwait : ((s.goto t .unlock).thread u).pc = .wait := by
      rw [State.goto_thread_of_ne _ _ hne, hw]
    have h1 : left (s.goto t .unlock, h) < left (s, h) :=
      left_goto ht rfl hpc (by decide) (by decide)
    have h2 : left ((s.goto t .unlock).goto u .relock, h) < left (s.goto t .unlock, h) :=
      left_goto hu rfl hwait (by decide) (by decide)
    exact h2.trans h1
  | wakeNobody t ht hpc _ => exact left_goto ht rfl hpc (by decide) (by decide)
  | spurious t ht hpc => exact left_goto ht rfl hpc (by decide) (by decide)

/-- The program when no wait returns without a signal. -/
def program : Machine (State × History) Act := (recorded 1 1).restrict fun a => a.quiet = true

theorem program_restrict_step (p : State × History) (a : Act) (q : State × History)
    (hp : Program p) (h : program.step p a = some q) : Program q := by
  obtain ⟨ha, h⟩ := Machine.restrict_step_eq_some.mp h
  exact program_step p a q hp ha h

theorem left_step (p : State × History) (a : Act) (q : State × History) (hp : Program p)
    (h : program.step p a = some q) : left q < left p := by
  obtain ⟨-, h⟩ := Machine.restrict_step_eq_some.mp h
  have hprogram : Program (p.1, p.2) := hp
  exact left_move hprogram (move_of_recorded h)

theorem halted_of_program {p : State × History} (h : program.Halted p) :
    ((prodCons 1 1).restrict fun a => a.quiet = true).Halted p.1 := by
  intro a
  by_cases ha : a.quiet = true
  · have hnone : (recorded 1 1).step p a = none := h.of_restrict ha
    exact (if_pos ha).trans (Option.map_eq_none_iff.mp hnone)
  · exact if_neg ha

section Wakeups
variable {producers consumers : ℕ}

/-- Whatever the number of threads and whichever waits returned without a signal: when no thread
can go on, every producer has stored its 20 values, every consumer waits, and at least as many
values have been taken as stored. -/
theorem no_lost_wakeup {s : State} {h : History} (hpos : 0 < consumers)
    (hr : (recorded producers consumers).Reachable (s, h))
    (hh : ((prodCons producers consumers).restrict fun a => a.quiet = true).Halted s) :
    (∀ k < producers, (s.thread (.producer k)).pc = .done ∧
      (h.inserted.filter fun p => p.1 == k).map Prod.snd = List.range' 1 20) ∧
    (∀ k < consumers, (s.thread (.consumer k)).pc = .wait) ∧
    h.inserted.length ≤ h.taken.length := by
  have hwaiting := waiting_of_reachable hr
  obtain ⟨hfree, hnum, hproducers, hconsumers⟩ := exhausted hpos hwaiting hh
  obtain ⟨hc, ht⟩ := hwaiting.sound
  refine ⟨fun k hk => ⟨hproducers k hk, ?_⟩, hconsumers, ?_⟩
  · rw [ht.values k, ht.stored_of_done (hproducers k hk)]
  · have hcount : s.num = (h.inserted.length : ℤ) - h.taken.length := hc.num_of_free hfree
    omega

theorem no_lost_wakeup_program : ∃ s h, (recorded 1 1).Reachable (s, h) ∧
    ((prodCons 1 1).restrict fun a => a.quiet = true).Halted s ∧
    (s.thread (.producer 0)).pc = .done ∧ (s.thread (.consumer 0)).pc = .wait ∧
    h.inserted.length ≤ h.taken.length := by
  obtain ⟨as, ⟨s, h⟩, hrun, hhalt⟩ :=
    Machine.exists_run_halted program_restrict_step left_step program.init program_init
  have hreach : program.Reachable (s, h) := ⟨as, hrun⟩
  have hh := halted_of_program hhalt
  have hall := no_lost_wakeup Nat.one_pos hreach.of_restrict hh
  exact ⟨s, h, hreach.of_restrict, hh, (hall.1 0 Nat.one_pos).1, hall.2.1 0 Nat.one_pos, hall.2.2⟩

end Wakeups

/-- With one producer and one consumer, and no wait that returns without a signal, every run ends
within 497 steps; at every moment the consumer has printed 1, …, n in this order, and at the end
1, …, 20, while the producer has quit and the consumer waits. -/
theorem program_prints :
    (∀ as p, program.run as = some p → as.length ≤ 497 ∧
      ∃ n ≤ 20, p.1.consumed = List.range' 1 n) ∧
    (∃ as p, program.run as = some p ∧ program.Halted p) ∧
    ∀ p, program.Reachable p → program.Halted p →
      p.1.consumed = List.range' 1 20 ∧ (p.1.thread (.producer 0)).pc = .done ∧
      (p.1.thread (.consumer 0)).pc = .wait := by
  refine ⟨fun as p h => ⟨?_, ?_⟩, ?_, fun p hr hh => ?_⟩
  · have hlen := Machine.runFrom_length_le program_restrict_step left_step program_init h
    have hinit : left program.init = 497 := rfl
    have hall : as.length ≤ left program.init := (Nat.le_add_right _ _).trans hlen
    exact hall.trans_eq hinit
  · exact Program.consumed_eq (Machine.runFrom_invariant program_restrict_step program_init h)
  · exact Machine.exists_run_halted program_restrict_step left_step program.init program_init
  · have hp : Program p :=
      Machine.Reachable.invariant (M := program) program_init program_restrict_step hr
    have hwaiting := waiting_of_reachable hr.of_restrict
    obtain ⟨hfree, hnum, hproducer, hconsumer⟩ :=
      exhausted Nat.one_pos hwaiting (halted_of_program hh)
    have hdone := hproducer 0 Nat.one_pos
    have hwait := hconsumer 0 Nat.one_pos
    refine ⟨?_, hdone, hwait⟩
    have hstored : (p.1.thread (.producer 0)).stored = 20 :=
      hp.safe.sound.2.stored_of_done hdone
    have hcount := hp.safe.sound.1.num_of_free hfree
    have hall : p.2.values.length ≤ p.2.taken.length := by
      rw [History.length_values]
      omega
    have htaken : p.2.taken = List.range' 1 20 := by
      rw [hp.safe.fifo.taken, List.take_of_length_le hall, hp.values, hstored]
    have hprinted := hp.printed
    unfold Printed at hprinted
    rw [hwait] at hprinted
    rw [← htaken, ← hprinted]
    exact (List.append_nil _).symm

end OsTasks.Threads.ProdCons

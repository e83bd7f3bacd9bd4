import OsTasks.Threads.ProdConsFifo

/-! How many producers and consumers the `if` in front of `pthread_cond_wait` is enough for, when
no wait returns without a signal. -/
namespace OsTasks.Threads.ProdCons
open OsTasks.Lib

variable {producers consumers : ℕ}

def Act.quiet : Act → Bool
  | .spurious _ => false
  | _ => true

/-- What a thread needs of the ring. -/
def History.Ready (h : History) : Thread → Prop
  | .producer _ => h.inserted.length < h.taken.length + bufSize
  | .consumer _ => h.taken.length < h.inserted.length

/-- Behind the use of the ring, up to the signal. -/
def Pc.used : Pc → Bool
  | .index | .count | .signal => true
  | _ => false

variable (producers consumers) in
/-- A thread that has used the ring has made it ready for the other side, and for a woken thread it
still is. -/
structure Slack (s : State) (h : History) : Prop where
  used : ∀ t pc, s.phase = some (t, pc) → pc.used = true → ∀ u, t.signals u = true → h.Ready u
  woken : ∀ u : Thread, (s.thread u).pc = .relock → h.Ready u ∧ u.created producers consumers ∧
    ∃ t : Thread, t.created producers consumers ∧ t.signals u = true

theorem slack_init (producers consumers : ℕ) : Slack producers consumers
    (prodCons producers consumers).init { inserted := [], taken := [] } where
  used := fun _ _ h => by cases h
  woken := fun u h => by cases u <;> cases h

theorem Slack.of_step {s s' : State} {h : History} (hs : Slack producers consumers s h)
    (hphase : ∀ t pc, s'.phase = some (t, pc) → pc.used = true →
      ∃ pc', s.phase = some (t, pc') ∧ pc'.used = true)
    (hrelock : ∀ u, (s'.thread u).pc = .relock → (s.thread u).pc = .relock) :
    Slack producers consumers s' h := by
  constructor
  · intro t pc hp hu
    obtain ⟨pc', hp', hu'⟩ := hphase t pc hp hu
    exact hs.used t pc' hp' hu'
  · intro u hu
    exact hs.woken u (hrelock u hu)

theorem pc_put_ne {s s' : State} {t : Thread} {l : Local} {pc : Pc}
    (hthread : s'.thread = s.thread) (hl : l.pc ≠ pc) (u : Thread)
    (hu : ((s'.put t l).thread u).pc = pc) : u ≠ t ∧ (s.thread u).pc = pc := by
  have hne : u ≠ t := by
    intro he
    subst u
    rw [State.put_thread_self] at hu
    exact hl hu
  rw [State.put_thread_of_ne _ _ hne, hthread] at hu
  exact ⟨hne, hu⟩

/-- A step of one thread that does not end among the locations behind the ring, unless it
stood there. -/
theorem Slack.put {s s' : State} {h : History} (hs : Slack producers consumers s h) {t : Thread}
    {l : Local} {owner : Option (Thread × Pc)} (hthread : s'.thread = s.thread)
    (hl : l.pc ≠ .relock) (hp : (s'.put t l).phase = owner)
    (hphase : owner = s.phase ∨ ∀ u pc, owner = some (u, pc) → pc.used = true →
      ∃ pc', s.phase = some (u, pc') ∧ pc'.used = true) :
    Slack producers consumers (s'.put t l) h := by
  refine hs.of_step (fun u pc hu hused => ?_) fun u hu => (pc_put_ne hthread hl u hu).2
  rw [hp] at hu
  rcases hphase with hsame | hphase
  · exact ⟨pc, hsame ▸ hu, hused⟩
  · exact hphase u pc hu hused

/-- The store and the load: the thread makes the ring ready for the other side, and nobody of its
own side is on the way from a wait. -/
theorem Slack.use {s s' : State} {h h' : History} (hs : Slack producers consumers s h) {t : Thread}
    {l : Local} (hthread : s'.thread = s.thread) (hl : l.pc = .index)
    (hp : (s'.put t l).phase = some (t, .index)) (hother : ∀ u, t.signals u = true → h'.Ready u)
    (halone : ∀ u, (s.thread u).pc = .relock → u ≠ t → t.signals u = true) :
    Slack producers consumers (s'.put t l) h' := by
  constructor
  · intro u pc hu _ v hv
    rw [hp] at hu
    cases hu
    exact hother v hv
  · intro u hu
    have hne : l.pc ≠ .relock := by rw [hl]; nofun
    obtain ⟨hut, hold⟩ := pc_put_ne hthread hne u hu
    obtain ⟨-, hcreated, hsignal⟩ := hs.woken u hold
    exact ⟨hother u (halone u hold hut), hcreated, hsignal⟩

theorem slack_move {s s' : State} {h h' : History} {a : Act}
    (hP : producers ≤ 1 ∨ consumers = 0) (hC : consumers ≤ 1 ∨ producers = 0)
    (ha : a.quiet = true) (hc : Counted s h) (hf : Fifo s h) (hs : Slack producers consumers s h)
    (hm : Move producers consumers s h a s' h') : Slack producers consumers s' h' := by
  cases hm with
  | lock t _ hpc hfree =>
    exact hs.put rfl (by simp) (phase_put_owner _ rfl) (Or.inr fun u pc hu hused => by
      cases hu; cases hused)
  | block t _ hpc _ =>
    have hp : ({ s with m := none }.goto t .wait).phase = none := rfl
    exact hs.put rfl (by simp) hp (Or.inr (by simp))
  | pass t _ hpc _ =>
    obtain ⟨hin, -⟩ := hc.inside hpc rfl
    exact hs.put rfl (by simp) (phase_put_owner _ (hc.owner hin)) (Or.inr fun u pc hu hused => by
      cases hu; cases hused)
  | relock t _ hpc hfree =>
    exact hs.put rfl (by simp) (phase_put_owner _ rfl) (Or.inr fun u pc hu hused => by
      cases hu; cases hused)
  | unlock t _ hpc =>
    have hp : ({ s with m := none }.goto t .print).phase = none := rfl
    exact hs.put rfl (by simp) hp (Or.inr (by simp))
  | store k hk hpc =>
    obtain ⟨hin, -⟩ := hc.inside (t := .producer k) hpc rfl
    refine hs.use rfl rfl (phase_put_owner _ (hc.owner hin)) (fun u hu => ?_) fun u hu hne => ?_
    · cases u with
      | producer j => cases hu
      | consumer j =>
        have hle := hf.le
        show h.taken.length < (h.inserted ++ [_]).length
        rw [List.length_append, List.length_singleton]
        omega
    · cases u with
      | producer j =>
        obtain ⟨-, hj, t, ht, hsig⟩ := hs.woken (.producer j) hu
        have hj : j < producers := of_decide_eq_true hj
        have hpos : consumers ≠ 0 := by
          cases t with
          | producer i => cases hsig
          | consumer i =>
            have hi : i < consumers := of_decide_eq_true ht
            omega
        have hjk : j ≠ k := fun he => hne (congrArg Thread.producer he)
        omega
      | consumer j => rfl
  | load k hk hpc =>
    obtain ⟨hin, -⟩ := hc.inside (t := .consumer k) hpc rfl
    refine hs.use rfl rfl (phase_put_owner _ (hc.owner hin)) (fun u hu => ?_) fun u hu hne => ?_
    · cases u with
      | producer j =>
        have hroom := hf.room
        show h.inserted.length < (h.taken ++ [_]).length + bufSize
        rw [List.length_append, List.length_singleton]
        omega
      | consumer j => cases hu
    · cases u with
      | producer j => rfl
      | consumer j =>
        obtain ⟨-, hj, t, ht, hsig⟩ := hs.woken (.consumer j) hu
        have hj : j < consumers := of_decide_eq_true hj
        have hpos : producers ≠ 0 := by
          cases t with
          | producer i =>
            have hi : i < producers := of_decide_eq_true ht
            omega
          | consumer i => cases hsig
        have hjk : j ≠ k := fun he => hne (congrArg Thread.consumer he)
        omega
  | addIndex k _ hpc =>
    obtain ⟨hin, -⟩ := hc.inside (t := .producer k) hpc rfl
    have hold := phase_of_owner (hc.owner hin) hpc
    exact hs.put rfl (by simp) (phase_put_owner _ (hc.owner hin)) (Or.inr fun u pc hu _ => by
      cases hu; exact ⟨_, hold, rfl⟩)
  | remIndex k _ hpc =>
    obtain ⟨hin, -⟩ := hc.inside (t := .consumer k) hpc rfl
    have hold := phase_of_owner (hc.owner hin) hpc
    exact hs.put rfl (by simp) (phase_put_owner _ (hc.owner hin)) (Or.inr fun u pc hu _ => by
      cases hu; exact ⟨_, hold, rfl⟩)
  | addCount k _ hpc =>
    obtain ⟨hin, -⟩ := hc.inside (t := .producer k) hpc rfl
    have hold := phase_of_owner (hc.owner hin) hpc
    exact hs.put rfl (by simp) (phase_put_owner _ (hc.owner hin)) (Or.inr fun u pc hu _ => by
      cases hu; exact ⟨_, hold, rfl⟩)
  | remCount k _ hpc =>
    obtain ⟨hin, -⟩ := hc.inside (t := .consumer k) hpc rfl
    have hold := phase_of_owner (hc.owner hin) hpc
    exact hs.put rfl (by simp) (phase_put_owner _ (hc.owner hin)) (Or.inr fun u pc hu _ => by
      cases hu; exact ⟨_, hold, rfl⟩)
  | printInserted k _ hpc =>
    have hne := hc.not_owner (t := .producer k) (by simp [Local.inside, hpc])
    refine hs.put rfl ?_ (phase_put_of_ne _ hne) (Or.inl rfl)
    dsimp only
    split_ifs <;> simp
  | printQuiting k _ hpc =>
    have hne := hc.not_owner (t := .producer k) (by simp [Local.inside, hpc])
    exact hs.put rfl (by simp) (phase_put_of_ne _ hne) (Or.inl rfl)
  | printConsumed k _ hpc =>
    have hne := hc.not_owner (t := .consumer k) (by simp [Local.inside, hpc])
    exact hs.put rfl (by simp) (phase_put_of_ne _ hne) (Or.inl rfl)
  | wake t u ht hpc hsig hu hwait =>
    obtain ⟨hin, -⟩ := hc.inside hpc rfl
    have hready := hs.used t .signal (phase_of_owner (hc.owner hin) hpc) rfl u hsig
    have hp : (s.goto t .unlock).phase = some (t, .unlock) := phase_put_owner _ (hc.owner hin)
    have hne : s.m ≠ some u := hc.not_owner (by simp [Local.inside, hwait])
    have hp' : ((s.goto t .unlock).goto u .relock).phase = some (t, .unlock) :=
      (phase_put_of_ne (s := s.goto t .unlock) _ hne).trans hp
    constructor
    · intro v pc hv hused
      rw [hp'] at hv
      cases hv
      cases hused
    · intro v hv
      by_cases hvu : v = u
      · subst v
        exact ⟨hready, hu, t, ht, hsig⟩
      · rw [State.goto_thread_of_ne _ _ hvu] at hv
        have hvt : v ≠ t := by
          intro he
          subst v
          rw [State.goto_thread_self] at hv
          cases hv
        rw [State.goto_thread_of_ne _ _ hvt] at hv
        exact hs.woken v hv
  | wakeNobody t _ hpc _ =>
    obtain ⟨hin, -⟩ := hc.inside hpc rfl
    exact hs.put rfl (by simp) (phase_put_owner _ (hc.owner hin)) (Or.inr fun u pc hu hused => by
      cases hu; cases hused)
  | spurious t _ hpc => cases ha

theorem Move.free_of_relock {s s' : State} {h h' : History} {t : Thread}
    (hm : Move producers consumers s h (.run t) s' h') (hpc : (s.thread t).pc = .relock) :
    s.m = none := by
  cases hm with
  | relock _ _ _ hfree => exact hfree
  | lock _ _ _ hfree => exact hfree
  | _ => simp_all

structure Safe (producers consumers : ℕ) (p : State × History) : Prop where
  sound : Sound p
  fifo : Fifo p.1 p.2
  slack : Slack producers consumers p.1 p.2

theorem safe_init (producers consumers : ℕ) :
    Safe producers consumers (recorded producers consumers).init :=
  ⟨sound_init, fifo_init producers consumers, slack_init producers consumers⟩

/-- A woken thread finds what it waited for. -/
theorem met_of_safe {p : State × History} {a : Act} (hs : Safe producers consumers p)
    {q : State × History} (hstep : (recorded producers consumers).step p a = some q) :
    Met p a := by
  cases a with
  | run t =>
    intro hpc
    have hfree := (move_of_recorded hstep).free_of_relock hpc
    have hnum := hs.sound.1.num_of_free hfree
    have hready := (hs.slack.woken t hpc).1
    cases t with
    | producer k =>
      have hready : p.2.inserted.length < p.2.taken.length + bufSize := hready
      have hne : p.1.num ≠ bufSize := by omega
      exact beq_false_of_ne hne
    | consumer k =>
      have hready : p.2.taken.length < p.2.inserted.length := hready
      have hne : p.1.num ≠ 0 := by omega
      exact beq_false_of_ne hne
  | signal t woken => trivial
  | spurious t => trivial

theorem safe_step (hP : producers ≤ 1 ∨ consumers = 0) (hC : consumers ≤ 1 ∨ producers = 0)
    (p : State × History) (a : Act) (q : State × History) (hs : Safe producers consumers p)
    (ha : a.quiet = true) (hstep : (recorded producers consumers).step p a = some q) :
    Safe producers consumers q := by
  have hm := move_of_recorded hstep
  have hc := hs.sound.1
  exact ⟨sound_step p a q hs.sound hstep, fifo_move hc hs.fifo (met_of_safe hs hstep) hm,
    slack_move hP hC ha hc hs.fifo hs.slack hm⟩

theorem Safe.num_bounds {p : State × History} (hs : Safe producers consumers p) :
    0 ≤ p.1.num ∧ p.1.num ≤ bufSize := by
  have hnum := hs.sound.1.num
  have hle := hs.fifo.le
  have hroom := hs.fifo.room
  have hused := hs.slack.used
  cases hp : p.1.phase with
  | none =>
    rw [hp] at hnum
    have hnum : p.1.num + 0 = (p.2.inserted.length : ℤ) - p.2.taken.length := hnum
    omega
  | some owner =>
    obtain ⟨t, pc⟩ := owner
    have hready := hused t pc hp
    rw [hp] at hnum
    by_cases hlag : numLag (some (t, pc)) = 0
    · omega
    cases t with
    | producer k =>
      have hpc : pc.used = true ∧ numLag (some (Thread.producer k, pc)) = 1 := by
        cases pc <;> simp_all [numLag, Pc.used]
      have hlt : p.2.taken.length < p.2.inserted.length := hready hpc.1 (.consumer 0) rfl
      omega
    | consumer k =>
      have hpc : pc.used = true ∧ numLag (some (Thread.consumer k, pc)) = -1 := by
        cases pc <;> simp_all [numLag, Pc.used]
      have hlt : p.2.inserted.length < p.2.taken.length + bufSize :=
        hready hpc.1 (.producer 0) rfl
      omega

theorem exists_recorded {as : List Act} {s : State}
    (h : (prodCons producers consumers).run as = some s) :
    ∃ e, (recorded producers consumers).run as = some (s, e) := by
  have hmap : ((recorded producers consumers).run as).map Prod.fst = some s :=
    (Machine.run_withHistory_map as).trans h
  obtain ⟨p, hp, hs⟩ := Option.map_eq_some_iff.mp hmap
  exact ⟨p.2, hs ▸ hp⟩

theorem safe_of_quiet (hP : producers ≤ 1 ∨ consumers = 0) (hC : consumers ≤ 1 ∨ producers = 0)
    {as : List Act} {p : State × History} (h : (recorded producers consumers).run as = some p)
    (hq : as.all Act.quiet = true) : Safe producers consumers p := by
  have hquiet : (recorded producers consumers).AllSteps (fun _ a => a.quiet = true)
      (recorded producers consumers).init as :=
    Machine.allSteps_of_forall fun _ a ha => List.all_eq_true.mp hq a ha
  exact Machine.runFrom_invariant_of_allSteps (safe_step hP hC)
    (safe_init producers consumers) hquiet h

theorem Move.thread_of_not_created {s s' : State} {h h' : History} {a : Act}
    (hm : Move producers consumers s h a s' h') {u : Thread}
    (hu : u.created producers consumers = false) : s'.thread u = s.thread u := by
  have hne : ∀ t : Thread, t.created producers consumers = true → u ≠ t := by
    intro t ht he
    rw [he, ht] at hu
    cases hu
  have hput : ∀ (r : State) (t : Thread) (l : Local), t.created producers consumers = true →
      (r.put t l).thread u = r.thread u :=
    fun r t l ht => State.put_thread_of_ne r l (hne t ht)
  cases hm with
  | wake t v ht _ _ hv _ => exact (hput _ v _ hv).trans (hput s t _ ht)
  | store k hk => exact hput _ _ _ (decide_eq_true hk)
  | load k hk => exact hput _ _ _ (decide_eq_true hk)
  | addIndex k hk => exact hput _ _ _ (decide_eq_true hk)
  | remIndex k hk => exact hput _ _ _ (decide_eq_true hk)
  | addCount k hk => exact hput _ _ _ (decide_eq_true hk)
  | remCount k hk => exact hput _ _ _ (decide_eq_true hk)
  | printInserted k hk => exact hput _ _ _ (decide_eq_true hk)
  | printQuiting k hk => exact hput _ _ _ (decide_eq_true hk)
  | printConsumed k hk => exact hput _ _ _ (decide_eq_true hk)
  | lock t ht => exact hput _ t _ ht
  | block t ht => exact hput _ t _ ht
  | pass t ht => exact hput _ t _ ht
  | relock t ht => exact hput _ t _ ht
  | unlock t ht => exact hput _ t _ ht
  | wakeNobody t ht => exact hput _ t _ ht
  | spurious t ht => exact hput _ t _ ht

/-- One thread of each kind, as `main` creates them, meets the condition while no wait returns
without a signal. -/
theorem met_of_quiet (hP : producers ≤ 1 ∨ consumers = 0) (hC : consumers ≤ 1 ∨ producers = 0)
    {as : List Act} {p : State × History} (h : (recorded producers consumers).run as = some p)
    (hq : as.all Act.quiet = true) :
    (recorded producers consumers).AllSteps Met (recorded producers consumers).init as := by
  have hquiet : (recorded producers consumers).AllSteps (fun _ a => a.quiet = true)
      (recorded producers consumers).init as :=
    Machine.allSteps_of_forall fun _ a ha => List.all_eq_true.mp hq a ha
  exact Machine.allSteps_of_allSteps (safe_step hP hC) (fun _ _ _ hs _ h => met_of_safe hs h)
    (safe_init producers consumers) hquiet h

/-- With any number of threads, while every wait resumes on a met condition: the values are loaded
in the order of the stores, no value lost and none twice, each producer's in the order 1, 2, 3, …;
at most `BUF_SIZE` lie in the ring, and `num` is their number whenever the mutex is free. -/
theorem values_in_order {as : List Act} {s : State} {h : History}
    (hrun : (recorded producers consumers).run as = some (s, h))
    (hmet : (recorded producers consumers).AllSteps Met (recorded producers consumers).init as) :
    h.taken <+: h.values ∧ h.inserted.length ≤ h.taken.length + bufSize ∧
      (∀ k, ∃ n ≤ 20,
        (h.inserted.filter fun p => p.1 == k).map Prod.snd = List.range' 1 n) ∧
      (∀ t u, (s.thread t).inside = true → (s.thread u).inside = true → t = u) ∧
      (s.m = none → s.num = h.inserted.length - h.taken.length) := by
  have hf : Fifo s h := fifo_of_met hrun hmet
  obtain ⟨hc, ht⟩ : Sound (s, h) := Machine.runFrom_invariant sound_step sound_init hrun
  refine ⟨?_, hf.room, fun k => ⟨_, ?_, ht.values k⟩, fun t u => hc.guards.exclusive,
    fun hm => hc.num_of_free hm⟩
  · rw [hf.taken]
    exact List.take_prefix ..
  · have hfine := ht.fine (.producer k)
    rw [Thread.fine_producer] at hfine
    unfold Local.stored
    cases hpc : (s.thread (.producer k)).pc <;> rw [hpc] at hfine <;>
      simp [Pc.stored, Pc.inLoop] at hfine ⊢ <;> omega

/-- Two producers and two consumers. The second consumer finds the ring empty, and waits until the
first producer signals. -/
def fourThreads : List Act :=
  List.replicate 2 (.run (.consumer 1)) ++ List.replicate 5 (.run (.producer 0)) ++
    [.signal (.producer 0) (some (.consumer 1)), .run (.producer 0)] ++
    List.replicate 4 (.run (.consumer 1)) ++ [.signal (.consumer 1) none, .run (.consumer 1)] ++
    List.replicate 5 (.run (.producer 1)) ++ [.signal (.producer 1) none, .run (.producer 1)] ++
    List.replicate 6 (.run (.producer 0)) ++ [.signal (.producer 0) none, .run (.producer 0)] ++
    List.replicate 4 (.run (.consumer 0))

theorem values_in_order_fourThreads : ∃ s h, (recorded 2 2).run fourThreads = some (s, h) ∧
    h.inserted = [(0, 1), (1, 1), (0, 2)] ∧ h.taken = [1, 1] ∧ h.taken <+: h.values ∧
    h.inserted.length ≤ h.taken.length + bufSize ∧
    ∀ k, ∃ n ≤ 20, (h.inserted.filter fun p => p.1 == k).map Prod.snd = List.range' 1 n := by
  have hrun : ((recorded 2 2).run fourThreads).map (fun p => (p.2.inserted, p.2.taken)) =
      some ([(0, 1), (1, 1), (0, 2)], [1, 1]) := by
    decide +kernel
  have hmet : (recorded 2 2).AllSteps Met (recorded 2 2).init fourThreads := by
    decide +kernel
  obtain ⟨⟨s, h⟩, hp, hvalues⟩ := Option.map_eq_some_iff.mp hrun
  obtain ⟨hinserted, htaken⟩ := Prod.mk.inj hvalues
  obtain ⟨hfifo, hroom, hnumbers, -⟩ := values_in_order hp hmet
  exact ⟨s, h, hp, hinserted, htaken, hfifo, hroom, hnumbers⟩

section More
variable {p c : ℕ}

/-- The threads of the larger program that do not run. -/
def Asleep (producers consumers : ℕ) (s : State) : Prop :=
  ∀ u : Thread, u.created producers consumers = false → (s.thread u).pc = .lock

theorem created_mono (hp : producers ≤ p) (hc : consumers ≤ c) {t : Thread}
    (ht : t.created producers consumers = true) : t.created p c = true := by
  cases t <;> simp only [Thread.created, decide_eq_true_eq] at ht ⊢ <;> omega

theorem nobodyWaits_mono {s : State} (hs : Asleep producers consumers s) {t : Thread}
    (ht : s.nobodyWaits producers consumers t = true) : s.nobodyWaits p c t = true := by
  cases t with
  | producer k =>
    simp only [State.nobodyWaits, List.all_eq_true, List.mem_range, bne_iff_ne] at ht ⊢
    intro j _
    by_cases hj : j < consumers
    · exact ht j hj
    · rw [hs (.consumer j) (decide_eq_false hj)]
      nofun
  | consumer k =>
    simp only [State.nobodyWaits, List.all_eq_true, List.mem_range, bne_iff_ne] at ht ⊢
    intro j _
    by_cases hj : j < producers
    · exact ht j hj
    · rw [hs (.producer j) (decide_eq_false hj)]
      nofun

theorem step_mono (hp : producers ≤ p) (hc : consumers ≤ c) {s s' : State}
    (hs : Asleep producers consumers s) {a : Act} (h : step producers consumers s a = some s') :
    step p c s a = some s' := by
  cases a with
  | run t =>
    obtain ⟨ht, h⟩ := Option.ite_none_right_eq_some.mp h
    exact (if_pos (created_mono hp hc ht)).trans h
  | signal t woken =>
    cases woken with
    | some u =>
      obtain ⟨⟨ht, hpc, hsig, hu, hw⟩, h⟩ := Option.ite_none_right_eq_some.mp h
      exact (if_pos ⟨created_mono hp hc ht, hpc, hsig, created_mono hp hc hu, hw⟩).trans h
    | none =>
      obtain ⟨⟨ht, hpc, hn⟩, h⟩ := Option.ite_none_right_eq_some.mp h
      exact (if_pos ⟨created_mono hp hc ht, hpc, nobodyWaits_mono hs hn⟩).trans h
  | spurious t =>
    obtain ⟨⟨ht, hpc⟩, h⟩ := Option.ite_none_right_eq_some.mp h
    exact (if_pos ⟨created_mono hp hc ht, hpc⟩).trans h

/-- A run of some of the threads is a run of all of them. -/
theorem run_mono (hp : producers ≤ p) (hc : consumers ≤ c) {as : List Act} {s : State}
    (h : (prodCons producers consumers).run as = some s) : (prodCons p c).run as = some s := by
  have hinit : Asleep producers consumers (prodCons producers consumers).init := by
    intro u _
    cases u <;> rfl
  obtain ⟨t, ht, rfl, -⟩ := Machine.runFrom_related (M := prodCons producers consumers)
    (N := prodCons p c) (R := fun s t => s = t ∧ Asleep producers consumers s)
    (fun u v a u' huv hu => by
      obtain ⟨rfl, hsleep⟩ := huv
      have hm := move_of_step { inserted := [], taken := [] } hu
      refine ⟨u', step_mono hp hc hsleep hu, rfl, fun w hw => ?_⟩
      rw [hm.thread_of_not_created hw]
      exact hsleep w hw)
    (t := (prodCons p c).init) ⟨rfl, hinit⟩ h
  exact ht

/-- One round of a producer that nobody waits for. -/
def insertion (k : ℕ) : List Act :=
  List.replicate 5 (.run (.producer k)) ++ [.signal (.producer k) none] ++
    List.replicate 2 (.run (.producer k))

/-- The consumer 1 takes the value for which the consumer 0 has been woken. -/
def underflow : List Act :=
  List.replicate 2 (.run (.consumer 0)) ++
  List.replicate 5 (.run (.producer 0)) ++ [.signal (.producer 0) (some (.consumer 0)),
    .run (.producer 0)] ++
  List.replicate 5 (.run (.consumer 1)) ++ [.signal (.consumer 1) none, .run (.consumer 1)] ++
  List.replicate 4 (.run (.consumer 0))

/-- The producer 1 fills the cell for which the producer 0 has been woken. -/
def overflow : List Act :=
  (List.replicate 10 (insertion 0)).flatten ++ List.replicate 2 (.run (.producer 0)) ++
  List.replicate 5 (.run (.consumer 0)) ++ [.signal (.consumer 0) (some (.producer 0)),
    .run (.consumer 0)] ++
  List.replicate 5 (.run (.producer 1)) ++ [.signal (.producer 1) none, .run (.producer 1)] ++
  List.replicate 4 (.run (.producer 0))

theorem num_underflow : ((prodCons 1 2).run underflow).map State.num = some (-1) := by
  decide +kernel

theorem num_overflow : ((prodCons 2 1).run overflow).map State.num = some 11 := by
  decide +kernel

end More

/-- When no wait returns without a signal, `num` stays between 0 and `BUF_SIZE` in every run exactly
when there is one producer and one consumer, as `main` creates them, or none of one kind. -/
theorem num_bounds_iff (producers consumers : ℕ) :
    (∀ as s, (prodCons producers consumers).run as = some s → as.all Act.quiet = true →
      0 ≤ s.num ∧ s.num ≤ bufSize) ↔
    producers = 0 ∨ consumers = 0 ∨ (producers = 1 ∧ consumers = 1) := by
  constructor
  · intro h
    by_contra hne
    have hbad : (1 ≤ producers ∧ 2 ≤ consumers) ∨ (2 ≤ producers ∧ 1 ≤ consumers) := by omega
    rcases hbad with ⟨hp, hc⟩ | ⟨hp, hc⟩
    · obtain ⟨s, hs, hnum⟩ := Option.map_eq_some_iff.mp num_underflow
      have := h underflow s (run_mono hp hc hs) (by decide)
      omega
    · obtain ⟨s, hs, hnum⟩ := Option.map_eq_some_iff.mp num_overflow
      have hle := (h overflow s (run_mono hp hc hs) (by decide)).2
      rw [hnum] at hle
      exact absurd hle (by decide)
  · intro h as s hs hq
    obtain ⟨e, he⟩ := exists_recorded hs
    have hsafe := safe_of_quiet (by omega) (by omega) he hq
    exact hsafe.num_bounds

end OsTasks.Threads.ProdCons

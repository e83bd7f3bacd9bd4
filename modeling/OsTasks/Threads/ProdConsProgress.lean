import OsTasks.Threads.ProdConsWakeups
import Mathlib.Algebra.BigOperators.Group.Finset.Piecewise
import Mathlib.Algebra.Order.BigOperators.Group.Finset

/-! What the waiting producers and consumers wait for, and the state in which no thread can go
on. -/
namespace OsTasks.Threads.ProdCons
open OsTasks.Lib

variable {producers consumers : ℕ}

def Thread.isConsumer : Thread → Bool
  | .producer _ => false
  | .consumer _ => true

variable (producers consumers) in
def threads : Finset Thread :=
  (Finset.range producers).image Thread.producer ∪ (Finset.range consumers).image Thread.consumer

theorem mem_threads {t : Thread} :
    t ∈ threads producers consumers ↔ t.created producers consumers = true := by
  cases t <;> simp [threads, Thread.created]

/-- The turns at the ring a side has still to make: a thread of the side on its way there, and a
thread of the other side that is about to signal. -/
def weight (side : Bool) (t : Thread) (l : Local) : ℤ :=
  match t.isConsumer == side, l.pc with
  | true, .relock => 1
  | true, .cell => 1
  | true, .index => 1
  | true, .count => 1
  | false, .signal => 1
  | _, _ => 0

/-- What a side waits for: values for the consumers, free cells for the producers. -/
def State.supply (s : State) : Bool → ℤ
  | true => s.num
  | false => bufSize - s.num

variable (producers consumers) in
def owed (side : Bool) (s : State) : ℤ :=
  ∑ t ∈ threads producers consumers, weight side t (s.thread t)

variable (producers consumers) in
/-- While somebody of a side waits, the whole supply is on the way to be used. -/
def Served (side : Bool) (s : State) : Prop :=
  (∃ u : Thread, u.created producers consumers = true ∧ u.isConsumer = side ∧
      (s.thread u).pc = .wait) →
    s.supply side ≤ owed producers consumers side s

theorem weight_nonneg (side : Bool) (t : Thread) (l : Local) : 0 ≤ weight side t l := by
  unfold weight
  split <;> decide

theorem owed_nonneg (side : Bool) (s : State) : 0 ≤ owed producers consumers side s :=
  Finset.sum_nonneg fun t _ => weight_nonneg side t (s.thread t)

theorem owed_put {s s' : State} {t : Thread} (l : Local) (side : Bool)
    (ht : t.created producers consumers = true) (hthread : s'.thread = s.thread) :
    owed producers consumers side (s'.put t l) =
      owed producers consumers side s - weight side t (s.thread t) + weight side t l := by
  have hmem : t ∈ threads producers consumers := mem_threads.mpr ht
  have hrest : ∑ u ∈ threads producers consumers \ {t}, weight side u ((s'.put t l).thread u) =
      ∑ u ∈ threads producers consumers \ {t}, weight side u (s.thread u) := by
    apply Finset.sum_congr rfl
    intro u hu
    have hne : u ≠ t := by simpa using (Finset.mem_sdiff.mp hu).2
    rw [State.put_thread_of_ne _ _ hne, hthread]
  unfold owed
  rw [Finset.sum_eq_add_sum_sdiff_singleton_of_mem hmem,
    Finset.sum_eq_add_sum_sdiff_singleton_of_mem hmem (fun u => weight side u (s.thread u)), hrest,
    State.put_thread_self]
  omega

theorem pc_goto_ne {s : State} {t : Thread} {pc pc' : Pc} (hne : pc' ≠ pc) (u : Thread)
    (hu : ((s.goto t pc').thread u).pc = pc) : u ≠ t ∧ (s.thread u).pc = pc :=
  pc_put_ne rfl hne u hu

/-- A step that does not lower what is owed against the supply and sends nobody to wait. -/
theorem Served.put {s s' : State} {t : Thread} {l : Local} {side : Bool}
    (hs : Served producers consumers side s) (ht : t.created producers consumers = true)
    (hthread : s'.thread = s.thread) (hl : l.pc ≠ .wait)
    (hle : s'.supply side - s.supply side ≤ weight side t l - weight side t (s.thread t)) :
    Served producers consumers side (s'.put t l) := by
  intro hwait
  obtain ⟨u, hu, hside, hpc⟩ := hwait
  have hold := hs ⟨u, hu, hside, (pc_put_ne hthread hl u hpc).2⟩
  rw [owed_put l side ht hthread]
  show s'.supply side ≤ _
  omega

theorem served_move {s s' : State} {h h' : History} {a : Act} {side : Bool}
    (hs : Served producers consumers side s) (hm : Move producers consumers s h a s' h') :
    Served producers consumers side s' := by
  cases hm with
  | lock t ht hpc _ =>
    refine hs.put ht rfl nofun ?_
    cases side <;> cases t <;> simp [weight, hpc, Thread.isConsumer, State.supply]
  | block t ht hpc hb =>
    intro hwait
    by_cases hside : t.isConsumer = side
    · -- the thread has just seen that there is nothing for its side
      have hzero : s.supply side = 0 := by
        subst side
        cases t with
        | producer k =>
          have hfull : s.num = bufSize := eq_of_beq hb
          exact sub_eq_zero.mpr hfull.symm
        | consumer k => exact eq_of_beq hb
      have hnonneg : 0 ≤ owed producers consumers side ({ s with m := none }.goto t .wait) :=
        owed_nonneg ..
      exact hzero.trans_le hnonneg
    · obtain ⟨u, hu, huside, hupc⟩ := hwait
      have hne : u ≠ t := by
        intro he
        exact hside (he ▸ huside)
      rw [State.goto_thread_of_ne _ _ hne] at hupc
      have hold := hs ⟨u, hu, huside, hupc⟩
      have howed := owed_put (s := s) { s.thread t with pc := .wait } side ht rfl
      have hw : weight side t { s.thread t with pc := .wait } = 0 := by
        simp [weight]
      have hw' : weight side t (s.thread t) = 0 := by
        simp [weight, hpc]
      rw [hw, hw'] at howed
      show s.supply side ≤ owed producers consumers side (s.put t { s.thread t with pc := .wait })
      omega
  | pass t ht hpc _ =>
    refine hs.put ht rfl nofun ?_
    cases side <;> cases t <;> simp [weight, hpc, Thread.isConsumer, State.supply]
  | relock t ht hpc _ =>
    refine hs.put ht rfl nofun ?_
    cases side <;> cases t <;> simp [weight, hpc, Thread.isConsumer, State.supply]
  | unlock t ht hpc =>
    refine hs.put ht rfl nofun ?_
    cases side <;> cases t <;> simp [weight, hpc, Thread.isConsumer, State.supply]
  | store k hk hpc =>
    refine hs.put (decide_eq_true hk) rfl nofun ?_
    cases side <;> simp [weight, hpc, Thread.isConsumer, State.supply]
  | load k hk hpc =>
    refine hs.put (decide_eq_true hk) rfl nofun ?_
    cases side <;> simp [weight, hpc, Thread.isConsumer, State.supply]
  | addIndex k hk hpc =>
    refine hs.put (decide_eq_true hk) rfl nofun ?_
    cases side <;> simp [weight, hpc, Thread.isConsumer, State.supply]
  | remIndex k hk hpc =>
    refine hs.put (decide_eq_true hk) rfl nofun ?_
    cases side <;> simp [weight, hpc, Thread.isConsumer, State.supply]
  | addCount k hk hpc =>
    refine hs.put (decide_eq_true hk) rfl nofun ?_
    cases side <;> simp [weight, hpc, Thread.isConsumer, State.supply]
  | remCount k hk hpc =>
    refine hs.put (decide_eq_true hk) rfl nofun ?_
    cases side <;> simp [weight, hpc, Thread.isConsumer, State.supply]
  | printInserted k hk hpc =>
    refine hs.put (decide_eq_true hk) rfl ?_ ?_
    · dsimp only
      split_ifs <;> nofun
    · cases side <;> split_ifs <;> simp [weight, hpc, Thread.isConsumer, State.supply]
  | printQuiting k hk hpc =>
    refine hs.put (decide_eq_true hk) rfl nofun ?_
    cases side <;> simp [weight, hpc, Thread.isConsumer, State.supply]
  | printConsumed k hk hpc =>
    refine hs.put (decide_eq_true hk) rfl nofun ?_
    cases side <;> simp [weight, hpc, Thread.isConsumer, State.supply]
  | wake t u ht hpc hsig hu hw =>
    intro hwait
    obtain ⟨v, hv, hside, hvpc⟩ := hwait
    have hne : u ≠ t := by
      intro he
      rw [he, hpc] at hw
      cases hw
    obtain ⟨hvu, hvpc⟩ := pc_goto_ne (show Pc.relock ≠ .wait from nofun) v hvpc
    have hold := hs ⟨v, hv, hside, (pc_goto_ne (show Pc.unlock ≠ .wait from nofun) v hvpc).2⟩
    have howed1 := owed_put (s := s) { s.thread t with pc := .unlock } side ht rfl
    have howed2 := owed_put (s := s.goto t .unlock)
      { (s.goto t .unlock).thread u with pc := .relock } side hu rfl
    have huold : (s.goto t .unlock).thread u = s.thread u := State.goto_thread_of_ne _ _ hne
    have hbalance : weight side t (s.thread t) + weight side u (s.thread u) ≤
        weight side t { s.thread t with pc := .unlock } +
          weight side u { s.thread u with pc := .relock } := by
      cases t <;> cases u <;> cases hsig <;> cases side <;>
        simp [weight, hpc, hw, Thread.isConsumer]
    rw [huold] at howed2
    show s.supply side ≤ owed producers consumers side ((s.goto t .unlock).put u _)
    rw [huold, howed2]
    have howed1 : owed producers consumers side (s.goto t .unlock) = _ := howed1
    omega
  | wakeNobody t ht hpc hn =>
    intro hwait
    obtain ⟨u, hu, hside, hupc⟩ := hwait
    have hw := (pc_goto_ne (show Pc.unlock ≠ .wait from nofun) u hupc).2
    have hold := hs ⟨u, hu, hside, hw⟩
    have hsame : t.signals u = false := by
      cases t with
      | producer k =>
        cases u with
        | producer j => rfl
        | consumer j =>
          have hall := List.all_eq_true.mp hn j (List.mem_range.mpr (of_decide_eq_true hu))
          rw [hw] at hall
          cases hall
      | consumer k =>
        cases u with
        | producer j =>
          have hall := List.all_eq_true.mp hn j (List.mem_range.mpr (of_decide_eq_true hu))
          rw [hw] at hall
          cases hall
        | consumer j => rfl
    have howed := owed_put (s := s) { s.thread t with pc := .unlock } side ht rfl
    have hsig : weight side t (s.thread t) = 0 := by
      subst side
      cases t <;> cases u <;> cases hsame <;> simp [weight, hpc, Thread.isConsumer]
    have hnonneg := weight_nonneg side t { s.thread t with pc := .unlock }
    show s.supply side ≤ owed producers consumers side (s.put t { s.thread t with pc := .unlock })
    omega
  | spurious t ht hpc =>
    refine hs.put ht rfl nofun ?_
    cases side <;> cases t <;> simp [weight, hpc, Thread.isConsumer, State.supply]

theorem served_init (side : Bool) :
    Served producers consumers side (prodCons producers consumers).init := by
  intro hwait
  obtain ⟨u, -, -, hu⟩ := hwait
  cases u <;> cases hu

structure Waiting (producers consumers : ℕ) (p : State × History) : Prop where
  sound : Sound p
  asleep : Asleep producers consumers p.1
  served : ∀ side, Served producers consumers side p.1

theorem waiting_of_reachable {p : State × History}
    (hp : (recorded producers consumers).Reachable p) : Waiting producers consumers p := by
  have hinit : Asleep producers consumers (prodCons producers consumers).init := by
    intro u _
    cases u <;> rfl
  apply hp.invariant ⟨sound_init, hinit, served_init⟩
  intro q a r hq hr
  have hm := move_of_recorded hr
  refine ⟨sound_step q a r hq.sound hr, fun u hu => ?_, fun side => served_move (hq.served side) hm⟩
  rw [hm.thread_of_not_created hu]
  exact hq.asleep u hu

theorem pc_of_halted {s : State}
    (hh : ((prodCons producers consumers).restrict fun a => a.quiet = true).Halted s) {t : Thread}
    (hfine : t.Fine (s.thread t)) (ht : t.created producers consumers = true) :
    (s.thread t).pc = .wait ∨ (s.thread t).pc = .done ∨
      (s.m ≠ none ∧ (s.thread t).inside = false) := by
  have hquiet : ∀ a : Act, a.quiet = true → step producers consumers s a = none :=
    fun a ha => hh.of_restrict ha
  have hrun := hquiet (.run t) rfl
  have hsome := fun u => hquiet (.signal t (some u)) rfl
  have hnone := hquiet (.signal t none) rfl
  have hsignal : (s.thread t).pc ≠ .signal := by
    intro hpc
    by_cases hn : s.nobodyWaits producers consumers t = true
    · simp [step, ht, hpc, hn] at hnone
    · cases t with
      | producer k =>
        obtain ⟨j, hj, hw⟩ : ∃ j < consumers, (s.thread (.consumer j)).pc = .wait := by
          simpa [State.nobodyWaits] using hn
        have hk : k < producers := of_decide_eq_true ht
        have hu := hsome (.consumer j)
        simp [step, hpc, hw, Thread.signals, Thread.created, hj, hk] at hu
      | consumer k =>
        obtain ⟨j, hj, hw⟩ : ∃ j < producers, (s.thread (.producer j)).pc = .wait := by
          simpa [State.nobodyWaits] using hn
        have hk : k < consumers := of_decide_eq_true ht
        have hu := hsome (.producer j)
        simp [step, hpc, hw, Thread.signals, Thread.created, hj, hk] at hu
  cases t with
  | producer k =>
    have hstep : producerStep s k = none := by simpa [step, ht] using hrun
    by_cases hm : s.m = none
    · cases hpc : (s.thread (.producer k)).pc <;>
        simp [producerStep, monitorStep, hpc, hm] at hstep hsignal ⊢
      split_ifs at hstep
    · cases hpc : (s.thread (.producer k)).pc <;>
        simp [producerStep, monitorStep, hpc, hm, Local.inside] at hstep hsignal ⊢
      split_ifs at hstep
  | consumer k =>
    have hstep : consumerStep s k = none := by simpa [step, ht] using hrun
    have hloop : (s.thread (.consumer k)).pc.inLoop = true := hfine
    by_cases hm : s.m = none
    · cases hpc : (s.thread (.consumer k)).pc <;>
        simp [consumerStep, monitorStep, hpc, hm, Pc.inLoop] at hstep hsignal hloop ⊢
      split_ifs at hstep
    · cases hpc : (s.thread (.consumer k)).pc <;>
        simp [consumerStep, monitorStep, hpc, hm, Local.inside] at hstep hsignal ⊢
      split_ifs at hstep

/-- When no thread can go on, nothing is left in the ring, the producers have quit and the consumers
wait. -/
theorem exhausted {s : State} {h : History} (hpos : 0 < consumers)
    (hwaiting : Waiting producers consumers (s, h))
    (hh : ((prodCons producers consumers).restrict fun a => a.quiet = true).Halted s) :
    s.m = none ∧ s.num ≤ 0 ∧ (∀ k < producers, (s.thread (.producer k)).pc = .done) ∧
      ∀ k < consumers, (s.thread (.consumer k)).pc = .wait := by
  obtain ⟨⟨hc, ht⟩, hasleep, hserved⟩ := hwaiting
  have hfree : s.m = none := by
    by_contra hm
    obtain ⟨t, hm⟩ := Option.ne_none_iff_exists'.mp hm
    have hin : (s.thread t).inside = true := (hc.guards t).mpr hm
    cases hcr : t.created producers consumers with
    | false =>
      rw [Local.inside, hasleep t hcr] at hin
      cases hin
    | true =>
      rcases pc_of_halted hh (ht.fine t) hcr with hpc | hpc | hpc
      · rw [Local.inside, hpc] at hin
        cases hin
      · rw [Local.inside, hpc] at hin
        cases hin
      · rw [hin] at hpc
        cases hpc.2
  have hpc : ∀ t : Thread, t.created producers consumers = true →
      (s.thread t).pc = .wait ∨ (s.thread t).pc = .done := by
    intro t hcr
    rcases pc_of_halted hh (ht.fine t) hcr with hpc | hpc | hpc
    · exact Or.inl hpc
    · exact Or.inr hpc
    · exact absurd hfree hpc.1
  have howed : ∀ side, owed producers consumers side s = 0 := by
    intro side
    apply Finset.sum_eq_zero
    intro t hmem
    rcases hpc t (mem_threads.mp hmem) with hpc | hpc <;> simp [weight, hpc]
  have hconsumers : ∀ k < consumers, (s.thread (.consumer k)).pc = .wait := by
    intro k hk
    have hfine : (s.thread (.consumer k)).pc.inLoop = true := ht.fine (.consumer k)
    rcases hpc (.consumer k) (decide_eq_true hk) with hpc | hpc
    · exact hpc
    · rw [hpc] at hfine
      cases hfine
  have hnum : s.num ≤ 0 := by
    have hle := hserved true ⟨.consumer 0, decide_eq_true hpos, rfl, hconsumers 0 hpos⟩
    rw [howed] at hle
    exact hle
  refine ⟨hfree, hnum, fun k hk => ?_, hconsumers⟩
  rcases hpc (.producer k) (decide_eq_true hk) with hpc | hpc
  · have hle := hserved false ⟨.producer k, decide_eq_true hk, rfl, hpc⟩
    rw [howed] at hle
    have hfull : (bufSize : ℤ) - s.num ≤ 0 := hle
    have hsize : bufSize = 10 := rfl
    omega
  · exact hpc

theorem Turns.stored_of_done {s : State} {h : History} (ht : Turns s h) {k : ℕ}
    (hdone : (s.thread (.producer k)).pc = .done) : (s.thread (.producer k)).stored = 20 := by
  have hfine := ht.fine (.producer k)
  rw [Thread.fine_producer, hdone] at hfine
  have hi : (s.thread (.producer k)).i = 21 := hfine.2
  rw [Local.stored, hdone, hi]
  rfl

end OsTasks.Threads.ProdCons

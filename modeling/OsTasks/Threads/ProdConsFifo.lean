import OsTasks.Threads.ProdCons
import OsTasks.Lib.Ring

/-! The ring of the producers and consumers: what the indices and `num` count, and runs whose waits
resume on a met condition keep the order of the values. -/
namespace OsTasks.Threads.ProdCons
open OsTasks.Lib

variable {producers consumers : ℕ}

/-- The owner of the mutex and where it stands. -/
def State.phase (s : State) : Option (Thread × Pc) := s.m.map fun t => (t, (s.thread t).pc)

theorem phase_put_owner {s : State} {t : Thread} (l : Local) (hm : s.m = some t) :
    (s.put t l).phase = some (t, l.pc) := by
  show (s.m.map fun u => (u, ((s.put t l).thread u).pc)) = _
  rw [hm, Option.map_some, State.put_thread_self]

theorem phase_put_of_ne {s : State} {t : Thread} (l : Local) (hm : s.m ≠ some t) :
    (s.put t l).phase = s.phase := by
  show (s.m.map fun u => (u, ((s.put t l).thread u).pc)) = s.m.map _
  cases h : s.m with
  | none => rfl
  | some u =>
    have hne : u ≠ t := fun he => hm (h.trans (congrArg some he))
    rw [Option.map_some, Option.map_some, State.put_thread_of_ne _ _ hne]

theorem phase_of_owner {s : State} {t : Thread} {pc : Pc} (hm : s.m = some t)
    (hpc : (s.thread t).pc = pc) : s.phase = some (t, pc) := by
  rw [State.phase, hm, Option.map_some, hpc]

theorem phase_free {s : State} (hm : s.m = none) : s.phase = none := by
  rw [State.phase, hm]
  rfl

/-- A stored value that `add` does not count yet. -/
def addLag : Option (Thread × Pc) → ℕ
  | some (.producer _, .index) => 1
  | _ => 0

/-- A loaded value that `rem` does not count yet. -/
def remLag : Option (Thread × Pc) → ℕ
  | some (.consumer _, .index) => 1
  | _ => 0

/-- What `num` does not count yet. -/
def numLag : Option (Thread × Pc) → ℤ
  | some (.producer _, .index) => 1
  | some (.producer _, .count) => 1
  | some (.consumer _, .index) => -1
  | some (.consumer _, .count) => -1
  | _ => 0

/-- What `add`, `rem` and `num` count, behind every statement. -/
structure Counted (s : State) (h : History) : Prop where
  guards : Guards Local.inside s.m s.thread
  cells : s.buffer.length = bufSize
  addLt : s.add < bufSize
  add : (s.add + addLag s.phase) % bufSize = h.inserted.length % bufSize
  remLt : s.rem < bufSize
  rem : (s.rem + remLag s.phase) % bufSize = h.taken.length % bufSize
  num : s.num + numLag s.phase = h.inserted.length - h.taken.length

theorem counted_init (producers consumers : ℕ) :
    Counted (prodCons producers consumers).init { inserted := [], taken := [] } where
  guards := Guards.free fun t => by cases t <;> rfl
  cells := rfl
  addLt := Nat.succ_pos 9
  add := rfl
  remLt := Nat.succ_pos 9
  rem := rfl
  num := rfl

theorem Counted.owner {s : State} {h : History} (hc : Counted s h) {t : Thread}
    (hin : (s.thread t).inside = true) : s.m = some t :=
  (hc.guards t).mp hin

theorem Counted.num_of_free {s : State} {h : History} (hc : Counted s h) (hfree : s.m = none) :
    s.num = h.inserted.length - h.taken.length := by
  have hnum := hc.num
  rw [phase_free hfree] at hnum
  exact (add_zero _).symm.trans hnum

theorem Counted.not_owner {s : State} {h : History} (hc : Counted s h) {t : Thread}
    (hout : (s.thread t).inside = false) : s.m ≠ some t := by
  intro he
  rw [(hc.guards t).mpr he] at hout
  cases hout

/-- A step that leaves the ring alone and moves between locations with nothing to count. -/
theorem Counted.of_quiet {s : State} {h : History} (hc : Counted s h) {t : State}
    (hg : Guards Local.inside t.m t.thread) (hbuffer : t.buffer = s.buffer) (hadd : t.add = s.add)
    (hrem : t.rem = s.rem) (hnum : t.num = s.num) (hlag1 : addLag t.phase = addLag s.phase)
    (hlag2 : remLag t.phase = remLag s.phase) (hlag3 : numLag t.phase = numLag s.phase) :
    Counted t h where
  guards := hg
  cells := hbuffer ▸ hc.cells
  addLt := hadd ▸ hc.addLt
  add := by rw [hadd, hlag1, hc.add]
  remLt := hrem ▸ hc.remLt
  rem := by rw [hrem, hlag2, hc.rem]
  num := by rw [hnum, hlag3, hc.num]

theorem mod_succ_of_lag {a n : ℕ} (h : (a + 1) % bufSize = n % bufSize) :
    (a + 1) % bufSize < bufSize ∧ ((a + 1) % bufSize + 0) % bufSize = n % bufSize := by
  have hpos : 0 < bufSize := by decide
  refine ⟨Nat.mod_lt _ hpos, ?_⟩
  rw [Nat.add_zero, Nat.mod_mod, h]

theorem mod_succ_of_eq {a n : ℕ} (h : (a + 0) % bufSize = n % bufSize) :
    (a + 1) % bufSize = (n + 1) % bufSize := by
  rw [Nat.add_zero] at h
  rw [Nat.add_mod, h, ← Nat.add_mod]

/-- What is counted while a thread stands inside. -/
theorem Counted.inside {s : State} {h : History} (hc : Counted s h) {t : Thread} {pc : Pc}
    (hpc : (s.thread t).pc = pc) (hl : Local.inside { i := 0, pc := pc } = true) :
    (s.thread t).inside = true ∧
      (s.add + addLag (some (t, pc))) % bufSize = h.inserted.length % bufSize ∧
      (s.rem + remLag (some (t, pc))) % bufSize = h.taken.length % bufSize ∧
      s.num + numLag (some (t, pc)) = h.inserted.length - h.taken.length := by
  have hin : (s.thread t).inside = true := by
    subst pc
    exact hl
  have hp := phase_of_owner (hc.owner hin) hpc
  exact ⟨hin, hp ▸ hc.add, hp ▸ hc.rem, hp ▸ hc.num⟩

/-- A step of the thread inside that stays inside. -/
theorem Counted.put_owner {s s' : State} {h h' : History} (hc : Counted s h) {t : Thread}
    {l : Local} (hin : (s.thread t).inside = true) (hl : l.inside = true) (hm : s'.m = s.m)
    (hthread : s'.thread = s.thread) (hcells : s'.buffer.length = bufSize)
    (haddLt : s'.add < bufSize)
    (hadd : (s'.add + addLag (some (t, l.pc))) % bufSize = h'.inserted.length % bufSize)
    (hremLt : s'.rem < bufSize)
    (hrem : (s'.rem + remLag (some (t, l.pc))) % bufSize = h'.taken.length % bufSize)
    (hnum : s'.num + numLag (some (t, l.pc)) = h'.inserted.length - h'.taken.length) :
    Counted (s'.put t l) h' := by
  have hp : (s'.put t l).phase = some (t, l.pc) := phase_put_owner l (hm.trans (hc.owner hin))
  have hg : Guards Local.inside s'.m s'.thread := by
    rw [hm, hthread]
    exact hc.guards
  have hkeep : l.inside = (s'.thread t).inside := by rw [hthread, hin, hl]
  exact ⟨hg.keep hkeep, hcells, haddLt, hp ▸ hadd, hremLt, hp ▸ hrem, hp ▸ hnum⟩

/-- A step of a thread outside that stays outside. -/
theorem Counted.put_outside {s s' : State} {h : History} (hc : Counted s h) {t : Thread}
    {l : Local} (hout : (s.thread t).inside = false) (hl : l.inside = false) (hm : s'.m = s.m)
    (hthread : s'.thread = s.thread) (hbuffer : s'.buffer = s.buffer) (hadd : s'.add = s.add)
    (hrem : s'.rem = s.rem) (hnum : s'.num = s.num) : Counted (s'.put t l) h := by
  have hne := hc.not_owner hout
  have hp : (s'.put t l).phase = s.phase := by
    rw [phase_put_of_ne l (hm.symm ▸ hne), State.phase, State.phase, hm, hthread]
  have hg : Guards Local.inside s'.m s'.thread := by
    rw [hm, hthread]
    exact hc.guards
  have hkeep : l.inside = (s'.thread t).inside := by rw [hthread, hout, hl]
  exact hc.of_quiet (hg.keep hkeep) hbuffer hadd hrem hnum (hp ▸ rfl) (hp ▸ rfl) (hp ▸ rfl)

theorem Counted.signal {s : State} {h : History} (hc : Counted s h) {t : Thread}
    (hpc : (s.thread t).pc = .signal) : Counted (s.goto t .unlock) h := by
  obtain ⟨hin, hadd, hrem, hnum⟩ := hc.inside hpc rfl
  refine hc.put_owner hin rfl rfl rfl hc.cells hc.addLt ?_ hc.remLt ?_ ?_
  · cases t <;> exact hadd
  · cases t <;> exact hrem
  · cases t <;> exact hnum

theorem counted_move {s s' : State} {h h' : History} {a : Act} (hc : Counted s h)
    (hm : Move producers consumers s h a s' h') : Counted s' h' := by
  cases hm with
  | lock t _ hpc hfree =>
    have hg : Guards Local.inside none s.thread := hfree ▸ hc.guards
    have hp : ({ s with m := some t }.goto t .test).phase = some (t, .test) :=
      phase_put_owner _ rfl
    refine hc.of_quiet (hg.lock rfl) rfl rfl rfl rfl ?_ ?_ ?_ <;>
      rw [hp, phase_free hfree] <;> cases t <;> rfl
  | block t _ hpc _ =>
    have hin : (s.thread t).inside = true := by simp [Local.inside, hpc]
    have hp : ({ s with m := none }.goto t .wait).phase = none := rfl
    refine hc.of_quiet (hc.guards.unlock hin rfl) rfl rfl rfl rfl ?_ ?_ ?_ <;>
      rw [hp, phase_of_owner (hc.owner hin) hpc] <;> cases t <;> rfl
  | pass t _ hpc _ =>
    have hin : (s.thread t).inside = true := by simp [Local.inside, hpc]
    have hp : (s.goto t .cell).phase = some (t, .cell) := phase_put_owner _ (hc.owner hin)
    refine hc.of_quiet (hc.guards.keep (by rw [hin]; rfl)) rfl rfl rfl rfl ?_ ?_ ?_ <;>
      rw [hp, phase_of_owner (hc.owner hin) hpc] <;> cases t <;> rfl
  | relock t _ hpc hfree =>
    have hg : Guards Local.inside none s.thread := hfree ▸ hc.guards
    have hp : ({ s with m := some t }.goto t .cell).phase = some (t, .cell) :=
      phase_put_owner _ rfl
    refine hc.of_quiet (hg.lock rfl) rfl rfl rfl rfl ?_ ?_ ?_ <;>
      rw [hp, phase_free hfree] <;> cases t <;> rfl
  | unlock t _ hpc =>
    have hin : (s.thread t).inside = true := by simp [Local.inside, hpc]
    have hp : ({ s with m := none }.goto t .print).phase = none := rfl
    refine hc.of_quiet (hc.guards.unlock hin rfl) rfl rfl rfl rfl ?_ ?_ ?_ <;>
      rw [hp, phase_of_owner (hc.owner hin) hpc] <;> cases t <;> rfl
  | store k _ hpc =>
    obtain ⟨hin, hadd, hrem, hnum⟩ := hc.inside (t := .producer k) hpc rfl
    refine hc.put_owner hin rfl rfl rfl ((List.length_set ..).trans hc.cells) hc.addLt ?_ hc.remLt
      hrem ?_
    · rw [List.length_append]
      exact mod_succ_of_eq hadd
    · rw [List.length_append]
      have hnum : s.num + 0 = (h.inserted.length : ℤ) - h.taken.length := hnum
      have hlag : numLag (some (Thread.producer k, Pc.index)) = 1 := rfl
      push_cast
      simp [hlag]
      omega
  | load k _ hpc =>
    obtain ⟨hin, hadd, hrem, hnum⟩ := hc.inside (t := .consumer k) hpc rfl
    refine hc.put_owner hin rfl rfl rfl hc.cells hc.addLt hadd hc.remLt ?_ ?_
    · rw [List.length_append]
      exact mod_succ_of_eq hrem
    · rw [List.length_append]
      have hnum : s.num + 0 = (h.inserted.length : ℤ) - h.taken.length := hnum
      have hlag : numLag (some (Thread.consumer k, Pc.index)) = -1 := rfl
      push_cast
      simp [hlag]
      omega
  | addIndex k _ hpc =>
    obtain ⟨hin, hadd, hrem, hnum⟩ := hc.inside (t := .producer k) hpc rfl
    obtain ⟨hlt, hmod⟩ := mod_succ_of_lag hadd
    exact hc.put_owner hin rfl rfl rfl hc.cells hlt hmod hc.remLt hrem hnum
  | remIndex k _ hpc =>
    obtain ⟨hin, hadd, hrem, hnum⟩ := hc.inside (t := .consumer k) hpc rfl
    obtain ⟨hlt, hmod⟩ := mod_succ_of_lag hrem
    exact hc.put_owner hin rfl rfl rfl hc.cells hc.addLt hadd hlt hmod hnum
  | addCount k _ hpc =>
    obtain ⟨hin, hadd, hrem, hnum⟩ := hc.inside (t := .producer k) hpc rfl
    refine hc.put_owner hin rfl rfl rfl hc.cells hc.addLt hadd hc.remLt hrem ?_
    exact (add_zero _).trans hnum
  | remCount k _ hpc =>
    obtain ⟨hin, hadd, hrem, hnum⟩ := hc.inside (t := .consumer k) hpc rfl
    refine hc.put_owner hin rfl rfl rfl hc.cells hc.addLt hadd hc.remLt hrem ?_
    exact (add_zero _).trans hnum
  | printInserted k _ hpc =>
    have hout : (s.thread (.producer k)).inside = false := by simp [Local.inside, hpc]
    refine hc.put_outside hout ?_ rfl rfl rfl rfl rfl rfl
    by_cases hi : (s.thread (.producer k)).i + 1 ≤ 20 <;> simp [Local.inside, hi]
  | printQuiting k _ hpc =>
    have hout : (s.thread (.producer k)).inside = false := by simp [Local.inside, hpc]
    exact hc.put_outside hout rfl rfl rfl rfl rfl rfl rfl
  | printConsumed k _ hpc =>
    have hout : (s.thread (.consumer k)).inside = false := by simp [Local.inside, hpc]
    exact hc.put_outside hout rfl rfl rfl rfl rfl rfl rfl
  | wake t u _ hpc _ _ hu =>
    have hsent : Counted (s.goto t .unlock) h := hc.signal hpc
    have hne : u ≠ t := by
      intro he
      rw [he, hpc] at hu
      cases hu
    have hwait : ((s.goto t .unlock).thread u).pc = .wait := by
      rw [State.goto_thread_of_ne _ _ hne, hu]
    exact hsent.put_outside (by simp [Local.inside, hwait]) rfl rfl rfl rfl rfl rfl rfl
  | wakeNobody t _ hpc _ => exact hc.signal hpc
  | spurious t _ hpc =>
    exact hc.put_outside (by simp [Local.inside, hpc]) rfl rfl rfl rfl rfl rfl rfl

/-- The locations behind the store and before the next round. -/
def Pc.stored : Pc → Bool
  | .index | .count | .signal | .unlock | .print => true
  | _ => false

def Pc.inLoop : Pc → Bool
  | .leave | .done => false
  | _ => true

/-- How many values a producer has stored. -/
def Local.stored (l : Local) : ℕ := if l.pc.stored then l.i else l.i - 1

/-- A producer makes rounds 1 to 20, a consumer never leaves its loop. -/
def Thread.Fine : Thread → Local → Prop
  | .producer _, l => 1 ≤ l.i ∧ (if l.pc.inLoop then l.i ≤ 20 else l.i = 21)
  | .consumer _, l => l.pc.inLoop = true

theorem Thread.fine_producer (k : ℕ) (l : Local) : (Thread.producer k).Fine l ↔
    1 ≤ l.i ∧ (if l.pc.inLoop then l.i ≤ 20 else l.i = 21) := Iff.rfl

/-- Each producer stores 1, 2, 3, … in this order. -/
structure Turns (s : State) (h : History) : Prop where
  fine : ∀ t : Thread, t.Fine (s.thread t)
  values : ∀ k, (h.inserted.filter fun p => p.1 == k).map Prod.snd =
    List.range' 1 (s.thread (.producer k)).stored

theorem turns_init (producers consumers : ℕ) :
    Turns (prodCons producers consumers).init { inserted := [], taken := [] } where
  fine := fun t => by cases t <;> simp [prodCons, Thread.Fine, Pc.inLoop]
  values := fun _ => rfl

theorem Turns.put {s s' : State} {h h' : History} (ht : Turns s h) {t : Thread} {l : Local}
    (hthread : s'.thread = s.thread) (hins : h'.inserted = h.inserted) (hl : t.Fine l)
    (hst : ∀ k, t = .producer k → l.stored = (s.thread t).stored) : Turns (s'.put t l) h' := by
  constructor
  · intro u
    by_cases hu : u = t
    · subst u
      rw [State.put_thread_self]
      exact hl
    · rw [State.put_thread_of_ne _ _ hu, hthread]
      exact ht.fine u
  · intro k
    rw [hins, ht.values k]
    by_cases hu : Thread.producer k = t
    · subst t
      rw [State.put_thread_self, hst k rfl]
    · rw [State.put_thread_of_ne _ _ hu, hthread]

theorem Turns.goto {s s' : State} {h : History} (ht : Turns s h) {t : Thread} {pc pc' : Pc}
    (hthread : s'.thread = s.thread) (hpc : (s.thread t).pc = pc) (hin : pc.inLoop = true)
    (hin' : pc'.inLoop = true) (hst : pc'.stored = pc.stored) : Turns (s'.goto t pc') h := by
  subst pc
  have hf := ht.fine t
  refine ht.put hthread rfl ?_ fun k _ => ?_
  · rw [hthread]
    cases t with
    | producer k =>
      rw [Thread.fine_producer] at hf ⊢
      rw [if_pos hin] at hf
      rw [if_pos hin']
      exact hf
    | consumer k => exact hin'
  · unfold Local.stored
    rw [hst, hthread]

theorem turns_move {s s' : State} {h h' : History} {a : Act} (ht : Turns s h)
    (hm : Move producers consumers s h a s' h') : Turns s' h' := by
  cases hm with
  | lock t _ hpc _ => exact ht.goto rfl hpc rfl rfl rfl
  | block t _ hpc _ => exact ht.goto rfl hpc rfl rfl rfl
  | pass t _ hpc _ => exact ht.goto rfl hpc rfl rfl rfl
  | relock t _ hpc _ => exact ht.goto rfl hpc rfl rfl rfl
  | unlock t _ hpc => exact ht.goto rfl hpc rfl rfl rfl
  | store k _ hpc =>
    have hf := ht.fine (.producer k)
    rw [Thread.fine_producer] at hf
    rw [hpc] at hf
    constructor
    · intro u
      by_cases hu : u = .producer k
      · subst u
        rw [State.goto_thread_self]
        exact hf
      · rw [State.goto_thread_of_ne _ _ hu]
        exact ht.fine u
    · intro j
      have hv := ht.values j
      rw [List.filter_append, List.map_append, hv]
      by_cases hj : j = k
      · subst j
        have hnew : (Local.mk (s.thread (.producer k)).i .index).stored =
            (s.thread (.producer k)).stored + 1 := by
          simp only [Local.stored, hpc, Pc.stored]
          have := hf.1
          simp
          omega
        have hlast : 1 + (s.thread (.producer k)).stored = (s.thread (.producer k)).i := by
          simp only [Local.stored, hpc, Pc.stored]
          have := hf.1
          simp
          omega
        rw [State.goto_thread_self]
        show _ = List.range' 1 (Local.mk (s.thread (.producer k)).i .index).stored
        rw [hnew, List.range'_1_concat, hlast]
        simp
      · have hne : Thread.producer j ≠ .producer k := fun he => hj (Thread.producer.inj he)
        have hkj : ¬ k = j := fun he => hj he.symm
        rw [State.goto_thread_of_ne _ _ hne]
        simp [hkj]
  | load k _ hpc => exact ht.put rfl rfl rfl nofun
  | addIndex k _ hpc => exact ht.goto (t := .producer k) rfl hpc rfl rfl rfl
  | remIndex k _ hpc => exact ht.goto (t := .consumer k) rfl hpc rfl rfl rfl
  | addCount k _ hpc => exact ht.goto (t := .producer k) rfl hpc rfl rfl rfl
  | remCount k _ hpc => exact ht.goto (t := .consumer k) rfl hpc rfl rfl rfl
  | printInserted k _ hpc =>
    have hf := ht.fine (.producer k)
    rw [Thread.fine_producer] at hf
    rw [hpc, if_pos (show Pc.inLoop .print = true from rfl)] at hf
    refine ht.put rfl rfl ?_ fun _ _ => ?_
    · rw [Thread.fine_producer]
      by_cases hi : (s.thread (.producer k)).i + 1 ≤ 20
      · simp [hi, Pc.inLoop]
      · simp [hi, Pc.inLoop]
        omega
    · unfold Local.stored
      rw [hpc]
      by_cases hi : (s.thread (.producer k)).i + 1 ≤ 20 <;> simp [hi, Pc.stored]
  | printQuiting k _ hpc =>
    have hf := ht.fine (.producer k)
    rw [Thread.fine_producer] at hf
    rw [hpc] at hf
    exact ht.put rfl rfl hf fun _ _ => by simp [Local.stored, hpc, Pc.stored]
  | printConsumed k _ hpc => exact ht.put (t := .consumer k) rfl rfl rfl nofun
  | wake t u _ hpc _ _ hu =>
    have hsent : Turns (s.goto t .unlock) h := ht.goto rfl hpc rfl rfl rfl
    have hne : u ≠ t := by
      intro he
      rw [he, hpc] at hu
      cases hu
    have hwait : ((s.goto t .unlock).thread u).pc = .wait := by
      rw [State.goto_thread_of_ne _ _ hne, hu]
    exact hsent.goto rfl hwait rfl rfl rfl
  | wakeNobody t _ hpc _ => exact ht.goto rfl hpc rfl rfl rfl
  | spurious t _ hpc => exact ht.goto rfl hpc rfl rfl rfl

/-- The values stored, in the order of the stores. -/
def History.values (h : History) : List ℕ := h.inserted.map Prod.snd

@[simp] theorem History.length_values (h : History) : h.values.length = h.inserted.length :=
  List.length_map ..

/-- The ring holds what has been stored and not loaded yet, and the loads follow the stores. -/
structure Fifo (s : State) (h : History) : Prop where
  le : h.taken.length ≤ h.inserted.length
  room : h.inserted.length ≤ h.taken.length + bufSize
  taken : h.taken = h.values.take h.taken.length
  window : Window bufSize s.buffer h.values h.taken.length
  notFull : ∀ k, s.phase = some (.producer k, .cell) →
    h.inserted.length < h.taken.length + bufSize
  notEmpty : ∀ k, s.phase = some (.consumer k, .cell) → h.taken.length < h.inserted.length

/-- A wait resumes only when its test, made again, would let the thread pass. -/
def Met (p : State × History) : Act → Prop
  | .run t => (p.1.thread t).pc = .relock → p.1.blocks t = false
  | _ => True

instance (p : State × History) (a : Act) : Decidable (Met p a) :=
  match a with
  | .run t => inferInstanceAs (Decidable ((p.1.thread t).pc = .relock → p.1.blocks t = false))
  | .signal _ _ => isTrue trivial
  | .spurious _ => isTrue trivial

theorem fifo_init (producers consumers : ℕ) :
    Fifo (prodCons producers consumers).init { inserted := [], taken := [] } where
  le := le_rfl
  room := Nat.zero_le _
  taken := rfl
  window := Window.nil bufSize (List.replicate bufSize 0)
  notFull := fun _ h => by cases h
  notEmpty := fun _ h => by cases h

theorem Fifo.of_phase {s s' : State} {h : History} (hf : Fifo s h) (hb : s'.buffer = s.buffer)
    (hp : s'.phase = s.phase ∨ ∀ t, s'.phase ≠ some (t, .cell)) : Fifo s' h := by
  refine ⟨hf.le, hf.room, hf.taken, hb ▸ hf.window, fun k hk => ?_, fun k hk => ?_⟩
  · rcases hp with hp | hp
    · exact hf.notFull k (hp ▸ hk)
    · exact absurd hk (hp _)
  · rcases hp with hp | hp
    · exact hf.notEmpty k (hp ▸ hk)
    · exact absurd hk (hp _)

/-- A thread goes to the ring behind a test that let it pass. -/
theorem Fifo.enter {s s' : State} {h : History} (hf : Fifo s h) (hb : s'.buffer = s.buffer)
    {t : Thread} (hp : s'.phase = some (t, .cell)) (hpass : s.blocks t = false)
    (hnum : s.num = h.inserted.length - h.taken.length) : Fifo s' h := by
  have hle := hf.le
  have hroom := hf.room
  refine ⟨hle, hroom, hf.taken, hb ▸ hf.window, fun k hk => ?_, fun k hk => ?_⟩
  · have ht : t = .producer k := congrArg Prod.fst (Option.some.inj (hp.symm.trans hk))
    subst t
    have hne : s.num ≠ bufSize := by simpa [State.blocks] using hpass
    omega
  · have ht : t = .consumer k := congrArg Prod.fst (Option.some.inj (hp.symm.trans hk))
    subst t
    have hne : s.num ≠ 0 := by simpa [State.blocks] using hpass
    omega

theorem mod_eq_of_lag_zero {a n : ℕ} (hlt : a < bufSize) (h : (a + 0) % bufSize = n % bufSize) :
    a = n % bufSize := by
  rw [← h, Nat.add_zero, Nat.mod_eq_of_lt hlt]

theorem fifo_move {s s' : State} {h h' : History} {a : Act} (hc : Counted s h) (hf : Fifo s h)
    (hmet : Met (s, h) a) (hm : Move producers consumers s h a s' h') : Fifo s' h' := by
  cases hm with
  | lock t _ hpc hfree =>
    have hp : ({ s with m := some t }.goto t .test).phase = some (t, .test) :=
      phase_put_owner _ rfl
    exact hf.of_phase rfl (Or.inr fun u => by rw [hp]; nofun)
  | block t _ hpc _ => exact hf.of_phase rfl (Or.inr fun u => nofun)
  | pass t _ hpc hb =>
    obtain ⟨hin, -, -, hnum⟩ := hc.inside hpc rfl
    have hp : (s.goto t .cell).phase = some (t, .cell) := phase_put_owner _ (hc.owner hin)
    refine hf.enter rfl hp (Bool.eq_false_iff.mpr hb) ?_
    cases t <;> exact (add_zero _).symm.trans hnum
  | relock t _ hpc hfree =>
    have hp : ({ s with m := some t }.goto t .cell).phase = some (t, .cell) :=
      phase_put_owner _ rfl
    exact hf.enter rfl hp (hmet hpc) (hc.num_of_free hfree)
  | unlock t _ hpc => exact hf.of_phase rfl (Or.inr fun u => nofun)
  | store k _ hpc =>
    obtain ⟨hin, hadd, -, -⟩ := hc.inside (t := .producer k) hpc rfl
    have hroom := hf.notFull k (phase_of_owner (hc.owner hin) hpc)
    have hle := hf.le
    have hp : ({ s with buffer := s.buffer.set s.add (s.thread (.producer k)).i }.goto
        (.producer k) .index).phase = some (.producer k, .index) :=
      phase_put_owner _ (hc.owner hin)
    have hcell : s.add = h.values.length % bufSize := by
      rw [History.length_values]
      exact mod_eq_of_lag_zero hc.addLt hadd
    have hvalues : ({ h with inserted := h.inserted ++ [(k, (s.thread (.producer k)).i)] } :
        History).values = h.values ++ [(s.thread (.producer k)).i] := List.map_append
    refine ⟨?_, ?_, ?_, ?_, fun j hj => ?_, fun j hj => ?_⟩
    · rw [List.length_append]
      exact hle.trans (Nat.le_add_right ..)
    · rw [List.length_append, List.length_singleton]
      exact hroom
    · rw [hvalues, List.take_append_of_le_length (by rw [History.length_values]; exact hle)]
      exact hf.taken
    · rw [hvalues]
      show Window bufSize (s.buffer.set s.add _) _ _
      rw [hcell]
      exact hf.window.push hc.cells (by rw [History.length_values]; exact hroom)
        (by rw [History.length_values]; exact hle) _
    · rw [hp] at hj
      cases hj
    · rw [hp] at hj
      cases hj
  | load k _ hpc =>
    obtain ⟨hin, -, hrem, -⟩ := hc.inside (t := .consumer k) hpc rfl
    have hlt := hf.notEmpty k (phase_of_owner (hc.owner hin) hpc)
    have hroom := hf.room
    have hp : (s.put (.consumer k) { i := s.buffer.getD s.rem 0, pc := .index }).phase =
        some (.consumer k, .index) := phase_put_owner _ (hc.owner hin)
    have hcell : s.rem = h.taken.length % bufSize := mod_eq_of_lag_zero hc.remLt hrem
    have hfront := hf.window.front (by rw [History.length_values]; exact hlt) 0
    rw [← hcell, ← hf.taken] at hfront
    refine ⟨?_, ?_, ?_, ?_, fun j hj => ?_, fun j hj => ?_⟩
    · rw [List.length_append, List.length_singleton]
      exact hlt
    · rw [List.length_append, List.length_singleton]
      show h.inserted.length ≤ h.taken.length + 1 + bufSize
      omega
    · rw [List.length_append, List.length_singleton]
      exact hfront.symm
    · rw [List.length_append, List.length_singleton]
      exact hf.window.pop
    · rw [hp] at hj
      cases hj
    · rw [hp] at hj
      cases hj
  | addIndex k _ hpc =>
    obtain ⟨hin, -⟩ := hc.inside (t := .producer k) hpc rfl
    have hp : ({ s with add := (s.add + 1) % bufSize }.goto (.producer k) .count).phase =
        some (.producer k, .count) := phase_put_owner _ (hc.owner hin)
    exact hf.of_phase rfl (Or.inr fun u => by rw [hp]; nofun)
  | remIndex k _ hpc =>
    obtain ⟨hin, -⟩ := hc.inside (t := .consumer k) hpc rfl
    have hp : ({ s with rem := (s.rem + 1) % bufSize }.goto (.consumer k) .count).phase =
        some (.consumer k, .count) := phase_put_owner _ (hc.owner hin)
    exact hf.of_phase rfl (Or.inr fun u => by rw [hp]; nofun)
  | addCount k _ hpc =>
    obtain ⟨hin, -⟩ := hc.inside (t := .producer k) hpc rfl
    have hp : ({ s with num := s.num + 1 }.goto (.producer k) .signal).phase =
        some (.producer k, .signal) := phase_put_owner _ (hc.owner hin)
    exact hf.of_phase rfl (Or.inr fun u => by rw [hp]; nofun)
  | remCount k _ hpc =>
    obtain ⟨hin, -⟩ := hc.inside (t := .consumer k) hpc rfl
    have hp : ({ s with num := s.num - 1 }.goto (.consumer k) .signal).phase =
        some (.consumer k, .signal) := phase_put_owner _ (hc.owner hin)
    exact hf.of_phase rfl (Or.inr fun u => by rw [hp]; nofun)
  | printInserted k _ hpc =>
    have hne := hc.not_owner (t := .producer k) (by simp [Local.inside, hpc])
    exact hf.of_phase rfl (Or.inl (phase_put_of_ne _ hne))
  | printQuiting k _ hpc =>
    have hne := hc.not_owner (t := .producer k) (by simp [Local.inside, hpc])
    exact hf.of_phase rfl (Or.inl (phase_put_of_ne _ hne))
  | printConsumed k _ hpc =>
    have hne := hc.not_owner (t := .consumer k) (by simp [Local.inside, hpc])
    exact hf.of_phase rfl (Or.inl (phase_put_of_ne _ hne))
  | wake t u _ hpc _ _ hu =>
    obtain ⟨hin, -⟩ := hc.inside hpc rfl
    have hp : (s.goto t .unlock).phase = some (t, .unlock) := phase_put_owner _ (hc.owner hin)
    have hne : s.m ≠ some u := hc.not_owner (by simp [Local.inside, hu])
    have hp' : ((s.goto t .unlock).goto u .relock).phase = some (t, .unlock) :=
      (phase_put_of_ne (s := s.goto t .unlock) _ hne).trans hp
    exact hf.of_phase rfl (Or.inr fun u => by rw [hp']; nofun)
  | wakeNobody t _ hpc _ =>
    obtain ⟨hin, -⟩ := hc.inside hpc rfl
    have hp : (s.goto t .unlock).phase = some (t, .unlock) := phase_put_owner _ (hc.owner hin)
    exact hf.of_phase rfl (Or.inr fun u => by rw [hp]; nofun)
  | spurious t _ hpc =>
    have hne := hc.not_owner (t := t) (by simp [Local.inside, hpc])
    exact hf.of_phase rfl (Or.inl (phase_put_of_ne _ hne))

/-- What every run keeps. -/
def Sound (p : State × History) : Prop := Counted p.1 p.2 ∧ Turns p.1 p.2

theorem sound_init : Sound (recorded producers consumers).init :=
  ⟨counted_init producers consumers, turns_init producers consumers⟩

theorem move_of_recorded {p q : State × History} {a : Act}
    (h : (recorded producers consumers).step p a = some q) :
    Move producers consumers p.1 p.2 a q.1 q.2 := by
  obtain ⟨hs, hh⟩ := Machine.withHistory_step_eq_some.mp h
  rw [hh]
  exact move_of_step p.2 hs

theorem sound_step (p : State × History) (a : Act) (q : State × History) (hp : Sound p)
    (h : (recorded producers consumers).step p a = some q) : Sound q :=
  ⟨counted_move hp.1 (move_of_recorded h), turns_move hp.2 (move_of_recorded h)⟩

theorem fifo_of_met {as : List Act} {p : State × History}
    (h : (recorded producers consumers).run as = some p)
    (hmet : (recorded producers consumers).AllSteps Met (recorded producers consumers).init as) :
    Fifo p.1 p.2 :=
  (Machine.runFrom_invariant_of_allSteps (I := fun q => Sound q ∧ Fifo q.1 q.2)
    (fun q a r hq ha hr =>
      ⟨sound_step q a r hq.1 hr, fifo_move hq.1.1 hq.2 ha (move_of_recorded hr)⟩)
    ⟨sound_init, fifo_init producers consumers⟩ hmet h).2

end OsTasks.Threads.ProdCons

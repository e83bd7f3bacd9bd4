import OsTasks.Lib.Machine
import OsTasks.Lib.Mutex
import Mathlib.Tactic.Ring

/-! Two threads count in opposite directions: task_4/examples/2_multithread_counting_nosync.c
and 3_mutex_lock.c. `sum += offset` is a load and a store. -/
namespace OsTasks.Threads.Counting
open OsTasks.Lib

inductive Thread where
  | id1
  | id2
  deriving DecidableEq

/-- What `main` passes: `offset1` and `offset2`. -/
def offset : Thread → ℤ
  | .id1 => 1
  | .id2 => -1

inductive Pc where
  | lock | load | store | unlock
  deriving DecidableEq

/-- `cnt_routine`'s `i`, where it stands, and what it has loaded of `sum`. -/
structure Local where
  i : ℕ
  pc : Pc
  loaded : ℤ

structure State where
  sum : ℤ
  mutex : Option Thread
  thread : Thread → Local

def State.put (s : State) (t : Thread) (l : Local) : State :=
  { s with thread := Function.update s.thread t l }

/-- `cnt_routine` of 2_multithread_counting_nosync.c. -/
def nosyncStep (loops : ℕ) (s : State) (t : Thread) : Option State :=
  let l := s.thread t
  match l.pc with
  | .load =>
    if l.i < loops then some (s.put t { l with loaded := s.sum, pc := .store }) else none
  | .store =>
    some ({ s with sum := l.loaded + offset t }.put t { l with i := l.i + 1, pc := .load })
  | _ => none

def nosync (loops : ℕ) : Machine State Thread where
  init := { sum := 0, mutex := none, thread := fun _ => { i := 0, pc := .load, loaded := 0 } }
  step := nosyncStep loops

/-- `cnt_routine` of 3_mutex_lock.c. -/
def mutexStep (loops : ℕ) (s : State) (t : Thread) : Option State :=
  let l := s.thread t
  match l.pc with
  | .lock =>
    if l.i < loops ∧ s.mutex = none then
      some ({ s with mutex := some t }.put t { l with pc := .load })
    else none
  | .load => some (s.put t { l with loaded := s.sum, pc := .store })
  | .store => some ({ s with sum := l.loaded + offset t }.put t { l with pc := .unlock })
  | .unlock =>
    some ({ s with mutex := none }.put t { l with i := l.i + 1, pc := .lock })

def mutexLock (loops : ℕ) : Machine State Thread where
  init := { sum := 0, mutex := none, thread := fun _ => { i := 0, pc := .lock, loaded := 0 } }
  step := mutexStep loops

def Thread.other : Thread → Thread
  | .id1 => .id2
  | .id2 => .id1

theorem Thread.eq_other {t u : Thread} (h : u ≠ t) : u = t.other := by
  cases t <;> cases u <;> first | rfl | exact absurd rfl h

theorem offset_other (t : Thread) : offset t.other = - offset t := by
  cases t <;> rfl

@[simp] theorem State.put_sum (s : State) (t : Thread) (l : Local) : (s.put t l).sum = s.sum := rfl

@[simp] theorem State.put_mutex (s : State) (t : Thread) (l : Local) :
    (s.put t l).mutex = s.mutex := rfl

@[simp] theorem State.put_thread_self (s : State) (t : Thread) (l : Local) :
    (s.put t l).thread t = l := Function.update_self ..

theorem State.put_thread_of_ne (s : State) {t u : Thread} (l : Local) (h : u ≠ t) :
    (s.put t l).thread u = s.thread u := Function.update_of_ne h ..

section NoSync
variable {loops : ℕ}

theorem nosyncStep_cases {s s' : State} {t : Thread} (h : nosyncStep loops s t = some s') :
    ((s.thread t).pc = .load ∧ (s.thread t).i < loops ∧
      s' = s.put t { s.thread t with loaded := s.sum, pc := .store }) ∨
    ((s.thread t).pc = .store ∧ s' = ({ s with sum := (s.thread t).loaded + offset t }.put t
      { s.thread t with i := (s.thread t).i + 1, pc := .load })) := by
  cases hpc : (s.thread t).pc with
  | load =>
    simp only [nosyncStep, hpc] at h
    split_ifs at h with hi
    exact Or.inl ⟨rfl, hi, (Option.some.inj h).symm⟩
  | store =>
    simp only [nosyncStep, hpc] at h
    exact Or.inr ⟨rfl, (Option.some.inj h).symm⟩
  | lock => simp [nosyncStep, hpc] at h
  | unlock => simp [nosyncStep, hpc] at h

/-- `v` is no more than the rounds of either thread could have made of `sum`. -/
def Within (s : State) (v : ℤ) : Prop := -(s.thread .id2).i ≤ v ∧ v ≤ (s.thread .id1).i

structure NoSyncInv (loops : ℕ) (s : State) : Prop where
  pc : ∀ t, (s.thread t).pc = .load ∨ (s.thread t).pc = .store ∧ (s.thread t).i < loops
  rounds : ∀ t, (s.thread t).i ≤ loops
  sum : Within s s.sum
  loaded : ∀ t, Within s (s.thread t).loaded

theorem noSyncInv_init : NoSyncInv loops (nosync loops).init where
  pc := fun _ => Or.inl rfl
  rounds := fun _ => Nat.zero_le _
  sum := ⟨le_rfl, le_rfl⟩
  loaded := fun _ => ⟨le_rfl, le_rfl⟩

theorem noSyncInv_step (s : State) (t : Thread) (s' : State) (h : NoSyncInv loops s)
    (hs : nosyncStep loops s t = some s') : NoSyncInv loops s' := by
  obtain ⟨hpc, hrounds, hsum, hloaded⟩ := h
  unfold Within at hsum hloaded
  have hl1 := hloaded .id1
  have hl2 := hloaded .id2
  rcases nosyncStep_cases hs with ⟨hload, hi, rfl⟩ | ⟨hstore, rfl⟩
  · have hthread : ∀ u, ((s.put t { s.thread t with loaded := s.sum, pc := .store }).thread u).i =
        (s.thread u).i := by
      intro u
      by_cases hu : u = t
      · subst u
        simp
      · rw [State.put_thread_of_ne _ _ hu]
    refine ⟨fun u => ?_, fun u => ?_, ?_, fun u => ?_⟩
    · by_cases hu : u = t
      · subst u
        exact Or.inr ⟨by simp, by simpa using hi⟩
      · rw [State.put_thread_of_ne _ _ hu]
        exact hpc u
    · rw [hthread u]
      exact hrounds u
    · unfold Within
      rw [hthread, hthread]
      exact hsum
    · unfold Within
      rw [hthread, hthread]
      by_cases hu : u = t
      · subst u
        simpa using hsum
      · rw [State.put_thread_of_ne _ _ hu]
        exact hloaded u
  · have hi : (s.thread t).i < loops := by
      rcases hpc t with hl | ⟨-, hi⟩
      · rw [hl] at hstore
        cases hstore
      · exact hi
    have hrest : ∀ u ≠ t, (({ s with sum := (s.thread t).loaded + offset t }.put t
        { s.thread t with i := (s.thread t).i + 1, pc := .load }).thread u) = s.thread u :=
      fun u hu => State.put_thread_of_ne _ _ hu
    refine ⟨fun u => ?_, fun u => ?_, ?_, fun u => ?_⟩
    · by_cases hu : u = t
      · subst u
        exact Or.inl (by simp)
      · rw [hrest u hu]
        exact hpc u
    · by_cases hu : u = t
      · subst u
        simp
        omega
      · rw [hrest u hu]
        exact hrounds u
    · unfold Within
      cases t with
      | id1 =>
        rw [hrest .id2 (by decide)]
        simp [offset]
        omega
      | id2 =>
        rw [hrest .id1 (by decide)]
        simp [offset]
        omega
    · unfold Within
      have hlu := hloaded u
      cases t with
      | id1 =>
        rw [hrest .id2 (by decide)]
        cases u with
        | id1 => simp; omega
        | id2 => rw [hrest .id2 (by decide)]; simp; omega
      | id2 =>
        rw [hrest .id1 (by decide)]
        cases u with
        | id1 => rw [hrest .id1 (by decide)]; simp; omega
        | id2 => simp; omega

theorem nosync_halted_iff {s : State} (h : NoSyncInv loops s) :
    (nosync loops).Halted s ↔ ∀ t, (s.thread t).pc = .load ∧ (s.thread t).i = loops := by
  constructor
  · intro hh t
    have hnone : nosyncStep loops s t = none := hh t
    rcases h.pc t with hl | ⟨hst, -⟩
    · have hi : ¬ (s.thread t).i < loops := by
        intro hi
        simp [nosyncStep, hl, hi] at hnone
      have := h.rounds t
      exact ⟨hl, by omega⟩
    · simp [nosyncStep, hst] at hnone
  · intro hall t
    obtain ⟨hl, hi⟩ := hall t
    show nosyncStep loops s t = none
    simp [nosyncStep, hl, hi]

/-- The steps the threads have left. -/
def nosyncLeft (loops : ℕ) (s : State) : ℕ :=
  let left (l : Local) : ℕ := 2 * (loops - l.i) - (if l.pc = .store then 1 else 0)
  left (s.thread .id1) + left (s.thread .id2)

theorem nosyncLeft_step (s : State) (t : Thread) (s' : State) (h : NoSyncInv loops s)
    (hs : nosyncStep loops s t = some s') : nosyncLeft loops s' < nosyncLeft loops s := by
  have hpc := h.pc t
  unfold nosyncLeft
  rcases nosyncStep_cases hs with ⟨hload, hi, rfl⟩ | ⟨hstore, rfl⟩
  · cases t with
    | id1 =>
      rw [State.put_thread_of_ne _ _ (show Thread.id2 ≠ .id1 by decide)]
      simp [hload]
      omega
    | id2 =>
      rw [State.put_thread_of_ne _ _ (show Thread.id1 ≠ .id2 by decide)]
      simp [hload]
      omega
  · have hi : (s.thread t).i < loops := by
      simpa [hstore] using hpc
    cases t with
    | id1 =>
      rw [State.put_thread_of_ne _ _ (show Thread.id2 ≠ .id1 by decide)]
      simp [hstore]
      omega
    | id2 =>
      rw [State.put_thread_of_ne _ _ (show Thread.id1 ≠ .id2 by decide)]
      simp [hstore]
      omega

theorem exists_rounds (loops : ℕ) (t : Thread) (k : ℕ) (s : State) (hpc : (s.thread t).pc = .load)
    (hi : (s.thread t).i + k ≤ loops) :
    ∃ as s', (nosync loops).runFrom s as = some s' ∧ s'.sum = s.sum + k * offset t ∧
      (s'.thread t).pc = .load ∧ (s'.thread t).i = (s.thread t).i + k ∧
      s'.thread t.other = s.thread t.other := by
  induction k generalizing s with
  | zero => exact ⟨[], s, rfl, by simp, hpc, rfl, rfl⟩
  | succ k ih =>
    have hother : t.other ≠ t := by cases t <;> decide
    let s1 := s.put t { s.thread t with loaded := s.sum, pc := .store }
    have h1 : nosyncStep loops s t = some s1 := by
      have hlt : (s.thread t).i < loops := by omega
      simp [nosyncStep, hpc, hlt, s1]
    let s2 := { s1 with sum := (s1.thread t).loaded + offset t }.put t
      { s1.thread t with i := (s1.thread t).i + 1, pc := .load }
    have h2 : nosyncStep loops s1 t = some s2 := by
      have hst : (s1.thread t).pc = .store := by simp [s1]
      simp [nosyncStep, hst, s2]
    have hsum : s2.sum = s.sum + offset t := by simp [s2, s1]
    have hi2 : (s2.thread t).i = (s.thread t).i + 1 := by simp [s2, s1]
    have hrest : s2.thread t.other = s.thread t.other := by
      have hr2 : s2.thread t.other = s1.thread t.other := State.put_thread_of_ne _ _ hother
      exact hr2.trans (State.put_thread_of_ne _ _ hother)
    obtain ⟨as, s', hr, hs', hpc', hi', hrest'⟩ := ih s2 (by simp [s2]) (by omega)
    refine ⟨t :: t :: as, s', ?_, ?_, hpc', by omega, hrest'.trans hrest⟩
    · show ((nosyncStep loops s t).bind fun u => (nosyncStep loops u t).bind fun v =>
        (nosync loops).runFrom v as) = some s'
      rw [h1, Option.bind_some, h2, Option.bind_some, hr]
    · rw [hs', hsum]
      push_cast
      ring

/-- The first thread loads `sum`, the other makes `w` of its rounds before the store, and both go
on alone from there. -/
theorem exists_lost (t : Thread) {w : ℕ} (hw : w ≤ loops) (hpos : 0 < loops) :
    ∃ s, (nosync loops).Reachable s ∧ (nosync loops).Halted s ∧ s.sum = w * offset t := by
  have hother : t.other ≠ t := by cases t <;> decide
  have hback : t.other.other = t := by cases t <;> rfl
  let s0 := (nosync loops).init
  let s1 := s0.put t { s0.thread t with loaded := s0.sum, pc := .store }
  have h1 : (nosync loops).step s0 t = some s1 := by
    simp [nosync, nosyncStep, hpos, s1, s0]
  have hinit : s1.thread t.other = s0.thread t.other := State.put_thread_of_ne _ _ hother
  obtain ⟨as, s2, hr2, -, hpc2, hi2, hrest2⟩ := exists_rounds loops t.other w s1
    (by rw [hinit]; rfl) (by rw [hinit]; simpa [s0, nosync] using hw)
  rw [hback] at hrest2
  rw [hinit] at hi2
  have hst : (s2.thread t).pc = .store := by rw [hrest2]; simp [s1]
  have hzero : (s2.thread t).loaded = 0 := by rw [hrest2]; simp [s1, s0, nosync]
  have hit : (s2.thread t).i = 0 := by rw [hrest2]; simp [s1, s0, nosync]
  let s3 := { s2 with sum := (s2.thread t).loaded + offset t }.put t
    { s2.thread t with i := (s2.thread t).i + 1, pc := .load }
  have h3 : (nosync loops).step s2 t = some s3 := by
    simp [nosync, nosyncStep, hst, s3]
  have hother3 : s3.thread t.other = s2.thread t.other := State.put_thread_of_ne _ _ hother
  have hi3 : (s3.thread t).i = 1 := by simp [s3, hit]
  obtain ⟨bs, s4, hr4, hs4, hpc4, hi4, hrest4⟩ := exists_rounds loops t (loops - 1) s3
    (by simp [s3]) (by omega)
  have hsum3 : s3.sum = offset t := by simp [s3, hzero]
  have hi4' : (s4.thread t.other).i = w := by
    rw [hrest4, hother3, hi2]
    simp [s0, nosync]
  obtain ⟨cs, s5, hr5, hs5, hpc5, hi5, hrest5⟩ := exists_rounds loops t.other (loops - w)
    s4 (by rw [hrest4, hother3, hpc2]) (by omega)
  rw [hback] at hrest5
  have hreach : (nosync loops).Reachable s5 := by
    have hr1 : (nosync loops).Reachable s1 := Machine.reachable_init.step h1
    exact (((hr1.runFrom hr2).step h3).runFrom hr4).runFrom hr5
  have hinv : NoSyncInv loops s5 := hreach.invariant noSyncInv_init noSyncInv_step
  refine ⟨s5, hreach, (nosync_halted_iff hinv).mpr fun u => ?_, ?_⟩
  · by_cases hu : u = t
    · subst u
      rw [hrest5]
      exact ⟨hpc4, by omega⟩
    · rw [Thread.eq_other hu]
      exact ⟨hpc5, by omega⟩
  · rw [hs5, hs4, hsum3, offset_other, Nat.cast_sub hw, Nat.cast_sub hpos]
    push_cast
    ring

/-- Without the mutex every run ends, and it can end with exactly the sums from `-loops` to
`loops`. -/
theorem nosync_sums (loops : ℕ) :
    (∀ as s, (nosync loops).run as = some s → as.length ≤ 4 * loops) ∧
    ∀ v : ℤ, (∃ s, (nosync loops).Reachable s ∧ (nosync loops).Halted s ∧ s.sum = v) ↔
      v.natAbs ≤ loops := by
  constructor
  · intro as s h
    have hlen := Machine.runFrom_length_le noSyncInv_step nosyncLeft_step noSyncInv_init h
    have hleft : nosyncLeft loops (nosync loops).init = 4 * loops := by
      simp [nosyncLeft, nosync]
      omega
    have hall : as.length ≤ nosyncLeft loops (nosync loops).init :=
      (Nat.le_add_right _ _).trans hlen
    omega
  · intro v
    constructor
    · intro hex
      obtain ⟨s, hreach, hhalt, rfl⟩ := hex
      have hinv : NoSyncInv loops s := hreach.invariant noSyncInv_init noSyncInv_step
      have hsum := hinv.sum
      have h1 := ((nosync_halted_iff hinv).mp hhalt .id1).2
      have h2 := ((nosync_halted_iff hinv).mp hhalt .id2).2
      unfold Within at hsum
      omega
    · intro hv
      have hsign : ∃ t : Thread, v = v.natAbs * offset t := by
        rcases Int.natAbs_eq v with hv | hv
        · exact ⟨.id1, hv.trans (mul_one _).symm⟩
        · exact ⟨.id2, hv.trans (mul_neg_one _).symm⟩
      obtain ⟨t, ht⟩ := hsign
      cases loops with
      | zero =>
        have hzero : v = 0 := by omega
        refine ⟨(nosync 0).init, Machine.reachable_init, ?_, hzero.symm⟩
        exact (nosync_halted_iff noSyncInv_init).mpr fun _ => ⟨rfl, rfl⟩
      | succ n =>
        obtain ⟨s, hreach, hhalt, hsum⟩ := exists_lost t hv (Nat.succ_pos n)
        exact ⟨s, hreach, hhalt, hsum.trans ht.symm⟩

end NoSync

section MutexLock
variable {loops : ℕ}

/-- Between `pthread_mutex_lock` and `pthread_mutex_unlock`. -/
def Local.critical (l : Local) : Bool := l.pc != .lock

/-- The rounds whose store has been made. -/
def Local.counted (l : Local) : ℕ := if l.pc = .unlock then l.i + 1 else l.i

structure MutexInv (loops : ℕ) (s : State) : Prop where
  guards : Guards Local.critical s.mutex s.thread
  rounds : ∀ t, (s.thread t).i ≤ loops ∧ ((s.thread t).critical = true → (s.thread t).i < loops)
  sum : s.sum = (s.thread .id1).counted - (s.thread .id2).counted
  loaded : ∀ t, (s.thread t).pc = .store → (s.thread t).loaded = s.sum

theorem mutexInv_init : MutexInv loops (mutexLock loops).init where
  guards := Guards.free fun _ => rfl
  rounds := fun _ => ⟨Nat.zero_le _, fun h => by cases h⟩
  sum := rfl
  loaded := fun _ h => by cases h

theorem mutexStep_cases {s s' : State} {t : Thread} (h : mutexStep loops s t = some s') :
    ((s.thread t).pc = .lock ∧ (s.thread t).i < loops ∧ s.mutex = none ∧
      s' = { s with mutex := some t }.put t { s.thread t with pc := .load }) ∨
    ((s.thread t).pc = .load ∧ s' = s.put t { s.thread t with loaded := s.sum, pc := .store }) ∨
    ((s.thread t).pc = .store ∧ s' = { s with sum := (s.thread t).loaded + offset t }.put t
      { s.thread t with pc := .unlock }) ∨
    ((s.thread t).pc = .unlock ∧ s' = { s with mutex := none }.put t
      { s.thread t with i := (s.thread t).i + 1, pc := .lock }) := by
  cases hpc : (s.thread t).pc with
  | lock =>
    simp only [mutexStep, hpc] at h
    split_ifs at h with hc
    exact Or.inl ⟨rfl, hc.1, hc.2, (Option.some.inj h).symm⟩
  | load =>
    simp only [mutexStep, hpc] at h
    exact Or.inr (Or.inl ⟨rfl, (Option.some.inj h).symm⟩)
  | store =>
    simp only [mutexStep, hpc] at h
    exact Or.inr (Or.inr (Or.inl ⟨rfl, (Option.some.inj h).symm⟩))
  | unlock =>
    simp only [mutexStep, hpc] at h
    exact Or.inr (Or.inr (Or.inr ⟨rfl, (Option.some.inj h).symm⟩))

/-- A step of `t` that leaves `sum` alone keeps all but the mutex when the rounds it has counted
stay the same. -/
theorem mutexInv_put {s : State} {t : Thread} {l : Local} {owner : Option Thread}
    (h : MutexInv loops s) (hg : Guards Local.critical owner (Function.update s.thread t l))
    (hr : l.i ≤ loops ∧ (l.critical = true → l.i < loops))
    (hc : l.counted = (s.thread t).counted) (hl : l.pc = .store → l.loaded = s.sum) :
    MutexInv loops ({ s with mutex := owner }.put t l) := by
  have hcounted : ∀ u, (({ s with mutex := owner }.put t l).thread u).counted =
      (s.thread u).counted := by
    intro u
    by_cases hu : u = t
    · subst u
      rw [State.put_thread_self, hc]
    · rw [State.put_thread_of_ne _ _ hu]
  refine ⟨hg, fun u => ?_, ?_, fun u hu => ?_⟩
  · by_cases hu : u = t
    · subst u
      rw [State.put_thread_self]
      exact hr
    · rw [State.put_thread_of_ne _ _ hu]
      exact h.rounds u
  · rw [hcounted, hcounted]
    exact h.sum
  · by_cases hut : u = t
    · subst u
      rw [State.put_thread_self] at hu ⊢
      exact hl hu
    · rw [State.put_thread_of_ne _ _ hut] at hu ⊢
      exact h.loaded u hu

theorem mutexInv_step (s : State) (t : Thread) (s' : State) (h : MutexInv loops s)
    (hs : mutexStep loops s t = some s') : MutexInv loops s' := by
  have hr := h.rounds t
  rcases mutexStep_cases hs with ⟨hpc, hi, hm, rfl⟩ | ⟨hpc, rfl⟩ | ⟨hpc, rfl⟩ | ⟨hpc, rfl⟩
  · have hfree : Guards Local.critical none s.thread := hm ▸ h.guards
    exact mutexInv_put h (hfree.lock rfl) ⟨hr.1, fun _ => hi⟩ (by simp [Local.counted, hpc]) nofun
  · have hin : (s.thread t).critical = true := by simp [Local.critical, hpc]
    have hstay : ({ s.thread t with loaded := s.sum, pc := .store } : Local).critical =
        (s.thread t).critical := hin.symm
    exact mutexInv_put h (h.guards.keep hstay) ⟨hr.1, fun _ => hr.2 hin⟩
      (by simp [Local.counted, hpc]) fun _ => rfl
  · have hin : (s.thread t).critical = true := by simp [Local.critical, hpc]
    have hload := h.loaded t hpc
    have hsum := h.sum
    refine ⟨h.guards.keep (by rw [hin]; rfl), fun u => ?_, ?_, fun u hu => ?_⟩
    · by_cases hu : u = t
      · subst u
        rw [State.put_thread_self]
        exact ⟨hr.1, fun _ => hr.2 hin⟩
      · rw [State.put_thread_of_ne _ _ hu]
        exact h.rounds u
    · have hcounted : (s.thread t).counted = (s.thread t).i := by simp [Local.counted, hpc]
      cases t with
      | id1 =>
        rw [State.put_thread_of_ne _ _ (show Thread.id2 ≠ .id1 by decide), State.put_thread_self]
        simp only [State.put_sum, offset, Local.counted, if_true]
        rw [hload, hsum, hcounted]
        simp only [Local.counted]
        push_cast
        ring
      | id2 =>
        rw [State.put_thread_of_ne _ _ (show Thread.id1 ≠ .id2 by decide), State.put_thread_self]
        simp only [State.put_sum, offset, Local.counted, if_true]
        rw [hload, hsum, hcounted]
        simp only [Local.counted]
        push_cast
        ring
    · by_cases hut : u = t
      · subst u
        rw [State.put_thread_self] at hu
        cases hu
      · rw [State.put_thread_of_ne _ _ hut] at hu
        have hpcu : (s.thread u).pc = .store := hu
        have hinu : (s.thread u).critical = true := by simp [Local.critical, hpcu]
        exact absurd (h.guards.exclusive hinu hin) hut
  · have hin : (s.thread t).critical = true := by simp [Local.critical, hpc]
    have hi := hr.2 hin
    exact mutexInv_put h (h.guards.unlock hin rfl) ⟨hi, fun hc => by cases hc⟩
      (by simp [Local.counted, hpc]) nofun

def mutexLeft (loops : ℕ) (s : State) : ℕ :=
  let left (l : Local) : ℕ :=
    4 * (loops - l.i) - match l.pc with | .lock => 0 | .load => 1 | .store => 2 | .unlock => 3
  left (s.thread .id1) + left (s.thread .id2)

theorem mutexLeft_step (s : State) (t : Thread) (s' : State) (h : MutexInv loops s)
    (hs : mutexStep loops s t = some s') : mutexLeft loops s' < mutexLeft loops s := by
  have hr := (h.rounds t).2
  have hleft : ∀ l : Local, 4 * (loops - l.i) - (match l.pc with
      | .lock => 0 | .load => 1 | .store => 2 | .unlock => 3) <
      4 * (loops - (s.thread t).i) - (match (s.thread t).pc with
      | .lock => 0 | .load => 1 | .store => 2 | .unlock => 3) →
      ∀ s'' : State, s''.thread = Function.update s.thread t l →
        mutexLeft loops s'' < mutexLeft loops s := by
    intro l hl s'' hthread
    unfold mutexLeft
    rw [hthread]
    cases t with
    | id1 =>
      rw [Function.update_self, Function.update_of_ne (show Thread.id2 ≠ .id1 by decide)]
      exact Nat.add_lt_add_right hl _
    | id2 =>
      rw [Function.update_self, Function.update_of_ne (show Thread.id1 ≠ .id2 by decide)]
      exact Nat.add_lt_add_left hl _
  rcases mutexStep_cases hs with ⟨hpc, hi, -, rfl⟩ | ⟨hpc, rfl⟩ | ⟨hpc, rfl⟩ | ⟨hpc, rfl⟩
  · exact hleft _ (by simp only [hpc]; omega) _ rfl
  · have hi := hr (by simp [Local.critical, hpc])
    exact hleft _ (by simp only [hpc]; omega) _ rfl
  · have hi := hr (by simp [Local.critical, hpc])
    exact hleft _ (by simp only [hpc]; omega) _ rfl
  · have hi := hr (by simp [Local.critical, hpc])
    exact hleft _ (by simp only [hpc]; omega) _ rfl

theorem mutex_halted {s : State} (h : MutexInv loops s) (hh : (mutexLock loops).Halted s) :
    s.mutex = none ∧ ∀ t, (s.thread t).pc = .lock ∧ (s.thread t).i = loops := by
  have hout : ∀ t, (s.thread t).pc = .lock := by
    intro t
    have hnone : mutexStep loops s t = none := hh t
    cases hpc : (s.thread t).pc with
    | lock => rfl
    | load => simp [mutexStep, hpc] at hnone
    | store => simp [mutexStep, hpc] at hnone
    | unlock => simp [mutexStep, hpc] at hnone
  have hfree : s.mutex = none := by
    cases hm : s.mutex with
    | none => rfl
    | some t =>
      have hin := (h.guards t).mpr hm
      rw [Local.critical, hout t] at hin
      cases hin
  refine ⟨hfree, fun t => ⟨hout t, ?_⟩⟩
  have hnone : mutexStep loops s t = none := hh t
  have hle := (h.rounds t).1
  by_contra hne
  have hlt : (s.thread t).i < loops := by omega
  simp [mutexStep, hout t, hfree, hlt] at hnone

/-- With the mutex no two threads are ever between the lock and the unlock, `sum` is the difference
of the rounds whenever the mutex is free, every run ends, and it ends with 0. -/
theorem mutex_sum (loops : ℕ) :
    (∀ as s, (mutexLock loops).run as = some s → as.length ≤ 8 * loops) ∧
    ∀ s, (mutexLock loops).Reachable s →
      (∀ t u, (s.thread t).critical = true → (s.thread u).critical = true → t = u) ∧
      (s.mutex = none → s.sum = (s.thread .id1).i - (s.thread .id2).i) ∧
      ((mutexLock loops).Halted s → (∀ t, (s.thread t).i = loops) ∧ s.sum = 0) := by
  constructor
  · intro as s h
    have hlen := Machine.runFrom_length_le mutexInv_step mutexLeft_step mutexInv_init h
    have hleft : mutexLeft loops (mutexLock loops).init = 8 * loops := by
      simp [mutexLeft, mutexLock]
      omega
    have hall : as.length ≤ mutexLeft loops (mutexLock loops).init :=
      (Nat.le_add_right _ _).trans hlen
    omega
  · intro s hs
    have h : MutexInv loops s := hs.invariant mutexInv_init mutexInv_step
    have hfree : s.mutex = none → s.sum = (s.thread .id1).i - (s.thread .id2).i := by
      intro hm
      have hcounted : ∀ t, (s.thread t).counted = (s.thread t).i := by
        intro t
        have hne : (s.thread t).pc ≠ .unlock := by
          intro hpc
          have hown := (h.guards t).mp (by simp [Local.critical, hpc])
          rw [hm] at hown
          cases hown
        exact if_neg hne
      rw [h.sum, hcounted, hcounted]
    refine ⟨fun t u => h.guards.exclusive, hfree, fun hh => ?_⟩
    obtain ⟨hm, hall⟩ := mutex_halted h hh
    have hdone : ∀ t, (s.thread t).i = loops := fun t => (hall t).2
    refine ⟨hdone, ?_⟩
    rw [hfree hm, hdone, hdone]
    exact sub_self _

end MutexLock

end OsTasks.Threads.Counting

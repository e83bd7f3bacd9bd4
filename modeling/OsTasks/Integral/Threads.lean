import OsTasks.Integral.MonteCarlo

/-! What holds of the threads of `monte_carlo` in every state of a run. -/
namespace OsTasks.Integral
open OsTasks.Lib

def Sample.Hit (q : Sample) : Prop := q.y < func q.x

instance (q : Sample) : Decidable q.Hit := inferInstanceAs (Decidable (_ < _))

/-- How many points a thread has drawn. -/
def drawn (samples : List Sample) (k : ℕ) : ℕ := samples.countP fun q => q.thread = k

def hits (samples : List Sample) (k : ℕ) : ℕ := samples.countP fun q => q.thread = k ∧ q.Hit

/-- The point lies in the rectangle of its thread. -/
def Sample.InSlab (task : WorkerTask) (nThreads : ℕ) (q : Sample) : Prop :=
  let a := threadArgs task nThreads q.thread
  (a.x1 ≤ q.x ∧ q.x ≤ a.x2) ∧ a.y1 ≤ q.y ∧ q.y ≤ a.y2

/-- The thread has added to `res_square`. -/
def ThreadPc.Stored : ThreadPc → Prop
  | .unlock => True
  | .finished => True
  | .loop _ _ => False
  | .lock _ => False
  | .load _ => False
  | .store _ _ => False

instance (pc : ThreadPc) : Decidable pc.Stored := by
  cases pc <;> unfold ThreadPc.Stored <;> infer_instance

def McState.stored (s : McState) : Finset ℕ :=
  (Finset.range s.created).filter fun k => (s.thread k).Stored

/-- How many statements a thread has left when `p` points are to be drawn. -/
def ThreadPc.left (p : ℕ) : ThreadPc → ℕ
  | .loop i _ => p - i + 5
  | .lock _ => 4
  | .load _ => 3
  | .store _ _ => 2
  | .unlock => 1
  | .finished => 0

theorem drawn_cons (q : Sample) (samples : List Sample) (k : ℕ) :
    drawn (q :: samples) k = drawn samples k + if q.thread = k then 1 else 0 := by
  unfold drawn
  rw [List.countP_cons]
  simp only [decide_eq_true_eq]

theorem hits_cons (q : Sample) (samples : List Sample) (k : ℕ) :
    hits (q :: samples) k = hits samples k + if q.thread = k ∧ q.Hit then 1 else 0 := by
  unfold hits
  rw [List.countP_cons]
  simp only [decide_eq_true_eq]

section Inv
variable (task : WorkerTask) (nThreads p : ℕ)

/-- What a thread adds to `res_square` when it draws a point. -/
def contribution (samples : List Sample) (k : ℕ) : ℚ :=
  let a := threadArgs task nThreads k
  hits samples k / p * (a.x2 - a.x1) * (a.y2 - a.y1)

def estimate (samples : List Sample) (k : ℕ) : Option ℚ :=
  if p = 0 then none else some (contribution task nThreads p samples k)

/-- A thread of number `k`, while the mutex and `res_square` are as given. -/
def ThreadInv (samples : List Sample) (sh : Shared) (k : ℕ) : ThreadPc → Prop
  | .loop i square =>
    i ≤ p ∧ drawn samples k = i ∧ square = hits samples k ∧ sh.holder ≠ some k
  | .lock square =>
    drawn samples k = p ∧ square = estimate task nThreads p samples k ∧ sh.holder ≠ some k
  | .load square =>
    drawn samples k = p ∧ square = estimate task nThreads p samples k ∧ sh.holder = some k
  | .store square old =>
    drawn samples k = p ∧ square = estimate task nThreads p samples k ∧ sh.holder = some k ∧
      old = sh.resSquare
  | .unlock => drawn samples k = p ∧ sh.holder = some k
  | .finished => drawn samples k = p ∧ sh.holder ≠ some k

/-- The sum of what has been added. Without points it is not a number from the first addition
on. -/
def storedSum (s : McState) (samples : List Sample) : Option ℚ :=
  if p = 0 ∧ s.stored ≠ ∅ then none
  else some (∑ k ∈ s.stored, contribution task nThreads p samples k)

structure McInv (s : McState) (samples : List Sample) : Prop where
  created_le : s.created ≤ nThreads
  joined_le : s.joined ≤ s.created
  joined : ∀ k < s.joined, s.thread k = .finished
  thread : ∀ k < s.created, ThreadInv task nThreads p samples s.shared k (s.thread k)
  holder : ∀ k, s.shared.holder = some k → k < s.created
  fresh : ∀ q ∈ samples, q.thread < s.created
  sum : s.shared.resSquare = storedSum task nThreads p s samples

end Inv

section Steps
variable {task : WorkerTask} {nThreads p : ℕ} {samples : List Sample}

/-- Another thread's step leaves a thread as it is, unless it takes the mutex from it or stores
while it holds it. -/
theorem ThreadInv.frame {samples' : List Sample} {sh sh' : Shared} {k : ℕ} {pc : ThreadPc}
    (h : ThreadInv task nThreads p samples sh k pc) (hdrawn : drawn samples' k = drawn samples k)
    (hhits : hits samples' k = hits samples k)
    (hholder : sh'.holder = some k ↔ sh.holder = some k)
    (hres : sh.holder = some k → sh'.resSquare = sh.resSquare) :
    ThreadInv task nThreads p samples' sh' k pc := by
  have hest : estimate task nThreads p samples' k = estimate task nThreads p samples k := by
    unfold estimate contribution
    rw [hhits]
  cases pc with
  | loop i square =>
    obtain ⟨hi, hd, hs, hh⟩ := h
    exact ⟨hi, hdrawn.trans hd, by rw [hs, hhits], mt hholder.mp hh⟩
  | lock square =>
    obtain ⟨hd, hs, hh⟩ := h
    exact ⟨hdrawn.trans hd, hs.trans hest.symm, mt hholder.mp hh⟩
  | load square =>
    obtain ⟨hd, hs, hh⟩ := h
    exact ⟨hdrawn.trans hd, hs.trans hest.symm, hholder.mpr hh⟩
  | store square old =>
    obtain ⟨hd, hs, hh, hold⟩ := h
    exact ⟨hdrawn.trans hd, hs.trans hest.symm, hholder.mpr hh, hold.trans (hres hh).symm⟩
  | unlock =>
    obtain ⟨hd, hh⟩ := h
    exact ⟨hdrawn.trans hd, hholder.mpr hh⟩
  | finished =>
    obtain ⟨hd, hh⟩ := h
    exact ⟨hdrawn.trans hd, mt hholder.mp hh⟩

theorem mem_stored {s : McState} {k : ℕ} :
    k ∈ s.stored ↔ k < s.created ∧ (s.thread k).Stored := by
  unfold McState.stored
  rw [Finset.mem_filter, Finset.mem_range]

theorem stored_update_of_iff {s : McState} {k : ℕ} {pc : ThreadPc} {sh : Shared}
    (h : pc.Stored ↔ (s.thread k).Stored) :
    ({ s with thread := Function.update s.thread k pc, shared := sh } : McState).stored =
      s.stored := by
  ext j
  rw [mem_stored, mem_stored]
  dsimp only
  by_cases hj : j = k
  · rw [hj, Function.update_self, h]
  · rw [Function.update_of_ne hj]

theorem storedSum_congr {s t : McState} {samples' : List Sample} (hstored : t.stored = s.stored)
    (hhits : ∀ k ∈ s.stored, hits samples' k = hits samples k) :
    storedSum task nThreads p t samples' = storedSum task nThreads p s samples := by
  have hsum : ∑ k ∈ t.stored, contribution task nThreads p samples' k =
      ∑ k ∈ s.stored, contribution task nThreads p samples k := by
    rw [hstored]
    apply Finset.sum_congr rfl
    intro k hk
    unfold contribution
    rw [hhits k hk]
  unfold storedSum
  rw [hsum, hstored]

theorem storedSum_insert {s t : McState} {k : ℕ} (hk : k ∉ s.stored)
    (hstored : t.stored = insert k s.stored) :
    storedSum task nThreads p t samples = Option.map₂ (· + ·) (storedSum task nThreads p s samples)
      (estimate task nThreads p samples k) := by
  have hne : t.stored ≠ ∅ := by
    rw [hstored]
    exact Finset.insert_ne_empty k s.stored
  unfold storedSum estimate
  by_cases hp : p = 0
  · rw [if_pos ⟨hp, hne⟩, if_pos hp, Option.map₂_none_right]
  · have hnot : ∀ u : McState, ¬ (p = 0 ∧ u.stored ≠ ∅) := fun u h => hp h.1
    rw [if_neg (hnot t), if_neg (hnot s), if_neg hp, hstored, Finset.sum_insert hk, add_comm]
    rfl

section Thread
variable {a : Args} {k : ℕ} {pc pc' : ThreadPc} {sh sh' : Shared}

theorem threadInv_step (ha : a = threadArgs task nThreads k) (hp : a.pointsNum = p)
    (h : ThreadInv task nThreads p samples sh k pc) (ht : threadStep a k pc sh = some (pc', sh')) :
    ThreadInv task nThreads p samples sh' k pc' ∧ pc'.left p < pc.left p ∧
      (∀ j ≠ k, (sh'.holder = some j ↔ sh.holder = some j) ∧
        (sh.holder = some j → sh'.resSquare = sh.resSquare)) ∧
      ((pc'.Stored ↔ pc.Stored) ∧ sh'.resSquare = sh.resSquare ∨
        ¬ pc.Stored ∧ pc'.Stored ∧ sh'.resSquare =
          Option.map₂ (· + ·) sh.resSquare (estimate task nThreads p samples k)) := by
  have hsame : ∀ j ≠ k, (sh.holder = some j ↔ sh.holder = some j) ∧
      (sh.holder = some j → sh.resSquare = sh.resSquare) := fun _ _ => ⟨Iff.rfl, fun _ => rfl⟩
  have hother : ∀ j ≠ k, (some k : Option ℕ) ≠ some j := fun j hj he => hj (Option.some.inj he).symm
  cases pc with
  | loop i square =>
    obtain ⟨hi, hd, hs, hh⟩ := h
    obtain ⟨hend, ht⟩ := Option.ite_none_right_eq_some.mp ht
    cases ht
    have hip : i = p := by omega
    have hest : scaled a square = estimate task nThreads p samples k := by
      unfold scaled estimate contribution
      rw [hp, hs, ha]
      simp only [Nat.cast_eq_zero, Int.cast_natCast]
    refine ⟨⟨hd.trans hip, hest, hh⟩, ?_, hsame, Or.inl ⟨Iff.rfl, rfl⟩⟩
    change 4 < p - i + 5
    omega
  | lock square =>
    obtain ⟨hd, hs, hh⟩ := h
    obtain ⟨hfree, ht⟩ := Option.ite_none_right_eq_some.mp ht
    cases ht
    refine ⟨⟨hd, hs, rfl⟩, Nat.lt_succ_self 3, ?_, Or.inl ⟨Iff.rfl, rfl⟩⟩
    intro j hj
    rw [hfree]
    exact ⟨iff_of_false (hother j hj) nofun, nofun⟩
  | load square =>
    obtain ⟨hd, hs, hh⟩ := h
    cases ht
    exact ⟨⟨hd, hs, hh, rfl⟩, Nat.lt_succ_self 2, hsame, Or.inl ⟨Iff.rfl, rfl⟩⟩
  | store square old =>
    obtain ⟨hd, hs, hh, hold⟩ := h
    cases ht
    refine ⟨⟨hd, hh⟩, Nat.lt_succ_self 1, ?_, Or.inr ⟨id, trivial, by rw [hold, hs]⟩⟩
    intro j hj
    refine ⟨Iff.rfl, ?_⟩
    intro hhj
    exact absurd (hh.symm.trans hhj) (hother j hj)
  | unlock =>
    obtain ⟨hd, hh⟩ := h
    cases ht
    refine ⟨⟨hd, nofun⟩, Nat.lt_succ_self 0, ?_, Or.inl ⟨Iff.rfl, rfl⟩⟩
    intro j hj
    rw [hh]
    exact ⟨iff_of_false nofun (hother j hj), fun hhj => absurd hhj (hother j hj)⟩
  | finished => cases ht

/-- One pass of a thread's loop. -/
theorem threadInv_sample {rx ry : ℕ} (hp : a.pointsNum = p)
    (h : ThreadInv task nThreads p samples sh k pc) (ht : sampleStep a pc rx ry = some pc') :
    ThreadInv task nThreads p
        (⟨k, sampled a.x1 a.x2 rx, sampled a.y1 a.y2 ry⟩ :: samples) sh k pc' ∧
      pc'.left p < pc.left p ∧ ¬ pc.Stored ∧ ¬ pc'.Stored := by
  cases pc with
  | loop i square =>
    obtain ⟨hi, hd, hs, hh⟩ := h
    obtain ⟨⟨hlt, _⟩, ht⟩ := Option.ite_none_right_eq_some.mp ht
    cases ht
    rw [hp] at hlt
    have hip : i < p := by omega
    refine ⟨⟨hip, ?_, ?_, hh⟩, ?_, id, id⟩
    · rw [drawn_cons, if_pos rfl, hd]
    · rw [hits_cons, hs]
      simp only [Sample.Hit, true_and]
      split_ifs
      · push_cast
        rfl
      · push_cast
        rw [add_zero]
    · change p - (i + 1) + 5 < p - i + 5
      omega
  | lock _ => cases ht
  | load _ => cases ht
  | store _ _ => cases ht
  | unlock => cases ht
  | finished => cases ht

end Thread

theorem mcInv_start (task : WorkerTask) (nThreads p : ℕ) :
    McInv task nThreads p mcStart [] where
  created_le := Nat.zero_le _
  joined_le := le_rfl
  joined := fun k hk => absurd hk (Nat.not_lt_zero k)
  thread := fun k hk => absurd hk (Nat.not_lt_zero k)
  holder := nofun
  fresh := nofun
  sum := by
    unfold storedSum
    rw [if_neg (fun h => h.2 rfl)]
    rfl

section Machine
variable {s t : McState}

theorem McInv.create (h : McInv task nThreads p s samples) (hlt : s.created < nThreads) :
    McInv task nThreads p { s with
      created := s.created + 1
      thread := Function.update s.thread s.created (.loop 0 0) } samples := by
  have hfresh : ∀ q ∈ samples, q.thread ≠ s.created := fun q hq => (h.fresh q hq).ne
  constructor
  · exact hlt
  · exact h.joined_le.trans (Nat.le_succ _)
  · intro k hk
    have hne : k ≠ s.created := (hk.trans_le h.joined_le).ne
    dsimp only
    rw [Function.update_of_ne hne]
    exact h.joined k hk
  · intro k hk
    dsimp only at hk ⊢
    by_cases hnew : k = s.created
    · have hdrawn : drawn samples k = 0 := by
        apply List.countP_eq_zero.mpr
        intro q hq
        simpa [hnew] using hfresh q hq
      have hhits : hits samples k = 0 := by
        apply List.countP_eq_zero.mpr
        intro q hq
        simp [hnew, hfresh q hq]
      have hholder : s.shared.holder ≠ some k := by
        intro hh
        have hlt := h.holder k hh
        omega
      rw [hnew, Function.update_self, ← hnew]
      refine ⟨Nat.zero_le p, hdrawn, ?_, hholder⟩
      rw [hhits]
      rfl
    · rw [Function.update_of_ne hnew]
      exact h.thread k (by omega)
  · intro k hk
    exact (h.holder k hk).trans (Nat.lt_succ_self _)
  · intro q hq
    exact (h.fresh q hq).trans (Nat.lt_succ_self _)
  · refine h.sum.trans (storedSum_congr ?_ (fun _ _ => rfl)).symm
    ext k
    rw [mem_stored, mem_stored]
    dsimp only
    by_cases hnew : k = s.created
    · rw [hnew, Function.update_self]
      exact iff_of_false (fun hs => hs.2) (fun hs => lt_irrefl _ hs.1)
    · rw [Function.update_of_ne hnew]
      refine and_congr_left fun _ => ?_
      omega

theorem McInv.join (h : McInv task nThreads p s samples) (hcreated : s.joined < s.created)
    (hf : s.thread s.joined = .finished) :
    McInv task nThreads p { s with joined := s.joined + 1 } samples where
  created_le := h.created_le
  joined_le := hcreated
  joined := by
    intro k hk
    rcases Nat.lt_succ_iff_lt_or_eq.mp hk with hk | rfl
    · exact h.joined k hk
    · exact hf
  thread := h.thread
  holder := h.holder
  fresh := h.fresh
  sum := h.sum

theorem McInv.sample (h : McInv task nThreads p s samples) {k rx ry : ℕ} {pc : ThreadPc}
    (hp : truncate (task.numOfPoints.val / nThreads) = p) (hk : k < s.created)
    (ht : sampleStep (threadArgs task nThreads k) (s.thread k) rx ry = some pc) :
    let a := threadArgs task nThreads k
    McInv task nThreads p { s with thread := Function.update s.thread k pc }
      (⟨k, sampled a.x1 a.x2 rx, sampled a.y1 a.y2 ry⟩ :: samples) := by
  intro a
  obtain ⟨hnew, _, hbefore, hafter⟩ := threadInv_sample (a := a) hp (h.thread k hk) ht
  have hother : ∀ (q : Sample) j, q.thread = k → j ≠ k →
      drawn (q :: samples) j = drawn samples j ∧ hits (q :: samples) j = hits samples j := by
    intro q j hq hj
    rw [drawn_cons, hits_cons, if_neg (by rw [hq]; exact hj.symm),
      if_neg (by rw [hq]; exact fun hc => hj hc.1.symm)]
    exact ⟨rfl, rfl⟩
  constructor
  · exact h.created_le
  · exact h.joined_le
  · intro j hj
    dsimp only at hj ⊢
    by_cases hjk : j = k
    · subst hjk
      rw [h.joined j hj] at hbefore
      exact absurd trivial hbefore
    · rw [Function.update_of_ne hjk]
      exact h.joined j hj
  · intro j hj
    dsimp only at hj ⊢
    by_cases hjk : j = k
    · subst hjk
      rw [Function.update_self]
      exact hnew
    · obtain ⟨hd, hh⟩ := hother ⟨k, sampled a.x1 a.x2 rx, sampled a.y1 a.y2 ry⟩ j rfl hjk
      rw [Function.update_of_ne hjk]
      exact (h.thread j hj).frame hd hh Iff.rfl fun _ => rfl
  · exact h.holder
  · intro q hq
    rcases List.mem_cons.mp hq with rfl | hq
    · exact hk
    · exact h.fresh q hq
  · refine h.sum.trans (storedSum_congr ?_ ?_).symm
    · exact stored_update_of_iff (iff_of_false hafter hbefore)
    · intro j hj
      have hjk : j ≠ k := by
        rintro rfl
        exact hbefore (mem_stored.mp hj).2
      exact (hother _ j rfl hjk).2

theorem McInv.run (h : McInv task nThreads p s samples) {k : ℕ} {pc : ThreadPc} {sh : Shared}
    (hp : truncate (task.numOfPoints.val / nThreads) = p) (hk : k < s.created)
    (ht : threadStep (threadArgs task nThreads k) k (s.thread k) s.shared = some (pc, sh)) :
    McInv task nThreads p { s with thread := Function.update s.thread k pc, shared := sh }
      samples := by
  obtain ⟨hnew, _, hother, hstore⟩ := threadInv_step rfl hp (h.thread k hk) ht
  constructor
  · exact h.created_le
  · exact h.joined_le
  · intro j hj
    dsimp only at hj ⊢
    by_cases hjk : j = k
    · subst hjk
      rw [h.joined j hj] at ht
      cases ht
    · rw [Function.update_of_ne hjk]
      exact h.joined j hj
  · intro j hj
    dsimp only at hj ⊢
    by_cases hjk : j = k
    · subst hjk
      rw [Function.update_self]
      exact hnew
    · rw [Function.update_of_ne hjk]
      exact (h.thread j hj).frame rfl rfl (hother j hjk).1 (hother j hjk).2
  · intro j hj
    dsimp only at hj ⊢
    by_cases hjk : j = k
    · rw [hjk]
      exact hk
    · exact h.holder j ((hother j hjk).1.mp hj)
  · exact h.fresh
  · rcases hstore with ⟨hiff, hres⟩ | ⟨hbefore, hafter, hres⟩
    · refine hres.trans (h.sum.trans (storedSum_congr ?_ (fun _ _ => rfl)).symm)
      exact stored_update_of_iff hiff
    · refine hres.trans ?_
      rw [h.sum, ← storedSum_insert (fun hm => hbefore (mem_stored.mp hm).2)]
      ext j
      rw [Finset.mem_insert, mem_stored, mem_stored]
      dsimp only
      by_cases hjk : j = k
      · rw [hjk, Function.update_self]
        exact iff_of_true ⟨hk, hafter⟩ (Or.inl rfl)
      · rw [Function.update_of_ne hjk, or_iff_right hjk]

theorem mcInv_step (hp : truncate (task.numOfPoints.val / nThreads) = p) {a : McAction}
    (h : McInv task nThreads p s samples) (ht : mcStep task nThreads s a = some t) :
    McInv task nThreads p t (recordSample task nThreads s a t samples) := by
  cases a with
  | main =>
    unfold mcStep at ht
    dsimp only at ht
    split_ifs at ht with hcreate hjoin
    · cases ht
      exact h.create hcreate
    · cases ht
      exact h.join (by have := h.created_le; omega) hjoin.2
  | sample k rx ry =>
    obtain ⟨hk, ht⟩ := Option.ite_none_right_eq_some.mp ht
    obtain ⟨pc, hpc, rfl⟩ := Option.map_eq_some_iff.mp ht
    exact h.sample hp hk hpc
  | run k =>
    obtain ⟨hk, ht⟩ := Option.ite_none_right_eq_some.mp ht
    obtain ⟨r, hr, rfl⟩ := Option.map_eq_some_iff.mp ht
    exact h.run hp hk hr

end Machine

end Steps

end OsTasks.Integral

import OsTasks.Integral.Split
import OsTasks.Lib.Tiling

/-! When the slabs the master of task_8 sends to its workers partition the main rectangle. -/
namespace OsTasks.Integral
open OsTasks.Lib

/-- The slabs lie end to end over the main rectangle and span its height. -/
structure Partitions (main : Task) (slabs : List Task) : Prop where
  tiles : Tiles main.x1 main.x2 (slabs.map fun t => (t.x1, t.x2))
  height : ∀ t ∈ slabs, t.y1 = main.y1 ∧ t.y2 = main.y2

/-- A partition by slabs of nonnegative width covers every abscissa once. -/
theorem Partitions.countP_slab {main : Task} {slabs : List Task} (h : Partitions main slabs)
    (hle : ∀ t ∈ slabs, t.x1 ≤ t.x2) {x : ℚ} (hx : main.x1 ≤ x ∧ x < main.x2) :
    slabs.countP (fun t => t.x1 ≤ x ∧ x < t.x2) = 1 := by
  have hc := h.tiles.countP_mem (x := x) (by simpa using hle)
  rw [if_pos hx, List.countP_map] at hc
  exact hc

def coreSum (workers : List Worker) : ℤ := (workers.map fun w => w.numOfCores.val).sum

theorem coreSum_nonneg {workers : List Worker} (hc : ∀ w ∈ workers, 1 ≤ w.numOfCores.val) :
    0 ≤ coreSum workers := by
  refine List.sum_nonneg fun x hx => ?_
  obtain ⟨w, hw, rfl⟩ := List.mem_map.mp hx
  exact zero_le_one.trans (hc w hw)

theorem le_coreSum {workers : List Worker} (hc : ∀ w ∈ workers, 1 ≤ w.numOfCores.val)
    {w : Worker} (hw : w ∈ workers) : w.numOfCores.val ≤ coreSum workers := by
  refine List.single_le_sum (fun x hx => ?_) _ (List.mem_map_of_mem hw)
  obtain ⟨v, hv, rfl⟩ := List.mem_map.mp hx
  exact zero_le_one.trans (hc v hv)

theorem coreSum_pos {workers : List Worker} (hn : workers ≠ [])
    (hc : ∀ w ∈ workers, 1 ≤ w.numOfCores.val) : 0 < coreSum workers := by
  obtain ⟨w, hw⟩ := List.exists_mem_of_ne_nil _ hn
  have hone := hc w hw
  have hle := le_coreSum hc hw
  omega

private theorem foldlM_cores {workers : List Worker} (hc : ∀ w ∈ workers, 1 ≤ w.numOfCores.val)
    (n m : CInt) (hn : 0 ≤ n.val) :
    workers.foldlM (fun n w => n.add? w.numOfCores) n = some m ↔
      m.val = n.val + coreSum workers := by
  induction workers generalizing n with
  | nil =>
    simp only [List.foldlM_nil, coreSum, List.map_nil, List.sum_nil, add_zero]
    exact ⟨fun h => by cases h; rfl, fun h => congrArg some (SInt.ext_val h.symm)⟩
  | cons w ws ih =>
    have hw := hc w (by simp)
    have hws : ∀ v ∈ ws, 1 ≤ v.numOfCores.val := fun v hv => hc v (by simp [hv])
    have hsum := coreSum_nonneg hws
    have hcons : coreSum (w :: ws) = w.numOfCores.val + coreSum ws := List.sum_cons
    rw [List.foldlM_cons, hcons]
    cases ha : n.add? w.numOfCores with
    | none =>
      refine iff_of_false nofun fun hm => ?_
      have hup := m.upper
      have hlo := n.lower
      have : (n.add? w.numOfCores).isSome := SInt.ofInt?_isSome_iff.mpr ⟨by omega, by omega⟩
      simp [ha] at this
    | some k =>
      have hk := SInt.add?_eq_some_iff.mp ha
      change List.foldlM _ k ws = some m ↔ _
      rw [ih hws k (by omega), hk]
      constructor <;> intro h <;> omega

theorem totalCores_eq_some_iff {workers : List Worker}
    (hc : ∀ w ∈ workers, 1 ≤ w.numOfCores.val) (m : CInt) :
    totalCores workers = some m ↔ m.val = coreSum workers := by
  unfold totalCores
  rw [foldlM_cores hc 0 m le_rfl, SInt.val_zero, zero_add]

private theorem exists_mapM_forall₂ {α β : Type} {f : α → Option β} {R : α → β → Prop}
    {l : List α} (h : ∀ a ∈ l, ∃ b, f a = some b ∧ R a b) :
    ∃ bs, l.mapM f = some bs ∧ List.Forall₂ R l bs := by
  induction l with
  | nil => exact ⟨[], rfl, .nil⟩
  | cons a l ih =>
    obtain ⟨b, hb, hR⟩ := h a (by simp)
    obtain ⟨bs, hbs, hRs⟩ := ih fun a' ha' => h a' (by simp [ha'])
    refine ⟨b :: bs, ?_, .cons hR hRs⟩
    rw [List.mapM_cons, hb, hbs]
    rfl

/-- The task of core `i` when the main task is cut for `total` cores. -/
structure CoreSlab (main : Task) (total : ℤ) (i : ℕ) (t : Task) : Prop where
  x1 : t.x1 = (main.x2 - main.x1) / total * i + main.x1
  x2 : t.x2 = (main.x2 - main.x1) / total * (i + 1) + main.x1
  y1 : t.y1 = main.y1
  y2 : t.y2 = main.y2
  numOrPoints : t.numOrPoints.val = main.numOrPoints.val.tdiv total

private theorem exists_coreTask (main : Task) {n : CInt} (hn : 1 ≤ n.val) (i : ℕ) :
    ∃ t, coreTask main n i = some t ∧ CoreSlab main n.val i t := by
  have hb := SInt.tdiv_mul_between main.numOrPoints.val (by omega : 0 < n.val) zero_le_one hn
  rw [mul_one] at hb
  obtain ⟨points, hp⟩ := SInt.exists_ofInt?_of_between main.numOrPoints hb.1 hb.2
  have hdiv : main.numOrPoints.div? n = some points := by
    rw [SInt.div?, if_neg (by omega), hp]
  let width := (main.x2 - main.x1) / n.val
  refine ⟨⟨width * i + main.x1, width * (i + 1) + main.x1, main.y1, main.y2, points⟩, ?_,
    rfl, rfl, rfl, rfl, SInt.ofInt?_eq_some_iff.mp hp⟩
  unfold coreTask
  rw [hdiv]
  rfl

/-- `split_tasks` cuts the main task into one slab for each core. -/
theorem exists_splitTasks {server : Server} (main : Task)
    (hn : server.workers ≠ []) (hc : ∀ w ∈ server.workers, 1 ≤ w.numOfCores.val)
    (hsum : coreSum server.workers < 2 ^ 31) :
    ∃ tasks, splitTasks server main = some { server with tasks := tasks } ∧
      List.Forall₂ (CoreSlab main (coreSum server.workers))
        (List.range (coreSum server.workers).toNat) tasks := by
  have hlo := coreSum_nonneg hc
  let n : CInt := ⟨coreSum server.workers, by omega, by simpa using hsum⟩
  have htotal : totalCores server.workers = some n := (totalCores_eq_some_iff hc n).mpr rfl
  have hn1 : 1 ≤ n.val := coreSum_pos hn hc
  obtain ⟨tasks, ht, hslab⟩ := exists_mapM_forall₂ (l := List.range n.val.toNat)
    fun i _ => exists_coreTask main hn1 i
  refine ⟨tasks, ?_, hslab⟩
  unfold splitTasks
  rw [htotal]
  change (List.mapM (coreTask main n) (List.range n.val.toNat)).bind _ = _
  rw [ht]
  rfl

theorem splitTasks_eq_none {server : Server} (main : Task)
    (hc : ∀ w ∈ server.workers, 1 ≤ w.numOfCores.val)
    (hsum : 2 ^ 31 ≤ coreSum server.workers) : splitTasks server main = none := by
  cases ht : totalCores server.workers with
  | none => rw [splitTasks, ht]; rfl
  | some n =>
    have hval := (totalCores_eq_some_iff hc n).mp ht
    have hup : n.val < 2 ^ 31 := n.upper
    omega

private theorem taskAt_of_forall₂ {R : ℕ → Task → Prop} {tasks : List Task} {n i : ℤ}
    (h : List.Forall₂ R (List.range n.toNat) tasks) (h0 : 0 ≤ i) (hi : i < n) :
    ∃ t, taskAt tasks i = some t ∧ R i.toNat t := by
  have hlen := h.length_eq
  rw [List.length_range] at hlen
  have hlt : i.toNat < tasks.length := by omega
  refine ⟨tasks[i.toNat], ?_, ?_⟩
  · unfold taskAt
    rw [if_pos h0]
    exact List.getElem?_eq_getElem hlt
  · have hr : i.toNat < (List.range n.toNat).length := by rw [List.length_range]; omega
    simpa only [List.get_eq_getElem, List.getElem_range] using h.get hr hlt

/-- The slab the source sends to a worker with `cores` of the `total` cores: each starts at
the first core's task. -/
structure SlabOf (main : Task) (total cores : ℤ) (t : Task) : Prop where
  x1 : t.x1 = main.x1
  x2 : t.x2 = (main.x2 - main.x1) / total * cores + main.x1
  y1 : t.y1 = main.y1
  y2 : t.y2 = main.y2
  numOrPoints : t.numOrPoints.val = main.numOrPoints.val.tdiv total * cores

private theorem exists_workerTask {main : Task} {n : ℤ} {tasks : List Task} {w : Worker}
    (hslab : List.Forall₂ (CoreSlab main n) (List.range n.toNat) tasks)
    (h1 : 1 ≤ w.numOfCores.val) (hw : w.numOfCores.val ≤ n) :
    ∃ t, workerTask tasks 0 w = some t ∧ SlabOf main n w.numOfCores.val t := by
  obtain ⟨first, hf, hfirst⟩ := taskAt_of_forall₂ hslab le_rfl (by omega)
  obtain ⟨last, hl, hlast⟩ :=
    taskAt_of_forall₂ (i := 0 + w.numOfCores.val - 1) hslab (by omega) (by omega)
  have hb := SInt.tdiv_mul_between main.numOrPoints.val (by omega : 0 < n) (by omega) hw
  rw [← hfirst.numOrPoints] at hb
  obtain ⟨points, hp⟩ := SInt.exists_ofInt?_of_between main.numOrPoints hb.1 hb.2
  have hpoints := SInt.ofInt?_eq_some_iff.mp hp
  have hcast : (((0 + w.numOfCores.val - 1).toNat : ℚ) + 1) = w.numOfCores.val := by
    have : (((0 + w.numOfCores.val - 1).toNat : ℤ) + 1) = w.numOfCores.val := by omega
    exact_mod_cast this
  refine ⟨⟨first.x1, last.x2, first.y1, last.y2, points⟩, ?_, ?_, ?_, ?_, ?_, ?_⟩
  · have hm : first.numOrPoints.mul? w.numOfCores = some points := hp
    simp only [workerTask, hf, hl, hm, Option.bind_eq_bind, Option.bind_some]
    rfl
  · rw [hfirst.x1, Int.toNat_zero, Nat.cast_zero, mul_zero, zero_add]
  · rw [hlast.x2, hcast]
  · exact hfirst.y1
  · exact hlast.y2
  · rw [hpoints, hfirst.numOrPoints]

/-- What the master sends: to each worker's socket, its slab. -/
theorem exists_sendTask {server : Server} (main : Task)
    (hn : server.workers ≠ []) (hc : ∀ w ∈ server.workers, 1 ≤ w.numOfCores.val)
    (hsum : coreSum server.workers < 2 ^ 31) :
    ∃ sent, (splitTasks server main).bind sendTask = some sent ∧
      List.Forall₂ (fun w p => p.1 = w.socket ∧
        SlabOf main (coreSum server.workers) w.numOfCores.val p.2) server.workers sent := by
  obtain ⟨tasks, hsplit, hslab⟩ := exists_splitTasks main hn hc hsum
  obtain ⟨sent, hsent, hR⟩ := exists_mapM_forall₂ (l := server.workers)
    (f := fun w => (workerTask tasks 0 w).bind fun t => some (w.socket, t))
    (R := fun w p => p.1 = w.socket ∧
      SlabOf main (coreSum server.workers) w.numOfCores.val p.2) fun w hw => by
    obtain ⟨t, ht, hs⟩ := exists_workerTask hslab (hc w hw) (le_coreSum hc hw)
    exact ⟨(w.socket, t), by rw [ht]; rfl, rfl, hs⟩
  refine ⟨sent, ?_, hR⟩
  rw [hsplit]
  exact hsent

theorem map_of_forall₂ {α β γ : Type} {f : α → γ} {g : β → γ} {l : List α} {l' : List β}
    (h : List.Forall₂ (fun a b => g b = f a) l l') : l'.map g = l.map f := by
  induction h with
  | nil => rfl
  | cons hab _ ih => rw [List.map_cons, List.map_cons, hab, ih]

theorem exists_of_forall₂ {α β : Type} {R : α → β → Prop} {l : List α} {l' : List β}
    (h : List.Forall₂ R l l') {b : β} (hb : b ∈ l') : ∃ a ∈ l, R a b := by
  induction h with
  | nil => cases hb
  | cons hab _ ih =>
    rcases List.mem_cons.mp hb with rfl | hb
    · exact ⟨_, List.mem_cons_self, hab⟩
    · obtain ⟨a, ha, hR⟩ := ih hb
      exact ⟨a, List.mem_cons_of_mem _ ha, hR⟩

private theorem edges_of_forall₂ {main : Task} {n : ℤ} {workers : List Worker}
    {sent : List (ℕ × Task)}
    (h : List.Forall₂ (fun w p => p.1 = w.socket ∧ SlabOf main n w.numOfCores.val p.2)
      workers sent) :
    (sent.map Prod.snd).map (fun t => (t.x1, t.x2)) = workers.map fun w =>
      (main.x1, (main.x2 - main.x1) / n * w.numOfCores.val + main.x1) := by
  rw [List.map_map]
  apply map_of_forall₂
  apply h.imp
  intro w p hp
  rw [Function.comp_apply, hp.2.x1, hp.2.x2]

private theorem height_of_forall₂ {main : Task} {n : ℤ} {workers : List Worker}
    {sent : List (ℕ × Task)}
    (h : List.Forall₂ (fun w p => p.1 = w.socket ∧ SlabOf main n w.numOfCores.val p.2)
      workers sent) :
    ∀ t ∈ sent.map Prod.snd, t.y1 = main.y1 ∧ t.y2 = main.y2 := by
  intro t ht
  obtain ⟨p, hp, rfl⟩ := List.mem_map.mp ht
  obtain ⟨w, _, _, hslab⟩ := exists_of_forall₂ h hp
  exact ⟨hslab.y1, hslab.y2⟩

private theorem tiles_const {α : Type} {x : ℚ} (l : List α) :
    Tiles x x (l.map fun _ => (x, x)) := by
  induction l with
  | nil => rfl
  | cons a l ih => exact ⟨rfl, ih⟩

private theorem tiles_iff (main : Task) {workers : List Worker} (hn : workers ≠ [])
    (hc : ∀ w ∈ workers, 1 ≤ w.numOfCores.val) :
    Tiles main.x1 main.x2 (workers.map fun w =>
        (main.x1, (main.x2 - main.x1) / (coreSum workers) * w.numOfCores.val + main.x1)) ↔
      workers.length = 1 ∨ main.x1 = main.x2 := by
  cases workers with
  | nil => exact absurd rfl hn
  | cons w ws =>
    have hpos : (0 : ℚ) < coreSum (w :: ws) := by exact_mod_cast coreSum_pos hn hc
    constructor
    · intro h
      cases ws with
      | nil => exact Or.inl rfl
      | cons v vs =>
        -- the second slab starts at `x1` again, so the first one has no width
        have hnext : main.x1 =
            (main.x2 - main.x1) / coreSum (w :: v :: vs) * w.numOfCores.val + main.x1 := h.2.1
        have hcores : (0 : ℚ) < w.numOfCores.val := by
          exact_mod_cast hc w List.mem_cons_self
        have hzero : (main.x2 - main.x1) / coreSum (w :: v :: vs) * w.numOfCores.val = 0 := by
          linarith
        rcases mul_eq_zero.mp hzero with hd | hd
        · rcases div_eq_zero_iff.mp hd with hx | hx
          · exact Or.inr (by linarith)
          · exact absurd hx hpos.ne'
        · exact absurd hd hcores.ne'
    · rintro (h | h)
      · obtain rfl : ws = [] := List.length_eq_zero_iff.mp (by simpa using h)
        refine ⟨rfl, ?_⟩
        have hsum : coreSum [w] = w.numOfCores.val := by simp [coreSum]
        rw [hsum] at hpos
        change (main.x2 - main.x1) / (coreSum [w]) * w.numOfCores.val + main.x1 = main.x2
        rw [hsum, div_mul_cancel₀ _ hpos.ne', sub_add_cancel]
      · have hedge : ∀ v : Worker, (main.x2 - main.x1) / (coreSum (w :: ws)) *
            v.numOfCores.val + main.x1 = main.x1 := by
          intro v
          rw [h, sub_self, zero_div, zero_mul, zero_add]
        simp only [hedge]
        rw [← h]
        exact tiles_const (w :: ws)

/-- The slabs sent to the workers partition the main rectangle exactly when there is one
worker, or the rectangle has no width and the sum of the core counts is an `int`. -/
theorem sendTask_partitions_iff {server : Server} (main : Task) (hn : server.workers ≠ [])
    (hc : ∀ w ∈ server.workers, 1 ≤ w.numOfCores.val) :
    (∃ sent, (splitTasks server main).bind sendTask = some sent ∧
        Partitions main (sent.map Prod.snd)) ↔
      server.workers.length = 1 ∨ main.x1 = main.x2 ∧ coreSum server.workers < 2 ^ 31 := by
  by_cases hsum : coreSum server.workers < 2 ^ 31
  · obtain ⟨sent, hsent, hslab⟩ := exists_sendTask main hn hc hsum
    have htiles := tiles_iff main hn hc
    rw [← edges_of_forall₂ hslab] at htiles
    rw [hsent]
    constructor
    · rintro ⟨_, ⟨⟩, hp⟩
      exact (htiles.mp hp.tiles).imp_right fun h => ⟨h, hsum⟩
    · intro h
      exact ⟨sent, rfl, htiles.mpr (h.imp_right And.left), height_of_forall₂ hslab⟩
  · rw [splitTasks_eq_none main hc (not_lt.mp hsum)]
    refine iff_of_false (fun ⟨_, h, _⟩ => nomatch h) ?_
    rintro (h | ⟨_, h⟩)
    · obtain ⟨w, hw⟩ := List.length_eq_one_iff.mp h
      have hup : w.numOfCores.val < 2 ^ 31 := w.numOfCores.upper
      have hone : coreSum server.workers = w.numOfCores.val := by simp [coreSum, hw]
      omega
    · exact hsum h

theorem one_worker_gets_main_task :
    ∃ sent, (splitTasks ⟨[oneCore 4], by decide, []⟩ mainTask).bind sendTask = some sent ∧
      Partitions mainTask (sent.map Prod.snd) := by
  refine (sendTask_partitions_iff mainTask (List.cons_ne_nil _ _) ?_).mpr (Or.inl rfl)
  intro w hw
  rw [List.mem_singleton.mp hw]
  decide

/-- Two workers of one core are both sent the left half. -/
theorem two_workers_same_half :
    ∃ sent, (splitTasks ⟨[oneCore 4, oneCore 5], by decide, []⟩ mainTask).bind sendTask =
        some sent ∧
      sent.map (fun p => (p.1, p.2.x1, p.2.x2)) = [(4, 0, 3 / 2), (5, 0, 3 / 2)] ∧
      ¬ Partitions mainTask (sent.map Prod.snd) := by
  refine ⟨_, rfl, by decide +kernel, fun h => ?_⟩
  exact absurd h.tiles.2.1 (by decide +kernel)

end OsTasks.Integral

import OsTasks.FileServer.PoolStreams

/-! When every client of the file server gets its files whole, whatever the pool does. -/
namespace OsTasks.FileServer
open OsTasks.Lib

variable {w : World} {reqs : List Request}

/-- A job that copies, or is done, has opened its FIFO and its file. -/
def Opened (w : World) (reqs : List Request) (s : PoolState) : Prop :=
  ∀ j r, reqs[j]? = some r →
    (s.job j = .running .openFile → w.opens r.destFileName = true) ∧
    ((s.job j = .finished ∨ ∃ rest, s.job j = .running (.copy rest)) →
      w.opens r.destFileName = true ∧ (w.file r.fileName).isSome)

theorem opened_init : Opened w reqs (pool w reqs).init :=
  fun _ _ _ => ⟨nofun, fun h => h.elim nofun nofun⟩

theorem opened_setJob {s : PoolState} (h : Opened w reqs s) {j : ℕ} {pc : JobPc}
    (hopen : ∀ r, reqs[j]? = some r → pc = .running .openFile → w.opens r.destFileName = true)
    (hcopy : ∀ r, reqs[j]? = some r → (pc = .finished ∨ ∃ rest, pc = .running (.copy rest)) →
      w.opens r.destFileName = true ∧ (w.file r.fileName).isSome) :
    Opened w reqs (s.setJob j pc) := by
  intro k r hr
  rw [setJob_job]
  split_ifs with hk
  · subst hk
    exact ⟨hopen r hr, hcopy r hr⟩
  · exact h k r hr

theorem opened_setJob_start {s : PoolState} (h : Opened w reqs s) {j : ℕ} {pc : JobPc}
    (hpc : pc = .queued ∨ pc = .running .openDest) : Opened w reqs (s.setJob j pc) := by
  apply opened_setJob h
  · intro r _ he
    rcases hpc with rfl | rfl <;> cases he
  · intro r _ he
    rcases he with rfl | ⟨rest, rfl⟩
    · rcases hpc with hpc | hpc <;> cases hpc
    · rcases hpc with hpc | hpc <;> cases hpc

theorem opened_step {s t : PoolState} {a : PoolAction} (h : Opened w reqs s)
    (ht : poolStep w reqs s a = some t) : Opened w reqs t := by
  obtain ⟨-, ⟨-, hd, rfl⟩ | ⟨j, -, hj, rfl⟩ | ⟨j, r, pc, -, hj, hr, rfl⟩⟩ := poolStep_cases ht
  · have hset : Opened w reqs (s.setJob s.dispatched .queued) :=
      opened_setJob_start h (Or.inl rfl)
    exact hset
  · exact opened_setJob_start h (Or.inr rfl)
  · cases pc with
    | openDest =>
      cases ho : w.opens r.destFileName with
      | false =>
        simp only [sendFile, ho, Bool.false_eq_true, if_false]
        exact h
      | true =>
        simp only [sendFile, ho, if_true]
        apply opened_setJob h
        · intro r' hr' _
          cases hr.symm.trans hr'
          exact ho
        · intro r' _ he
          rcases he with he | ⟨rest, he⟩
          · cases he
          · cases he
    | openFile =>
      have ho := (h j r hr).1 hj
      cases hf : w.file r.fileName with
      | none =>
        simp only [sendFile, hf]
        exact h
      | some c =>
        simp only [sendFile, hf]
        apply opened_setJob h
        · intro r' _ he
          cases he
        · intro r' hr' _
          cases hr.symm.trans hr'
          exact ⟨ho, by rw [hf]; rfl⟩
    | copy rest =>
      have hboth := (h j r hr).2 (Or.inr ⟨rest, hj⟩)
      have hset : ∀ pc, pc ≠ .running .openFile → Opened w reqs (s.setJob j pc) := by
        intro pc hpc
        apply opened_setJob h
        · intro _ _ he
          exact absurd he hpc
        · intro r' hr' _
          cases hr.symm.trans hr'
          exact hboth
      cases rest with
      | nil =>
        apply hset .finished
        intro he
        cases he
      | cons b bs =>
        apply hset (.running (.copy ((b :: bs).drop bufSize)))
        intro he
        cases he

/-- The main loop can dispatch every request before a thread takes one. -/
theorem exists_all_queued (w : World) (reqs : List Request) :
    ∃ s, (pool w reqs).Reachable s ∧ s.aborted = false ∧ (∀ j < reqs.length, s.job j = .queued) ∧
      ∀ rx, s.stream rx = [] := by
  have h : ∀ n ≤ reqs.length, ∃ s, (pool w reqs).Reachable s ∧ s.aborted = false ∧
      s.dispatched = n ∧ (∀ j < n, s.job j = .queued) ∧ ∀ rx, s.stream rx = [] := by
    intro n
    induction n with
    | zero =>
      intro _
      exact ⟨_, Machine.reachable_init, rfl, rfl, fun j hj => absurd hj (Nat.not_lt_zero j),
        fun _ => rfl⟩
    | succ n ih =>
      intro hn
      obtain ⟨s, hs, hab, hd, hq, hst⟩ := ih (by omega)
      have hstep : poolStep w reqs s .dispatch = some
          { s.setJob s.dispatched .queued with dispatched := s.dispatched + 1 } := by
        simp only [poolStep, hab, Bool.false_eq_true, if_false]
        rw [if_pos (by omega)]
      refine ⟨_, reachable_step hs hstep, hab, by rw [hd], ?_, hst⟩
      intro j hj
      change (s.setJob s.dispatched .queued).job j = .queued
      rw [setJob_job]
      split_ifs with he
      · rfl
      · exact hq j (by omega)
  obtain ⟨s, hs, hab, -, hq, hst⟩ := h reqs.length le_rfl
  exact ⟨s, hs, hab, hq, hst⟩

theorem reachable_copy (hav : Available w reqs) {s : PoolState} (hs : (pool w reqs).Reachable s)
    (hab : s.aborted = false) {j : ℕ} {r : Request} (hr : reqs[j]? = some r)
    (hj : s.job j = .queued)
    (hbusy : ((List.range reqs.length).countP fun k => (s.job k).busy) < threads) :
    (pool w reqs).Reachable (s.setJob j (.running (.copy (content w reqs j)))) := by
  obtain ⟨ho, hf⟩ := hav r (List.mem_of_getElem? hr)
  obtain ⟨c, hc⟩ := Option.isSome_iff_exists.mp hf
  have hcontent : content w reqs j = c := by
    unfold content
    rw [hr, Option.bind_some, hc]
    rfl
  have htake : poolStep w reqs s (.take j) = some (s.setJob j (.running .openDest)) := by
    simp only [poolStep, hab, Bool.false_eq_true, if_false]
    rw [if_pos ⟨hj, hbusy⟩]
  have h1 := reachable_step hs htake
  have hdest : poolStep w reqs (s.setJob j (.running .openDest)) (.send j) =
      some (s.setJob j (.running .openFile)) := by
    rw [poolStep_send (s := s.setJob j (.running .openDest)) hab hr (setJob_self ..)]
    simp only [sendFile, ho, if_true, setJob_setJob]
  have h2 := reachable_step h1 hdest
  have hfile : poolStep w reqs (s.setJob j (.running .openFile)) (.send j) =
      some (s.setJob j (.running (.copy c))) := by
    rw [poolStep_send (s := s.setJob j (.running .openFile)) hab hr (setJob_self ..)]
    simp only [sendFile, hc, setJob_setJob]
  rw [hcontent]
  exact reachable_step h2 hfile

theorem exists_write {s : PoolState} (hs : (pool w reqs).Reachable s) (hab : s.aborted = false)
    {j : ℕ} {r : Request} (hr : reqs[j]? = some r) {rest : List Byte} (hrest : rest ≠ [])
    (hj : s.job j = .running (.copy rest)) :
    ∃ t, (pool w reqs).Reachable t ∧ t.aborted = false ∧ (∀ k, k ≠ j → t.job k = s.job k) ∧
      t.stream r.destFileName = s.stream r.destFileName ++ [(j, rest.take bufSize)] := by
  cases rest with
  | nil => exact absurd rfl hrest
  | cons b bs =>
    refine ⟨_, reachable_step hs (poolStep_send hab hr hj), hab, ?_, Function.update_self ..⟩
    intro k hk
    change (s.setJob j _).job k = s.job k
    rw [setJob_job, if_neg hk]

theorem exists_mixed (hav : Available w reqs) {i j : ℕ} (hij : i ≠ j) {rx : Name}
    (hi : destOf reqs i = some rx) (hj : destOf reqs j = some rx)
    (hci : content w reqs i ≠ []) (hcj : content w reqs j ≠ []) :
    ∃ s x y, (pool w reqs).Reachable s ∧ s.stream rx = [(i, x), (j, y)] := by
  obtain ⟨ri, hri, rfl⟩ := Option.map_eq_some_iff.mp hi
  obtain ⟨rj, hrj, hrx⟩ := Option.map_eq_some_iff.mp hj
  obtain ⟨s, hs, hab, hq, hst⟩ := exists_all_queued w reqs
  have hidle : ∀ k ∈ List.range reqs.length, (s.job k).busy = false := by
    intro k hk
    rw [hq k (List.mem_range.mp hk)]
    rfl
  have hbusy : ((List.range reqs.length).countP fun k => (s.job k).busy) < threads := by
    rw [List.countP_eq_zero.mpr fun k hk => by rw [hidle k hk]; decide]
    decide
  have h1 := reachable_copy hav hs hab hri (hq i (lt_of_destOf hi)) hbusy
  set s1 := s.setJob i (.running (.copy (content w reqs i))) with hs1
  have hqj : s1.job j = .queued := by
    rw [hs1, setJob_job, if_neg hij.symm]
    exact hq j (lt_of_destOf hj)
  have hbusy1 : ((List.range reqs.length).countP fun k => (s1.job k).busy) < threads := by
    have hle : ((List.range reqs.length).countP fun k => (s1.job k).busy) ≤
        (List.range reqs.length).count i := by
      refine List.countP_mono_left fun k hk hb => ?_
      by_contra hne
      have hki : k ≠ i := by simpa using hne
      rw [hs1, setJob_job, if_neg hki, hidle k hk] at hb
      cases hb
    have hone := List.nodup_iff_count_le_one.mp (List.nodup_range (n := reqs.length)) i
    have : 1 < threads := by decide
    omega
  have h2 := reachable_copy hav h1 hab hrj hqj hbusy1
  set s2 := s1.setJob j (.running (.copy (content w reqs j))) with hs2
  have hi2 : s2.job i = .running (.copy (content w reqs i)) := by
    rw [hs2, setJob_job, if_neg hij, hs1, setJob_self]
  obtain ⟨s3, h3, hab3, hkeep, hst3⟩ := exists_write h2 hab hri hci hi2
  have hj3 : s3.job j = .running (.copy (content w reqs j)) := by
    rw [hkeep j hij.symm, hs2, setJob_self]
  obtain ⟨s4, h4, -, -, hst4⟩ := exists_write h3 hab3 hrj hcj hj3
  refine ⟨s4, (content w reqs i).take bufSize, (content w reqs j).take bufSize, h4, ?_⟩
  rw [hrx] at hst4
  rw [hst4, hst3]
  change s.stream ri.destFileName ++ _ ++ _ = _
  rw [hst]
  rfl

theorem not_delivered_of_mixed {s : PoolState} {rx : Name} {i j : ℕ} {x y : List Byte}
    (h : [(i, x), (j, y)] <+: s.stream rx) (hij : i ≠ j)
    (hlong : bufSize < (content w reqs i).length) : ¬ Delivered w reqs s rx := by
  rintro ⟨order, -, -, hst⟩
  rw [hst] at h
  exact hij (eq_of_isPrefix_inTurn h ((one_lt_length_freadBlocks_iff bufSize_pos).mpr hlong))

/-- Whenever nothing is left to do every client has got its files whole, exactly when all that
was requested can be opened and no file of more than one block is requested by a client that
requests another file with anything in it. -/
theorem delivered_iff (w : World) (reqs : List Request) :
    (∀ s, (pool w reqs).Reachable s → (pool w reqs).Halted s → ∀ rx, Delivered w reqs s rx) ↔
      Available w reqs ∧ Apart w reqs := by
  constructor
  · intro h
    have hav : Available w reqs := by
      have hinit : (pool w reqs).Reachable (pool w reqs).init := Machine.reachable_init
      obtain ⟨as, s, hr, hh⟩ := exists_halted_from hinit
      have hs : (pool w reqs).Reachable s := ⟨as, hr⟩
      have hopened : Opened w reqs s :=
        hs.invariant (I := Opened w reqs) opened_init fun _ _ _ hu hv => opened_step hu hv
      intro r hr
      obtain ⟨j, hj, rfl⟩ := List.getElem_of_mem hr
      have hget : reqs[j]? = some reqs[j] := List.getElem?_eq_getElem hj
      obtain ⟨order, hperm, hfin, -⟩ := h s hs hh reqs[j].destFileName
      have hmem : j ∈ order := hperm.mem_iff.mpr (mem_jobsFor.mpr (destOf_eq hget))
      exact (hopened j _ hget).2 (Or.inl (hfin j hmem))
    refine ⟨hav, ?_⟩
    intro i hi j hj hij hd hlong
    by_contra hcj
    have hci : content w reqs i ≠ [] := by
      intro he
      rw [he] at hlong
      exact absurd hlong (Nat.not_lt_zero _)
    obtain ⟨rx, hrx⟩ : ∃ rx, destOf reqs i = some rx :=
      ⟨_, destOf_eq (List.getElem?_eq_getElem hi)⟩
    obtain ⟨s, x, y, hs, hst⟩ := exists_mixed hav hij hrx (hd.symm.trans hrx) hci hcj
    obtain ⟨as, t, hr, hh⟩ := exists_halted_from hs
    have hprefix : [(i, x), (j, y)] <+: t.stream rx :=
      Machine.runFrom_invariant (I := fun u => [(i, x), (j, y)] <+: u.stream rx)
        (fun _ _ _ hu hv => hu.trans (stream_isPrefix hv rx)) (by rw [hst]) hr
    exact not_delivered_of_mixed hprefix hij hlong (h t (hs.runFrom hr) hh rx)
  · rintro ⟨hav, hapart⟩ s hs hh rx
    have hinv := poolInv_of_reachable hav hapart hs
    exact delivered_of_finished hinv (finished_of_halted hinv.wf hinv.running hh) rx

/-- Files "a" and "b", each of one byte more than a block. -/
def twoFiles : World where
  opens := fun _ => true
  file := fun n =>
    if n = [0x61] then some (List.replicate 1025 0x61)
    else if n = [0x62] then some (List.replicate 1025 0x62) else none

def bothFiles : List Request := [⟨[0x72], [0x61]⟩, ⟨[0x72], [0x62]⟩]

/-- Both jobs open their files, then write in turn. -/
def alternating : List PoolAction :=
  [.dispatch, .dispatch, .take 0, .take 1, .send 0, .send 1, .send 0, .send 1,
    .send 0, .send 1, .send 0, .send 1, .send 0, .send 1]

def aBlock : List Byte := List.replicate 1024 0x61

def bBlock : List Byte := List.replicate 1024 0x62

/-- A client that requests both files can get a block of each before the rest of either. -/
theorem two_files_mixed :
    ∃ s, (pool twoFiles bothFiles).run alternating = some s ∧
      (pool twoFiles bothFiles).Halted s ∧
      ((s.stream [0x72]).map Prod.snd).flatten = aBlock ++ bBlock ++ [0x61, 0x62] ∧
      aBlock ++ bBlock ++ [0x61, 0x62] ≠
        content twoFiles bothFiles 0 ++ content twoFiles bothFiles 1 ∧
      aBlock ++ bBlock ++ [0x61, 0x62] ≠
        content twoFiles bothFiles 1 ++ content twoFiles bothFiles 0 ∧
      ¬ Delivered twoFiles bothFiles s [0x72] := by
  have hend : ((pool twoFiles bothFiles).run alternating).map
        (fun s => ([s.job 0, s.job 1], s.stream [0x72])) =
      some ([.finished, .finished], [(0, aBlock), (1, bBlock), (0, [0x61]), (1, [0x62])]) := by
    decide +kernel
  obtain ⟨s, hs, he⟩ := Option.map_eq_some_iff.mp hend
  obtain ⟨hjobs, hst⟩ := Prod.mk.inj he
  obtain ⟨h0, hjobs⟩ := List.cons.inj hjobs
  obtain ⟨h1, -⟩ := List.cons.inj hjobs
  have hwf : Wf bothFiles s :=
    Machine.Reachable.invariant wf_init (fun _ _ _ hu hv => hu.step hv) ⟨alternating, hs⟩
  refine ⟨s, hs, halted_of_finished hwf ?_, ?_, by decide +kernel, by decide +kernel, ?_⟩
  · intro j hj
    match j, hj with
    | 0, _ => exact h0
    | 1, _ => exact h1
  · rw [hst]
    decide +kernel
  · refine not_delivered_of_mixed (i := 0) (j := 1) (x := aBlock) (y := bBlock) ?_
      (by decide) (by decide +kernel)
    rw [hst]
    exact List.prefix_append [(0, aBlock), (1, bBlock)] _

end OsTasks.FileServer

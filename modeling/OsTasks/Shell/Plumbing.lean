import OsTasks.Shell.PipelineInv
import OsTasks.Shell.Deadlock

/-! What a command finds on its standard descriptors when `seq_pipe` executes it. -/
namespace OsTasks.Shell
open OsTasks.Lib

variable {capacity : ℕ} {cmds : List Command} {start : Startup}

/-- The shell's own standard descriptors are those of the call, and a command's table is the one
`seq_pipe` made for it. -/
structure Plumbed (cmds : List Command) (start : Startup) (s : State) : Prop where
  std : s.pc ≠ .exited → ∀ m < 3, s.table.get m = start.table.get m
  locals : ∀ c ∈ s.child, c.locals = s.locals
  table : ∀ c ∈ s.child, ∀ rest, c.pc = .running rest →
    c.table = childTable cmds s.locals s.table ∧ rest <:+ cmds.getD s.locals.i []

theorem plumbed_start : Plumbed cmds start (startState 0 start.table) where
  std := fun _ _ _ => rfl
  locals := by
    intro c hc
    cases hc
  table := by
    intro c hc
    cases hc

theorem Plumbed.of_child_eq_none {s : State} (hs : s.child = none)
    (h : s.pc ≠ .exited → ∀ m < 3, s.table.get m = start.table.get m) :
    Plumbed cmds start s where
  std := h
  locals := by
    intro c hc
    rw [hs] at hc
    cases hc
  table := by
    intro c hc
    rw [hs] at hc
    cases hc

theorem get_alloc_of_eq_some {φ : Type*} {t : FdTable φ} {f g : φ} {m : ℕ}
    (h : t.get m = some g) : (t.alloc f).2.get m = some g := by
  have hfree := t.get_lowestFree
  have hne : m ≠ t.lowestFree := by
    rintro rfl
    cases h.symm.trans hfree
  rw [FdTable.alloc, FdTable.get_put, if_neg hne, h]

theorem Between.get_pipe {tab : FdTable File} {l : Locals} (hb : Between tab l) {m : ℕ}
    (hm : m < 3) (f g : File) : ((tab.alloc f).2.alloc g).2.get m = tab.get m := by
  obtain ⟨x, hx⟩ := hb.std m hm
  rw [hx]
  exact get_alloc_of_eq_some (get_alloc_of_eq_some hx)

theorem During.get_close {tab : FdTable File} {l : Locals} (hd : During cmds tab l) {m : ℕ}
    (hm : m < 3) :
    (if 0 < l.i then (tab.close l.p1).close l.fdIn else tab.close l.p1).get m = tab.get m := by
  have hp1 : m ≠ l.p1 := hd.p1_ne hm
  split_ifs with hi
  · have hin : m ≠ l.fdIn := by
      rintro rfl
      obtain ⟨x, hx⟩ := hd.std _ hm
      cases hx.symm.trans (hd.fd_in hi)
    rw [FdTable.get_close, if_neg hin, FdTable.get_close, if_neg hp1]
  · rw [FdTable.get_close, if_neg hp1]

theorem plumbed_shell {s t : State} (h : Inv capacity cmds s) (hp : Plumbed cmds start s)
    (ht : shellStep 0 cmds s = some t) : Plumbed cmds start t := by
  have hph := h.phase
  unfold shellStep at ht
  cases hpc : s.pc with
  | test =>
    simp only [Phase, hpc] at hph
    obtain ⟨hb, hchild, _⟩ := hph
    have hstd := hp.std (by simp [hpc])
    simp only [hpc] at ht
    split_ifs at ht with hi
    · cases ht
      apply Plumbed.of_child_eq_none
      · exact hchild
      · intro _ m hm
        exact (hb.get_pipe hm _ _).trans (hstd m hm)
    · cases ht
      apply Plumbed.of_child_eq_none
      · exact hchild
      · intro _ m hm
        exact hstd m hm
  | fork =>
    simp only [hpc] at ht
    cases ht
    constructor
    · intro _ m hm
      exact hp.std (by simp [hpc]) m hm
    · intro c hc
      cases hc
      rfl
    · intro c hc rest hrest
      cases hc
      cases hrest
  | wait =>
    simp only [Phase, hpc] at hph
    obtain ⟨_, ⟨l, tab, cpc⟩, hc, _⟩ := hph
    simp only [hpc, hc] at ht
    cases cpc with
    | forked => cases ht
    | running rest => cases ht
    | exited =>
      cases ht
      apply Plumbed.of_child_eq_none
      · exact rfl
      · intro _ m hm
        exact hp.std (by simp [hpc]) m hm
  | close =>
    simp only [Phase, hpc] at hph
    obtain ⟨hd, hchild, _⟩ := hph
    simp only [hpc] at ht
    cases ht
    apply Plumbed.of_child_eq_none
    · exact hchild
    · intro _ m hm
      exact (hd.get_close hm).trans (hp.std (by simp [hpc]) m hm)
  | returned => simp [hpc] at ht
  | exited => simp [hpc] at ht

theorem plumbed_child {s t : State} (h : Inv capacity cmds s) (hp : Plumbed cmds start s)
    (ht : childStep capacity cmds s = some t) : Plumbed cmds start t := by
  obtain ⟨c, c', hc, hc', hpc, hl, htab, hlc, hcase⟩ := childStep_frame ht
  have hcl : c.locals = s.locals := hp.locals c hc
  constructor
  · rw [hpc, htab]
    exact hp.std
  · intro d hd
    cases hc'.symm.trans hd
    rw [hlc, hl, hcl]
  · intro d hd rest hrest
    cases hc'.symm.trans hd
    rw [hl, htab]
    rcases hcase with ⟨hf, hct, hcp⟩ | ⟨_, hex⟩ | ⟨a, r, hr, hcp, hct⟩
    · have hph := h.phase
      have hsame : c.table = s.table := by
        cases hs : s.pc <;> simp only [Phase, hs, hc, reduceCtorEq, false_and, and_false] at hph
        obtain ⟨_, _, ⟨⟩, hci⟩ := hph
        simp only [ChildInv, hf] at hci
        exact hci.2.1
      cases hcp.symm.trans hrest
      exact ⟨by rw [hct, hsame, hcl], by rw [hcl]⟩
    · cases hex.symm.trans hrest
    · cases hcp.symm.trans hrest
      obtain ⟨htable, hsuf⟩ := hp.table c hc _ hr
      exact ⟨hct.trans htable, (List.suffix_cons a _).trans hsuf⟩

theorem plumbed_step {s t : State} {a : Action} (h : Inv capacity cmds s)
    (hp : Plumbed cmds start s) (ht : step capacity cmds s a = some t) :
    Plumbed cmds start t := by
  cases a with
  | shell => exact plumbed_shell h hp ht
  | child => exact plumbed_child h hp ht
  | forkFailure =>
    simp only [step] at ht
    split_ifs at ht with hpc
    cases ht
    have hph := h.phase
    simp only [Phase, hpc] at hph
    apply Plumbed.of_child_eq_none
    · exact hph.2.1
    · intro he
      exact absurd rfl he

theorem plumbed_of_reachable {s : State} (hs : (seqPipe capacity cmds start).Reachable s) :
    Inv capacity cmds s ∧ Plumbed cmds start s := by
  apply hs.invariant ⟨inv_start start, plumbed_start⟩
  rintro u a v ⟨hu, hp⟩ hv
  exact ⟨inv_step hu hv, plumbed_step hu hp hv⟩

/-- A command reads the pipe of the one before and writes its own. No process is left to write
what it reads, so that it sees the end of file. -/
theorem command_plumbing {s : State} (hs : (seqPipe capacity cmds start).Reachable s) {c : Child Command}
    (hc : s.child = some c) {rest : Command} (hrest : c.pc = .running rest) :
    c.locals.i < cmds.length ∧ rest <:+ cmds.getD c.locals.i [] ∧
      c.table.get 0 =
        (if c.locals.i = 0 then start.table.get 0 else some (.pipeRead (c.locals.i - 1))) ∧
      c.table.get 1 =
        (if c.locals.i + 1 < cmds.length then some (.pipeWrite c.locals.i)
          else start.table.get 1) ∧
      (0 < c.locals.i → ¬ s.Holds (.pipeWrite (c.locals.i - 1))) ∧
      (0 < c.locals.i → s.pipes (c.locals.i - 1) = 0 → ∀ rest', rest = .read :: rest' →
        childStep capacity cmds s =
          some { s with child := some { c with pc := .running rest' } }) := by
  obtain ⟨hinv, hp⟩ := plumbed_of_reachable hs
  obtain ⟨htab, hsuf⟩ := hp.table c hc rest hrest
  have hph := hinv.phase
  cases hpc : s.pc <;> simp only [Phase, hpc, hc, reduceCtorEq, false_and, and_false] at hph
  obtain ⟨hd, _, ⟨⟩, hci⟩ := hph
  have hstd := hp.std (by simp [hpc])
  simp only [ChildInv, hrest] at hci
  rw [hp.locals c hc]
  have hin : c.table.get 0 = if s.locals.i = 0 then start.table.get 0
      else some (.pipeRead (s.locals.i - 1)) := by
    rw [htab, hd.get_childTable, if_neg (hd.p0_ne (by decide)), if_neg (by simp),
      hstd 0 (by decide)]
    by_cases hi : s.locals.i = 0
    · rw [if_neg (by omega), if_pos hi]
    · rw [if_pos ⟨by omega, rfl⟩, if_neg hi]
  have hout : c.table.get 1 = if s.locals.i + 1 < cmds.length then some (.pipeWrite s.locals.i)
      else start.table.get 1 := by
    rw [htab, hd.get_childTable, if_neg (hd.p0_ne (by decide))]
    by_cases hn : s.locals.i + 1 < cmds.length
    · rw [if_pos ⟨hn, rfl⟩, if_pos hn]
    · rw [if_neg (fun h => hn h.1), if_neg (by simp), if_neg hn, hstd 1 (by decide)]
  have hno : 0 < s.locals.i → ¬ s.Holds (.pipeWrite (s.locals.i - 1)) := by
    intro hi
    rintro (hw | ⟨d, hd', hw⟩)
    · obtain ⟨m, hm⟩ := FdTable.holds_iff.mp hw
      have := (hd.only_write m _ hm).2
      omega
    · cases hc.symm.trans hd'
      obtain ⟨m, hm⟩ := FdTable.holds_iff.mp hw
      have := hci.only_write m _ hm
      omega
  refine ⟨hd.lt, hsuf, hin, hout, hno, ?_⟩
  rintro hi hempty rest' rfl
  rw [if_neg (by omega)] at hin
  simp only [childStep, hc, hrest, readStep, hin]
  rw [if_neg (by omega), if_neg (hno hi), hpc, hp.locals c hc]

/-- The second command of two, before its first read. -/
theorem command_plumbing_second :
    ∃ s c, (seqPipe 1 [[.write], [.read]] terminal).Reachable s ∧ s.child = some c ∧
      c.pc = .running [.read] ∧ c.table.get 0 = some (.pipeRead 0) ∧
      ¬ s.Holds (.pipeWrite 0) := by
  have hs : (seqPipe 1 [[.write], [.read]] terminal).Reachable _ :=
    ⟨[.shell, .shell, .child, .child, .child, .shell, .shell, .shell, .shell, .child], rfl⟩
  have h := command_plumbing hs rfl rfl
  exact ⟨_, _, hs, rfl, rfl, h.2.2.1, h.2.2.2.2.1 (by decide)⟩

end OsTasks.Shell

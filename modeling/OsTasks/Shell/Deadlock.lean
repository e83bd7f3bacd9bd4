import OsTasks.Shell.PipelineInv

/-! Where `seq_pipe` can get stuck: a command's output is only read once the command is over. -/
namespace OsTasks.Shell
open OsTasks.Lib

variable {capacity : ℕ} {cmds : List Command}

def todo (cmds : List Command) (i : ℕ) : ℕ := ((cmds.drop i).map fun c => c.length + 8).sum

theorem todo_of_lt {i : ℕ} (h : i < cmds.length) :
    todo cmds i = (cmds.getD i []).length + 8 + todo cmds (i + 1) := by
  rw [todo, List.drop_eq_getElem_cons h, List.map_cons, List.sum_cons, List.getD_eq_getElem _ _ h]
  rfl

def Child.remaining (cmds : List Command) (c : Child Command) : ℕ :=
  match c.pc with
  | .forked => (cmds.getD c.locals.i []).length + 3
  | .running rest => rest.length + 2
  | .exited => 1

def remaining (cmds : List Command) (s : State) : ℕ :=
  match s.pc with
  | .test => todo cmds s.locals.i + 1
  | .fork => todo cmds (s.locals.i + 1) + (cmds.getD s.locals.i []).length + 7
  | .wait => todo cmds (s.locals.i + 1) + 2 + (s.child.map (Child.remaining cmds)).getD 0
  | .close => todo cmds (s.locals.i + 1) + 2
  | .returned => 0
  | .exited => 0

theorem remaining_shell {s t : State} (ht : shellStep 0 cmds s = some t) :
    remaining cmds t < remaining cmds s := by
  unfold shellStep at ht
  cases hpc : s.pc with
  | test =>
    simp only [hpc] at ht
    split_ifs at ht with hi
    · cases ht
      simp only [remaining, hpc, todo_of_lt hi]
      omega
    · cases ht
      simp only [remaining, hpc]
      omega
  | fork =>
    simp only [hpc] at ht
    cases ht
    simp only [remaining, hpc, Option.map_some, Option.getD_some, Child.remaining]
    omega
  | wait =>
    simp only [hpc] at ht
    split at ht
    · rename_i hc
      cases ht
      simp only [remaining, hpc, hc, Option.map_some, Option.getD_some, Child.remaining]
      omega
    · cases ht
  | close =>
    simp only [hpc] at ht
    cases ht
    simp only [remaining, hpc]
    omega
  | returned => simp [hpc] at ht
  | exited => simp [hpc] at ht

theorem childStep_frame {s t : State} (ht : childStep capacity cmds s = some t) :
    ∃ c c', s.child = some c ∧ t.child = some c' ∧ t.pc = s.pc ∧ t.locals = s.locals ∧
      t.table = s.table ∧ c'.locals = c.locals ∧
      (c.pc = .forked ∧ c'.table = childTable cmds c.locals c.table ∧
          c'.pc = .running (cmds.getD c.locals.i []) ∨
        c.pc ≠ .exited ∧ c'.pc = .exited ∨
        ∃ a rest, c.pc = .running (a :: rest) ∧ c'.pc = .running rest ∧ c'.table = c.table) := by
  unfold childStep at ht
  cases hc : s.child with
  | none => simp [hc] at ht
  | some c =>
    simp only [hc] at ht
    cases hcpc : c.pc with
    | forked =>
      simp only [hcpc] at ht
      cases ht
      exact ⟨c, _, rfl, rfl, rfl, rfl, rfl, rfl, Or.inl ⟨hcpc, rfl, rfl⟩⟩
    | running rest =>
      have hne : c.pc ≠ .exited := by simp [hcpc]
      rcases rest with _ | ⟨a, rest⟩
      · simp only [hcpc] at ht
        cases ht
        exact ⟨c, _, rfl, rfl, rfl, rfl, rfl, rfl, Or.inr (Or.inl ⟨hne, rfl⟩)⟩
      · have hgo : ∃ a' rest', c.pc = .running (a' :: rest') ∧
            ChildPc.running rest = .running rest' ∧ c.table = c.table := ⟨a, rest, hcpc, rfl, rfl⟩
        cases a with
        | read =>
          simp only [hcpc, readStep] at ht
          split at ht
          · split_ifs at ht <;> cases ht
            · exact ⟨c, _, rfl, rfl, rfl, rfl, rfl, rfl, Or.inr (Or.inr hgo)⟩
            · exact ⟨c, _, rfl, rfl, rfl, rfl, rfl, rfl, Or.inr (Or.inr hgo)⟩
          · cases ht
            exact ⟨c, _, rfl, rfl, rfl, rfl, rfl, rfl, Or.inr (Or.inr hgo)⟩
        | write =>
          simp only [hcpc, writeStep] at ht
          split at ht
          · split_ifs at ht <;> cases ht
            · exact ⟨c, _, rfl, rfl, rfl, rfl, rfl, rfl, Or.inr (Or.inr hgo)⟩
            · exact ⟨c, _, rfl, rfl, rfl, rfl, rfl, rfl, Or.inr (Or.inl ⟨hne, rfl⟩)⟩
          · cases ht
            exact ⟨c, _, rfl, rfl, rfl, rfl, rfl, rfl, Or.inr (Or.inr hgo)⟩
    | exited => simp [hcpc] at ht

theorem remaining_childStep {s t : State} (ht : childStep capacity cmds s = some t) :
    ∃ c c', s.child = some c ∧ t.child = some c' ∧ t.pc = s.pc ∧ t.locals = s.locals ∧
      c'.remaining cmds < c.remaining cmds := by
  obtain ⟨c, c', hc, hc', hpc, hl, _, hlc, hcase⟩ := childStep_frame ht
  refine ⟨c, c', hc, hc', hpc, hl, ?_⟩
  rcases hcase with ⟨hf, _, hr⟩ | ⟨hne, hex⟩ | ⟨a, rest, hr, hr', _⟩
  · simp only [Child.remaining, hf, hr]
    omega
  · cases hcp : c.pc with
    | forked =>
      simp only [Child.remaining, hcp, hex]
      omega
    | running rest =>
      simp only [Child.remaining, hcp, hex]
      omega
    | exited => exact absurd hcp hne
  · simp only [Child.remaining, hr, hr', List.length_cons]
    omega

theorem remaining_step {s t : State} {a : Action} (h : Inv capacity cmds s)
    (ha : a ≠ .forkFailure) (ht : step capacity cmds s a = some t) :
    remaining cmds t < remaining cmds s := by
  cases a with
  | shell => exact remaining_shell ht
  | forkFailure => exact absurd rfl ha
  | child =>
    obtain ⟨c, c', hc, hc', hpc', hl, hlt⟩ := remaining_childStep ht
    have hph := h.phase
    cases hpc : s.pc <;> simp only [Phase, hpc, hc, reduceCtorEq, false_and, and_false] at hph
    rw [hpc] at hpc'
    simp only [remaining, hpc, hpc', hc, hc', hl, Option.map_some, Option.getD_some]
    omega

theorem not_exited_step {s t : State} {a : Action} (h : s.pc ≠ .exited)
    (ha : a ≠ .forkFailure) (ht : step capacity cmds s a = some t) : t.pc ≠ .exited := by
  cases a with
  | shell =>
    change shellStep 0 cmds s = some t at ht
    unfold shellStep at ht
    cases hpc : s.pc <;> simp only [hpc] at ht
    case test => split_ifs at ht <;> cases ht <;> simp
    case fork => cases ht; simp
    case wait => split at ht <;> cases ht; simp
    case close => cases ht; simp
    all_goals cases ht
  | forkFailure => exact absurd rfl ha
  | child =>
    obtain ⟨_, _, _, _, hpc, _⟩ := remaining_childStep ht
    rwa [hpc]

/-- A run in which every fork succeeds can be taken to where nothing moves. -/
theorem exists_halted (capacity : ℕ) (cmds : List Command) (start : Startup) :
    ∃ s, (seqPipe capacity cmds start).Reachable s ∧ (seqPipe capacity cmds start).Halted s ∧
      s.pc ≠ .exited := by
  let M := (seqPipe capacity cmds start).restrict (· ≠ .forkFailure)
  have hI : ∀ s a t, Inv capacity cmds s ∧ s.pc ≠ .exited → M.step s a = some t →
      Inv capacity cmds t ∧ t.pc ≠ .exited := by
    rintro s a t ⟨h, hpc⟩ ht
    obtain ⟨ha, ht⟩ := Machine.restrict_step_eq_some.mp ht
    exact ⟨inv_step h ht, not_exited_step hpc ha ht⟩
  have hμ : ∀ s a t, Inv capacity cmds s ∧ s.pc ≠ .exited → M.step s a = some t →
      remaining cmds t < remaining cmds s := by
    rintro s a t ⟨h, _⟩ ht
    obtain ⟨ha, ht⟩ := Machine.restrict_step_eq_some.mp ht
    exact remaining_step h ha ht
  have h0 : Inv capacity cmds M.init ∧ M.init.pc ≠ .exited := ⟨inv_start start, nofun⟩
  obtain ⟨as, s, hr, hh⟩ := Machine.exists_run_halted hI hμ M.init h0
  have hs : M.Reachable s := ⟨as, hr⟩
  refine ⟨s, hs.of_restrict, ?_, (hs.invariant h0 hI).2⟩
  intro a
  cases a with
  | shell => exact hh.of_restrict (by decide)
  | child => exact hh.of_restrict (by decide)
  | forkFailure =>
    by_cases hpc : s.pc = .fork
    · have hfork : (seqPipe capacity cmds start).step s .shell = none :=
        hh.of_restrict (by decide)
      simp [seqPipe, step, shellStep, hpc] at hfork
    · exact if_neg hpc

/-- No process has the write end of the pipe that a command reads. -/
theorem not_holds_of_stdin {s : State} {c : Child Command} {rest : Command}
    (hd : During cmds s.table s.locals) (hc : s.child = some c)
    (hrun : Running capacity cmds s.locals (s.pipes s.locals.i) c.table rest) {p : ℕ}
    (hp : c.table.get 0 = some (.pipeRead p)) : ¬ s.Holds (.pipeWrite p) := by
  have hlt := hrun.stdin p hp
  rintro (hw | ⟨c', hc', hw⟩)
  · obtain ⟨m, hm⟩ := FdTable.holds_iff.mp hw
    exact absurd (hd.only_write m p hm).2 hlt.ne
  · cases hc.symm.trans hc'
    obtain ⟨m, hm⟩ := FdTable.holds_iff.mp hw
    exact absurd (hrun.only_write m p hm) hlt.ne

theorem room_of_write {s : State} {tab : FdTable File} {rest : Command}
    (hd : During cmds s.table s.locals) (hf : Fits capacity cmds cmds.length)
    (hrun : Running capacity cmds s.locals (s.pipes s.locals.i) tab (.write :: rest))
    (hn : s.locals.i + 1 < cmds.length) : s.pipes s.locals.i < capacity := by
  obtain ⟨done, hdone, hprog⟩ := hrun.progress
  have hall := hf _ hd.lt hn
  rw [hdone] at hall
  have hcount : written (done ++ .write :: rest) = written done + 1 + written rest := by
    simp [written, List.count_append]
    omega
  have hbytes := (hprog hn).1
  omega

theorem exists_child_step {s : State} {c : Child Command} {rest : Command}
    (hd : During cmds s.table s.locals) (hf : Fits capacity cmds cmds.length)
    (hc : s.child = some c) (hpc : c.pc = .running rest)
    (hrun : Running capacity cmds s.locals (s.pipes s.locals.i) c.table rest) :
    ∃ t, step capacity cmds s .child = some t := by
  obtain ⟨l, tab, cpc⟩ := c
  cases hpc
  rcases rest with _ | ⟨a, rest⟩
  · simp only [step, childStep, hc]
    exact ⟨_, rfl⟩
  cases a with
  | read =>
    simp only [step, childStep, hc, readStep]
    split
    · rename_i p hp
      have hno : ¬ s.Holds (.pipeWrite p) := not_holds_of_stdin hd hc hrun hp
      split_ifs <;> exact ⟨_, rfl⟩
    · exact ⟨_, rfl⟩
  | write =>
    simp only [step, childStep, hc, writeStep]
    split
    · rename_i p hp
      have hout := hrun.stdout
      rw [hp] at hout
      split_ifs at hout with hn
      · obtain rfl := File.pipeWrite.inj (Option.some.inj hout)
        have hroom : s.pipes s.locals.i < capacity := room_of_write hd hf hrun hn
        split_ifs
        · exact ⟨_, rfl⟩
        · exact ⟨_, rfl⟩
      · obtain ⟨x, hx⟩ := hout
        cases hx
    · exact ⟨_, rfl⟩

theorem exists_step {s : State} (h : Inv capacity cmds s)
    (hf : Fits capacity cmds cmds.length) (hs : ¬ s.Finished) :
    ∃ a t, step capacity cmds s a = some t := by
  have hph := h.phase
  cases hpc : s.pc with
  | test =>
    refine ⟨.shell, ?_⟩
    simp only [step, shellStep, hpc]
    split_ifs <;> exact ⟨_, rfl⟩
  | fork => exact ⟨.shell, by simp only [step, shellStep, hpc]; exact ⟨_, rfl⟩⟩
  | close => exact ⟨.shell, by simp only [step, shellStep, hpc]; exact ⟨_, rfl⟩⟩
  | returned =>
    simp only [Phase, hpc] at hph
    exact absurd ⟨Or.inl hpc, hph.1⟩ hs
  | exited =>
    simp only [Phase, hpc] at hph
    exact absurd ⟨Or.inr hpc, hph⟩ hs
  | wait =>
    simp only [Phase, hpc] at hph
    obtain ⟨hd, ⟨l, tab, cpc⟩, hc, hci⟩ := hph
    cases cpc with
    | forked => exact ⟨.child, by simp only [step, childStep, hc]; exact ⟨_, rfl⟩⟩
    | exited => exact ⟨.shell, by simp only [step, shellStep, hpc, hc]; exact ⟨_, rfl⟩⟩
    | running rest => exact ⟨.child, exists_child_step hd hf hc rfl hci⟩

theorem fits_iff : Fits capacity cmds cmds.length ↔ ∀ c ∈ cmds.dropLast, written c ≤ capacity := by
  constructor
  · intro h c hc
    obtain ⟨j, hj, rfl⟩ := List.getElem_of_mem hc
    rw [List.length_dropLast] at hj
    have := h j (by omega) (by omega)
    rwa [List.getD_eq_getElem _ _ (by omega : j < cmds.length), ← List.getElem_dropLast] at this
  · intro h j hj hn
    rw [List.getD_eq_getElem _ _ hj]
    apply h _
    have hj' : j < cmds.dropLast.length := by rw [List.length_dropLast]; omega
    rw [← List.getElem_dropLast hj']
    exact List.getElem_mem hj'

/-- No reachable state is stuck exactly when no command but the last writes more than a pipe
holds. -/
theorem never_stuck_iff (capacity : ℕ) (cmds : List Command) (start : Startup) :
    (∀ s, (seqPipe capacity cmds start).Reachable s →
      ¬ ((seqPipe capacity cmds start).Halted s ∧ ¬ s.Finished)) ↔
      ∀ c ∈ cmds.dropLast, written c ≤ capacity := by
  rw [← fits_iff]
  constructor
  · intro h
    obtain ⟨s, hs, hh, hpc⟩ := exists_halted capacity cmds start
    have hinv := inv_of_reachable hs
    have hfin : s.Finished := not_not.mp fun hn => h s hs ⟨hh, hn⟩
    have hret : s.pc = .returned := hfin.1.resolve_right hpc
    have hph := hinv.phase
    simp only [Phase, hret] at hph
    exact fun j hj => hinv.fits j (hj.trans_le hph.2)
  · rintro hf s hs ⟨hh, hn⟩
    obtain ⟨a, t, ht⟩ := exists_step (inv_of_reachable hs) hf hn
    cases (hh a).symm.trans ht

/-- Descriptors 0, 1 and 2 of a shell that was just started. -/
def terminal : Startup where
  table := ⟨fun n => if n < 3 then some (.other n) else none, 3, fun n hn => if_neg (by omega)⟩
  open_std := fun n hn => ⟨n, if_pos hn⟩
  no_pipe := by
    intro n f h
    dsimp only at h
    split_ifs at h
    cases h
    exact ⟨n, rfl⟩

/-- Two bytes into a pipe of one byte, from a writer the shell waits for. -/
theorem second_byte_stuck :
    ∃ s, (seqPipe 1 [[.write, .write], [.read, .read, .read]] terminal).Reachable s ∧
      (seqPipe 1 [[.write, .write], [.read, .read, .read]] terminal).Halted s ∧ ¬ s.Finished := by
  refine ⟨_, ⟨[.shell, .shell, .child, .child], rfl⟩, ?_, nofun⟩
  intro a
  cases a <;> rfl

end OsTasks.Shell

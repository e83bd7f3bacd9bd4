import OsTasks.Shell.Pipeline
import Mathlib.Data.List.GetD

/-! What holds of the descriptors and the pipes in every state that `seq_pipe` reaches. -/
namespace OsTasks.Shell
open OsTasks.Lib

variable {capacity : ℕ} {cmds : List Command}

def written (c : Command) : ℕ := c.count .write

/-- Every command before the `n`-th that has a successor wrote no more than a pipe holds. -/
def Fits (capacity : ℕ) (cmds : List Command) (n : ℕ) : Prop :=
  ∀ j < n, j + 1 < cmds.length → written (cmds.getD j []) ≤ capacity

/-- The shell's table between two commands. -/
structure Between (tab : FdTable File) (l : Locals) : Prop where
  no_write : ∀ m j, tab.get m ≠ some (.pipeWrite j)
  std : ∀ m < 3, ∃ x, tab.get m = some (.other x)
  fd_in : 0 < l.i → tab.get l.fdIn = some (.pipeRead (l.i - 1))

/-- The shell's table while a command runs. -/
structure During (cmds : List Command) (tab : FdTable File) (l : Locals) : Prop where
  lt : l.i < cmds.length
  only_write : ∀ m j, tab.get m = some (.pipeWrite j) → m = l.p1 ∧ j = l.i
  std : ∀ m < 3, ∃ x, tab.get m = some (.other x)
  fd_in : 0 < l.i → tab.get l.fdIn = some (.pipeRead (l.i - 1))
  p0 : tab.get l.p0 = some (.pipeRead l.i)
  p1 : tab.get l.p1 = some (.pipeWrite l.i)

/-- The running command: its standard input has no writer, its standard output is its pipe unless
it is the last one, and the pipe holds what it has written. -/
structure Running (capacity : ℕ) (cmds : List Command) (l : Locals) (bytes : ℕ)
    (tab : FdTable File) (rest : Command) : Prop where
  stdin : ∀ j, tab.get 0 = some (.pipeRead j) → j < l.i
  stdout : if l.i + 1 < cmds.length
    then tab.get 1 = some (.pipeWrite l.i) else ∃ x, tab.get 1 = some (.other x)
  only_write : ∀ m j, tab.get m = some (.pipeWrite j) → j = l.i
  progress : ∃ done, cmds.getD l.i [] = done ++ rest ∧
    (l.i + 1 < cmds.length → bytes = written done ∧ written done ≤ capacity)

def ChildInv (capacity : ℕ) (cmds : List Command) (s : State) (c : Child Command) : Prop :=
  match c.pc with
  | .forked => c.locals = s.locals ∧ c.table = s.table ∧ s.pipes s.locals.i = 0
  | .running rest => Running capacity cmds s.locals (s.pipes s.locals.i) c.table rest
  | .exited => Fits capacity cmds (s.locals.i + 1)

/-- What holds at each statement of the shell. -/
def Phase (capacity : ℕ) (cmds : List Command) (s : State) : Prop :=
  match s.pc with
  | .test => Between s.table s.locals ∧ s.child = none ∧ s.locals.i ≤ cmds.length
  | .fork => During cmds s.table s.locals ∧ s.child = none ∧ s.pipes s.locals.i = 0
  | .wait => During cmds s.table s.locals ∧ ∃ c, s.child = some c ∧ ChildInv capacity cmds s c
  | .close =>
    During cmds s.table s.locals ∧ s.child = none ∧ Fits capacity cmds (s.locals.i + 1)
  | .returned => s.child = none ∧ cmds.length ≤ s.locals.i
  | .exited => s.child = none

structure Inv (capacity : ℕ) (cmds : List Command) (s : State) : Prop where
  fits : Fits capacity cmds s.locals.i
  phase : Phase capacity cmds s

theorem inv_start (start : Startup) : Inv capacity cmds (startState 0 start.table) where
  fits := fun j hj => absurd hj (Nat.not_lt_zero j)
  phase := by
    refine ⟨⟨?_, start.open_std, ?_⟩, rfl, Nat.zero_le _⟩
    · intro m j h
      obtain ⟨x, hx⟩ := start.no_pipe m _ h
      cases hx
    · intro h
      exact absurd h (lt_irrefl 0)

theorem inv_forkFailure {s t : State} (h : Inv capacity cmds s)
    (ht : step capacity cmds s .forkFailure = some t) : Inv capacity cmds t := by
  simp only [step] at ht
  split_ifs at ht with hpc
  cases ht
  have hph := h.phase
  simp only [Phase, hpc] at hph
  exact ⟨h.fits, hph.2.1⟩

/-- `pipe` takes two free descriptors and leaves the open ones alone. -/
theorem Between.pipe {tab : FdTable File} {l : Locals} (hb : Between tab l)
    (hi : l.i < cmds.length) {r w : ℕ} {tab' tab'' : FdTable File}
    (hr : tab.alloc (.pipeRead l.i) = (r, tab'))
    (hw : tab'.alloc (.pipeWrite l.i) = (w, tab'')) :
    During cmds tab'' { l with p0 := r, p1 := w } := by
  obtain ⟨rfl, rfl⟩ := Prod.mk.inj hr
  obtain ⟨rfl, rfl⟩ := Prod.mk.inj hw
  set r := tab.lowestFree
  set w := (tab.put r (.pipeRead l.i)).lowestFree with hw
  have hrfree : tab.get r = none := tab.get_lowestFree
  have hwfree := (tab.put r (.pipeRead l.i)).get_lowestFree
  rw [← hw, FdTable.get_put] at hwfree
  have hwr : w ≠ r := by
    intro he
    rw [if_pos he] at hwfree
    cases hwfree
  rw [if_neg hwr] at hwfree
  have hkeep : ∀ m f, tab.get m = some f →
      ((tab.put r (.pipeRead l.i)).put w (.pipeWrite l.i)).get m = some f := by
    intro m f hm
    have h1 : m ≠ w := by
      rintro rfl
      rw [hwfree] at hm
      cases hm
    have h2 : m ≠ r := by
      rintro rfl
      rw [hrfree] at hm
      cases hm
    rw [FdTable.get_put, if_neg h1, FdTable.get_put, if_neg h2, hm]
  constructor
  · exact hi
  · intro m j hm
    rw [FdTable.get_put] at hm
    split_ifs at hm with h1
    · exact ⟨h1, by cases hm; rfl⟩
    · rw [FdTable.get_put] at hm
      split_ifs at hm with h2
      · cases hm
      · exact absurd hm (hb.no_write m j)
  · intro m hm
    obtain ⟨x, hx⟩ := hb.std m hm
    exact ⟨x, hkeep m _ hx⟩
  · intro h0
    exact hkeep _ _ (hb.fd_in h0)
  · rw [FdTable.get_put, if_neg hwr.symm, FdTable.get_put, if_pos rfl]
  · rw [FdTable.get_put, if_pos rfl]

/-- After the command the shell keeps only the read end of its pipe. -/
theorem During.close {tab : FdTable File} {l : Locals} (hd : During cmds tab l) :
    Between (if 0 < l.i then (tab.close l.p1).close l.fdIn else tab.close l.p1)
      { l with fdIn := l.p0, i := l.i + 1 } := by
  set tab' := if 0 < l.i then (tab.close l.p1).close l.fdIn else tab.close l.p1 with htab
  have hget : ∀ m, tab'.get m =
      if m = l.p1 ∨ 0 < l.i ∧ m = l.fdIn then none else tab.get m := by
    intro m
    rw [htab]
    by_cases h0 : 0 < l.i
    · rw [if_pos h0, FdTable.get_close, FdTable.get_close]
      grind
    · rw [if_neg h0, FdTable.get_close]
      grind
  constructor
  · intro m j hm
    rw [hget] at hm
    split_ifs at hm with h1
    exact h1 (Or.inl (hd.only_write m j hm).1)
  · intro m hm
    obtain ⟨x, hx⟩ := hd.std m hm
    refine ⟨x, ?_⟩
    rw [hget, if_neg, hx]
    rintro (rfl | ⟨h0, rfl⟩)
    · rw [hd.p1] at hx
      cases hx
    · rw [hd.fd_in h0] at hx
      cases hx
  · intro _
    have hp0 := hd.p0
    rw [hget, if_neg, hp0]
    · rfl
    · rintro (h1 | ⟨h0, h1⟩)
      · dsimp only at h1
        rw [h1, hd.p1] at hp0
        cases hp0
      · dsimp only at h1
        rw [h1, hd.fd_in h0] at hp0
        have hi := File.pipeRead.inj (Option.some.inj hp0)
        omega

theorem inv_shell {s t : State} (h : Inv capacity cmds s)
    (ht : step capacity cmds s .shell = some t) : Inv capacity cmds t := by
  change shellStep 0 cmds s = some t at ht
  have hph := h.phase
  cases hpc : s.pc with
  | test =>
    simp only [Phase, hpc] at hph
    obtain ⟨hb, hchild, hle⟩ := hph
    simp only [shellStep, hpc] at ht
    split_ifs at ht with hi
    · cases ht
      exact ⟨h.fits, hb.pipe hi rfl rfl, hchild, Function.update_self ..⟩
    · cases ht
      exact ⟨h.fits, hchild, not_lt.mp hi⟩
  | fork =>
    simp only [Phase, hpc] at hph
    obtain ⟨hd, _, hz⟩ := hph
    simp only [shellStep, hpc] at ht
    cases ht
    exact ⟨h.fits, hd, _, rfl, rfl, rfl, hz⟩
  | wait =>
    simp only [Phase, hpc] at hph
    obtain ⟨hd, ⟨l, tab, cpc⟩, hc, hci⟩ := hph
    simp only [shellStep, hpc, hc] at ht
    cases cpc with
    | forked => cases ht
    | running rest => cases ht
    | exited =>
      cases ht
      exact ⟨h.fits, hd, rfl, hci⟩
  | close =>
    simp only [Phase, hpc] at hph
    obtain ⟨hd, hchild, hfits⟩ := hph
    simp only [shellStep, hpc] at ht
    cases ht
    exact ⟨hfits, hd.close, hchild, hd.lt⟩
  | returned => simp [shellStep, hpc] at ht
  | exited => simp [shellStep, hpc] at ht

theorem During.p0_ne {tab : FdTable File} {l : Locals} (hd : During cmds tab l) {m : ℕ}
    (hm : m < 3) : m ≠ l.p0 := by
  rintro rfl
  obtain ⟨x, hx⟩ := hd.std _ hm
  cases hx.symm.trans hd.p0

theorem During.p1_ne {tab : FdTable File} {l : Locals} (hd : During cmds tab l) {m : ℕ}
    (hm : m < 3) : m ≠ l.p1 := by
  rintro rfl
  obtain ⟨x, hx⟩ := hd.std _ hm
  cases hx.symm.trans hd.p1

/-- The child's table after the redirections. -/
theorem During.get_childTable {tab : FdTable File} {l : Locals} (hd : During cmds tab l) (m : ℕ) :
    (Shell.childTable cmds l tab).get m =
      if m = l.p0 then none
      else if l.i + 1 < cmds.length ∧ m = 1 then some (.pipeWrite l.i)
      else if 0 < l.i ∧ m = 0 then some (.pipeRead (l.i - 1)) else tab.get m := by
  set t := if 0 < l.i then tab.dup2 l.fdIn 0 else tab with ht
  have hget : ∀ m, t.get m =
      if 0 < l.i ∧ m = 0 then some (.pipeRead (l.i - 1)) else tab.get m := by
    intro m
    rw [ht]
    by_cases hi : 0 < l.i
    · rw [if_pos hi, FdTable.dup2_eq_put (hd.fd_in hi), FdTable.get_put]
      simp only [hi, true_and]
    · simp only [hi, false_and, if_false]
  rw [Shell.childTable, FdTable.get_close]
  by_cases hn : l.i + 1 < cmds.length
  · have hw : t.get l.p1 = some (.pipeWrite l.i) := by
      rw [hget, if_neg (fun h => hd.p1_ne (by decide) h.2.symm), hd.p1]
    simp only [hn, true_and, if_true, ← ht, FdTable.dup2_eq_put hw, FdTable.get_put, hget]
  · simp only [hn, false_and, if_false, ← ht, hget]

theorem During.childTable {tab : FdTable File} {l : Locals} (hd : During cmds tab l) :
    Running capacity cmds l 0 (childTable cmds l tab) (cmds.getD l.i []) := by
  obtain ⟨x0, h0⟩ := hd.std 0 (by decide)
  obtain ⟨x1, h1⟩ := hd.std 1 (by decide)
  have hp0 := hd.p0_ne (m := 0) (by decide)
  have hp1 := hd.p0_ne (m := 1) (by decide)
  constructor
  · intro j hj
    rw [hd.get_childTable, if_neg hp0, if_neg (by simp)] at hj
    split_ifs at hj with hi
    · have := File.pipeRead.inj (Option.some.inj hj)
      omega
    · rw [h0] at hj
      cases hj
  · split_ifs with hn
    · rw [hd.get_childTable, if_neg hp1, if_pos ⟨hn, rfl⟩]
    · refine ⟨x1, ?_⟩
      rw [hd.get_childTable, if_neg hp1, if_neg (fun h => hn h.1), if_neg (by simp), h1]
  · intro m j hm
    rw [hd.get_childTable] at hm
    split_ifs at hm with h2 h3 h4
    · cases hm
      rfl
    · cases hm
    · exact (hd.only_write m j hm).2
  · exact ⟨[], rfl, fun _ => ⟨rfl, Nat.zero_le _⟩⟩

theorem Running.advance {l : Locals} {bytes bytes' : ℕ} {tab : FdTable File} {a : IoAction}
    {rest : Command} (hr : Running capacity cmds l bytes tab (a :: rest))
    (hb : l.i + 1 < cmds.length → bytes' = bytes + (if a = .write then 1 else 0) ∧
      (a = .write → bytes < capacity)) :
    Running capacity cmds l bytes' tab rest := by
  obtain ⟨hin, hout, honly, done, hdone, hprog⟩ := hr
  refine ⟨hin, hout, honly, done ++ [a], by rw [hdone, List.append_assoc]; rfl, fun hn => ?_⟩
  obtain ⟨h1, h2⟩ := hprog hn
  obtain ⟨h3, h4⟩ := hb hn
  cases a with
  | read =>
    have hcount : written (done ++ [.read]) = written done := by simp [written]
    simp only [reduceCtorEq, if_false] at h3
    omega
  | write =>
    have hcount : written (done ++ [.write]) = written done + 1 := by simp [written]
    have := h4 rfl
    rw [if_pos rfl] at h3
    omega

theorem Running.read {s t : State} {c : Child Command} {rest : Command}
    (hr : Running capacity cmds s.locals (s.pipes s.locals.i) c.table (.read :: rest))
    (ht : readStep s c rest = some t) :
    ∃ pipes, t = { s with child := some { c with pc := .running rest }, pipes := pipes } ∧
      Running capacity cmds s.locals (pipes s.locals.i) c.table rest := by
  simp only [readStep] at ht
  split at ht
  · rename_i p hp
    have hlt := hr.stdin p hp
    split_ifs at ht with hpos hheld
    · cases ht
      refine ⟨_, rfl, hr.advance fun _ => ⟨?_, nofun⟩⟩
      rw [Function.update_of_ne hlt.ne']
      rfl
    · cases ht
      exact ⟨_, rfl, hr.advance fun _ => ⟨rfl, nofun⟩⟩
  · cases ht
    exact ⟨_, rfl, hr.advance fun _ => ⟨rfl, nofun⟩⟩

/-- The shell itself keeps the read end, so a writer is never killed. -/
theorem Running.write {s t : State} {c : Child Command} {rest : Command}
    (hd : During cmds s.table s.locals)
    (hr : Running capacity cmds s.locals (s.pipes s.locals.i) c.table (.write :: rest))
    (ht : writeStep capacity s c rest = some t) :
    ∃ pipes, t = { s with child := some { c with pc := .running rest }, pipes := pipes } ∧
      Running capacity cmds s.locals (pipes s.locals.i) c.table rest := by
  have hout := hr.stdout
  simp only [writeStep] at ht
  split at ht
  · rename_i p hp
    rw [hp] at hout
    split_ifs at hout with hn
    · obtain rfl := File.pipeWrite.inj (Option.some.inj hout)
      have hheld : s.Holds (.pipeRead s.locals.i) :=
        Or.inl (FdTable.holds_iff.mpr ⟨_, hd.p0⟩)
      rw [if_neg (not_not.mpr hheld)] at ht
      split_ifs at ht with hroom
      cases ht
      refine ⟨_, rfl, hr.advance fun _ => ⟨?_, fun _ => hroom⟩⟩
      rw [Function.update_self, if_pos rfl]
    · obtain ⟨x, hx⟩ := hout
      cases hx
  · rename_i hnot
    cases ht
    refine ⟨_, rfl, hr.advance fun hn => ?_⟩
    rw [if_pos hn] at hout
    exact absurd hout (hnot _)

theorem Running.fits {l : Locals} {bytes : ℕ} {tab : FdTable File}
    (hr : Running capacity cmds l bytes tab []) (hf : Fits capacity cmds l.i) :
    Fits capacity cmds (l.i + 1) := by
  intro j hj hn
  rcases Nat.lt_succ_iff_lt_or_eq.mp hj with hlt | rfl
  · exact hf j hlt hn
  · obtain ⟨done, hdone, hprog⟩ := hr.progress
    rw [hdone, List.append_nil]
    exact (hprog hn).2

theorem inv_child {s t : State} (h : Inv capacity cmds s)
    (ht : step capacity cmds s .child = some t) : Inv capacity cmds t := by
  change childStep capacity cmds s = some t at ht
  have hph := h.phase
  cases hc : s.child with
  | none =>
    simp only [childStep, hc] at ht
    cases ht
  | some c =>
    cases hpc : s.pc <;> simp only [Phase, hpc, hc, reduceCtorEq, false_and, and_false] at hph
    obtain ⟨hd, _, ⟨⟩, hci⟩ := hph
    -- the child changes nothing the shell's part of the invariant reads
    have hmk : ∀ c' pipes,
        ChildInv capacity cmds { s with child := some c', pipes := pipes } c' →
        Inv capacity cmds { s with child := some c', pipes := pipes } := by
      intro c' pipes hc'
      refine ⟨h.fits, ?_⟩
      simp only [Phase, hpc]
      exact ⟨hd, c', rfl, hc'⟩
    cases hcpc : c.pc with
    | forked =>
      simp only [ChildInv, hcpc] at hci
      obtain ⟨hl, htab, hz⟩ := hci
      simp only [childStep, hc, hcpc] at ht
      cases ht
      apply hmk _ s.pipes
      simp only [ChildInv, hl, htab, hz]
      exact hd.childTable
    | running rest =>
      simp only [ChildInv, hcpc] at hci
      cases rest with
      | nil =>
        simp only [childStep, hc, hcpc] at ht
        cases ht
        exact hmk _ s.pipes (hci.fits h.fits)
      | cons a rest =>
        cases a with
        | read =>
          simp only [childStep, hc, hcpc] at ht
          obtain ⟨pipes, rfl, hr⟩ := hci.read ht
          exact hmk _ pipes hr
        | write =>
          simp only [childStep, hc, hcpc] at ht
          obtain ⟨pipes, rfl, hr⟩ := hci.write hd ht
          exact hmk _ pipes hr
    | exited =>
      simp only [childStep, hc, hcpc] at ht
      cases ht

theorem inv_step {s t : State} {a : Action} (h : Inv capacity cmds s)
    (ht : step capacity cmds s a = some t) : Inv capacity cmds t := by
  cases a with
  | shell => exact inv_shell h ht
  | forkFailure => exact inv_forkFailure h ht
  | child => exact inv_child h ht

theorem inv_of_reachable {start : Startup} {s : State}
    (hs : (seqPipe capacity cmds start).Reachable s) : Inv capacity cmds s := by
  apply hs.invariant (I := Inv capacity cmds) (inv_start start)
  intro u a v hu hv
  exact inv_step hu hv

end OsTasks.Shell

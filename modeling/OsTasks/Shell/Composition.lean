import OsTasks.Shell.Flow
import OsTasks.Shell.Plumbing

/-! What a pipeline computes. `seq_pipe` with its bytes goes in step with the one that only counts
them, for the reads and writes that its programs make on their inputs. -/
namespace OsTasks.Shell.Flow
open OsTasks.Lib

variable {σ : Type*} {next : σ → Op σ} {progs : List σ} {capacity : ℕ} {start : Startup}
  {input : List Byte} {outputs : List (List Byte)} {cmds : List Command}

theorem Runs.length_output {q : σ} {input output : List Byte} {acts : Command}
    (h : Runs next q input output acts) : written acts = output.length := by
  induction h with
  | exit _ => rfl
  | write _ _ ih => simpa [written] using ih
  | read _ _ ih => simpa [written] using ih

theorem Chain.lengths (h : Chain next progs input outputs cmds) :
    progs.length = outputs.length ∧ cmds.length = outputs.length := by
  induction h with
  | nil => exact ⟨rfl, rfl⟩
  | cons _ _ ih => exact ⟨congrArg (· + 1) ih.1, congrArg (· + 1) ih.2⟩

/-- What the `i`-th program reads. -/
def inputOf (input : List Byte) (outputs : List (List Byte)) (i : ℕ) : List Byte :=
  (input :: outputs).getD i []

theorem Chain.runs (h : Chain next progs input outputs cmds) {i : ℕ} {q : σ}
    (hq : progs[i]? = some q) :
    Runs next q (inputOf input outputs i) (outputs.getD i []) (cmds.getD i []) := by
  induction h generalizing i with
  | nil => cases hq
  | cons hruns _ ih =>
    cases i with
    | zero =>
      cases hq
      exact hruns
    | succ i => exact ih hq

theorem Chain.written (h : Chain next progs input outputs cmds) :
    cmds.map Shell.written = outputs.map List.length := by
  induction h with
  | nil => rfl
  | cons hruns _ ih => rw [List.map_cons, List.map_cons, hruns.length_output, ih]

/-- What the running program has still to read. -/
def State.source (s : State σ) : List Byte :=
  if s.locals.i = 0 then s.stdin else s.pipes (s.locals.i - 1)

/-- What the running program has written, one of `n`. -/
def State.sink (n : ℕ) (s : State σ) : List Byte :=
  if s.locals.i + 1 < n then s.pipes s.locals.i else s.stdout

section Matches
variable (next input outputs)

/-- The program and the actions left to it, as far as it has come. -/
inductive Along (s : State σ) : ChildPc σ → ChildPc Command → Prop
  | forked : s.source = inputOf input outputs s.locals.i → s.sink outputs.length = [] →
      Along s .forked .forked
  | running {q : σ} {output : List Byte} {rest : Command} :
      Runs next q s.source output rest →
      s.sink outputs.length ++ output = outputs.getD s.locals.i [] →
      Along s (.running q) (.running rest)
  | exited : s.sink outputs.length = outputs.getD s.locals.i [] → Along s .exited .exited

structure SameChild (s : State σ) (x : Child σ) (y : Child Command) : Prop where
  locals : x.locals = y.locals
  table : x.table = y.table
  along : Along next input outputs s x.pc y.pc

/-- What lies in the pipes where no child runs. -/
def Held (s : State σ) : ShellPc → Prop
  | .test => if s.locals.i < outputs.length
      then s.source = inputOf input outputs s.locals.i ∧ s.stdout = []
      else s.stdout = outputs.getLastD []
  | .fork => s.source = inputOf input outputs s.locals.i ∧ s.sink outputs.length = []
  | .wait => True
  | .close => s.sink outputs.length = outputs.getD s.locals.i []
  | .returned => s.stdout = outputs.getLastD []
  | .exited => s.stdout = []

/-- `seq_pipe` with the bytes and with their numbers. -/
structure Matches (s : State σ) (c : Shell.State) : Prop where
  table : s.table = c.table
  pc : s.pc = c.pc
  locals : s.locals = c.locals
  pipes : ∀ p, (s.pipes p).length = c.pipes p
  child : Option.Rel (SameChild next input outputs s) s.child c.child
  quiet : s.locals.i + 1 < outputs.length → s.stdout = []
  held : Held input outputs s s.pc

end Matches

theorem Along.sink_isPrefix {s : State σ} {pc : ChildPc σ} {pc' : ChildPc Command}
    (h : Along next input outputs s pc pc') :
    s.sink outputs.length <+: outputs.getD s.locals.i [] := by
  cases h with
  | forked _ hsink =>
    rw [hsink]
    exact List.nil_prefix
  | running _ hout =>
    rw [← hout]
    exact List.prefix_append _ _
  | exited hsink => rw [hsink]

theorem held_of_wait {s : State σ} {pc : ShellPc} (h : pc = .wait) : Held input outputs s pc := by
  rw [h]
  trivial

theorem Held.stdout {s : State σ} (h : Held input outputs s .fork)
    (hquiet : s.locals.i + 1 < outputs.length → s.stdout = []) : s.stdout = [] := by
  by_cases hn : s.locals.i + 1 < outputs.length
  · exact hquiet hn
  · have hsink := h.2
    rw [State.sink, if_neg hn] at hsink
    exact hsink

theorem source_update {s : State σ} (l : List Byte) :
    ({ s with pipes := Function.update s.pipes s.locals.i l } : State σ).source = s.source := by
  by_cases hi : s.locals.i = 0
  · simp [State.source, hi]
  · have hne : s.locals.i - 1 ≠ s.locals.i := by omega
    simp [State.source, hi, Function.update_of_ne hne]

theorem getLastD_of_last {i : ℕ} (h : i + 1 = outputs.length) :
    outputs.getLastD [] = outputs.getD i [] := by
  rw [List.getLastD_eq_getLast?, List.getLast?_eq_getElem?, List.getD_eq_getElem?_getD, ← h]
  rfl

theorem matches_shell {s : State σ} {c : Shell.State} (hchain : Chain next progs input outputs cmds)
    (hinv : Inv capacity cmds c) (h : Matches next input outputs s c) :
    Option.Rel (Matches next input outputs) (step capacity next progs s .shell)
      (Shell.step capacity cmds c .shell) := by
  obtain ⟨hprogs, hcmds⟩ := hchain.lengths
  obtain ⟨⟨table, pc, locals, child, pipes⟩, stdin, stdout⟩ := s
  obtain ⟨table', pc', locals', child', pipes'⟩ := c
  obtain ⟨rfl, rfl, rfl, hpipes, hchild, hquiet, hheld⟩ := h
  have hph := hinv.phase
  cases pc with
  | test =>
    obtain ⟨-, rfl, hle⟩ := hph
    cases hchild
    dsimp only [Held] at hheld hquiet hle
    by_cases hi : locals.i < outputs.length
    · rw [if_pos hi] at hheld
      simp only [step, Shell.step, shellStep, hprogs, hcmds, hi, if_true]
      refine .some ⟨rfl, rfl, rfl, fun p => ?_, .none, hquiet, ?_⟩
      · by_cases hp : p = locals.i
        · rw [hp]
          simp
        · simp [Function.update_of_ne hp, hpipes]
      · have hsource := source_update (s := (⟨⟨table, .test, locals, none, pipes⟩,
          stdin, stdout⟩ : State σ)) []
        refine ⟨hsource.trans hheld.1, ?_⟩
        simp [State.sink, hheld.2]
    · rw [if_neg hi] at hheld
      simp only [step, Shell.step, shellStep, hprogs, hcmds, hi, if_false]
      exact .some ⟨rfl, rfl, rfl, hpipes, .none, hquiet, hheld⟩
  | fork =>
    obtain ⟨-, rfl, -⟩ := hph
    cases hchild
    exact .some ⟨rfl, rfl, rfl, hpipes, .some ⟨rfl, rfl, .forked hheld.1 hheld.2⟩, hquiet, trivial⟩
  | wait =>
    obtain ⟨-, y, rfl, -⟩ := hph
    cases hchild with
    | some hxy =>
      rename_i x
      obtain ⟨l, t, xpc⟩ := x
      obtain ⟨l', t', ypc⟩ := y
      have halong := hxy.along
      dsimp only at halong
      cases halong with
      | forked => exact .none
      | running => exact .none
      | exited hsink => exact .some ⟨rfl, rfl, rfl, hpipes, .none, hquiet, hsink⟩
  | close =>
    obtain ⟨hd, rfl, -⟩ := hph
    cases hchild
    have hlt := hd.lt
    dsimp only [Held, State.sink] at hheld hquiet hlt
    refine .some ⟨rfl, rfl, rfl, hpipes, .none, fun hi => hquiet ?_, ?_⟩
    · dsimp only at hi
      omega
    · show if locals.i + 1 < outputs.length then _ else _
      by_cases hi : locals.i + 1 < outputs.length
      · rw [if_pos hi] at hheld ⊢
        exact ⟨hheld, hquiet hi⟩
      · rw [if_neg hi] at hheld ⊢
        have hlast := getLastD_of_last (show locals.i + 1 = outputs.length by omega)
        rw [hlast]
        exact hheld
  | returned => exact .none
  | exited => exact .none

theorem wait_of_child {c : Shell.State} (hinv : Inv capacity cmds c) {y : Child Command}
    (hy : c.child = some y) : c.pc = .wait ∧ During cmds c.table c.locals := by
  have hph := hinv.phase
  cases hpc : c.pc <;> simp only [Phase, hpc, hy, reduceCtorEq, false_and, and_false] at hph
  exact ⟨rfl, hph.1⟩

/-- What a program finds on its standard descriptors. -/
structure Wired (n : ℕ) (start : Startup) (c : Shell.State) (t : FdTable File) : Prop where
  stdin : t.get 0 = if c.locals.i = 0 then start.table.get 0
    else some (.pipeRead (c.locals.i - 1))
  stdout : t.get 1 = if c.locals.i + 1 < n then some (.pipeWrite c.locals.i)
    else start.table.get 1
  reader : c.Holds (.pipeRead c.locals.i)
  noWriter : c.locals.i ≠ 0 → ¬ c.Holds (.pipeWrite (c.locals.i - 1))

theorem wired {c : Shell.State} (hinv : Inv capacity cmds c) (hp : Plumbed cmds start c)
    {y : Child Command} (hy : c.child = some y) {rest : Command} (hrest : y.pc = .running rest) :
    Wired cmds.length start c y.table := by
  have htab := (hp.table y hy rest hrest).1
  have hph := hinv.phase
  cases hpc : c.pc <;> simp only [Phase, hpc, hy, reduceCtorEq, false_and, and_false] at hph
  obtain ⟨hd, _, ⟨⟩, hci⟩ := hph
  simp only [ChildInv, hrest] at hci
  have hstd := hp.std (by simp [hpc])
  have hp0 : ∀ m < 3, m ≠ c.locals.p0 := fun m hm => hd.p0_ne hm
  constructor
  · rw [htab, hd.get_childTable, if_neg (hp0 0 (by decide)), if_neg (by simp),
      hstd 0 (by decide)]
    by_cases hi : c.locals.i = 0
    · rw [if_neg (by omega), if_pos hi]
    · rw [if_pos ⟨by omega, rfl⟩, if_neg hi]
  · rw [htab, hd.get_childTable, if_neg (hp0 1 (by decide))]
    by_cases hn : c.locals.i + 1 < cmds.length
    · rw [if_pos ⟨hn, rfl⟩, if_pos hn]
    · rw [if_neg (fun h => hn h.1), if_neg (by simp), if_neg hn, hstd 1 (by decide)]
  · exact Or.inl (FdTable.holds_iff.mpr ⟨_, hd.p0⟩)
  · intro hi
    rintro (hw | ⟨x, hx, hw⟩)
    · obtain ⟨m, hm⟩ := FdTable.holds_iff.mp hw
      have := (hd.only_write m _ hm).2
      omega
    · cases hy.symm.trans hx
      obtain ⟨m, hm⟩ := FdTable.holds_iff.mp hw
      have := hci.only_write m _ hm
      omega

theorem Matches.holds_iff {s : State σ} {c : Shell.State} (h : Matches next input outputs s c)
    (f : File) : s.Holds f ↔ c.Holds f := by
  unfold ShellState.Holds
  rw [h.table]
  refine or_congr_right ?_
  have hchild := h.child
  cases hx : s.child with
  | none =>
    rw [hx] at hchild
    generalize c.child = y at hchild
    cases hchild
    simp
  | some x =>
    rw [hx] at hchild
    generalize c.child = y at hchild
    cases hchild with
    | some hxy => simp [hxy.table]

theorem childTable_eq (h : progs.length = cmds.length) :
    childTable progs = childTable cmds := by
  funext l t
  unfold childTable
  rw [h]

theorem along_running {s s' : State σ} {q : σ} {source sink output : List Byte} {rest : Command}
    (hlocals : s'.locals = s.locals) (hsource : s'.source = source)
    (hsink : s'.sink outputs.length = sink) (hruns : Runs next q source output rest)
    (hout : sink ++ output = outputs.getD s.locals.i []) :
    Along next input outputs s' (.running q) (.running rest) := by
  refine .running (?_ : Runs next q s'.source output rest) ?_
  · rw [hsource]
    exact hruns
  · rw [hsink, hlocals]
    exact hout

section ChildStep
variable {s : State σ} {c : Shell.State} {x : Child σ} {y : Child Command}

theorem matches_write {b : Byte} {q : σ} {output : List Byte} {rest : Command}
    (h : Matches next input outputs s c) (hwait : s.pc = .wait)
    (hxy : SameChild next input outputs s x y) (w : Wired outputs.length start c y.table)
    (hruns : Runs next q s.source output rest)
    (hout : s.sink outputs.length ++ b :: output = outputs.getD s.locals.i []) :
    Option.Rel (Matches next input outputs) (writeStep capacity s x b q)
      (Shell.writeStep capacity c y rest) := by
  have hwritten : s.sink outputs.length ++ [b] ++ output = outputs.getD s.locals.i [] := by
    rw [List.append_assoc]
    exact hout
  have hstdout := w.stdout
  rw [← h.locals] at hstdout
  unfold writeStep Shell.writeStep
  rw [hxy.table]
  by_cases hn : s.locals.i + 1 < outputs.length
  · rw [if_pos hn] at hstdout
    have hholds : c.Holds (.pipeRead s.locals.i) := h.locals ▸ w.reader
    simp only [hstdout, h.holds_iff, hholds, not_true, if_false, h.pipes]
    by_cases hroom : c.pipes s.locals.i < capacity
    · simp only [hroom, if_true]
      refine .some ⟨h.table, h.pc, h.locals, fun p => ?_, .some ⟨hxy.locals, hxy.table, ?_⟩,
        h.quiet, held_of_wait hwait⟩
      · by_cases hp : p = s.locals.i
        · rw [hp]
          simp [h.pipes]
        · simp [Function.update_of_ne hp, h.pipes]
      · refine along_running ?_ ?_ ?_ hruns hwritten
        · rfl
        · exact source_update (s := s.run x q) _
        · simp [State.sink, State.run, hn]
    · simp only [hroom, if_false]
      exact .none
  · rw [if_neg hn] at hstdout
    obtain ⟨f, hf⟩ := start.open_std 1 (by decide)
    simp only [hstdout, hf]
    refine .some ⟨h.table, h.pc, h.locals, h.pipes, .some ⟨hxy.locals, hxy.table, ?_⟩,
      fun hi => absurd hi hn, held_of_wait hwait⟩
    refine along_running ?_ ?_ ?_ hruns hwritten
    · rfl
    · rfl
    · simp [State.sink, State.run, hn]

theorem matches_read {k : Option Byte → σ} {output : List Byte} {rest : Command}
    (h : Matches next input outputs s c) (hwait : s.pc = .wait)
    (hxy : SameChild next input outputs s x y) (w : Wired outputs.length start c y.table)
    (hruns : Runs next (k s.source.head?) s.source.tail output rest)
    (hout : s.sink outputs.length ++ output = outputs.getD s.locals.i []) :
    Option.Rel (Matches next input outputs) (readStep s x k) (Shell.readStep c y rest) := by
  have hstdin := w.stdin
  rw [← h.locals] at hstdin
  unfold readStep Shell.readStep
  rw [hxy.table]
  by_cases hi : s.locals.i = 0
  · rw [if_pos hi] at hstdin
    obtain ⟨f, hf⟩ := start.open_std 0 (by decide)
    simp only [hstdin, hf]
    refine .some ⟨h.table, h.pc, h.locals, h.pipes, .some ⟨hxy.locals, hxy.table, ?_⟩, h.quiet,
      held_of_wait hwait⟩
    have hsource : s.source = s.stdin := if_pos hi
    rw [hsource] at hruns
    refine along_running ?_ ?_ ?_ hruns hout
    · rfl
    · exact if_pos hi
    · rfl
  · rw [if_neg hi] at hstdin
    have hsource : s.source = s.pipes (s.locals.i - 1) := if_neg hi
    have hno := w.noWriter
    rw [← h.locals] at hno
    have hcount := h.pipes (s.locals.i - 1)
    rw [hsource] at hruns
    simp only [hstdin]
    cases hpipe : s.pipes (s.locals.i - 1) with
    | nil =>
      rw [hpipe] at hcount hruns
      simp only [← hcount, List.length_nil, lt_irrefl, if_false, h.holds_iff, hno hi]
      refine .some ⟨h.table, h.pc, h.locals, h.pipes, .some ⟨hxy.locals, hxy.table, ?_⟩, h.quiet,
        held_of_wait hwait⟩
      refine along_running ?_ ?_ ?_ hruns hout
      · rfl
      · exact hsource.trans hpipe
      · rfl
    | cons b bs =>
      rw [hpipe] at hcount hruns
      simp only [← hcount, List.length_cons, Nat.zero_lt_succ, if_true]
      refine .some ⟨h.table, h.pc, h.locals, fun p => ?_, .some ⟨hxy.locals, hxy.table, ?_⟩,
        h.quiet, held_of_wait hwait⟩
      · by_cases hp : p = s.locals.i - 1
        · rw [hp]
          simp
        · simp [Function.update_of_ne hp, h.pipes]
      · have hne : s.locals.i ≠ s.locals.i - 1 := by omega
        refine along_running ?_ ?_ ?_ hruns hout
        · rfl
        · exact (if_neg hi).trans (Function.update_self ..)
        · simp [State.sink, State.run, Function.update_of_ne hne]

theorem matches_exec (hchain : Chain next progs input outputs cmds)
    (h : Matches next input outputs s c) (hwait : s.pc = .wait) (hlocals : y.locals = s.locals)
    (hlt : s.locals.i < outputs.length) (hx : x.locals = y.locals) (htable : x.table = y.table)
    (hsource : s.source = inputOf input outputs s.locals.i)
    (hsink : s.sink outputs.length = []) :
    Option.Rel (Matches next input outputs)
      (progs[x.locals.i]?.map fun q =>
        s.run { x with table := childTable progs x.locals x.table } q)
      (some { c with child := some { y with
        table := childTable cmds y.locals y.table
        pc := .running (cmds.getD y.locals.i []) } }) := by
  obtain ⟨hprogs, hcmds⟩ := hchain.lengths
  have hi : x.locals.i < progs.length := by
    rw [hx, hlocals]
    omega
  obtain ⟨q, hq⟩ : ∃ q, progs[x.locals.i]? = some q := ⟨_, List.getElem?_eq_getElem hi⟩
  have hruns := hchain.runs hq
  rw [hx, hlocals, ← hsource] at hruns
  have hout : [] ++ outputs.getD s.locals.i [] = outputs.getD s.locals.i [] := List.nil_append _
  rw [hq, Option.map_some, hlocals]
  refine .some ⟨h.table, h.pc, h.locals, h.pipes, .some ⟨?_, ?_, ?_⟩, h.quiet, held_of_wait hwait⟩
  · exact hx.trans hlocals
  · dsimp only
    rw [childTable_eq (hprogs.trans hcmds.symm), hx, hlocals, htable]
  · refine along_running ?_ ?_ ?_ hruns hout
    · rfl
    · rfl
    · exact hsink

theorem matches_child (hchain : Chain next progs input outputs cmds)
    (hinv : Inv capacity cmds c) (hp : Plumbed cmds start c) (h : Matches next input outputs s c) :
    Option.Rel (Matches next input outputs) (childStep capacity next progs s)
      (Shell.childStep capacity cmds c) := by
  obtain ⟨-, hcmds⟩ := hchain.lengths
  have hchild := h.child
  unfold childStep Shell.childStep
  cases hy : c.child with
  | none =>
    rw [hy] at hchild
    generalize s.child = child at hchild
    cases hchild
    exact .none
  | some y =>
    rw [hy] at hchild
    generalize s.child = child at hchild
    cases hchild with
    | some hxy =>
      rename_i x
      obtain ⟨hpc, hd⟩ := wait_of_child hinv hy
      have hlt := hd.lt
      have hwait : s.pc = .wait := h.pc.trans hpc
      have halong := hxy.along
      dsimp only
      generalize hxpc : x.pc = xpc at halong
      generalize hypc : y.pc = ypc at halong
      cases halong with
      | forked hsource hsink =>
        have hlocals : y.locals = s.locals := (hp.locals y hy).trans h.locals.symm
        have hi : s.locals.i < outputs.length := by
          rw [h.locals]
          omega
        exact matches_exec hchain h hwait hlocals hi hxy.locals hxy.table hsource hsink
      | running hruns hout =>
        have w : Wired outputs.length start c y.table := hcmds ▸ wired hinv hp hy hypc
        cases hruns with
        | exit hq =>
          simp only [hq]
          refine .some ⟨h.table, h.pc, h.locals, h.pipes, .some ⟨hxy.locals, rfl, ?_⟩, h.quiet,
            held_of_wait hwait⟩
          rw [List.append_nil] at hout
          exact .exited hout
        | write hq hruns =>
          simp only [hq]
          exact matches_write h hwait hxy w hruns hout
        | read hq hruns =>
          simp only [hq]
          exact matches_read h hwait hxy w hruns hout
      | exited => exact .none

theorem matches_step (hchain : Chain next progs input outputs cmds) (hinv : Inv capacity cmds c)
    (hp : Plumbed cmds start c) (h : Matches next input outputs s c) (a : Action) :
    Option.Rel (Matches next input outputs) (step capacity next progs s a)
      (Shell.step capacity cmds c a) := by
  cases a with
  | shell => exact matches_shell hchain hinv h
  | child => exact matches_child hchain hinv hp h
  | forkFailure =>
    simp only [step, Shell.step, h.pc]
    by_cases hpc : c.pc = .fork
    · have hph := hinv.phase
      simp only [Phase, hpc] at hph
      have hheld := h.held
      rw [h.pc, hpc] at hheld
      have hchild := h.child
      rw [hph.2.1] at hchild
      simp only [hpc, if_true]
      refine .some ⟨rfl, rfl, h.locals, h.pipes, ?_, h.quiet, hheld.stdout h.quiet⟩
      dsimp only
      rw [hph.2.1]
      generalize s.child = child at hchild
      cases hchild
      exact .none
    · simp only [hpc, if_false]
      exact .none

end ChildStep

theorem matches_start (start : Startup) :
    Matches next input outputs (seqPipe capacity next progs start input).init
      (startState 0 start.table) where
  table := rfl
  pc := rfl
  locals := rfl
  pipes := fun _ => rfl
  child := .none
  quiet := fun _ => rfl
  held := by
    show if 0 < outputs.length then _ else _
    split_ifs with h0
    · exact ⟨rfl, rfl⟩
    · rw [List.eq_nil_of_length_eq_zero (Nat.eq_zero_of_not_pos h0)]
      rfl

/-- The output so far is the beginning of what the last program writes. -/
theorem stdout_isPrefix {s : State σ} {c : Shell.State}
    (hchain : Chain next progs input outputs cmds) (hinv : Inv capacity cmds c)
    (h : Matches next input outputs s c) : s.stdout <+: outputs.getLastD [] := by
  obtain ⟨-, hcmds⟩ := hchain.lengths
  have hph := hinv.phase
  have hheld := h.held
  -- the last program writes to the terminal, the others to their pipes
  have hsink : s.locals.i < outputs.length →
      s.sink outputs.length <+: outputs.getD s.locals.i [] →
      s.stdout <+: outputs.getLastD [] := by
    intro hlt hprefix
    by_cases hn : s.locals.i + 1 < outputs.length
    · rw [h.quiet hn]
      exact List.nil_prefix
    · rw [State.sink, if_neg hn] at hprefix
      rw [getLastD_of_last (show s.locals.i + 1 = outputs.length by omega)]
      exact hprefix
  rw [h.pc] at hheld
  rw [h.locals] at hsink
  cases hpc : c.pc with
  | test =>
    rw [hpc] at hheld
    unfold Held at hheld
    split_ifs at hheld
    · rw [hheld.2]
      exact List.nil_prefix
    · rw [hheld]
  | fork =>
    rw [hpc] at hheld
    rw [hheld.stdout h.quiet]
    exact List.nil_prefix
  | wait =>
    simp only [Phase, hpc] at hph
    obtain ⟨hd, y, hy, -⟩ := hph
    have hlt := hd.lt
    have hchild := h.child
    rw [hy] at hchild
    generalize s.child = child at hchild
    cases hchild with
    | some hxy =>
      rw [← h.locals] at hsink
      apply hsink (by rw [h.locals]; omega)
      exact hxy.along.sink_isPrefix
  | close =>
    simp only [Phase, hpc] at hph
    rw [hpc] at hheld
    have hlt := hph.1.lt
    exact hsink (by omega) (h.locals ▸ hheld ▸ List.prefix_rfl)
  | returned =>
    rw [hpc] at hheld
    exact hheld ▸ List.prefix_rfl
  | exited =>
    rw [hpc] at hheld
    rw [show s.stdout = [] from hheld]
    exact List.nil_prefix

/-- The two machines in step, with what is known of the one that counts. -/
structure InStep (next : σ → Op σ) (input : List Byte) (outputs : List (List Byte))
    (capacity : ℕ) (cmds : List Command) (start : Startup) (s : State σ) (c : Shell.State) :
    Prop where
  same : Matches next input outputs s c
  inv : Inv capacity cmds c
  plumbed : Plumbed cmds start c

theorem inStep_run (hchain : Chain next progs input outputs cmds) {as : List Action} {s : State σ}
    (h : (seqPipe capacity next progs start input).run as = some s) :
    ∃ c, (Shell.seqPipe capacity cmds start).run as = some c ∧
      InStep next input outputs capacity cmds start s c := by
  apply Machine.runFrom_related (R := InStep next input outputs capacity cmds start) _
    ⟨matches_start start, inv_start start, plumbed_start⟩ h
  intro s c a s' hsc hs'
  have hrel := matches_step hchain hsc.inv hsc.plumbed hsc.same a
  rw [show step capacity next progs s a = some s' from hs'] at hrel
  generalize hc' : Shell.step capacity cmds c a = c' at hrel
  cases hrel with
  | some hsame =>
    exact ⟨_, hc', hsame, inv_step hsc.inv hc', plumbed_step hsc.inv hsc.plumbed hc'⟩

theorem remaining_lt {c c' : Shell.State} {a : Action} (hinv : Inv capacity cmds c)
    (hc' : Shell.step capacity cmds c a = some c') : remaining cmds c' < remaining cmds c := by
  by_cases ha : a = .forkFailure
  · subst ha
    simp only [Shell.step] at hc'
    split_ifs at hc' with hpc
    cases hc'
    simp only [remaining, hpc]
    omega
  · exact remaining_step hinv ha hc'

theorem fits_iff_outputs (hchain : Chain next progs input outputs cmds) :
    Fits capacity cmds cmds.length ↔ ∀ output ∈ outputs.dropLast, output.length ≤ capacity := by
  have hmap := congrArg List.dropLast hchain.written
  rw [← List.map_dropLast, ← List.map_dropLast] at hmap
  rw [fits_iff, ← List.forall_mem_map (f := Shell.written) (P := (· ≤ capacity)), hmap,
    List.forall_mem_map]

/-- A pipeline computes the composition of its programs: what has come out is the beginning of what
the last program writes on what the others make of the input, every run ends, and unless a fork
fails it ends with all of that written and the call returned exactly when what each program but the
last writes fits into a pipe. -/
theorem pipeline_composes (capacity : ℕ) (start : Startup)
    (hchain : Chain next progs input outputs cmds) {as : List Action} {s : State σ}
    (h : (seqPipe capacity next progs start input).run as = some s) :
    s.stdout <+: outputs.getLastD [] ∧
      as.length ≤ (cmds.map fun c => c.length + 8).sum + 1 ∧
      ((seqPipe capacity next progs start input).Halted s → s.pc ≠ .exited →
        (s.pc = .returned ∧ s.stdout = outputs.getLastD [] ↔
          ∀ output ∈ outputs.dropLast, output.length ≤ capacity)) := by
  obtain ⟨c, hc, hsc⟩ := inStep_run hchain h
  refine ⟨stdout_isPrefix hchain hsc.inv hsc.same, ?_, ?_⟩
  · have hlength := Machine.runFrom_length_le (μ := remaining cmds)
      (fun _ _ _ => inv_step) (fun _ _ _ => remaining_lt) (inv_start start) hc
    have hinit : remaining cmds (startState 0 start.table) =
        (cmds.map fun c => c.length + 8).sum + 1 := rfl
    omega
  · intro hh hexited
    rw [← fits_iff_outputs hchain]
    have hpc := hsc.same.pc
    constructor
    · intro hreturned
      have hph := hsc.inv.phase
      simp only [Phase, ← hpc, hreturned.1] at hph
      exact fun j hj => hsc.inv.fits j (hj.trans_le hph.2)
    · intro hfits
      have hfinished : c.Finished := by
        by_contra hn
        obtain ⟨a, c', hc'⟩ := exists_step hsc.inv hfits hn
        have hrel := matches_step hchain hsc.inv hsc.plumbed hsc.same a
        rw [show step capacity next progs s a = none from hh a, hc'] at hrel
        cases hrel
      have hreturned : s.pc = .returned := by
        rw [hpc] at hexited ⊢
        exact hfinished.1.resolve_right hexited
      have hheld := hsc.same.held
      rw [hreturned] at hheld
      exact ⟨hreturned, hheld⟩

/-- `cat`: before a read, or with what the last one gave. -/
def cat : Option (Option Byte) → Op (Option (Option Byte))
  | none => .read some
  | some none => .exit
  | some (some b) => .write b none

theorem runs_cat (input : List Byte) : ∃ acts, Runs cat none input input acts := by
  induction input with
  | nil => exact ⟨_, .read rfl (.exit rfl)⟩
  | cons b bs ih =>
    obtain ⟨acts, hruns⟩ := ih
    exact ⟨_, .read rfl (.write rfl hruns)⟩

/-- One `cat` after the other. -/
def catRun : List Action :=
  [.shell, .shell, .child, .child, .child, .child, .child, .shell, .shell, .shell, .shell, .child,
    .child, .child, .child, .child, .shell, .shell, .shell]

theorem pipeline_composes_cat :
    ∃ s, (seqPipe 1 cat [none, none] terminal [0x61]).run catRun = some s ∧
      s.pc = .returned ∧ s.stdout = [0x61] := by
  obtain ⟨acts, hruns⟩ := runs_cat [0x61]
  have hchain := Chain.cons hruns (.cons hruns .nil)
  have hcat := @pipeline_composes _ cat [none, none] [0x61] _ _ 1 terminal hchain catRun _ rfl
  have hreturned := (hcat.2.2 (fun a => by cases a <;> rfl) nofun).mpr (by simp)
  exact ⟨_, rfl, hreturned⟩

end OsTasks.Shell.Flow

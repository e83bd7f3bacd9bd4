import OsTasks.Shell.Deadlock

/-! The shell of task_1: `main`, which calls `seq_pipe` for one line after the other, and the
descriptors that a call leaves open. However many are open, `pipe` gives two more. -/
namespace OsTasks.Shell
open OsTasks.Lib

/-- The last line's call of `seq_pipe`. -/
structure Session where
  cmds : List Command
  call : State

inductive SessionAction where
  /-- `main` reads the next line -/
  | line (cmds : List Command)
  | call (a : Action)

/-- To a next call, the pipe ends that an earlier one left open are files like any other. -/
def File.left : File → File
  | .other n => .other n
  | .pipeRead p => .other p
  | .pipeWrite p => .other p

def sessionStep (capacity : ℕ) (s : Session) : SessionAction → Option Session
  | .line cmds =>
    if s.call.pc = .returned then some ⟨cmds, startState 0 (s.call.table.map File.left)⟩ else none
  | .call a => (step capacity s.cmds s.call a).map fun t => ⟨s.cmds, t⟩

/-- The shell before its first line. -/
def sessionStart (start : Startup) : Session :=
  ⟨[], { startState 0 start.table with pc := .returned }⟩

/-- The lines read so far, the last one first, each with the descriptors that were open before its
call. -/
abbrev Calls := List (List Command × Finset ℕ)

def recordCall (s : Session) (a : SessionAction) (_ : Session) (calls : Calls) : Calls :=
  match a with
  | .line cmds => (cmds, s.call.table.openFds) :: calls
  | .call _ => calls

def session (capacity : ℕ) (start : Startup) : Machine (Session × Calls) SessionAction :=
  (Machine.mk (sessionStart start) (sessionStep capacity)).withHistory [] recordCall

/-- Between two commands the shell has open what it had before the call, and the read end of the
last pipe. -/
structure LeftBetween (base tab : FdTable File) (l : Locals) : Prop where
  get : ∀ m, tab.get m = if 0 < l.i ∧ m = l.fdIn then some (.pipeRead (l.i - 1)) else base.get m
  fresh : 0 < l.i → base.get l.fdIn = none

/-- While a command runs, also both ends of its own pipe. -/
structure LeftDuring (base tab : FdTable File) (l : Locals) : Prop where
  get : ∀ m, tab.get m =
    if m = l.p1 then some (.pipeWrite l.i)
    else if m = l.p0 then some (.pipeRead l.i)
    else if 0 < l.i ∧ m = l.fdIn then some (.pipeRead (l.i - 1)) else base.get m
  fresh : 0 < l.i → base.get l.fdIn = none
  fresh_p0 : base.get l.p0 = none
  fresh_p1 : base.get l.p1 = none
  p0_ne : l.p0 ≠ l.p1
  fdIn_ne : 0 < l.i → l.fdIn ≠ l.p0 ∧ l.fdIn ≠ l.p1

/-- What the shell has open at each statement of a call. -/
def Kept (base : FdTable File) (cmds : List Command) (s : State) : Prop :=
  match s.pc with
  | .test => LeftBetween base s.table s.locals ∧ s.locals.i ≤ cmds.length
  | .fork => LeftDuring base s.table s.locals ∧ s.locals.i < cmds.length
  | .wait => LeftDuring base s.table s.locals ∧ s.locals.i < cmds.length
  | .close => LeftDuring base s.table s.locals ∧ s.locals.i < cmds.length
  | .returned => LeftBetween base s.table s.locals ∧ s.locals.i = cmds.length
  | .exited => True

theorem kept_enter (base : FdTable File) (cmds : List Command) :
    Kept base cmds (startState 0 base) := by
  refine ⟨⟨?_, ?_⟩, Nat.zero_le _⟩
  · intro m
    rw [if_neg (fun h => absurd h.1 (lt_irrefl 0))]
    rfl
  · intro h
    exact absurd h (lt_irrefl 0)

/-- `pipe` takes two numbers that are free. -/
theorem LeftBetween.pipe {base tab : FdTable File} {l : Locals} (hb : LeftBetween base tab l)
    {r w : ℕ} {tab' tab'' : FdTable File} (hr : tab.alloc (.pipeRead l.i) = (r, tab'))
    (hw : tab'.alloc (.pipeWrite l.i) = (w, tab'')) :
    LeftDuring base tab'' { l with p0 := r, p1 := w } := by
  obtain ⟨rfl, rfl⟩ := Prod.mk.inj hr
  obtain ⟨rfl, rfl⟩ := Prod.mk.inj hw
  have hrfree : tab.get tab.lowestFree = none := tab.get_lowestFree
  set r := tab.lowestFree with hrdef
  have hwfree := (tab.put r (.pipeRead l.i)).get_lowestFree
  set w := (tab.put r (.pipeRead l.i)).lowestFree with hwdef
  have hrw : r ≠ w := by
    intro he
    rw [← he, FdTable.get_put, if_pos rfl] at hwfree
    cases hwfree
  rw [FdTable.get_put, if_neg hrw.symm] at hwfree
  -- a free number is neither `fd_in` nor open before the call
  have hunused : ∀ m, tab.get m = none → ¬ (0 < l.i ∧ m = l.fdIn) ∧ base.get m = none := by
    intro m hm
    rw [hb.get] at hm
    split_ifs at hm with hin
    exact ⟨hin, hm⟩
  have hp0 := hunused r hrfree
  have hp1 := hunused w hwfree
  constructor
  · intro m
    rw [FdTable.get_put, FdTable.get_put, hb.get]
  · exact hb.fresh
  · exact hp0.2
  · exact hp1.2
  · exact hrw
  · intro hi
    exact ⟨fun he => hp0.1 ⟨hi, he.symm⟩, fun he => hp1.1 ⟨hi, he.symm⟩⟩

/-- After a command only the read end of its pipe is left. -/
theorem LeftDuring.close {base tab : FdTable File} {l : Locals} (hd : LeftDuring base tab l) :
    LeftBetween base (if 0 < l.i then (tab.close l.p1).close l.fdIn else tab.close l.p1)
      { l with fdIn := l.p0, i := l.i + 1 } := by
  constructor
  · intro m
    have hget := hd.get m
    have hp0 := hd.fresh_p0
    have hp1 := hd.fresh_p1
    have hne := hd.p0_ne
    dsimp only
    by_cases hi : 0 < l.i
    · have hin := hd.fresh hi
      have hdiff := hd.fdIn_ne hi
      rw [if_pos hi, FdTable.get_close, FdTable.get_close, hget]
      grind
    · rw [if_neg hi, FdTable.get_close, hget]
      grind
  · intro _
    exact hd.fresh_p0

theorem kept_shell {base : FdTable File} {cmds : List Command} {s t : State}
    (h : Kept base cmds s) (ht : shellStep 0 cmds s = some t) : Kept base cmds t := by
  unfold Kept at h
  unfold shellStep at ht
  cases hpc : s.pc with
  | test =>
    simp only [hpc] at h ht
    split_ifs at ht with hi
    · cases ht
      exact ⟨h.1.pipe rfl rfl, hi⟩
    · cases ht
      exact ⟨h.1, le_antisymm h.2 (not_lt.mp hi)⟩
  | fork =>
    simp only [hpc] at h ht
    cases ht
    exact h
  | wait =>
    simp only [hpc] at h ht
    split at ht
    · cases ht
      exact h
    · cases ht
  | close =>
    simp only [hpc] at h ht
    cases ht
    exact ⟨h.1.close, h.2⟩
  | returned => simp [hpc] at ht
  | exited => simp [hpc] at ht

theorem kept_step {capacity : ℕ} {base : FdTable File} {cmds : List Command} {s t : State}
    {a : Action} (h : Kept base cmds s) (ht : step capacity cmds s a = some t) :
    Kept base cmds t := by
  cases a with
  | shell => exact kept_shell h ht
  | forkFailure =>
    simp only [step] at ht
    split_ifs at ht
    cases ht
    trivial
  | child =>
    obtain ⟨_, _, _, _, hpc, hl, htab, _⟩ := childStep_frame ht
    unfold Kept at h ⊢
    rw [hpc, hl, htab]
    exact h

theorem LeftBetween.openFds {base tab : FdTable File} {l : Locals} (h : LeftBetween base tab l) :
    tab.openFds = (if 0 < l.i then insert l.fdIn base.openFds else base.openFds) ∧
      (0 < l.i → l.fdIn ∉ base.openFds) := by
  constructor
  · ext m
    rw [FdTable.mem_openFds, h.get]
    by_cases hi : 0 < l.i
    · by_cases hm : m = l.fdIn
      · simp [hi, hm]
      · simp [hi, hm, FdTable.mem_openFds]
    · simp [hi, FdTable.mem_openFds]
  · intro hi
    rw [FdTable.mem_openFds, h.fresh hi]
    exact Bool.false_ne_true

/-- The call of the last line started from what was open before it, and each line so far that has a
command added a descriptor. -/
structure SessionInv (start : Startup) (s : Session) (calls : Calls) : Prop where
  call : calls = [] ∧ s = sessionStart start ∨
    ∃ base earlier, calls = (s.cmds, base.openFds) :: earlier ∧ Kept base s.cmds s.call ∧
      base.openFds.card =
        start.table.openFds.card + earlier.countP fun c => c.1 ≠ []

theorem SessionInv.returned {start : Startup} {s : Session} {calls : Calls}
    (h : SessionInv start s calls) (hret : s.call.pc = .returned) :
    s.call.table.openFds.card = start.table.openFds.card + calls.countP fun c => c.1 ≠ [] := by
  rcases h.call with ⟨rfl, rfl⟩ | ⟨base, earlier, rfl, hkept, hcard⟩
  · rfl
  · simp only [Kept, hret] at hkept
    obtain ⟨hleft, hlen⟩ := hkept
    obtain ⟨hopen, hnew⟩ := hleft.openFds
    rw [hopen, List.countP_cons]
    by_cases hi : 0 < s.call.locals.i
    · have hne : s.cmds ≠ [] := List.ne_nil_of_length_pos (hlen ▸ hi)
      rw [if_pos hi, Finset.card_insert_of_notMem (hnew hi), hcard, if_pos (by simpa using hne)]
      omega
    · have hnil : s.cmds = [] := List.eq_nil_of_length_eq_zero (by omega)
      rw [if_neg hi, hcard, if_neg (by simpa using hnil)]
      rfl

theorem sessionInv_step {capacity : ℕ} {start : Startup} {s t : Session} {calls : Calls}
    {a : SessionAction} (h : SessionInv start s calls) (ht : sessionStep capacity s a = some t) :
    SessionInv start t (recordCall s a t calls) := by
  cases a with
  | line cmds =>
    obtain ⟨hret, ht⟩ := Option.ite_none_right_eq_some.mp ht
    cases ht
    have hcard := h.returned hret
    refine ⟨Or.inr ⟨s.call.table.map File.left, calls, ?_, kept_enter _ _, ?_⟩⟩
    · unfold recordCall
      rw [FdTable.openFds_map]
    · rw [FdTable.openFds_map]
      exact hcard
  | call a =>
    obtain ⟨u, hu, rfl⟩ := Option.map_eq_some_iff.mp ht
    rcases h.call with ⟨_, rfl⟩ | ⟨base, earlier, hcalls, hkept, hcard⟩
    · -- before the first line there is no call to go on with
      cases a <;> cases hu
    · exact ⟨Or.inr ⟨base, earlier, hcalls, kept_step hkept hu, hcard⟩⟩

theorem sessionInv_of_reachable {capacity : ℕ} {start : Startup} {s : Session} {calls : Calls}
    (hs : (session capacity start).Reachable (s, calls)) : SessionInv start s calls := by
  apply Machine.Reachable.invariant_withHistory _ _ hs
  · exact ⟨Or.inl ⟨rfl, rfl⟩⟩
  · intro s calls a t _ hinv ht
    exact sessionInv_step hinv ht

/-- Every line that has a command leaves one more descriptor open. -/
theorem card_openFds {capacity : ℕ} {start : Startup} {s : Session} {calls : Calls}
    (hs : (session capacity start).Reachable (s, calls)) (hret : s.call.pc = .returned) :
    s.call.table.openFds.card = start.table.openFds.card + calls.countP fun c => c.1 ≠ [] :=
  (sessionInv_of_reachable hs).returned hret

/-- After any lines, a call leaves the same descriptors open exactly when its line has no
command. -/
theorem openFds_kept_iff {capacity : ℕ} {start : Startup} {s : Session} {cmds : List Command}
    {before : Finset ℕ} {earlier : Calls}
    (hs : (session capacity start).Reachable (s, (cmds, before) :: earlier))
    (hret : s.call.pc = .returned) : s.call.table.openFds = before ↔ cmds = [] := by
  rcases (sessionInv_of_reachable hs).call with ⟨hcalls, _⟩ | ⟨base, earlier', hcalls, hkept, _⟩
  · cases hcalls
  · obtain ⟨hcall, _⟩ := List.cons.inj hcalls
    obtain ⟨rfl, rfl⟩ := Prod.mk.inj hcall
    simp only [Kept, hret] at hkept
    obtain ⟨hleft, hlen⟩ := hkept
    obtain ⟨hopen, hnew⟩ := hleft.openFds
    rw [hopen]
    by_cases hi : 0 < s.call.locals.i
    · have hne : s.cmds ≠ [] := List.ne_nil_of_length_pos (hlen ▸ hi)
      rw [if_pos hi]
      apply iff_of_false _ hne
      intro he
      apply hnew hi
      rw [← he]
      exact Finset.mem_insert_self _ _
    · have hnil : s.cmds = [] := List.eq_nil_of_length_eq_zero (by omega)
      rw [if_neg hi]
      exact iff_of_true rfl hnil

/-- A line without a command. -/
theorem empty_line_keeps :
    ∃ s, (session 1 terminal).Reachable (s, [([], terminal.table.openFds)]) ∧
      s.call.table.openFds = terminal.table.openFds := by
  have hs : (session 1 terminal).Reachable (_, [([], terminal.table.openFds)]) :=
    ⟨[.line [], .call .shell], rfl⟩
  exact ⟨_, hs, (openFds_kept_iff hs rfl).mpr rfl⟩

/-- A line of one command. -/
theorem one_command_leaks :
    ∃ s, (session 1 terminal).Reachable (s, [([[]], {0, 1, 2})]) ∧ s.call.pc = .returned ∧
      s.call.table.openFds = {0, 1, 2, 3} := by
  refine ⟨_, ⟨[.line [[]], .call .shell, .call .shell, .call .child, .call .child, .call .shell,
    .call .shell, .call .shell], rfl⟩, rfl, ?_⟩
  decide

end OsTasks.Shell

import OsTasks.Backup.Copies
import Mathlib.Data.List.MinMax

/-! Which directories of the watched tree the daemon has a watch on. -/
namespace OsTasks.Backup
open OsTasks.Lib

variable {cfg : Config} {s t : State}

/-- Every directory under `cwd` has a watch. -/
def Covered (cfg : Config) (s : State) : Prop :=
  ∀ q, s.fs.get q = some .dir → cfg.cwd <:+ q → q ∈ s.watches

/-- The directories under `cwd` are those with a watch. -/
def Exact (cfg : Config) (s : State) : Prop :=
  ∀ q, cfg.cwd <:+ q → (s.fs.get q = some .dir ↔ q ∈ s.watches)

/-- A step makes no directory under `cwd`: neither a user nor the daemon, which makes one for each
name in the dump directory, nor a command with odd words. -/
def NoNewDir (cfg : Config) (s : State) : Action → Prop
  | .user (.mkdir n d) => cfg.cwd <:+ n :: d → ¬ s.fs.Allows n d .dir
  | .mkdir => ∀ ev src evs, s.pc = .found ev src evs → cfg.cwd <:+ ev.name :: cfg.dumpDir →
      ¬ s.fs.Allows ev.name cfg.dumpDir .dir
  | .odd fs => ∀ q, cfg.cwd <:+ q → (fs.get q = some .dir ↔ s.fs.get q = some .dir)
  | _ => True

theorem length_le_depth {fs : Tree} {p : Path} (h : fs.get p ≠ none) : p.length ≤ depth fs :=
  List.le_max_of_le' 0 (List.mem_map_of_mem (fs.mem_paths p h)) le_rfl

theorem exists_cons_suffix {d q : Path} (h : d <:+ q) (hne : d ≠ q) : ∃ n, n :: d <:+ q := by
  obtain ⟨above, rfl⟩ := h
  rcases List.eq_nil_or_concat above with rfl | ⟨above, n, rfl⟩
  · exact absurd rfl hne
  · exact ⟨n, above, by simp⟩

theorem mem_addWatcherRecursive {fs : Tree} {fuel : ℕ} {wd q : Path} (hq : fs.get q = some .dir)
    (hwd : wd <:+ q) (hfuel : q.length < wd.length + fuel) :
    q ∈ addWatcherRecursive fs fuel wd := by
  induction fuel generalizing wd with
  | zero => exact absurd hwd.length_le (by omega)
  | succ fuel ih =>
    unfold addWatcherRecursive
    rw [if_pos (FileTree.dir_of_suffix hq hwd)]
    by_cases he : wd = q
    · rw [he]
      exact List.mem_cons_self
    · obtain ⟨n, hn⟩ := exists_cons_suffix hwd he
      have hchild : fs.get (n :: wd) = some .dir := FileTree.dir_of_suffix hq hn
      have hentry : n :: wd ∈ fs.entries wd := by
        rw [FileTree.mem_entries, hchild]
        exact ⟨Option.some_ne_none _, rfl, List.cons_ne_nil _ _⟩
      apply List.mem_cons_of_mem
      apply List.mem_flatMap.mpr
      refine ⟨n :: wd, hentry, ih hn ?_⟩
      rw [List.length_cons]
      omega

theorem dir_of_mem_addWatcherRecursive {fs : Tree} {fuel : ℕ} {wd q : Path}
    (h : q ∈ addWatcherRecursive fs fuel wd) : fs.get q = some .dir := by
  induction fuel generalizing wd with
  | zero => cases h
  | succ fuel ih =>
    unfold addWatcherRecursive at h
    split_ifs at h with hdir
    · rcases List.mem_cons.mp h with rfl | h
      · exact hdir
      · obtain ⟨e, _, he⟩ := List.mem_flatMap.mp h
        exact ih he
    · cases h

theorem exact_init (fs : Tree) : Exact cfg (backup cfg fs).init := by
  intro q hq
  constructor
  · intro hdir
    apply mem_addWatcherRecursive hdir hq
    have hdepth : q.length ≤ depth fs := by
      apply length_le_depth
      change fs.get q = some .dir at hdir
      rw [hdir]
      exact Option.some_ne_none _
    omega
  · exact dir_of_mem_addWatcherRecursive

theorem Exact.covered (h : Exact cfg s) : Covered cfg s := fun q hdir hq => (h q hq).mp hdir

theorem Exact.congr (h : Exact cfg s) (hw : t.watches = s.watches)
    (hfs : ∀ q, cfg.cwd <:+ q → (t.fs.get q = some .dir ↔ s.fs.get q = some .dir)) :
    Exact cfg t := by
  intro q hq
  rw [hfs q hq, hw]
  exact h q hq

/-- Files come and go without a change of the directories. -/
theorem dir_put_file_iff {fs : Tree} {n : Name} {d : Path} {c : List Byte} (q : Path) :
    (fs.put n d (.file c)).get q = some .dir ↔ fs.get q = some .dir := by
  constructor
  · intro h
    rcases FileTree.dir_of_get_put h with h | ⟨_, h⟩
    · exact h
    · cases h
  · exact FileTree.get_put_of_dir

theorem dir_put_dir_iff {fs : Tree} {n : Name} {d q : Path}
    (h : q = n :: d → ¬ fs.Allows n d .dir) :
    (fs.put n d .dir).get q = some .dir ↔ fs.get q = some .dir := by
  rw [FileTree.get_put, if_neg (fun hq => h hq.1 hq.2)]

theorem dir_cpTree_iff {fs : Tree} {n : Name} {src : Path} (q : Path) :
    (cpTree cfg fs n src).get q = some .dir ↔ fs.get q = some .dir := by
  unfold cpTree
  cases content fs src with
  | none => exact Iff.rfl
  | some c =>
    dsimp only
    split_ifs
    · exact Iff.rfl
    · exact dir_put_file_iff q

theorem dir_userTree_iff {fs : Tree} {u : UserAction} {q : Path}
    (h : ∀ n d, u = .mkdir n d → q = n :: d → ¬ fs.Allows n d .dir) :
    (userTree fs u).get q = some .dir ↔ fs.get q = some .dir := by
  cases u with
  | create n d =>
    dsimp only [userTree]
    split_ifs
    · exact dir_put_file_iff q
    · exact Iff.rfl
  | mkdir n d => exact dir_put_dir_iff (h n d rfl)
  | write n d c =>
    dsimp only [userTree]
    split_ifs
    · exact Iff.rfl
    · exact dir_put_file_iff q
  | remove n d =>
    dsimp only [userTree]
    split_ifs
    · exact Iff.rfl
    · exact FileTree.get_removeFile_dir_iff

theorem exact_step {a : Action} (h : Exact cfg s) (ha : NoNewDir cfg s a)
    (ht : step cfg s a = some t) : Exact cfg t := by
  cases moved_of_step ht with
  | user u hpc hfs hw =>
    apply h.congr hw
    intro q hq
    rw [hfs]
    apply dir_userTree_iff
    rintro n d rfl rfl
    exact ha hq
  | read hs hpc hfs hw => exact h.congr hw fun q _ => by rw [hfs]
  | skip hs hpc hfs hw => exact h.congr hw fun q _ => by rw [hfs]
  | crash hpc hfs hw => exact h.congr hw fun q _ => by rw [hfs]
  | find hs hpc hdump hfs hw =>
    apply h.congr hw
    intro q _
    rw [hfs, dir_put_file_iff, dir_put_file_iff]
  | @mkdir ev src evs hs hkind hpc hfs hw =>
    apply h.congr hw
    intro q hq
    rw [hfs]
    apply dir_put_dir_iff
    rintro rfl
    exact ha ev src evs hs hq
  | diff hs hkind hpc hnow hsecond hfs hw =>
    apply h.congr hw
    intro q _
    rw [hfs, dir_put_file_iff]
  | cp hs hpc hfs hw =>
    apply h.congr hw
    intro q _
    rw [hfs, dir_cpTree_iff]
  | odd hs hpc hfs hw =>
    apply h.congr hw
    intro q hq
    rw [hfs]
    exact ha q hq

theorem getLast?_queue_write {n : Name} {d : Path} {c c' : List Byte} (hd : d ∈ s.watches)
    (hn : s.fs.get (n :: d) = some (.file c)) :
    (userStep s (.write n d c')).queue.getLast? = some ⟨.modify, d, n⟩ := by
  have hne : s.fs.get (n :: d) ≠ none := by
    rw [hn]
    exact Option.some_ne_none _
  have hallows : s.fs.Allows n d (.file c') := by
    apply FileTree.allows_file_iff.mpr
    refine ⟨s.fs.parent n d hne, ?_⟩
    rw [hn]
    intro he
    cases he
  dsimp only [userStep, State.store]
  rw [if_neg hne, if_pos hallows, if_neg hne]
  unfold State.notify
  split_ifs with hq
  · exact List.getLast?_concat
  · exact not_not.mp fun hlast => hq ⟨hd, hlast⟩

/-- In every run in which no directory is made under `cwd`, each directory there has a watch, and
each write to a file there is queued. -/
theorem covered_of_noNewDir (cfg : Config) (fs : Tree) {as : List Action} {s : State}
    (hrun : (backup cfg fs).run as = some s)
    (hok : (backup cfg fs).AllSteps (NoNewDir cfg) (backup cfg fs).init as) :
    Covered cfg s ∧ ∀ n d c c', cfg.cwd <:+ d → s.fs.get (n :: d) = some (.file c) →
      (userStep s (.write n d c')).queue.getLast? = some ⟨.modify, d, n⟩ := by
  have hexact : Exact cfg s := by
    apply Machine.runFrom_invariant_of_allSteps (I := Exact cfg) _ (exact_init fs) hok hrun
    intro u a v hu ha hv
    exact exact_step hu ha hv
  refine ⟨hexact.covered, ?_⟩
  intro n d c c' hd hn
  apply getLast?_queue_write _ hn
  apply hexact.covered d _ hd
  apply s.fs.parent n d
  rw [hn]
  exact Option.some_ne_none _

/-- The run that makes "/w/a/g". -/
theorem covered_oneCreated :
    ∃ s, (backup small twoSameNames).run oneCreated = some s ∧ Covered small s := by
  have hrun : (backup small twoSameNames).run oneCreated = some _ := rfl
  refine ⟨_, hrun, (covered_of_noNewDir small twoSameNames hrun ?_).1⟩
  refine .cons trivial rfl (.cons trivial rfl (.cons trivial rfl ?_))
  refine .cons ?_ rfl (.cons trivial rfl trivial)
  intro ev src evs hpc hsuf
  cases hpc
  exact absurd hsuf (by decide)

theorem dir_step {a : Action} (ht : step cfg s a = some t) (ha : ∀ fs, a ≠ .odd fs) {q : Path}
    (hq : s.fs.get q = some .dir) : t.fs.get q = some .dir := by
  cases moved_of_step ht with
  | user u hpc hfs hw =>
    rw [hfs]
    exact get_userTree_of_dir u hq
  | read hs hpc hfs hw => rwa [hfs]
  | skip hs hpc hfs hw => rwa [hfs]
  | crash hpc hfs hw => rwa [hfs]
  | find hs hpc hdump hfs hw => rwa [hfs, dir_put_file_iff, dir_put_file_iff]
  | mkdir hs hkind hpc hfs hw =>
    rw [hfs]
    exact FileTree.get_put_of_dir hq
  | diff hs hkind hpc hnow hsecond hfs hw => rwa [hfs, dir_put_file_iff]
  | cp hs hpc hfs hw => rwa [hfs, dir_cpTree_iff]
  | odd hs hpc hfs hw => exact absurd rfl (ha _)

theorem watches_step {a : Action} (ht : step cfg s a = some t) : t.watches = s.watches := by
  cases moved_of_step ht <;> assumption

/-- A directory made under `cwd` stays without a watch in all that follows but odd commands. -/
theorem not_covered_of_mkdir {n : Name} {d : Path} (h : Exact cfg s) (hd : cfg.cwd <:+ n :: d)
    (hnew : s.fs.Allows n d .dir) {fs : Tree} {as : List Action}
    (has : (backup cfg fs).AllSteps (fun _ a => ∀ fs, a ≠ .odd fs) (userStep s (.mkdir n d)) as)
    (hrun : (backup cfg fs).runFrom (userStep s (.mkdir n d)) as = some t) :
    ¬ Covered cfg t := by
  have hs : n :: d ∉ s.watches := by
    rw [← h (n :: d) hd]
    rcases hnew.2 with hnone | ⟨hdir, _⟩
    · rw [hnone]
      exact (Option.some_ne_none _).symm
    · exact absurd rfl hdir
  obtain ⟨_, hstart⟩ := stored_userStep s (.mkdir n d)
  rw [hstart] at has hrun
  have hmade : (s.fs.put n d .dir).get (n :: d) = some .dir := FileTree.get_put_self hnew
  have hkept : t.fs.get (n :: d) = some .dir ∧ n :: d ∉ t.watches := by
    apply Machine.runFrom_invariant_of_allSteps
      (I := fun u => u.fs.get (n :: d) = some .dir ∧ n :: d ∉ u.watches) _ _ has hrun
    · intro u a v hu ha hv
      rw [watches_step hv]
      exact ⟨dir_step hv ha hu.1, hu.2⟩
    · exact ⟨hmade, hs⟩
  intro hcovered
  exact hkept.2 (hcovered (n :: d) hkept.1 hd)

/-- "/w/x" is made and its event handled. -/
def dirCreated : List Action :=
  [.user (.mkdir (ascii "x") [ascii "w"]), .read 1, .find [[ascii "x", ascii "w"]], .mkdir, .cp]

theorem new_dir_not_covered :
    ∃ s, (backup small twoSameNames).Reachable s ∧ s.pc = .batch [] ∧ s.queue = [] ∧
      ¬ Covered small s := by
  refine ⟨_, ⟨dirCreated, rfl⟩, rfl, rfl, ?_⟩
  intro h
  have hx := h [ascii "x", ascii "w"] rfl (by decide)
  exact absurd hx (by decide +kernel)

end OsTasks.Backup

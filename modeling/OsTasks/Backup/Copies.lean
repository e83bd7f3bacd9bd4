import OsTasks.Backup.Dump

/-! The copies in the dump directory of the files whose events were handled. -/
namespace OsTasks.Backup
open OsTasks.Lib

variable {cfg : Config} {s t : State}

/-- The content each path had when an event for it was last handled, and the path of the event
that the last step finished. -/
structure Handled where
  copied : Path → Option (List Byte)
  last : Option Path

def Handled.finish (h : Handled) (fs : Tree) (p : Path) : Handled :=
  ⟨Function.update h.copied p (content fs p), some p⟩

def recordHandled (s : State) (a : Action) (t : State) (h : Handled) : Handled :=
  match a, s.pc with
  | .cp, .copying ev _ _ =>
    if t.pc = .crashed then { h with last := none } else h.finish t.fs ev.path
  | .odd _, .batch (ev :: _) => h.finish t.fs ev.path
  | _, _ => { h with last := none }

/-- The daemon with a record of what it has handled. -/
def handling (cfg : Config) (fs : Tree) : Machine (State × Handled) Action :=
  (backup cfg fs).withHistory ⟨fun _ => none, none⟩ recordHandled

/-- What was handled last is what is there, and everything handled is held in a file of its own in
the dump directory. -/
structure Backed (cfg : Config) (s : State) (h : Handled) : Prop where
  current : ∀ p, h.last = some p → ∀ c, s.fs.get p = some (.file c) → h.copied p = some c
  held : ∃ place : Path → Path,
    (∀ p q c c', h.copied p = some c → h.copied q = some c' → place p = place q → p = q) ∧
    ∀ p c, h.copied p = some c → cfg.dumpDir <:+ place p ∧ s.fs.get (place p) = some (.file c)

/-- `cp` copies the file of the event, unless that is gone, to a place of its own. -/
structure OwnCopy (cfg : Config) (s : State) (h : Handled) (ev : Event) (src : Option Path) :
    Prop where
  outside : ¬ cfg.dumpDir <:+ ev.path
  ne_findFile : ev.name ≠ findFile
  own : src = some ev.path ∨ content s.fs ev.path = none
  single : ∀ p, h.copied p ≠ none → p.head? = some ev.name → p = ev.path
  free : s.fs.get (ev.name :: ev.name :: cfg.dumpDir) ≠ some .dir

/-- What a step needs to keep the copies: users leave the dump directory alone, all words of the
commands are plain, and each `cp` has its own copy. -/
def KeepsCopies (cfg : Config) (q : State × Handled) : Action → Prop
  | .user u => ¬ cfg.dumpDir <:+ u.path
  | .cp => ∀ ev src evs, q.1.pc = .copying ev src evs → OwnCopy cfg q.1 q.2 ev src
  | .odd _ => False
  | _ => True

structure CopiesInv (cfg : Config) (s : State) (h : Handled) : Prop where
  dump : (∃ ev src evs, s.pc = .found ev src evs ∨ s.pc = .copying ev src evs) →
    s.fs.get cfg.dumpDir = some .dir
  copied : ∀ p c, h.copied p = some c → ∃ n d, p = n :: d ∧ n ≠ findFile ∧
    s.fs.get (copyOf cfg s.fs n) = some (.file c)
  single : ∀ p q, h.copied p ≠ none → h.copied q ≠ none → p.head? = q.head? → p = q
  current : ∀ p, h.last = some p → ∀ c, s.fs.get p = some (.file c) → h.copied p = some c

theorem backed_of_copiesInv {h : Handled} (hinv : CopiesInv cfg s h) : Backed cfg s h where
  current := hinv.current
  held := by
    refine ⟨fun p => copyOf cfg s.fs (p.headD []), ?_, ?_⟩
    · intro p q c c' hp hq heq
      obtain ⟨n, d, rfl, _⟩ := hinv.copied p c hp
      obtain ⟨m, e, rfl, _⟩ := hinv.copied q c' hq
      have hnm : n = m := copyOf_inj heq
      apply hinv.single
      · rw [hp]
        exact Option.some_ne_none c
      · rw [hq]
        exact Option.some_ne_none c'
      · rw [hnm]
        rfl
    · intro p c hp
      obtain ⟨n, d, rfl, _, hget⟩ := hinv.copied p c hp
      exact ⟨dumpDir_suffix_copyOf _ _, hget⟩

/-- A step that finishes no event and leaves the paths of the copies alone. -/
theorem CopiesInv.frame {h : Handled} (hinv : CopiesInv cfg s h)
    (hdump : (∃ ev src evs, t.pc = .found ev src evs ∨ t.pc = .copying ev src evs) →
      t.fs.get cfg.dumpDir = some .dir)
    (hget : ∀ n, n ≠ findFile → (∃ c, s.fs.get (copyOf cfg s.fs n) = some (.file c)) →
      t.fs.get (n :: cfg.dumpDir) = s.fs.get (n :: cfg.dumpDir) ∧
      t.fs.get (n :: n :: cfg.dumpDir) = s.fs.get (n :: n :: cfg.dumpDir)) :
    CopiesInv cfg t { h with last := none } where
  dump := hdump
  copied := by
    intro p c hp
    obtain ⟨n, d, rfl, hne, hc⟩ := hinv.copied p c hp
    obtain ⟨h1, h2⟩ := hget n hne ⟨c, hc⟩
    exact ⟨n, d, rfl, hne, (copyOf_congr h1 h2).trans hc⟩
  single := hinv.single
  current := by
    intro p hp
    cases hp

theorem copiesInv_user {h : Handled} (hinv : CopiesInv cfg s h) {u : UserAction}
    (hu : ¬ cfg.dumpDir <:+ u.path) (ht : t.pc = s.pc) (hfs : t.fs = userTree s.fs u) :
    CopiesInv cfg t { h with last := none } := by
  apply hinv.frame
  · rw [ht, hfs]
    intro hpc
    exact get_userTree_of_dir u (hinv.dump hpc)
  · intro n _ _
    rw [hfs]
    constructor
    · exact get_userTree u (ne_of_not_suffix ⟨[n], rfl⟩ hu)
    · exact get_userTree u (ne_of_not_suffix ⟨[n, n], rfl⟩ hu)

theorem copiesInv_same {h : Handled} (hinv : CopiesInv cfg s h) (hfs : t.fs = s.fs)
    (ht : t.pc = .crashed ∨ ∃ evs, t.pc = .batch evs) :
    CopiesInv cfg t { h with last := none } := by
  apply hinv.frame
  · rintro ⟨ev, src, evs, hpc⟩
    rcases ht with ht | ⟨_, ht⟩ <;> rw [ht] at hpc <;> rcases hpc with hpc | hpc <;> cases hpc
  · intro n _ _
    rw [hfs]
    exact ⟨rfl, rfl⟩

theorem copiesInv_find {h : Handled} (hinv : CopiesInv cfg s h) {lines : List Byte}
    (hdump : s.fs.get cfg.dumpDir = some .dir)
    (hfs : t.fs = (s.fs.put findFile cfg.dumpDir (.file [])).put findFile cfg.dumpDir
      (.file lines)) : CopiesInv cfg t { h with last := none } := by
  apply hinv.frame
  · intro _
    rw [hfs]
    exact FileTree.get_put_of_dir (FileTree.get_put_of_dir hdump)
  · intro n hne _
    have h1 : n :: cfg.dumpDir ≠ findFile :: cfg.dumpDir := by
      intro he
      exact hne (List.cons.inj he).1
    have h2 : n :: n :: cfg.dumpDir ≠ findFile :: cfg.dumpDir := cons_cons_ne _ _ _ _
    rw [hfs]
    constructor
    · rw [FileTree.get_put_of_ne h1, FileTree.get_put_of_ne h1]
    · rw [FileTree.get_put_of_ne h2, FileTree.get_put_of_ne h2]

theorem copiesInv_mkdir {h : Handled} (hinv : CopiesInv cfg s h) {ev : Event}
    {src : Option Path} {evs : List Event} (hs : s.pc = .found ev src evs)
    (hfs : t.fs = s.fs.put ev.name cfg.dumpDir .dir) : CopiesInv cfg t { h with last := none } := by
  apply hinv.frame
  · intro _
    rw [hfs]
    exact FileTree.get_put_of_dir (hinv.dump ⟨ev, src, evs, Or.inl hs⟩)
  · rintro n _ ⟨c, hc⟩
    have h2 : n :: n :: cfg.dumpDir ≠ ev.name :: cfg.dumpDir := cons_cons_ne _ _ _ _
    rw [hfs]
    refine ⟨?_, FileTree.get_put_of_ne h2⟩
    rw [FileTree.get_put, if_neg]
    -- the entry for a name with a copy is there already
    rintro ⟨hn, _, hnone | ⟨hdir, _⟩⟩
    · rw [← hn] at hnone
      have hcopy : copyOf cfg s.fs n = n :: cfg.dumpDir := by
        unfold copyOf
        rw [hnone]
        rfl
      rw [hcopy, hnone] at hc
      cases hc
    · exact hdir rfl

theorem copiesInv_diff {h : Handled} (hinv : CopiesInv cfg s h) {ev : Event}
    {src : Option Path} {evs : List Event} (hs : s.pc = .found ev src evs) {tm : Tm}
    {out : List Byte}
    (hfs : t.fs = s.fs.put (diffFilename ev.name tm) (ev.name :: cfg.dumpDir) (.file out)) :
    CopiesInv cfg t { h with last := none } := by
  apply hinv.frame
  · intro _
    rw [hfs]
    exact FileTree.get_put_of_dir (hinv.dump ⟨ev, src, evs, Or.inl hs⟩)
  · intro n _ _
    have h1 : n :: cfg.dumpDir ≠ diffFilename ev.name tm :: ev.name :: cfg.dumpDir :=
      (cons_cons_ne _ _ _ _).symm
    rw [hfs]
    refine ⟨FileTree.get_put_of_ne h1, get_put_entry ?_⟩
    rintro rfl
    exact (diffFilename_ne _ _).symm

theorem single_finish {h : Handled} (hinv : CopiesInv cfg s h) {ev : Event} {src : Option Path}
    (hown : OwnCopy cfg s h ev src) {fs : Tree} {p q : Path}
    (hp : (h.finish fs ev.path).copied p ≠ none) (hq : (h.finish fs ev.path).copied q ≠ none)
    (heq : p.head? = q.head?) : p = q := by
  have hold : ∀ r, r ≠ ev.path → (h.finish fs ev.path).copied r = h.copied r := by
    intro r hr
    exact Function.update_of_ne hr _ h.copied
  by_cases hpp : p = ev.path
  · by_cases hqp : q = ev.path
    · exact hpp.trans hqp.symm
    · rw [hold q hqp] at hq
      exact absurd (hown.single q hq (heq.symm.trans (congrArg List.head? hpp))) hqp
  · rw [hold p hpp] at hp
    by_cases hqp : q = ev.path
    · exact absurd (hown.single p hp (heq.trans (congrArg List.head? hqp))) hpp
    · rw [hold q hqp] at hq
      exact hinv.single p q hp hq heq

theorem copyOf_cpTree {h : Handled} (hinv : CopiesInv cfg s h) {ev : Event} {src : Option Path}
    (hown : OwnCopy cfg s h ev src) {p : Path} {c : List Byte} (hpath : p ≠ ev.path)
    (hp : h.copied p = some c) : ∃ n d, p = n :: d ∧ n ≠ findFile ∧
      (cpTree cfg s.fs ev.name (source cfg src)).get
        (copyOf cfg (cpTree cfg s.fs ev.name (source cfg src)) n) = some (.file c) := by
  obtain ⟨n, d, rfl, hne, hget⟩ := hinv.copied p c hp
  have hname : n ≠ ev.name := by
    rintro rfl
    apply hpath
    apply hown.single _ _ rfl
    rw [hp]
    exact Option.some_ne_none c
  have hcopy : (cpTree cfg s.fs ev.name (source cfg src)).get
      (copyOf cfg (cpTree cfg s.fs ev.name (source cfg src)) n) =
        s.fs.get (copyOf cfg s.fs n) :=
    copyOf_congr (get_cpTree_of_name_ne hname).1 (get_cpTree_of_name_ne hname).2
  exact ⟨n, d, rfl, hne, hcopy.trans hget⟩

theorem copiesInv_cp {h : Handled} (hinv : CopiesInv cfg s h) {ev : Event}
    {src : Option Path} {evs : List Event} (hs : s.pc = .copying ev src evs)
    (hown : OwnCopy cfg s h ev src) (ht : t.pc = .batch evs)
    (hfs : t.fs = cpTree cfg s.fs ev.name (source cfg src)) :
    CopiesInv cfg t (h.finish t.fs ev.path) := by
  have hdump := hinv.dump ⟨ev, src, evs, Or.inr hs⟩
  have hsame : t.fs.get ev.path = s.fs.get ev.path := by
    rw [hfs]
    exact get_cpTree_outside hown.outside
  constructor
  · rintro ⟨_, _, _, hpc⟩
    rw [ht] at hpc
    rcases hpc with hpc | hpc <;> cases hpc
  · intro p c hp
    by_cases hpath : p = ev.path
    · have hc : content t.fs ev.path = some c := by
        rw [hpath] at hp
        exact (Function.update_self ev.path _ h.copied).symm.trans hp
      rw [content_eq_some_iff, hsame] at hc
      have hsrc : src = some ev.path := by
        rcases hown.own with hsrc | hnone
        · exact hsrc
        · rw [content_eq_some_iff.mpr hc] at hnone
          cases hnone
      refine ⟨ev.name, ev.dir, hpath, hown.ne_findFile, ?_⟩
      rw [hfs, hsrc]
      exact get_cpTree_copyOf hdump hown.outside hown.free hc
    · have hold : h.copied p = some c := (Function.update_of_ne hpath _ h.copied).symm.trans hp
      rw [hfs]
      exact copyOf_cpTree hinv hown hpath hold
  · intro p q hp hq heq
    exact single_finish hinv hown hp hq heq
  · intro p hp c hc
    cases hp
    exact (Function.update_self ev.path _ h.copied).trans (content_eq_some_iff.mpr hc)

theorem copiesInv_step {h : Handled} {a : Action} (hinv : CopiesInv cfg s h)
    (hP : KeepsCopies cfg (s, h) a) (ht : step cfg s a = some t) :
    CopiesInv cfg t (recordHandled s a t h) := by
  have hmoved := moved_of_step ht
  cases hmoved with
  | user u hpc hfs hw => exact copiesInv_user hinv hP hpc hfs
  | read hs hpc hfs hw => exact copiesInv_same hinv hfs (Or.inr ⟨_, hpc⟩)
  | skip hs hpc hfs hw => exact copiesInv_same hinv hfs (Or.inr ⟨_, hpc⟩)
  | crash hpc hfs hw =>
    have hrec : recordHandled s a t h = { h with last := none } := by
      cases a with
      | odd fs => exact absurd hP id
      | cp =>
        unfold recordHandled
        rcases hs : s.pc with _ | _ | _ | _ <;> simp [hpc]
      | _ => rfl
    rw [hrec]
    exact copiesInv_same hinv hfs (Or.inl hpc)
  | find hs hpc hdump hfs hw => exact copiesInv_find hinv hdump hfs
  | mkdir hs hkind hpc hfs hw => exact copiesInv_mkdir hinv hs hfs
  | diff hs hkind hpc hnow hsecond hfs hw => exact copiesInv_diff hinv hs hfs
  | @cp ev src evs hs hpc hfs hw =>
    have hrec : recordHandled s .cp t h = h.finish t.fs ev.path := by
      unfold recordHandled
      rw [hs]
      dsimp only
      rw [if_neg (by rw [hpc]; exact nofun)]
    rw [hrec]
    exact copiesInv_cp hinv hs (hP _ _ _ hs) hpc hfs
  | odd hs hpc hfs hw => exact absurd hP id

theorem copiesInv_init (fs : Tree) :
    CopiesInv cfg (backup cfg fs).init ⟨fun _ => none, none⟩ := by
  constructor
  · rintro ⟨ev, src, evs, hpc⟩
    exact absurd hpc (init_pc_ne fs ev src evs)
  · intro p c hp
    cases hp
  · intro p q hp
    exact absurd rfl hp
  · intro p hp
    cases hp

/-- In every run that keeps the copies, each file whose event was handled last is held in the dump
directory as it is, and the others as they were handled. -/
theorem backed_of_keepsCopies (cfg : Config) (fs : Tree) {as : List Action} {s : State}
    {h : Handled} (hrun : (handling cfg fs).run as = some (s, h))
    (hok : (handling cfg fs).AllSteps (KeepsCopies cfg) (handling cfg fs).init as) :
    Backed cfg s h := by
  apply backed_of_copiesInv
  apply Machine.run_withHistory_invariant (copiesInv_init fs) _ hrun hok
  intro s h a t hinv ha ht
  exact copiesInv_step hinv ha ht

def oneLine (a : List Byte) : Bool := a.getLast? = some 0x0a ∧ 0x0a ∉ a.dropLast

/-- What `diff` prints for a file of one line and an empty one; of other files only that they
differ, and the second one. -/
def smallDiff (a b : List Byte) : List Byte :=
  if a = b then []
  else if b = [] ∧ oneLine a then ascii "1d0\n< " ++ a
  else 0x0a :: b

/-- The tree under "/w" and the dump directory "/d". -/
def small : Config where
  cwd := [ascii "w"]
  dumpText := ascii "/d"
  dumpDir := [ascii "d"]
  localtime := fun second => ⟨126, 0, 1, 0, 0, second⟩
  diff := smallDiff

/-- "/w/a/f" and "/w/b/f" -/
def twoSameNames : Tree :=
  (((((FileTree.empty.put (ascii "w") [] .dir).put (ascii "d") [] .dir).put
    (ascii "a") [ascii "w"] .dir).put (ascii "b") [ascii "w"] .dir).put
    (ascii "f") [ascii "a", ascii "w"] (.file (ascii "1\n"))).put
    (ascii "f") [ascii "b", ascii "w"] (.file (ascii "2\n"))

def pathG : Path := [ascii "g", ascii "a", ascii "w"]

/-- "/w/a/g" is made and its event handled. -/
def oneCreated : List Action :=
  [.user (.create (ascii "g") [ascii "a", ascii "w"]), .read 1, .find [pathG], .mkdir, .cp]

theorem one_file_backed :
    ∃ s h, (handling small twoSameNames).run oneCreated = some (s, h) ∧
      h.last = some pathG ∧ Backed small s h := by
  have hrun : (handling small twoSameNames).run oneCreated = some _ := rfl
  refine ⟨_, _, hrun, rfl, backed_of_keepsCopies small twoSameNames hrun ?_⟩
  have huser : ¬ small.dumpDir <:+ pathG := by decide
  refine .cons huser rfl (.cons trivial rfl (.cons trivial rfl (.cons trivial rfl ?_)))
  refine .cons ?_ rfl trivial
  intro ev src evs hpc
  cases hpc
  constructor
  · decide
  · decide
  · exact Or.inl rfl
  · intro p hp
    exact absurd rfl hp
  · decide

theorem not_backed_of_forall {h : Handled} {p : Path} {c : List Byte} (hlast : h.last = some p)
    (hc : s.fs.get p = some (.file c))
    (hall : ∀ q ∈ s.fs.paths, cfg.dumpDir <:+ q → s.fs.get q ≠ some (.file c)) :
    ¬ Backed cfg s h := by
  intro hb
  obtain ⟨place, _, hheld⟩ := hb.held
  obtain ⟨hsuf, hget⟩ := hheld p c (hb.current p hlast c hc)
  apply hall _ _ hsuf hget
  apply s.fs.mem_paths
  rw [hget]
  exact Option.some_ne_none _

/-- "/w/b/f" is written and its event handled; `find` prints "./a/f" first. -/
def secondWritten : List Action :=
  [.user (.write (ascii "f") [ascii "b", ascii "w"] (ascii "3\n")), .read 1,
    .find [[ascii "f", ascii "a", ascii "w"], [ascii "f", ascii "b", ascii "w"]], .diff 0, .cp]

/-- The dump directory gets the other file. -/
theorem second_file_not_backed :
    ∃ s h, (handling small twoSameNames).Reachable (s, h) ∧
      h.last = some [ascii "f", ascii "b", ascii "w"] ∧
      s.fs.get [ascii "f", ascii "b", ascii "w"] = some (.file (ascii "3\n")) ∧
      ¬ Backed small s h :=
  ⟨_, _, ⟨secondWritten, rfl⟩, rfl, rfl, not_backed_of_forall rfl rfl (by decide +kernel)⟩

end OsTasks.Backup

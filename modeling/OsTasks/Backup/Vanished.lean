import OsTasks.Backup.HistorySteps
import OsTasks.Backup.Watches

/-! Events for files that are gone when the daemon handles them: `find` prints nothing, and the path
of its own output file is left where the path of the file should be. -/
namespace OsTasks.Backup
open OsTasks.Lib

variable {cfg : Config} {s t : State} {ev : Event} {evs : List Event}

/-- `file_created` or `file_modified`, where `find` prints nothing. -/
def handler (ev : Event) (second : ℕ) : List Action :=
  match ev.kind with
  | .create => [.find [], .mkdir, .cp]
  | .modify => [.find [], .diff second, .cp]
  | .delete => []

/-- The copies and diffs are the same, and no file was added to them. -/
def SameDump (cfg : Config) (fs fs' : Tree) : Prop :=
  ∀ p, cfg.dumpDir <:+ p → p ≠ findFile :: cfg.dumpDir → content fs' p = content fs p

/-- The handler of the next event is about to run for a file that is gone. -/
structure Vanished (cfg : Config) (s : State) (ev : Event) (evs : List Event) : Prop where
  pc : s.pc = .batch (ev :: evs)
  kind : ev.kind ≠ .delete
  gone : (s.store findFile cfg.dumpDir []).fs.named cfg.cwd ev.name = []

/-- Every step of the handler leaves the dump directory as it was before the first one. -/
structure Harmless (cfg : Config) (s : State) (ev : Event) : Prop where
  handled : ∀ second, (Machine.mk s (step cfg)).AllSteps
    (fun u a => ∀ t, step cfg u a = some t → SameDump cfg s.fs t.fs) s (handler ev second)
  odd : ∀ fs t, step cfg s (.odd fs) = some t → SameDump cfg s.fs t.fs

section Condition
variable (cfg) (s) (ev)

/-- The output file of `find` is made, and the paths fit into their arrays. -/
def FindRuns (n : Name) : Prop :=
  s.fs.get cfg.dumpDir = some .dir ∧ s.fs.get (findFile :: cfg.dumpDir) ≠ some .dir ∧
    (findCommand cfg n).length < pathMax ∧ (filepath cfg none).length < pathMax

instance (n : Name) : Decidable (FindRuns cfg s n) := inferInstanceAs (Decidable (_ ∧ _))

/-- `cp` of the empty output file changes nothing: the copy is that file, or empty too, or it is a
directory in which the output file has such a copy, or a directory in its place. -/
def CpKeeps (fs : Tree) (n : Name) : Prop :=
  n = findFile ∨ fs.get (n :: cfg.dumpDir) = some (.file []) ∨
    fs.get (n :: cfg.dumpDir) = some .dir ∧
      (fs.get (findFile :: n :: cfg.dumpDir) = some .dir ∨
        fs.get (findFile :: n :: cfg.dumpDir) = some (.file []))

/-- What `diff` prints on an empty file and the stored copy. -/
def emptyDiff (fs : Tree) (n : Name) : List Byte :=
  match content fs (n :: n :: cfg.dumpDir) with
  | some b => cfg.diff [] b
  | none => []

/-- The diff is saved nowhere, or where it already is. -/
def DiffKeeps (fs : Tree) (n : Name) (tm : Tm) : Prop :=
  fs.get (n :: cfg.dumpDir) = some .dir →
    fs.get (diffFilename n tm :: n :: cfg.dumpDir) = some .dir ∨
      fs.get (diffFilename n tm :: n :: cfg.dumpDir) = some (.file (emptyDiff cfg fs n))

/-- What the commands behind `find` keep, if they fit into `buf`. -/
def HandlerKeeps : Prop :=
  match ev.kind with
  | .create =>
    (mkdirCommand cfg ev.name).length < pathMax → (cpCommand cfg none ev.name).length < pathMax →
      CpKeeps cfg s.fs ev.name
  | .modify =>
    ∀ second, s.now ≤ second →
      (diffFilename ev.name (cfg.localtime second)).length < diffFilenameSize →
      (diffCommand cfg none ev.name (cfg.localtime second)).length < pathMax →
      DiffKeeps cfg s.fs ev.name (cfg.localtime second) ∧
        ((cpCommand cfg none ev.name).length < pathMax → CpKeeps cfg s.fs ev.name)
  | .delete => True

structure HarmlessWhen : Prop where
  plain : Plain cfg ev.name none
  keeps : FindRuns cfg s ev.name → HandlerKeeps cfg s ev

end Condition

section Content

theorem content_put_file (fs : Tree) (n : Name) (d : Path) (c : List Byte) (p : Path) :
    content (fs.put n d (.file c)) p =
      if p = n :: d ∧ fs.Allows n d (.file c) then some c else content fs p := by
  unfold content
  rw [FileTree.get_put]
  split_ifs
  · rfl
  · rfl

theorem content_put_dir (fs : Tree) (n : Name) (d p : Path) :
    content (fs.put n d .dir) p = content fs p := by
  unfold content
  rw [FileTree.get_put]
  split_ifs with h
  · obtain ⟨rfl, _, hnone | ⟨hdir, _⟩⟩ := h
    · rw [hnone]
    · exact absurd rfl hdir
  · rfl

theorem SameDump.refl (fs : Tree) : SameDump cfg fs fs := fun _ _ _ => rfl

theorem SameDump.put_findFile {fs fs' : Tree} (h : SameDump cfg fs fs') (c : List Byte) :
    SameDump cfg fs (fs'.put findFile cfg.dumpDir (.file c)) := by
  intro p hp hne
  rw [content_put_file, if_neg fun hput => hne hput.1]
  exact h p hp hne

theorem SameDump.put_dir {fs fs' : Tree} (h : SameDump cfg fs fs') (n : Name) (d : Path) :
    SameDump cfg fs (fs'.put n d .dir) := by
  intro p hp hne
  rw [content_put_dir]
  exact h p hp hne

theorem SameDump.put_file_iff {fs fs' : Tree} (h : SameDump cfg fs fs') {n : Name} {d : Path}
    {c : List Byte} (hsuf : cfg.dumpDir <:+ n :: d) (hne : n :: d ≠ findFile :: cfg.dumpDir) :
    SameDump cfg fs (fs'.put n d (.file c)) ↔
      (fs'.Allows n d (.file c) → content fs (n :: d) = some c) := by
  constructor
  · intro hput hallows
    have hself := hput (n :: d) hsuf hne
    rw [content_put_file, if_pos ⟨rfl, hallows⟩] at hself
    exact hself.symm
  · intro hc p hp hpne
    rw [content_put_file]
    split_ifs with hself
    · rw [hself.1]
      exact (hc hself.2).symm
    · exact h p hp hpne

theorem dump_suffix_cons (n : Name) : cfg.dumpDir <:+ n :: cfg.dumpDir := List.suffix_cons _ _

theorem dump_suffix_cons_cons (m n : Name) : cfg.dumpDir <:+ m :: n :: cfg.dumpDir := ⟨[m, n], rfl⟩

/-- The tree before `cp` when only `find_file` and the handler's own directory differ. -/
structure BeforeCp (cfg : Config) (fs fs' : Tree) (n : Name) : Prop where
  same : SameDump cfg fs fs'
  dump : fs'.get cfg.dumpDir = some .dir
  empty : fs'.get (findFile :: cfg.dumpDir) = some (.file [])
  entry : n ≠ findFile → fs'.get (n :: cfg.dumpDir) = fs.get (n :: cfg.dumpDir) ∨
    fs.get (n :: cfg.dumpDir) = none ∧ fs'.get (n :: cfg.dumpDir) = some .dir
  inner : fs'.get (findFile :: n :: cfg.dumpDir) = some .dir ↔
    fs.get (findFile :: n :: cfg.dumpDir) = some .dir

theorem cpTree_findFile {fs' : Tree} {n : Name} (hne : n ≠ findFile)
    (hfind : fs'.get (findFile :: cfg.dumpDir) = some (.file [])) :
    cpTree cfg fs' n (findFile :: cfg.dumpDir) =
      if fs'.get (n :: cfg.dumpDir) = some .dir then
        fs'.put findFile (n :: cfg.dumpDir) (.file [])
      else fs'.put n cfg.dumpDir (.file []) := by
  have hc : content fs' (findFile :: cfg.dumpDir) = some [] := content_eq_some_iff.mpr hfind
  have hinto : findFile :: n :: cfg.dumpDir ≠ findFile :: cfg.dumpDir := cons_cons_ne _ _ _ _
  have hover : n :: cfg.dumpDir ≠ findFile :: cfg.dumpDir := fun h => hne (List.cons.inj h).1
  unfold cpTree cpTarget
  rw [hc]
  dsimp only
  by_cases hdir : fs'.get (n :: cfg.dumpDir) = some .dir
  · rw [if_pos hdir, if_pos hdir]
    exact if_neg hinto
  · rw [if_neg hdir, if_neg hdir]
    exact if_neg hover

theorem BeforeCp.sameDump_iff {fs fs' : Tree} {n : Name} (h : BeforeCp cfg fs fs' n) :
    SameDump cfg fs (cpTree cfg fs' n (findFile :: cfg.dumpDir)) ↔ CpKeeps cfg fs n := by
  by_cases hn : n = findFile
  · refine iff_of_true ?_ (Or.inl hn)
    have hdir : fs'.get (n :: cfg.dumpDir) ≠ some .dir := by
      rw [hn, h.empty]
      exact nofun
    have hc : content fs' (findFile :: cfg.dumpDir) = some [] :=
      content_eq_some_iff.mpr h.empty
    unfold cpTree cpTarget
    rw [hc, if_neg hdir, hn]
    dsimp only
    rw [if_pos rfl]
    exact h.same
  · have hover : n :: cfg.dumpDir ≠ findFile :: cfg.dumpDir :=
      fun he => hn (List.cons.inj he).1
    have hinto := h.same.put_file_iff (n := findFile) (d := n :: cfg.dumpDir) (c := [])
      (dump_suffix_cons_cons _ _) (cons_cons_ne _ _ _ _)
    have hentry := h.same.put_file_iff (n := n) (d := cfg.dumpDir) (c := []) (dump_suffix_cons n)
      hover
    rw [cpTree_findFile hn h.empty]
    unfold CpKeeps
    rcases h.entry hn with hsame | ⟨hnone, hdir⟩
    · rw [hsame]
      split_ifs with hdir
      · rw [hinto, FileTree.allows_file_iff, hsame, hdir, content_eq_some_iff, ne_eq, h.inner]
        simp only [hn, true_and, false_or, reduceCtorEq, Option.some.injEq]
        exact or_iff_not_imp_left.symm
      · rw [hentry, FileTree.allows_file_iff, h.dump, hsame, content_eq_some_iff]
        simp only [hn, hdir, true_and, false_or, false_and, or_false, ne_eq, not_false_eq_true,
          true_imp_iff]
    · have hinner : fs.get (findFile :: n :: cfg.dumpDir) = none := by
        by_contra hne
        have hparent := fs.parent _ _ hne
        rw [hnone] at hparent
        cases hparent
      rw [if_pos hdir, hinto, FileTree.allows_file_iff, hdir, content_eq_some_iff, ne_eq, h.inner,
        hinner, hnone]
      simp [hn]

end Content

section Steps

/-- The state behind the `fscanf` that finds nothing to read. -/
def afterFind (cfg : Config) (s : State) (ev : Event) (evs : List Event) : State :=
  { (s.store findFile cfg.dumpDir []).store findFile cfg.dumpDir [] with
    pc := .found ev none evs }

theorem Vanished.findStep_eq (h : Vanished cfg s ev evs) (hplain : Plain cfg ev.name none) :
    findStep cfg s [] = some
      (if FindRuns cfg s ev.name then afterFind cfg s ev evs else { s with pc := .crashed }) := by
  have hperm : ([] : List Path).Perm ((s.store findFile cfg.dumpDir []).fs.named cfg.cwd ev.name) ∧
      Plain cfg ev.name (List.head? []) := by
    rw [h.gone]
    exact ⟨.refl [], hplain⟩
  unfold findStep
  rw [h.pc]
  dsimp only
  rw [if_neg h.kind, if_pos hperm]
  by_cases hopen : s.fs.get cfg.dumpDir ≠ some .dir ∨ s.fs.get (findFile :: cfg.dumpDir) = some .dir
  · have hnot : ¬ FindRuns cfg s ev.name := by
      intro hruns
      rcases hopen with hdump | hdir
      · exact hdump hruns.1
      · exact hruns.2.1 hdir
    rw [if_pos hopen, if_neg hnot]
  · obtain ⟨hdump, hdir⟩ := not_or.mp hopen
    have hruns : FindRuns cfg s ev.name ↔
        (findCommand cfg ev.name).length < pathMax ∧ (filepath cfg none).length < pathMax := by
      unfold FindRuns
      rw [not_not.mp hdump]
      simp [hdir]
    rw [if_neg hopen]
    by_cases hfits : FindRuns cfg s ev.name
    · rw [if_pos hfits, List.head?_nil, if_pos (hruns.mp hfits)]
      rfl
    · rw [if_neg hfits, List.head?_nil, if_neg fun hlen => hfits (hruns.mpr hlen)]

theorem afterFind_fs (cfg : Config) (s : State) (ev : Event) (evs : List Event) :
    (afterFind cfg s ev evs).fs = (s.fs.put findFile cfg.dumpDir (.file [])).put findFile
      cfg.dumpDir (.file []) := by
  obtain ⟨_, hopened⟩ := stored_store s findFile cfg.dumpDir []
  obtain ⟨_, hwritten⟩ := stored_store (s.store findFile cfg.dumpDir []) findFile cfg.dumpDir []
  unfold afterFind
  rw [hwritten, hopened]

theorem afterFind_now (cfg : Config) (s : State) (ev : Event) (evs : List Event) :
    (afterFind cfg s ev evs).now = s.now := by
  obtain ⟨_, hopened⟩ := stored_store s findFile cfg.dumpDir []
  obtain ⟨_, hwritten⟩ := stored_store (s.store findFile cfg.dumpDir []) findFile cfg.dumpDir []
  unfold afterFind
  rw [hwritten, hopened]

theorem afterFind_same (cfg : Config) (s : State) (ev : Event) (evs : List Event) :
    SameDump cfg s.fs (afterFind cfg s ev evs).fs := by
  rw [afterFind_fs]
  exact ((SameDump.refl s.fs).put_findFile []).put_findFile []

theorem afterFind_get {p : Path} (hp : p ≠ findFile :: cfg.dumpDir) :
    (afterFind cfg s ev evs).fs.get p = s.fs.get p := by
  rw [afterFind_fs, FileTree.get_put_of_ne hp, FileTree.get_put_of_ne hp]

section Found
variable (hruns : FindRuns cfg s ev.name)
include hruns

theorem afterFind_dump : (afterFind cfg s ev evs).fs.get cfg.dumpDir = some .dir := by
  rw [afterFind_get (List.cons_ne_self findFile cfg.dumpDir).symm]
  exact hruns.1

theorem afterFind_empty (evs : List Event) :
    (afterFind cfg s ev evs).fs.get (findFile :: cfg.dumpDir) = some (.file []) := by
  have hopened : s.fs.Allows findFile cfg.dumpDir (.file []) :=
    FileTree.allows_file_iff.mpr ⟨hruns.1, hruns.2.1⟩
  rw [afterFind_fs, FileTree.get_put]
  split_ifs
  · rfl
  · exact FileTree.get_put_self hopened

end Found

/-- Every step of `as` leaves the dump directory as it is in `fs`. -/
def StepsKeep (cfg : Config) (s : State) (fs : Tree) (u : State) (as : List Action) : Prop :=
  (Machine.mk s (step cfg)).AllSteps
    (fun u a => ∀ t, step cfg u a = some t → SameDump cfg fs t.fs) u as

theorem stepsKeep_cons {fs : Tree} {u v : State} {a : Action} {as : List Action}
    (hstep : step cfg u a = some v) :
    StepsKeep cfg s fs u (a :: as) ↔ SameDump cfg fs v.fs ∧ StepsKeep cfg s fs v as := by
  have hcons : StepsKeep cfg s fs u (a :: as) ↔ ∀ t, step cfg u a = some t →
      SameDump cfg fs t.fs ∧ StepsKeep cfg s fs t as := Machine.allSteps_results_cons
  rw [hcons]
  constructor
  · exact fun h => h v hstep
  · intro h t ht
    obtain rfl := Option.some.inj (hstep.symm.trans ht)
    exact h

theorem stepsKeep_of_none {fs : Tree} {u : State} {a : Action} {as : List Action}
    (hstep : step cfg u a = none) : StepsKeep cfg s fs u (a :: as) := by
  have hstuck : ∀ t, step cfg u a ≠ some t := by
    intro t ht
    rw [hstep] at ht
    cases ht
  exact ⟨fun t ht => absurd ht (hstuck t), fun t ht => absurd ht (hstuck t)⟩

/-- The last command of both handlers. -/
theorem stepsKeep_cp_iff {fs : Tree} {u : State} (hpc : u.pc = .copying ev none evs)
    (hu : BeforeCp cfg fs u.fs ev.name) :
    StepsKeep cfg s fs u [.cp] ↔
      ((cpCommand cfg none ev.name).length < pathMax → CpKeeps cfg fs ev.name) := by
  by_cases hfits : (cpCommand cfg none ev.name).length < pathMax
  · have hstep : step cfg u .cp =
        some { u.cp cfg ev.name (findFile :: cfg.dumpDir) with pc := .batch evs } := by
      change cpStep cfg u = _
      unfold cpStep
      rw [hpc]
      exact if_pos hfits
    obtain ⟨_, hcopied⟩ := stored_cp cfg u ev.name (findFile :: cfg.dumpDir)
    rw [stepsKeep_cons hstep, hcopied]
    dsimp only
    rw [hu.sameDump_iff]
    exact ⟨fun h _ => h.1, fun h => ⟨h hfits, trivial⟩⟩
  · have hstep : step cfg u .cp = some { u with pc := .crashed } := by
      change cpStep cfg u = _
      unfold cpStep
      rw [hpc]
      exact if_neg hfits
    rw [stepsKeep_cons hstep]
    exact iff_of_true ⟨hu.same, trivial⟩ fun h => absurd h hfits

section Found
variable (hruns : FindRuns cfg s ev.name)
include hruns

theorem beforeCp_mkdir (evs : List Event) :
    BeforeCp cfg s.fs ((afterFind cfg s ev evs).fs.put ev.name cfg.dumpDir .dir) ev.name where
  same := (afterFind_same cfg s ev evs).put_dir _ _
  dump := FileTree.get_put_of_dir (afterFind_dump hruns)
  empty := by
    have hempty := afterFind_empty hruns evs
    rw [FileTree.get_put]
    split_ifs with hput
    · obtain ⟨hname, _, hnone | ⟨hdir, _⟩⟩ := hput
      · rw [← hname, hempty] at hnone
        cases hnone
      · exact absurd rfl hdir
    · exact hempty
  entry := by
    intro hne
    have hself : ev.name :: cfg.dumpDir ≠ findFile :: cfg.dumpDir :=
      fun h => hne (List.cons.inj h).1
    have hsame : (afterFind cfg s ev evs).fs.get _ = _ := afterFind_get hself
    rw [FileTree.get_put]
    split_ifs with hput
    · obtain ⟨_, _, hnone | ⟨hdir, _⟩⟩ := hput
      · exact Or.inr ⟨hsame.symm.trans hnone, rfl⟩
      · exact absurd rfl hdir
    · exact Or.inl hsame
  inner := by
    rw [FileTree.get_put_of_ne (cons_cons_ne _ _ _ _), afterFind_get (cons_cons_ne _ _ _ _)]

theorem afterFind_diffOutput (evs : List Event) :
    diffOutput cfg (afterFind cfg s ev evs).fs ev.name (findFile :: cfg.dumpDir) =
      emptyDiff cfg s.fs ev.name := by
  have hempty := afterFind_empty hruns evs
  have hcopy : (afterFind cfg s ev evs).fs.get (ev.name :: ev.name :: cfg.dumpDir) =
      s.fs.get (ev.name :: ev.name :: cfg.dumpDir) := afterFind_get (cons_cons_ne _ _ _ _)
  unfold diffOutput diffOperand emptyDiff content
  rw [hempty, hcopy]
  rcases s.fs.get (ev.name :: ev.name :: cfg.dumpDir) with _ | _ | b <;> rfl

theorem sameDump_diff_iff (evs : List Event) (tm : Tm) :
    SameDump cfg s.fs ((afterFind cfg s ev evs).fs.put (diffFilename ev.name tm)
      (ev.name :: cfg.dumpDir) (.file (emptyDiff cfg s.fs ev.name))) ↔
        DiffKeeps cfg s.fs ev.name tm := by
  have hsaved := cons_cons_ne (diffFilename ev.name tm) ev.name findFile cfg.dumpDir
  have hput := (afterFind_same cfg s ev evs).put_file_iff
    (c := emptyDiff cfg s.fs ev.name) (dump_suffix_cons_cons (diffFilename ev.name tm) ev.name)
    hsaved
  rw [hput, FileTree.allows_file_iff, afterFind_get hsaved, content_eq_some_iff]
  unfold DiffKeeps
  by_cases hname : ev.name = findFile
  · have hempty := afterFind_empty hruns evs
    have hnot := hruns.2.1
    rw [hname] at *
    rw [hempty]
    simp [hnot]
  · rw [afterFind_get fun h => hname (List.cons.inj h).1, and_imp]
    exact imp_congr_right fun _ => or_iff_not_imp_left.symm

theorem beforeCp_diff (evs : List Event) {tm : Tm} (hkeeps : DiffKeeps cfg s.fs ev.name tm) :
    BeforeCp cfg s.fs ((afterFind cfg s ev evs).fs.put (diffFilename ev.name tm)
      (ev.name :: cfg.dumpDir) (.file (emptyDiff cfg s.fs ev.name))) ev.name where
  same := (sameDump_diff_iff hruns evs tm).mpr hkeeps
  dump := FileTree.get_put_of_dir (afterFind_dump hruns)
  empty := by
    rw [FileTree.get_put_of_ne (cons_cons_ne _ _ _ _).symm]
    exact afterFind_empty hruns evs
  entry := by
    intro hne
    left
    rw [FileTree.get_put_of_ne (cons_cons_ne _ _ _ _).symm,
      afterFind_get fun h => hne (List.cons.inj h).1]
  inner := by
    rw [dir_put_file_iff, afterFind_get (cons_cons_ne _ _ _ _)]

end Found

theorem step_mkdir_afterFind (cfg : Config) (s : State) (evs : List Event)
    (hkind : ev.kind = .create) :
    step cfg (afterFind cfg s ev evs) .mkdir =
      if (mkdirCommand cfg ev.name).length < pathMax then
        some { (afterFind cfg s ev evs).mkdir ev.name cfg.dumpDir with
          pc := .copying ev none evs }
      else some { afterFind cfg s ev evs with pc := .crashed } := by
  change mkdirStep cfg (afterFind cfg s ev evs) = _
  unfold mkdirStep
  change (if ev.kind = .create then _ else _) = _
  rw [if_pos hkind]

theorem step_diff_afterFind (evs : List Event) (hkind : ev.kind = .modify)
    (hruns : FindRuns cfg s ev.name) (second : ℕ) :
    step cfg (afterFind cfg s ev evs) (.diff second) =
      if s.now ≤ second then
        if (diffFilename ev.name (cfg.localtime second)).length < diffFilenameSize ∧
            (diffCommand cfg none ev.name (cfg.localtime second)).length < pathMax then
          some { (afterFind cfg s ev evs).store (diffFilename ev.name (cfg.localtime second))
              (ev.name :: cfg.dumpDir) (emptyDiff cfg s.fs ev.name) with
            now := second
            pc := .copying ev none evs }
        else some { afterFind cfg s ev evs with pc := .crashed }
      else none := by
  rw [← afterFind_diffOutput hruns evs, ← afterFind_now cfg s ev evs]
  change diffStep cfg (afterFind cfg s ev evs) second = _
  unfold diffStep
  change (if ev.kind = .modify ∧ (afterFind cfg s ev evs).now ≤ second then _ else _) = _
  simp only [hkind, true_and]
  rfl

/-- The commands of `file_created` behind `find`. -/
theorem stepsKeep_create_iff (hkind : ev.kind = .create) (hruns : FindRuns cfg s ev.name) :
    StepsKeep cfg s s.fs (afterFind cfg s ev evs) [.mkdir, .cp] ↔ HandlerKeeps cfg s ev := by
  have hkeeps : HandlerKeeps cfg s ev ↔ ((mkdirCommand cfg ev.name).length < pathMax →
      (cpCommand cfg none ev.name).length < pathMax → CpKeeps cfg s.fs ev.name) := by
    unfold HandlerKeeps
    rw [hkind]
  have hstep := step_mkdir_afterFind cfg s evs hkind
  rw [hkeeps]
  by_cases hfits : (mkdirCommand cfg ev.name).length < pathMax
  · rw [if_pos hfits] at hstep
    have hbefore := beforeCp_mkdir hruns evs
    obtain ⟨_, hmade⟩ := stored_mkdir (afterFind cfg s ev evs) ev.name cfg.dumpDir
    rw [stepsKeep_cons hstep, hmade, stepsKeep_cp_iff rfl hbefore]
    exact ⟨fun h _ => h.2, fun h => ⟨hbefore.same, h hfits⟩⟩
  · rw [if_neg hfits] at hstep
    rw [stepsKeep_cons hstep]
    exact iff_of_true ⟨afterFind_same cfg s ev evs, stepsKeep_of_none rfl⟩ fun h => absurd h hfits

/-- The commands of `file_modified` behind `find`, at some time. -/
theorem stepsKeep_modify_iff (hkind : ev.kind = .modify) (hruns : FindRuns cfg s ev.name)
    (second : ℕ) :
    StepsKeep cfg s s.fs (afterFind cfg s ev evs) [.diff second, .cp] ↔ (s.now ≤ second →
      (diffFilename ev.name (cfg.localtime second)).length < diffFilenameSize →
      (diffCommand cfg none ev.name (cfg.localtime second)).length < pathMax →
      DiffKeeps cfg s.fs ev.name (cfg.localtime second) ∧
        ((cpCommand cfg none ev.name).length < pathMax → CpKeeps cfg s.fs ev.name)) := by
  have hstep := step_diff_afterFind evs hkind hruns second
  by_cases hsecond : s.now ≤ second
  · rw [if_pos hsecond] at hstep
    by_cases hfits : (diffFilename ev.name (cfg.localtime second)).length < diffFilenameSize ∧
        (diffCommand cfg none ev.name (cfg.localtime second)).length < pathMax
    · rw [if_pos hfits] at hstep
      have hsame := sameDump_diff_iff hruns evs (cfg.localtime second)
      obtain ⟨_, hsaved⟩ := stored_store (afterFind cfg s ev evs)
        (diffFilename ev.name (cfg.localtime second)) (ev.name :: cfg.dumpDir)
        (emptyDiff cfg s.fs ev.name)
      rw [stepsKeep_cons hstep, hsaved]
      dsimp only
      rw [hsame]
      constructor
      · rintro ⟨hkeeps, hrest⟩ _ _ _
        exact ⟨hkeeps, (stepsKeep_cp_iff rfl (beforeCp_diff hruns evs hkeeps)).mp hrest⟩
      · intro h
        obtain ⟨hkeeps, hrest⟩ := h hsecond hfits.1 hfits.2
        exact ⟨hkeeps, (stepsKeep_cp_iff rfl (beforeCp_diff hruns evs hkeeps)).mpr hrest⟩
    · rw [if_neg hfits] at hstep
      rw [stepsKeep_cons hstep]
      refine iff_of_true ⟨afterFind_same cfg s ev evs, stepsKeep_of_none rfl⟩ ?_
      intro _ hname hdiff
      exact absurd ⟨hname, hdiff⟩ hfits
  · rw [if_neg hsecond] at hstep
    exact iff_of_true (stepsKeep_of_none hstep) fun h => absurd h hsecond

theorem Vanished.handled_iff (h : Vanished cfg s ev evs) (hplain : Plain cfg ev.name none) :
    (∀ second, StepsKeep cfg s s.fs s (handler ev second)) ↔
      (FindRuns cfg s ev.name → HandlerKeeps cfg s ev) := by
  have hfind : ∀ as, StepsKeep cfg s s.fs s (.find [] :: as) ↔
      SameDump cfg s.fs (if FindRuns cfg s ev.name then afterFind cfg s ev evs
        else { s with pc := .crashed }).fs ∧ StepsKeep cfg s s.fs
          (if FindRuns cfg s ev.name then afterFind cfg s ev evs else { s with pc := .crashed })
            as :=
    fun as => stepsKeep_cons (h.findStep_eq hplain)
  cases hkind : ev.kind with
  | create =>
    have hhandler : ∀ second, handler ev second = [.find [], .mkdir, .cp] := by
      intro second
      unfold handler
      rw [hkind]
    simp only [hhandler, hfind]
    by_cases hruns : FindRuns cfg s ev.name
    · rw [if_pos hruns, stepsKeep_create_iff hkind hruns]
      exact ⟨fun hall _ => (hall 0).2, fun hkeeps _ => ⟨afterFind_same cfg s ev evs, hkeeps hruns⟩⟩
    · rw [if_neg hruns]
      exact iff_of_true (fun _ => ⟨.refl s.fs, stepsKeep_of_none rfl⟩) fun hr => absurd hr hruns
  | modify =>
    have hhandler : ∀ second, handler ev second = [.find [], .diff second, .cp] := by
      intro second
      unfold handler
      rw [hkind]
    have hkeeps : HandlerKeeps cfg s ev ↔ ∀ second, s.now ≤ second →
        (diffFilename ev.name (cfg.localtime second)).length < diffFilenameSize →
        (diffCommand cfg none ev.name (cfg.localtime second)).length < pathMax →
        DiffKeeps cfg s.fs ev.name (cfg.localtime second) ∧
          ((cpCommand cfg none ev.name).length < pathMax → CpKeeps cfg s.fs ev.name) := by
      unfold HandlerKeeps
      rw [hkind]
    simp only [hhandler, hfind]
    by_cases hruns : FindRuns cfg s ev.name
    · simp only [if_pos hruns, stepsKeep_modify_iff hkind hruns]
      rw [hkeeps]
      exact ⟨fun hall _ second => (hall second).2,
        fun hall second => ⟨afterFind_same cfg s ev evs, hall hruns second⟩⟩
    · rw [if_neg hruns]
      exact iff_of_true (fun _ => ⟨.refl s.fs, stepsKeep_of_none rfl⟩) fun hr => absurd hr hruns
  | delete => exact absurd hkind h.kind

end Steps

section Odd

theorem Vanished.named_eq_nil (h : Vanished cfg s ev evs) : s.fs.named cfg.cwd ev.name = [] := by
  obtain ⟨_, hopened⟩ := stored_store s findFile cfg.dumpDir []
  have hgone := h.gone
  rw [hopened] at hgone
  rw [List.eq_nil_iff_forall_not_mem] at hgone ⊢
  intro p hp
  obtain ⟨hget, hnamed⟩ := FileTree.mem_named.mp hp
  refine hgone p (FileTree.mem_named.mpr ⟨?_, hnamed⟩)
  dsimp only
  rw [FileTree.get_put]
  split_ifs
  · exact Option.some_ne_none _
  · exact hget

theorem Vanished.oddStep_eq (h : Vanished cfg s ev evs) (fs : Tree) :
    step cfg s (.odd fs) =
      if Plain cfg ev.name none then none else some { s with fs := fs, pc := .batch evs } := by
  change oddStep cfg s fs = _
  unfold oddStep
  rw [h.pc]
  dsimp only
  rw [h.named_eq_nil]
  simp [h.kind]

theorem exists_not_sameDump (cfg : Config) (fs : Tree) : ∃ fs', ¬ SameDump cfg fs fs' := by
  obtain ⟨c, hc⟩ : ∃ c, content fs (ascii "a" :: cfg.dumpDir) ≠ some c := by
    by_cases hnil : content fs (ascii "a" :: cfg.dumpDir) = some []
    · refine ⟨[0], ?_⟩
      rw [hnil]
      exact fun he => absurd (Option.some.inj he) (List.cons_ne_nil _ _).symm
    · exact ⟨[], hnil⟩
  have hallows : (FileTree.chain cfg.dumpDir : Tree).Allows (ascii "a") cfg.dumpDir (.file c) := by
    apply FileTree.allows_file_iff.mpr
    refine ⟨FileTree.get_chain List.suffix_rfl, ?_⟩
    intro hdir
    have hle := (FileTree.suffix_of_get_chain (by rw [hdir]; exact nofun)).length_le
    rw [List.length_cons] at hle
    omega
  refine ⟨(FileTree.chain cfg.dumpDir).put (ascii "a") cfg.dumpDir (.file c), ?_⟩
  intro hsame
  have hne : ascii "a" :: cfg.dumpDir ≠ findFile :: cfg.dumpDir := by
    intro he
    exact absurd (List.cons.inj he).1 (by decide)
  have hcontent := hsame _ (dump_suffix_cons _) hne
  rw [content_put_file, if_pos ⟨rfl, hallows⟩] at hcontent
  exact hc hcontent.symm

end Odd

/-- When the handler of an event for a file that is gone leaves the dump directory as it was. -/
theorem vanished_harmless_iff (h : Vanished cfg s ev evs) :
    Harmless cfg s ev ↔ HarmlessWhen cfg s ev := by
  constructor
  · intro hharmless
    have hplain : Plain cfg ev.name none := by
      by_contra hodd
      obtain ⟨fs', hfs'⟩ := exists_not_sameDump cfg s.fs
      apply hfs'
      have hstep := h.oddStep_eq fs'
      rw [if_neg hodd] at hstep
      exact hharmless.odd fs' _ hstep
    exact ⟨hplain, (h.handled_iff hplain).mp hharmless.handled⟩
  · rintro ⟨hplain, hkeeps⟩
    refine ⟨(h.handled_iff hplain).mpr hkeeps, ?_⟩
    intro fs t ht
    rw [h.oddStep_eq, if_pos hplain] at ht
    cases ht

section Runs

def createdG : Event := ⟨.create, [ascii "a", ascii "w"], ascii "g"⟩

/-- "/w/a/g" is made and taken away again before the daemon reads the events. -/
def createdAndRemoved : List Action :=
  [.user (.create (ascii "g") [ascii "a", ascii "w"]),
    .user (.remove (ascii "g") [ascii "a", ascii "w"]), .read 1]

/-- The same, while "/d/g" is an empty file. -/
def emptyStored : List Action := .user (.create (ascii "g") [ascii "d"]) :: createdAndRemoved

theorem empty_copy_harmless :
    ∃ s, (backup small twoSameNames).run emptyStored = some s ∧ Harmless small s createdG := by
  have hrun : (backup small twoSameNames).run emptyStored = some _ := rfl
  refine ⟨_, hrun, (vanished_harmless_iff ⟨rfl, by decide, by decide +kernel⟩).mpr ⟨by decide, ?_⟩⟩
  intro _ _ _
  exact Or.inr (Or.inl (by decide +kernel))

/-- The empty output file of `find` becomes a copy. -/
theorem vanished_file_not_harmless :
    ∃ s, (backup small twoSameNames).Reachable s ∧ Vanished small s createdG [] ∧
      ¬ Harmless small s createdG := by
  have hrun : (backup small twoSameNames).run createdAndRemoved = some _ := rfl
  refine ⟨_, ⟨_, hrun⟩, ⟨rfl, by decide, by decide +kernel⟩, ?_⟩
  intro h
  obtain ⟨_, hfind⟩ := h.handled 0
  obtain ⟨_, hmkdir⟩ := hfind _ rfl
  obtain ⟨hcp, _⟩ := hmkdir _ rfl
  have hadded := hcp _ rfl [findFile, ascii "g", ascii "d"] ⟨[findFile, ascii "g"], rfl⟩ (by decide)
  exact absurd hadded (by decide +kernel)

end Runs

end OsTasks.Backup

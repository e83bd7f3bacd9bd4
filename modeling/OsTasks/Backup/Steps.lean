import OsTasks.Backup.Daemon

/-! What each step of the daemon and its users does to the file system. -/
namespace OsTasks.Backup
open OsTasks.Lib

variable {cfg : Config} {s t : State}

def content (fs : Tree) (p : Path) : Option (List Byte) :=
  match fs.get p with
  | some (.file c) => some c
  | _ => none

theorem content_eq_some_iff {fs : Tree} {p : Path} {c : List Byte} :
    content fs p = some c ↔ fs.get p = some (.file c) := by
  unfold content
  rcases fs.get p with _ | _ | d <;> simp

/-- The file system after `cp`. -/
def cpTree (cfg : Config) (fs : Tree) (n : Name) (src : Path) : Tree :=
  match content fs src with
  | some c =>
    if (cpTarget cfg fs n src).1 :: (cpTarget cfg fs n src).2 = src then fs
    else fs.put (cpTarget cfg fs n src).1 (cpTarget cfg fs n src).2 (.file c)
  | none => fs

/-- `t` is `s` with the file system `fs`, and with other events in the queue. -/
def Stored (s t : State) (fs : Tree) : Prop := ∃ queue, t = { s with fs := fs, queue := queue }

theorem Stored.refl (s : State) : Stored s s s.fs := ⟨s.queue, rfl⟩

theorem Stored.notify {fs : Tree} (h : Stored s t fs) (kind : Kind) (n : Name) (d : Path) :
    Stored s (t.notify kind n d) fs := by
  obtain ⟨_, rfl⟩ := h
  unfold State.notify
  split_ifs
  · exact ⟨_, rfl⟩
  · exact ⟨_, rfl⟩

theorem stored_store (s : State) (n : Name) (d : Path) (c : List Byte) :
    Stored s (s.store n d c) (s.fs.put n d (.file c)) := by
  have hput : Stored s { s with fs := s.fs.put n d (.file c) } (s.fs.put n d (.file c)) :=
    ⟨s.queue, rfl⟩
  unfold State.store
  dsimp only
  split_ifs with h
  · exact hput.notify _ _ _
  · exact (hput.notify _ _ _).notify _ _ _
  · exact hput.notify _ _ _
  · rw [FileTree.put_of_not_allows h]
    exact .refl s

theorem stored_mkdir (s : State) (n : Name) (d : Path) :
    Stored s (s.mkdir n d) (s.fs.put n d .dir) := by
  have hput : Stored s { s with fs := s.fs.put n d .dir } (s.fs.put n d .dir) := ⟨s.queue, rfl⟩
  unfold State.mkdir
  split_ifs with h
  · exact hput.notify _ _ _
  · rw [FileTree.put_of_not_allows h]
    exact .refl s

theorem stored_cp (cfg : Config) (s : State) (n : Name) (src : Path) :
    Stored s (s.cp cfg n src) (cpTree cfg s.fs n src) := by
  unfold State.cp cpTree content
  rcases s.fs.get src with _ | _ | c
  · exact .refl s
  · exact .refl s
  · dsimp only
    split_ifs
    · exact .refl s
    · exact stored_store _ _ _ _

/-- The file system after an action of a user. -/
def userTree (fs : Tree) : UserAction → Tree
  | .create n d => if fs.get (n :: d) = none then fs.put n d (.file []) else fs
  | .mkdir n d => fs.put n d .dir
  | .write n d c => if fs.get (n :: d) = none then fs else fs.put n d (.file c)
  | .remove n d =>
    if fs.get (n :: d) = none ∨ fs.get (n :: d) = some .dir then fs else fs.removeFile n d

theorem stored_userStep (s : State) (u : UserAction) :
    Stored s (userStep s u) (userTree s.fs u) := by
  cases u with
  | create n d =>
    dsimp only [userStep, userTree]
    split_ifs
    · exact stored_store _ _ _ _
    · exact .refl s
  | mkdir n d => exact stored_mkdir _ _ _
  | write n d c =>
    dsimp only [userStep, userTree]
    split_ifs
    · exact .refl s
    · exact stored_store _ _ _ _
  | remove n d =>
    have hremove : Stored s { s with fs := s.fs.removeFile n d } (s.fs.removeFile n d) :=
      ⟨s.queue, rfl⟩
    dsimp only [userStep, userTree]
    split_ifs
    · exact .refl s
    · exact hremove.notify _ _ _

theorem get_userTree {fs : Tree} (u : UserAction) {p : Path} (h : p ≠ u.path) :
    (userTree fs u).get p = fs.get p := by
  cases u with
  | create n d =>
    dsimp only [userTree]
    split_ifs
    · exact FileTree.get_put_of_ne h
    · rfl
  | mkdir n d => exact FileTree.get_put_of_ne h
  | write n d c =>
    dsimp only [userTree]
    split_ifs
    · rfl
    · exact FileTree.get_put_of_ne h
  | remove n d =>
    dsimp only [userTree]
    split_ifs
    · rfl
    · exact FileTree.get_removeFile_of_ne h

theorem get_userTree_of_dir {fs : Tree} (u : UserAction) {p : Path} (h : fs.get p = some .dir) :
    (userTree fs u).get p = some .dir := by
  cases u with
  | create n d =>
    dsimp only [userTree]
    split_ifs
    · exact FileTree.get_put_of_dir h
    · exact h
  | mkdir n d => exact FileTree.get_put_of_dir h
  | write n d c =>
    dsimp only [userTree]
    split_ifs
    · exact h
    · exact FileTree.get_put_of_dir h
  | remove n d =>
    dsimp only [userTree]
    split_ifs
    · exact h
    · exact FileTree.get_removeFile_dir_iff.mpr h

/-- What a step does. -/
inductive Moved (cfg : Config) (s t : State) : Action → Prop where
  | user (u : UserAction) (ht : t.pc = s.pc) (hfs : t.fs = userTree s.fs u)
      (hw : t.watches = s.watches) (hnow : t.now = s.now) : Moved cfg s t (.user u)
  | read {k : ℕ} {evs : List Event} (hs : s.pc = .batch []) (ht : t.pc = .batch evs)
      (hfs : t.fs = s.fs) (hw : t.watches = s.watches) (hnow : t.now = s.now) :
      Moved cfg s t (.read k)
  | skip {ev : Event} {evs : List Event} (hs : s.pc = .batch (ev :: evs)) (ht : t.pc = .batch evs)
      (hfs : t.fs = s.fs) (hw : t.watches = s.watches) (hnow : t.now = s.now) : Moved cfg s t .skip
  | crash {a : Action} (ht : t.pc = .crashed) (hfs : t.fs = s.fs) (hw : t.watches = s.watches)
      (hnow : t.now = s.now) : Moved cfg s t a
  | find {listing : List Path} {ev : Event} {evs : List Event} {lines : List Byte}
      (hs : s.pc = .batch (ev :: evs)) (ht : t.pc = .found ev listing.head? evs)
      (hdump : s.fs.get cfg.dumpDir = some .dir)
      (hfs : t.fs = (s.fs.put findFile cfg.dumpDir (.file [])).put findFile cfg.dumpDir
        (.file lines)) (hw : t.watches = s.watches) (hnow : t.now = s.now)
      (hnamed : ∀ p, listing.head? = some p → p.head? = some ev.name) :
      Moved cfg s t (.find listing)
  | mkdir {ev : Event} {src : Option Path} {evs : List Event} (hs : s.pc = .found ev src evs)
      (hkind : ev.kind = .create) (ht : t.pc = .copying ev src evs)
      (hfs : t.fs = s.fs.put ev.name cfg.dumpDir .dir) (hw : t.watches = s.watches)
      (hnow : t.now = s.now) : Moved cfg s t .mkdir
  | diff {ev : Event} {src : Option Path} {evs : List Event} {second : ℕ}
      (hs : s.pc = .found ev src evs) (hkind : ev.kind = .modify)
      (ht : t.pc = .copying ev src evs) (hnow : s.now ≤ second) (hsecond : t.now = second)
      (hfs : t.fs = s.fs.put (diffFilename ev.name (cfg.localtime second))
        (ev.name :: cfg.dumpDir) (.file (diffOutput cfg s.fs ev.name (source cfg src))))
      (hw : t.watches = s.watches) : Moved cfg s t (.diff second)
  | cp {ev : Event} {src : Option Path} {evs : List Event} (hs : s.pc = .copying ev src evs)
      (ht : t.pc = .batch evs) (hfs : t.fs = cpTree cfg s.fs ev.name (source cfg src))
      (hw : t.watches = s.watches) (hnow : t.now = s.now) : Moved cfg s t .cp
  | odd {fs : Tree} {ev : Event} {evs : List Event} (hs : s.pc = .batch (ev :: evs))
      (ht : t.pc = .batch evs) (hfs : t.fs = fs) (hw : t.watches = s.watches)
      (hnow : t.now = s.now) : Moved cfg s t (.odd fs)

theorem moved_find {listing : List Path} (ht : findStep cfg s listing = some t) :
    Moved cfg s t (.find listing) := by
  unfold findStep at ht
  rcases hpc : s.pc with ⟨_ | ⟨ev, evs⟩⟩ | _ | _ | _ <;> simp only [hpc, reduceCtorEq] at ht
  obtain ⟨_, ht⟩ := Option.ite_none_left_eq_some.mp ht
  by_cases hdump : s.fs.get cfg.dumpDir ≠ some .dir ∨ s.fs.get (findFile :: cfg.dumpDir) = some .dir
  · rw [if_pos hdump] at ht
    cases ht
    exact .crash rfl rfl rfl rfl
  · rw [if_neg hdump] at ht
    obtain ⟨hlisting, ht⟩ := Option.ite_none_right_eq_some.mp ht
    split_ifs at ht
    · cases ht
      have hnamed : ∀ p, listing.head? = some p → p.head? = some ev.name := by
        intro p hp
        have hmem := hlisting.1.mem_iff.mp (List.mem_of_head? hp)
        exact (FileTree.mem_named.mp hmem).2.1
      obtain ⟨_, hopened⟩ := stored_store s findFile cfg.dumpDir []
      rw [hopened]
      obtain ⟨_, hlisted⟩ := stored_store { s with
        fs := s.fs.put findFile cfg.dumpDir (.file []), queue := _ } findFile cfg.dumpDir
          (listing.flatMap fun p => relText cfg.cwd p ++ [0x0a])
      rw [hlisted]
      exact .find hpc rfl (not_not.mp (not_or.mp hdump).1) rfl rfl rfl hnamed
    · cases ht
      exact .crash rfl rfl rfl rfl

theorem moved_mkdir (ht : mkdirStep cfg s = some t) : Moved cfg s t .mkdir := by
  unfold mkdirStep at ht
  rcases hpc : s.pc with _ | ⟨ev, src, evs⟩ | _ | _ <;> simp only [hpc, reduceCtorEq] at ht
  obtain ⟨hkind, ht⟩ := Option.ite_none_right_eq_some.mp ht
  split_ifs at ht
  · cases ht
    obtain ⟨_, hmade⟩ := stored_mkdir s ev.name cfg.dumpDir
    rw [hmade]
    exact .mkdir hpc hkind rfl rfl rfl rfl
  · cases ht
    exact .crash rfl rfl rfl rfl

theorem moved_diff {second : ℕ} (ht : diffStep cfg s second = some t) :
    Moved cfg s t (.diff second) := by
  unfold diffStep at ht
  rcases hpc : s.pc with _ | ⟨ev, src, evs⟩ | _ | _ <;> simp only [hpc, reduceCtorEq] at ht
  obtain ⟨⟨hkind, hnow⟩, ht⟩ := Option.ite_none_right_eq_some.mp ht
  split_ifs at ht
  · cases ht
    obtain ⟨_, hsaved⟩ := stored_store s (diffFilename ev.name (cfg.localtime second))
      (ev.name :: cfg.dumpDir) (diffOutput cfg s.fs ev.name (source cfg src))
    rw [hsaved]
    exact .diff hpc hkind rfl hnow rfl rfl rfl
  · cases ht
    exact .crash rfl rfl rfl rfl

theorem moved_cp (ht : cpStep cfg s = some t) : Moved cfg s t .cp := by
  unfold cpStep at ht
  rcases hpc : s.pc with _ | _ | ⟨ev, src, evs⟩ | _ <;> simp only [hpc, reduceCtorEq] at ht
  split_ifs at ht
  · cases ht
    obtain ⟨_, hcopied⟩ := stored_cp cfg s ev.name (source cfg src)
    rw [hcopied]
    exact .cp hpc rfl rfl rfl rfl
  · cases ht
    exact .crash rfl rfl rfl rfl

theorem moved_of_step {a : Action} (ht : step cfg s a = some t) : Moved cfg s t a := by
  cases a with
  | user u =>
    cases ht
    obtain ⟨_, hu⟩ := stored_userStep s u
    rw [hu]
    exact .user u rfl rfl rfl rfl
  | read k =>
    obtain ⟨⟨hpc, _⟩, ht⟩ := Option.ite_none_right_eq_some.mp ht
    cases ht
    exact .read hpc rfl rfl rfl rfl
  | skip =>
    unfold step at ht
    rcases hpc : s.pc with ⟨_ | ⟨ev, evs⟩⟩ | _ | _ | _ <;> simp only [hpc, reduceCtorEq] at ht
    obtain ⟨_, ht⟩ := Option.ite_none_right_eq_some.mp ht
    cases ht
    exact .skip hpc rfl rfl rfl rfl
  | find listing => exact moved_find ht
  | mkdir => exact moved_mkdir ht
  | diff second => exact moved_diff ht
  | cp => exact moved_cp ht
  | odd fs =>
    change oddStep cfg s fs = some t at ht
    unfold oddStep at ht
    rcases hpc : s.pc with ⟨_ | ⟨ev, evs⟩⟩ | _ | _ | _ <;> simp only [hpc, reduceCtorEq] at ht
    obtain ⟨_, ht⟩ := Option.ite_none_left_eq_some.mp ht
    cases ht
    exact .odd hpc rfl rfl rfl rfl

theorem init_pc_ne (fs : Tree) (ev : Event) (src : Option Path) (evs : List Event) :
    ¬ ((backup cfg fs).init.pc = .found ev src evs ∨
      (backup cfg fs).init.pc = .copying ev src evs) := by
  unfold backup
  dsimp only
  split_ifs
  · rintro (h | h) <;> cases h
  · rintro (h | h) <;> cases h

end OsTasks.Backup

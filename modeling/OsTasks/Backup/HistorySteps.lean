import OsTasks.Backup.History

/-! What `diff` and `cp` do to the history. -/
namespace OsTasks.Backup
open OsTasks.Lib

variable {cfg : Config} {s t : State} {patch : List Byte → List Byte → List Byte} {l : Log}

theorem diffFilename_ne_findFile (n : Name) (tm : Tm) : diffFilename n tm ≠ findFile := by
  intro h
  have hlast : (diffFilename n tm).getLast? = (ascii ".diff").getLast? := by
    unfold diffFilename
    exact List.getLast?_append_of_ne_nil _ (by decide)
  rw [h] at hlast
  exact absurd hlast (by decide)

/-- What `diff` prints turns what it compared the stored copy with into the copy. -/
theorem patch_diffOutput (hpatch : ∀ a b, patch (cfg.diff a b) a = b)
    (hsame : ∀ a, cfg.diff a a = []) {fs : Tree} {n : Name} {src : Path} {cur : List Byte}
    (hcur : storedCopy cfg fs n = some cur) :
    patch (diffOutput cfg fs n src) ((diffOperand fs n src).getD cur) = cur := by
  have hget : fs.get (n :: n :: cfg.dumpDir) = some (.file cur) := content_eq_some_iff.mp hcur
  unfold diffOutput
  rw [hget]
  cases diffOperand fs n src with
  | none =>
    calc patch [] cur = patch (cfg.diff cur cur) cur := by rw [hsame]
      _ = cur := hpatch cur cur
  | some a => exact hpatch a cur

theorem storedCopy_put_diff {fs : Tree} {n m : Name} {tm : Tm} {v : Node (List Byte)} :
    storedCopy cfg (fs.put (diffFilename m tm) (m :: cfg.dumpDir) v) n = storedCopy cfg fs n := by
  apply content_congr
  apply get_put_entry
  rintro rfl
  exact (diffFilename_ne _ _).symm

theorem mem_unwind_diff (hpatch : ∀ a b, patch (cfg.diff a b) a = b)
    (hsame : ∀ a, cfg.diff a a = []) {fs : Tree} {n m : Name} {src : Path} {second : ℕ}
    {cur c : List Byte} (hcur : storedCopy cfg fs n = some cur) (hnone : l.compared n = none)
    (hplace : storedCopy cfg fs m ≠ none →
      fs.get (diffFilename m (cfg.localtime second) :: m :: cfg.dumpDir) ≠ some .dir)
    (hback : c ∈ unwind patch cur ((l.saved n).map Saved.script)) :
    c ∈ unwind patch (((l.diff cfg fs m src second).compared n).getD cur)
      (((l.diff cfg fs m src second).saved n).map Saved.script) := by
  dsimp only [Log.diff]
  by_cases hn : n = m
  · subst hn
    have hget : fs.get (n :: n :: cfg.dumpDir) = some (.file cur) := content_eq_some_iff.mp hcur
    have hallows : fs.Allows (diffFilename n (cfg.localtime second)) (n :: cfg.dumpDir)
        (.file (diffOutput cfg fs n src)) := by
      apply FileTree.allows_file_iff.mpr
      constructor
      · apply fs.parent n
        rw [hget]
        exact Option.some_ne_none _
      · apply hplace
        rw [hcur]
        exact Option.some_ne_none cur
    rw [if_pos ⟨rfl, hallows⟩, Function.update_self]
    exact mem_unwind_cons (patch_diffOutput hpatch hsame hcur) hback
  · rw [if_neg (fun h => hn h.1), Function.update_of_ne hn, hnone]
    exact hback

/-- Under a stamp that is free `diff` saves one more .diff file. -/
theorem SavedInv.diff {fs : Tree} {n : Name} {src : Path} {now second : ℕ}
    (h : SavedInv cfg fs now l.saved) (hnow : now ≤ second)
    (hfresh : diffFilename n (cfg.localtime second) ∉ (l.saved n).map Saved.file) :
    SavedInv cfg (fs.put (diffFilename n (cfg.localtime second)) (n :: cfg.dumpDir)
      (.file (diffOutput cfg fs n src))) second (l.diff cfg fs n src second).saved := by
  have hfile : ∀ d ∈ l.saved n, d.file ≠ diffFilename n (cfg.localtime second) := by
    intro d hd he
    apply hfresh
    rw [← he]
    exact List.mem_map_of_mem hd
  have hold : SavedInv cfg (fs.put (diffFilename n (cfg.localtime second)) (n :: cfg.dumpDir)
      (.file (diffOutput cfg fs n src))) now l.saved := by
    apply h.frame
    intro m d hd
    apply get_put_entry
    rintro rfl
    exact hfile d hd
  have hearlier : ∀ m, ∀ d ∈ l.saved m, d.second ≤ second := fun m d hd =>
    (h.stamped m d hd).1.trans hnow
  constructor
  · intro m d hd
    dsimp only [Log.diff] at hd
    split_ifs at hd with hnew
    · rcases List.mem_cons.mp hd with rfl | hd
      · rw [hnew.1, content_eq_some_iff]
        exact FileTree.get_put_self hnew.2
      · exact hold.intact m d hd
    · exact hold.intact m d hd
  · intro m
    dsimp only [Log.diff]
    split_ifs with hnew
    · rw [List.map_cons, List.nodup_cons, hnew.1]
      exact ⟨hfresh, h.distinct n⟩
    · exact h.distinct m
  · intro m
    dsimp only [Log.diff]
    split_ifs with hnew
    · rw [hnew.1]
      apply List.Pairwise.cons _ (h.decreasing n)
      intro d hd
      apply lt_of_le_of_ne (hearlier n d hd)
      intro he
      apply hfile d hd
      rw [(h.stamped n d hd).2, he]
    · exact h.decreasing m
  · intro m d hd
    dsimp only [Log.diff] at hd
    split_ifs at hd with hnew
    · rcases List.mem_cons.mp hd with rfl | hd
      · rw [hnew.1]
        exact ⟨le_rfl, rfl⟩
      · exact ⟨hearlier m d hd, (h.stamped m d hd).2⟩
    · exact ⟨hearlier m d hd, (h.stamped m d hd).2⟩

/-- `diff` saves a script that leads back from what it compared the stored copy with. -/
theorem historyInv_diff (hpatch : ∀ a b, patch (cfg.diff a b) a = b)
    (hsame : ∀ a, cfg.diff a a = []) (hinv : HistoryInv cfg patch s l) {ev : Event}
    {src : Option Path} {evs : List Event} {second : ℕ} (hs : s.pc = .found ev src evs)
    (ht : t.pc = .copying ev src evs) (hnow : s.now ≤ second) (hsecond : t.now = second)
    (hfs : t.fs = s.fs.put (diffFilename ev.name (cfg.localtime second)) (ev.name :: cfg.dumpDir)
      (.file (diffOutput cfg s.fs ev.name (source cfg src))))
    (hfresh : diffFilename ev.name (cfg.localtime second) ∉ (l.saved ev.name).map Saved.file)
    (hplace : storedCopy cfg s.fs ev.name ≠ none →
      s.fs.get (diffFilename ev.name (cfg.localtime second) :: ev.name :: cfg.dumpDir) ≠
        some .dir) :
    HistoryInv cfg patch t
      ((l.diff cfg s.fs ev.name (source cfg src) second).see cfg t.fs) := by
  have hcrash : s.pc ≠ .crashed := by
    rw [hs]
    exact Pc.noConfusion
  have hnone : ∀ n, l.compared n = none := by
    intro n
    apply hinv.compared_eq_none hcrash
    intro ev' src' evs' hpc
    rw [hs] at hpc
    cases hpc
  have hstored : ∀ n, storedCopy cfg t.fs n = storedCopy cfg s.fs n := by
    intro n
    rw [hfs, storedCopy_put_diff]
  constructor
  · rw [hsecond, hfs]
    exact hinv.saved.diff hnow hfresh
  · intro ev' src' evs' hpc
    apply hinv.found ev' src' evs'
    rw [ht] at hpc
    rcases hpc with hpc | hpc <;> cases hpc
    exact Or.inl hs
  · intro n c hc
    exact mem_see hc
  · intro _ n hne
    by_cases hn : n = ev.name
    · exact ⟨ev, src, evs, ht, hn.symm⟩
    · exact absurd ((Function.update_of_ne hn _ l.compared).trans (hnone n)) hne
  · intro _ n c hc
    obtain ⟨cur, hcur, hback⟩ := hinv.recovered hcrash n c (hinv.mem_of_see (hstored n) hc)
    rw [hnone n] at hback
    exact ⟨cur, (hstored n).trans hcur, mem_unwind_diff hpatch hsame hcur (hnone n) hplace hback⟩

theorem source_headD {n : Name} {src : Option Path} (h : ∀ p, src = some p → p.head? = some n) :
    (source cfg src).headD [] = n ∨ (source cfg src).headD [] = findFile := by
  cases src with
  | none => exact Or.inr rfl
  | some p =>
    left
    change p.headD [] = n
    rw [List.headD_eq_head?_getD, h p rfl]
    rfl

theorem get_cpTree_diffFilename {fs : Tree} {n m : Name} {tm : Tm} {src : Path}
    (hsrc : src.headD [] = n ∨ src.headD [] = findFile) :
    (cpTree cfg fs n src).get (diffFilename m tm :: m :: cfg.dumpDir) =
      fs.get (diffFilename m tm :: m :: cfg.dumpDir) := by
  apply get_cpTree (cons_cons_ne _ _ _ _)
  intro he
  obtain ⟨hfile, hm⟩ := List.cons.inj he
  rw [(List.cons.inj hm).1] at hfile
  rcases hsrc with hsrc | hsrc <;> rw [hsrc] at hfile
  · exact diffFilename_ne n tm hfile
  · exact diffFilename_ne_findFile n tm hfile

theorem storedCopy_cpTree {fs : Tree} {n : Name} {src : Path} {c : List Byte}
    (hc : storedCopy cfg fs n = some c) :
    storedCopy cfg (cpTree cfg fs n src) n = some ((copied cfg fs n src).getD c) := by
  have hget : fs.get (n :: n :: cfg.dumpDir) = some (.file c) := content_eq_some_iff.mp hc
  have hdir : fs.get (n :: cfg.dumpDir) = some .dir := by
    apply fs.parent n
    rw [hget]
    exact Option.some_ne_none _
  unfold copied
  by_cases hsrc : src.head? = some n ∧ src ≠ n :: n :: cfg.dumpDir
  · rw [if_pos hsrc]
    cases hcontent : content fs src with
    | none =>
      unfold cpTree
      rw [hcontent]
      exact hc
    | some a =>
      have hallows : fs.Allows n (n :: cfg.dumpDir) (.file a) := by
        apply FileTree.allows_file_iff.mpr
        refine ⟨hdir, ?_⟩
        rw [hget]
        intro he
        cases he
      have hhead : src.headD [] = n := by
        rw [List.headD_eq_head?_getD, hsrc.1]
        rfl
      have htree : cpTree cfg fs n src = fs.put n (n :: cfg.dumpDir) (.file a) := by
        unfold cpTree cpTarget
        simp only [hcontent, hdir, if_true, hhead, if_neg hsrc.2.symm]
      rw [htree]
      exact content_eq_some_iff.mpr (FileTree.get_put_self hallows)
  · rw [if_neg hsrc]
    have hkeep : (cpTree cfg fs n src).get (n :: n :: cfg.dumpDir) =
        fs.get (n :: n :: cfg.dumpDir) := by
      by_cases hself : src = n :: n :: cfg.dumpDir
      · unfold cpTree cpTarget
        simp only [hdir, if_true, hself, List.headD_cons]
        split <;> rfl
      · cases src with
        | nil =>
          have hroot : content fs [] = none := by
            unfold content
            rw [fs.root]
          unfold cpTree
          rw [hroot]
        | cons m d =>
          apply get_cpTree (cons_cons_ne _ _ _ _)
          intro he
          apply hsrc
          exact ⟨congrArg some (List.cons.inj he).1.symm, hself⟩
    exact (content_congr hkeep).trans hc

theorem historyInv_cp (hinv : HistoryInv cfg patch s l) {ev : Event} {src : Option Path}
    {evs : List Event} (hs : s.pc = .copying ev src evs) (ht : t.pc = .batch evs)
    (hfs : t.fs = cpTree cfg s.fs ev.name (source cfg src)) (hnow : t.now = s.now)
    (hok : ∀ c, storedCopy cfg s.fs ev.name = some c →
      (copied cfg s.fs ev.name (source cfg src)).getD c = (l.compared ev.name).getD c) :
    HistoryInv cfg patch t { l.see cfg t.fs with compared := fun _ => none } := by
  have hcrash : s.pc ≠ .crashed := by
    rw [hs]
    exact Pc.noConfusion
  have hother : ∀ n, n ≠ ev.name → storedCopy cfg t.fs n = storedCopy cfg s.fs n := by
    intro n hn
    apply content_congr
    rw [hfs]
    exact (get_cpTree_of_name_ne hn).2
  have hnone : ∀ n, n ≠ ev.name → l.compared n = none := by
    intro n hn
    apply hinv.compared_eq_none hcrash
    intro ev' src' evs' hpc
    rw [hs] at hpc
    cases hpc
    exact hn.symm
  -- the stored copy becomes what the history leads back from
  have hstored : ∀ n c, storedCopy cfg s.fs n = some c →
      storedCopy cfg t.fs n = some ((l.compared n).getD c) := by
    intro n c hc
    by_cases hn : n = ev.name
    · rw [hn] at hc ⊢
      rw [hfs, storedCopy_cpTree hc, hok c hc]
    · rw [hother n hn, hnone n hn]
      exact hc
  constructor
  · rw [hnow]
    apply hinv.saved.frame
    intro n d hd
    rw [hfs, (hinv.saved.stamped n d hd).2]
    exact get_cpTree_diffFilename (source_headD (hinv.found ev src evs (Or.inr hs)))
  · intro ev' src' evs' hpc
    rw [ht] at hpc
    rcases hpc with hpc | hpc <;> cases hpc
  · intro n c hc
    exact mem_see hc
  · intro _ n hne
    exact absurd rfl hne
  · intro _ n c hc
    rcases List.mem_append.mp hc with hc | hc
    · exact ⟨c, Option.mem_toList.mp hc, self_mem_unwind⟩
    · obtain ⟨cur, hcur, hback⟩ := hinv.recovered hcrash n c hc
      exact ⟨_, hstored n cur hcur, hback⟩

end OsTasks.Backup

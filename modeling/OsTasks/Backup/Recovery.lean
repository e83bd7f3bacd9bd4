import OsTasks.Backup.HistorySteps

/-! The stored copies that the .diff files bring back. -/
namespace OsTasks.Backup
open OsTasks.Lib

variable {cfg : Config} {s t : State} {patch : List Byte → List Byte → List Byte} {l : Log}

theorem historyInv_same (hinv : HistoryInv cfg patch s l) (hfs : t.fs = s.fs)
    (hnow : t.now = s.now) (hs : ∀ ev src evs, s.pc ≠ .copying ev src evs)
    (hcrash : s.pc ≠ .crashed) {evs : List Event} (ht : t.pc = .batch evs) : HistoryInv cfg patch t (l.see cfg t.fs) := by
  apply hinv.frame _ hnow
  · intro h
    exact absurd h hcrash
  · intro ev src evs' h
    exact absurd h (hs ev src evs')
  · intro ev src evs' h
    rw [ht] at h
    rcases h with h | h <;> cases h
  · intro m n
    rw [hfs]

theorem historyInv_user (hinv : HistoryInv cfg patch s l) {u : UserAction}
    (hu : ¬ cfg.dumpDir <:+ u.path) (ht : t.pc = s.pc) (hfs : t.fs = userTree s.fs u)
    (hnow : t.now = s.now) : HistoryInv cfg patch t (l.see cfg t.fs) := by
  apply hinv.frame _ hnow
  · intro h
    exact ht.trans h
  · intro ev src evs h
    exact Or.inl (ht.trans h)
  · rw [ht]
    exact hinv.found
  · intro m n
    rw [hfs]
    exact get_userTree u (ne_of_not_suffix ⟨[m, n], rfl⟩ hu)

theorem historyInv_find (hinv : HistoryInv cfg patch s l) {ev : Event} {evs : List Event}
    {src : Option Path} {lines : List Byte} (hs : s.pc = .batch (ev :: evs))
    (ht : t.pc = .found ev src evs)
    (hfs : t.fs = (s.fs.put findFile cfg.dumpDir (.file [])).put findFile cfg.dumpDir
      (.file lines)) (hnow : t.now = s.now) (hsrc : ∀ p, src = some p → p.head? = some ev.name) :
    HistoryInv cfg patch t (l.see cfg t.fs) := by
  apply hinv.frame _ hnow
  · intro h
    rw [hs] at h
    cases h
  · intro ev' src' evs' h
    rw [hs] at h
    cases h
  · intro ev' src' evs' h
    rw [ht] at h
    rcases h with h | h <;> cases h
    exact hsrc
  · intro m n
    rw [hfs, FileTree.get_put_of_ne (cons_cons_ne _ _ _ _),
      FileTree.get_put_of_ne (cons_cons_ne _ _ _ _)]

theorem historyInv_mkdir (hinv : HistoryInv cfg patch s l) {ev : Event} {src : Option Path}
    {evs : List Event} (hs : s.pc = .found ev src evs) (ht : t.pc = .copying ev src evs)
    (hfs : t.fs = s.fs.put ev.name cfg.dumpDir .dir) (hnow : t.now = s.now) :
    HistoryInv cfg patch t (l.see cfg t.fs) := by
  apply hinv.frame _ hnow
  · intro h
    rw [hs] at h
    cases h
  · intro ev' src' evs' h
    rw [hs] at h
    cases h
  · intro ev' src' evs' h
    apply hinv.found ev' src' evs'
    rw [ht] at h
    rcases h with h | h <;> cases h
    exact Or.inl hs
  · intro m n
    rw [hfs, FileTree.get_put_of_ne (cons_cons_ne _ _ _ _)]

theorem historyInv_crash (hinv : HistoryInv cfg patch s l) (hfs : t.fs = s.fs)
    (hnow : t.now = s.now) (ht : t.pc = .crashed) : HistoryInv cfg patch t (l.see cfg t.fs) := by
  apply hinv.frame _ hnow
  · intro _
    exact ht
  · intro ev src evs _
    exact Or.inr ht
  · intro ev src evs h
    rw [ht] at h
    rcases h with h | h <;> cases h
  · intro m n
    rw [hfs]

theorem historyInv_step (hpatch : ∀ a b, patch (cfg.diff a b) a = b)
    (hsame : ∀ a, cfg.diff a a = []) {a : Action} (hinv : HistoryInv cfg patch s l)
    (hP : KeepsHistory cfg (s, l) a) (ht : step cfg s a = some t) :
    HistoryInv cfg patch t (recordSaved cfg s a t l) := by
  cases moved_of_step ht with
  | user u hpc hfs hw hnow => exact historyInv_user hinv hP hpc hfs hnow
  | read hs hpc hfs hw hnow =>
    apply historyInv_same hinv hfs hnow _ _ hpc <;> rw [hs]
    · intro _ _ _
      exact Pc.noConfusion
    · exact Pc.noConfusion
  | skip hs hpc hfs hw hnow =>
    apply historyInv_same hinv hfs hnow _ _ hpc <;> rw [hs]
    · intro _ _ _
      exact Pc.noConfusion
    · exact Pc.noConfusion
  | crash hpc hfs hw hnow =>
    have hcrashed := historyInv_crash hinv hfs hnow hpc
    cases a with
    | cp =>
      have hno : ∀ P : Prop, t.pc ≠ .crashed → P := fun P h => absurd hpc h
      exact { hcrashed with compared := hno _, recovered := hno _ }
    | diff second =>
      have hrec : recordSaved cfg s (.diff second) t l = l.see cfg t.fs := by
        unfold recordSaved
        rw [hpc]
        cases s.pc <;> rfl
      rw [hrec]
      exact hcrashed
    | odd fs => exact absurd hP id
    | _ => exact hcrashed
  | find hs hpc hdump hfs hw hnow hnamed => exact historyInv_find hinv hs hpc hfs hnow hnamed
  | mkdir hs hkind hpc hfs hw hnow => exact historyInv_mkdir hinv hs hpc hfs hnow
  | diff hs hkind hpc hnow hsecond hfs hw =>
    obtain ⟨hfresh, hplace⟩ := hP _ _ _ hs
    unfold recordSaved
    rw [hs, hpc]
    exact historyInv_diff hpatch hsame hinv hs hpc hnow hsecond hfs hfresh hplace
  | cp hs hpc hfs hw hnow => exact historyInv_cp hinv hs hpc hfs hnow (hP _ _ _ hs)
  | odd hs hpc hfs hw => exact absurd hP id

theorem historyInv_init (fs : Tree) :
    HistoryInv cfg patch (backup cfg fs).init
      ⟨fun n => (storedCopy cfg fs n).toList, fun _ => [], fun _ => none⟩ := by
  constructor
  · constructor
    · intro n d hd
      cases hd
    · intro n
      exact List.nodup_nil
    · intro n
      exact List.Pairwise.nil
    · intro n d hd
      cases hd
  · intro ev src evs hpc
    exact absurd hpc (init_pc_ne fs ev src evs)
  · intro n c hc
    exact Option.mem_toList.mpr hc
  · intro _ n hne
    exact absurd rfl hne
  · intro _ n c hc
    exact ⟨c, Option.mem_toList.mp hc, self_mem_unwind⟩

/-- In every run that keeps the history, no .diff file is written over and all that was ever a
stored copy comes back from the last one. -/
theorem recoverable_of_keepsHistory (cfg : Config) (patch : List Byte → List Byte → List Byte)
    (hpatch : ∀ a b, patch (cfg.diff a b) a = b) (hsame : ∀ a, cfg.diff a a = []) (fs : Tree)
    {as : List Action} {s : State} {l : Log} (hrun : (logging cfg fs).run as = some (s, l))
    (hok : (logging cfg fs).AllSteps (KeepsHistory cfg) (logging cfg fs).init as) :
    Recoverable cfg patch s l := by
  apply HistoryInv.recoverable
  apply Machine.run_withHistory_invariant (historyInv_init fs) _ hrun hok
  intro s l a t hinv ha ht
  exact historyInv_step hpatch hsame hinv ha ht

/-- Undoes `smallDiff`: a script of `diff` that starts with a line number deletes the only line. -/
def smallPatch (script a : List Byte) : List Byte :=
  match script with
  | [] => a
  | c :: b => if c = 0x0a then b else []

theorem smallPatch_diff (a b : List Byte) : smallPatch (small.diff a b) a = b := by
  change smallPatch (smallDiff a b) a = b
  unfold smallDiff
  split_ifs with hsame hdelete
  · exact hsame
  · exact hdelete.1.symm
  · rfl

theorem small_diff_self (a : List Byte) : small.diff a a = [] := if_pos rfl

/-- "/w/a/g" is made, written and both events are handled. -/
def oneWritten : List Action :=
  oneCreated ++ [.user (.write (ascii "g") [ascii "a", ascii "w"] (ascii "1\n")), .read 1,
    .find [pathG], .diff 0, .cp]

theorem one_write_recoverable :
    ∃ s l, (logging small twoSameNames).run oneWritten = some (s, l) ∧
      [] ∈ l.copies (ascii "g") ∧ storedCopy small s.fs (ascii "g") = some (ascii "1\n") ∧
      Recoverable small smallPatch s l := by
  have hrun : (logging small twoSameNames).run oneWritten = some _ := rfl
  refine ⟨_, _, hrun, by decide +kernel, rfl, ?_⟩
  apply recoverable_of_keepsHistory small smallPatch smallPatch_diff small_diff_self twoSameNames
    hrun
  have huser : ¬ small.dumpDir <:+ pathG := by decide
  refine .cons huser rfl (.cons trivial rfl (.cons trivial rfl (.cons trivial rfl ?_)))
  refine .cons ?_ rfl (.cons huser rfl (.cons trivial rfl (.cons trivial rfl ?_)))
  · intro ev src evs hpc c hc
    cases hpc
    cases hc
  refine .cons ?_ rfl (.cons ?_ rfl trivial)
  · intro ev src evs hpc
    cases hpc
    refine ⟨by decide +kernel, fun _ => by decide +kernel⟩
  · intro ev src evs hpc c hc
    cases hpc
    cases hc
    rfl

/-- "/w/a/g" is made and its event handled; then it is written twice, with another file made in
between, and all three events are handled within one second. -/
def twiceInOneSecond : List Action :=
  oneCreated ++ [.user (.write (ascii "g") [ascii "a", ascii "w"] (ascii "1\n")),
    .user (.create (ascii "h") [ascii "a", ascii "w"]),
    .user (.write (ascii "g") [ascii "a", ascii "w"] (ascii "2\n")), .read 3,
    .find [pathG], .diff 0, .cp, .find [[ascii "h", ascii "a", ascii "w"]], .mkdir, .cp,
    .find [pathG], .diff 0, .cp]

/-- The second event finds no change and leaves an empty .diff file in the place of the first. -/
theorem diff_written_over :
    (∀ a b, smallPatch (small.diff a b) a = b) ∧
    ∃ s l, (logging small twoSameNames).Reachable (s, l) ∧ s.pc = .batch [] ∧
      [] ∈ l.copies (ascii "g") ∧ storedCopy small s.fs (ascii "g") = some (ascii "2\n") ∧
      ¬ Recoverable small smallPatch s l := by
  refine ⟨smallPatch_diff, _, _, ⟨twiceInOneSecond, rfl⟩, rfl, by decide +kernel, rfl, ?_⟩
  intro hrec
  obtain ⟨cur, hcur, hmem⟩ := hrec.recovered [] rfl (ascii "g") [] (by decide +kernel)
  cases hcur
  exact absurd hmem (by decide +kernel)

end OsTasks.Backup

import OsTasks.Backup.Copies

/-! The .diff files that `file_modified` saves, and the stored copies that come back when they are
applied to the last one. -/
namespace OsTasks.Backup
open OsTasks.Lib

variable {cfg : Config} {s t : State}

/-- What comes back from `cur` when scripts are applied one after the other. -/
def unwind (patch : List Byte → List Byte → List Byte) (cur : List Byte)
    (scripts : List (List Byte)) : List (List Byte) :=
  scripts.scanl (fun c script => patch script c) cur

theorem self_mem_unwind {patch : List Byte → List Byte → List Byte} {cur : List Byte}
    {scripts : List (List Byte)} : cur ∈ unwind patch cur scripts := by
  cases scripts <;> simp [unwind]

/-- A script that leads back to `cur` goes before those that go on from there. -/
theorem mem_unwind_cons {patch : List Byte → List Byte → List Byte} {cur new script c : List Byte}
    {scripts : List (List Byte)} (hback : patch script new = cur)
    (hc : c ∈ unwind patch cur scripts) : c ∈ unwind patch new (script :: scripts) := by
  unfold unwind at hc ⊢
  rw [List.scanl_cons, hback]
  exact List.mem_cons_of_mem _ hc

/-- The stored copy for a name, where `file_created` has made an entry for it. -/
def storedCopy (cfg : Config) (fs : Tree) (n : Name) : Option (List Byte) :=
  content fs (n :: n :: cfg.dumpDir)

/-- A .diff file. -/
structure Saved where
  second : ℕ
  file : Name
  script : List Byte

/-- For each name what its stored copy has been after each step, its .diff files, both from the last
one back, and what `diff` compared the copy with when `cp` has not run yet. -/
structure Log where
  copies : Name → List (List Byte)
  saved : Name → List Saved
  compared : Name → Option (List Byte)

def Log.see (cfg : Config) (l : Log) (fs : Tree) : Log :=
  { l with copies := fun n => (storedCopy cfg fs n).toList ++ l.copies n }

/-- `diff` has run in `fs`. -/
def Log.diff (cfg : Config) (l : Log) (fs : Tree) (n : Name) (src : Path) (second : ℕ) : Log :=
  let file := diffFilename n (cfg.localtime second)
  let script := diffOutput cfg fs n src
  { l with
    saved := fun m =>
      if m = n ∧ fs.Allows file (n :: cfg.dumpDir) (.file script) then
        ⟨second, file, script⟩ :: l.saved m
      else l.saved m
    compared := Function.update l.compared n (diffOperand fs n src) }

def recordSaved (cfg : Config) (s : State) (a : Action) (t : State) (l : Log) : Log :=
  match a, s.pc, t.pc with
  | .diff second, .found ev src _, .copying _ _ _ =>
    (l.diff cfg s.fs ev.name (source cfg src) second).see cfg t.fs
  | .cp, _, _ => { l.see cfg t.fs with compared := fun _ => none }
  | _, _, _ => l.see cfg t.fs

/-- The daemon with a record of the copies and .diff files. -/
def logging (cfg : Config) (fs : Tree) : Machine (State × Log) Action :=
  (backup cfg fs).withHistory ⟨fun n => (storedCopy cfg fs n).toList, fun _ => [], fun _ => none⟩
    (recordSaved cfg)

/-- What the .diff files for a name hold now, from the last one back. -/
def scripts (cfg : Config) (fs : Tree) (l : Log) (n : Name) : List (List Byte) :=
  (l.saved n).filterMap fun d => content fs (d.file :: n :: cfg.dumpDir)

/-- No .diff file has been written over, and between two events all that was ever the stored copy
for a name comes back from the one that is there. -/
structure Recoverable (cfg : Config) (patch : List Byte → List Byte → List Byte) (s : State)
    (l : Log) : Prop where
  intact : ∀ n, ∀ d ∈ l.saved n, content s.fs (d.file :: n :: cfg.dumpDir) = some d.script
  distinct : ∀ n, ((l.saved n).map Saved.file).Nodup
  decreasing : ∀ n, (l.saved n).Pairwise fun d e => e.second < d.second
  recovered : ∀ evs, s.pc = .batch evs → ∀ n, ∀ c ∈ l.copies n, ∃ cur,
    storedCopy cfg s.fs n = some cur ∧ c ∈ unwind patch cur (scripts cfg s.fs l n)

/-- What `cp` of `src` takes for the stored copy. -/
def copied (cfg : Config) (fs : Tree) (n : Name) (src : Path) : Option (List Byte) :=
  if src.head? = some n ∧ src ≠ n :: n :: cfg.dumpDir then content fs src else none

/-- What a step needs to keep the history: users leave the dump directory alone, all words of the
commands are plain, each .diff file has a name of its own, and what `cp` takes for the stored copy
is what `diff` compared the copy with (nothing new when an event makes no .diff file). -/
def KeepsHistory (cfg : Config) (q : State × Log) : Action → Prop
  | .user u => ¬ cfg.dumpDir <:+ u.path
  | .diff second => ∀ ev src evs, q.1.pc = .found ev src evs →
      diffFilename ev.name (cfg.localtime second) ∉ (q.2.saved ev.name).map Saved.file ∧
      (storedCopy cfg q.1.fs ev.name ≠ none →
        q.1.fs.get (diffFilename ev.name (cfg.localtime second) :: ev.name :: cfg.dumpDir) ≠
          some .dir)
  | .cp => ∀ ev src evs, q.1.pc = .copying ev src evs → ∀ c,
      storedCopy cfg q.1.fs ev.name = some c →
      (copied cfg q.1.fs ev.name (source cfg src)).getD c = (q.2.compared ev.name).getD c
  | .odd _ => False
  | _ => True

/-- The .diff files are as they were saved, each under a stamp of its own. -/
structure SavedInv (cfg : Config) (fs : Tree) (now : ℕ) (saved : Name → List Saved) : Prop where
  intact : ∀ n, ∀ d ∈ saved n, content fs (d.file :: n :: cfg.dumpDir) = some d.script
  distinct : ∀ n, ((saved n).map Saved.file).Nodup
  decreasing : ∀ n, (saved n).Pairwise fun d e => e.second < d.second
  stamped : ∀ n, ∀ d ∈ saved n, d.second ≤ now ∧ d.file = diffFilename n (cfg.localtime d.second)

structure HistoryInv (cfg : Config) (patch : List Byte → List Byte → List Byte) (s : State)
    (l : Log) : Prop where
  saved : SavedInv cfg s.fs s.now l.saved
  found : ∀ ev src evs, s.pc = .found ev src evs ∨ s.pc = .copying ev src evs →
    ∀ p, src = some p → p.head? = some ev.name
  seen : ∀ n c, storedCopy cfg s.fs n = some c → c ∈ l.copies n
  compared : s.pc ≠ .crashed → ∀ n, l.compared n ≠ none →
    ∃ ev src evs, s.pc = .copying ev src evs ∧ ev.name = n
  recovered : s.pc ≠ .crashed → ∀ n, ∀ c ∈ l.copies n, ∃ cur, storedCopy cfg s.fs n = some cur ∧
    c ∈ unwind patch ((l.compared n).getD cur) ((l.saved n).map Saved.script)

section Invariant
variable {patch : List Byte → List Byte → List Byte} {l : Log}

theorem content_congr {fs fs' : Tree} {p : Path} (h : fs'.get p = fs.get p) :
    content fs' p = content fs p := by
  unfold content
  rw [h]

theorem SavedInv.frame {fs fs' : Tree} {now : ℕ} {saved : Name → List Saved}
    (h : SavedInv cfg fs now saved) (hget : ∀ n, ∀ d ∈ saved n,
      fs'.get (d.file :: n :: cfg.dumpDir) = fs.get (d.file :: n :: cfg.dumpDir)) :
    SavedInv cfg fs' now saved where
  intact := by
    intro n d hd
    rw [content_congr (hget n d hd)]
    exact h.intact n d hd
  distinct := h.distinct
  decreasing := h.decreasing
  stamped := h.stamped

theorem SavedInv.scripts_eq {s : State} (h : SavedInv cfg s.fs s.now l.saved) (n : Name) :
    scripts cfg s.fs l n = (l.saved n).map Saved.script := by
  unfold scripts
  rw [← List.filterMap_eq_map]
  apply List.filterMap_congr
  intro d hd
  exact h.intact n d hd

theorem HistoryInv.compared_eq_none (hinv : HistoryInv cfg patch s l) (hcrash : s.pc ≠ .crashed)
    {n : Name} (hpc : ∀ ev src evs, s.pc = .copying ev src evs → ev.name ≠ n) :
    l.compared n = none := by
  by_contra hne
  obtain ⟨ev, src, evs, hs, hn⟩ := hinv.compared hcrash n hne
  exact hpc ev src evs hs hn

theorem HistoryInv.recoverable (hinv : HistoryInv cfg patch s l) : Recoverable cfg patch s l where
  intact := hinv.saved.intact
  distinct := hinv.saved.distinct
  decreasing := hinv.saved.decreasing
  recovered := by
    intro evs hpc n c hc
    have hcrash : s.pc ≠ .crashed := by
      rw [hpc]
      exact Pc.noConfusion
    have hnone : l.compared n = none := by
      apply hinv.compared_eq_none hcrash
      intro ev src evs' hs
      rw [hpc] at hs
      cases hs
    obtain ⟨cur, hcur, hmem⟩ := hinv.recovered hcrash n c hc
    rw [hnone] at hmem
    rw [hinv.saved.scripts_eq]
    exact ⟨cur, hcur, hmem⟩

theorem mem_see {fs : Tree} {n : Name} {c : List Byte} (hc : storedCopy cfg fs n = some c) :
    c ∈ (l.see cfg fs).copies n := by
  apply List.mem_append_left
  rw [hc]
  exact List.mem_singleton_self c

theorem HistoryInv.mem_of_see (hinv : HistoryInv cfg patch s l) {fs : Tree} {n : Name}
    {c : List Byte} (h : storedCopy cfg fs n = storedCopy cfg s.fs n)
    (hc : c ∈ (l.see cfg fs).copies n) : c ∈ l.copies n := by
  rcases List.mem_append.mp hc with hc | hc
  · rw [h] at hc
    exact hinv.seen n c (Option.mem_toList.mp hc)
  · exact hc

theorem HistoryInv.frame (hinv : HistoryInv cfg patch s l)
    (hget : ∀ m n, t.fs.get (m :: n :: cfg.dumpDir) = s.fs.get (m :: n :: cfg.dumpDir))
    (hnow : t.now = s.now) (hcrash : s.pc = .crashed → t.pc = .crashed)
    (hcopying : ∀ ev src evs, s.pc = .copying ev src evs → t.pc = .copying ev src evs ∨
      t.pc = .crashed)
    (hfound : ∀ ev src evs, t.pc = .found ev src evs ∨ t.pc = .copying ev src evs →
      ∀ p, src = some p → p.head? = some ev.name) :
    HistoryInv cfg patch t (l.see cfg t.fs) := by
  have hstored : ∀ n, storedCopy cfg t.fs n = storedCopy cfg s.fs n :=
    fun n => content_congr (hget n n)
  constructor
  · rw [hnow]
    exact hinv.saved.frame fun n d _ => hget d.file n
  · exact hfound
  · intro n c hc
    exact mem_see hc
  · intro ht n hne
    obtain ⟨ev, src, evs, hs, hn⟩ := hinv.compared (mt hcrash ht) n hne
    rcases hcopying ev src evs hs with h | h
    · exact ⟨ev, src, evs, h, hn⟩
    · exact absurd h ht
  · intro ht n c hc
    rw [hstored]
    exact hinv.recovered (mt hcrash ht) n c (hinv.mem_of_see (hstored n) hc)

end Invariant

end OsTasks.Backup

import OsTasks.Backup.Traversal
import OsTasks.Backup.WatchTable
import OsTasks.Lib.Descent

/-! The streams that `opendir` returns are never closed, so a recursion over directories can open
only as many as the process has descriptors left. Each call puts the paths of the entries together
in an array of its own. -/
namespace OsTasks.Backup
open OsTasks.Lib

/-- The path from `wd` down to `q`. -/
def relTo (wd q : Path) : Path := q.take (q.length - wd.length)

/-- The text of `q` in a recursion that starts at `wd` with the text `cwd`. -/
def textBelow (cwd : List Byte) (wd q : Path) : List Byte := Linked.pathText cwd (relTo wd q)

section Watch
variable (fs : Tree) (cwd : List Byte) (wd : Path)

/-- A new watch, and an entry of its directory. A store behind the end of `inotify_wds` or `path`
has no result. -/
def watchVisit (table : WatchTable) : Visit Path → Option WatchTable
  | .opened d =>
    -- `path` also takes the entry ".."
    if table.inotifySize < table.capacity ∧
        (textBelow cwd wd d ++ slash :: ascii "..").length < pathMax then
      some (table.store d)
    else none
  | .entry e => if (textBelow cwd wd e).length < pathMax then some table else none

/-- `add_watcher_recursive` in a process with so many descriptors left. -/
def addWatcherWithin : ℕ → ℕ × WatchTable → Path → Option (ℕ × WatchTable) :=
  descend (fun d => fs.get d = some .dir) fs.entries (watchVisit cwd wd)

/-- The call on `wd` at the start. -/
def watchWithin (free : ℕ) : Option (ℕ × WatchTable) :=
  addWatcherWithin fs cwd wd (depth fs + 1) (free, daemonInit) wd

/-- The directories that the recursion gets to first. -/
def openedDirs (free : ℕ) : List Path := (addWatcherRecursive fs (depth fs + 1) wd).take free

/-- The paths of a directory's entries fit into `path`. -/
def PathsFit (d : Path) : Prop :=
  (textBelow cwd wd d ++ slash :: ascii "..").length < pathMax ∧
    ∀ e ∈ fs.entries d, (textBelow cwd wd e).length < pathMax

end Watch

section Search
variable (fs : Tree) (regular : Path → Bool) (cwd : List Byte) (name : Path)

/-- What is printed for an entry. `regular` tells the regular files from the FIFOs, sockets and
devices. -/
def printed (e : Path) : Option (List Byte) :=
  if fs.get e = some .dir then
    some (ascii "directory: " ++ textBelow cwd name e ++ [slash, 0x0a])
  else if regular e then some (ascii "reg_file: " ++ textBelow cwd name e ++ [0x0a])
  else none

/-- The room that the path of an entry takes: a slash goes behind a directory's for the next call. -/
def roomFor (e : Path) : ℕ :=
  (textBelow cwd name e).length + if fs.get e = some .dir then 1 else 0

/-- The lines printed so far, each with its entry. A store behind the end of `Path` has no result. -/
def searchVisit (lines : List (Path × List Byte)) : Visit Path → Option (List (Path × List Byte))
  | .opened d =>
    if (textBelow cwd name d ++ slash :: ascii "..").length < pathMax then some lines else none
  | .entry e =>
    if roomFor fs cwd name e < pathMax then
      some (lines ++ ((printed fs regular cwd name e).map fun line => (e, line)).toList)
    else none

/-- `SearchDirectory` in a process with so many descriptors left. -/
def searchDirectory :
    ℕ → ℕ × List (Path × List Byte) → Path → Option (ℕ × List (Path × List Byte)) :=
  descend (fun d => fs.get d = some .dir) fs.entries (searchVisit fs regular cwd name)

/-- The call in `main`. -/
def searchWithin (free : ℕ) : Option (ℕ × List (Path × List Byte)) :=
  searchDirectory fs regular cwd name (depth fs + 1) (free, []) name

/-- The paths of a directory's entries fit into `Path`. -/
def LinesFit (d : Path) : Prop :=
  (textBelow cwd name d ++ slash :: ascii "..").length < pathMax ∧
    ∀ e ∈ fs.entries d, roomFor fs cwd name e < pathMax

end Search

section Visits
variable {fs : Tree} {free : ℕ} {wd : Path}

theorem preorder_eq (fs : Tree) (fuel : ℕ) (wd : Path) :
    preorder (fun wd => fs.get wd = some .dir) fs.entries fuel wd =
      addWatcherRecursive fs fuel wd := by
  induction fuel generalizing wd with
  | zero => rfl
  | succ fuel ih =>
    unfold preorder addWatcherRecursive
    rw [funext ih]

/-- The visits of a recursion from `wd`. -/
abbrev dirVisits (fs : Tree) (free : ℕ) (wd : Path) : List (Visit Path) :=
  visits (fun d => fs.get d = some .dir) fs.entries (depth fs + 1) free wd

theorem nodes_dirVisits : (dirVisits fs free wd).filterMap Visit.node = openedDirs fs wd free := by
  rw [nodes_visits, preorder_eq]
  rfl

theorem children_dirVisits :
    ((dirVisits fs free wd).filterMap Visit.child).Perm
      ((openedDirs fs wd free).flatMap fs.entries) := by
  have hperm := children_visits (fun d => fs.get d = some .dir) fs.entries (depth fs + 1) free wd
  rw [preorder_eq] at hperm
  exact hperm

theorem forall_dirVisits_iff {P Q : Path → Prop} :
    ((∀ d ∈ (dirVisits fs free wd).filterMap Visit.node, P d) ∧
        ∀ e ∈ (dirVisits fs free wd).filterMap Visit.child, Q e) ↔
      ∀ d ∈ openedDirs fs wd free, P d ∧ ∀ e ∈ fs.entries d, Q e := by
  have hchildren : (∀ e ∈ (dirVisits fs free wd).filterMap Visit.child, Q e) ↔
      ∀ d ∈ openedDirs fs wd free, ∀ e ∈ fs.entries d, Q e := by
    constructor
    · intro h d hd e he
      exact h e (children_dirVisits.mem_iff.mpr (List.mem_flatMap.mpr ⟨d, hd, he⟩))
    · intro h e he
      obtain ⟨d, hd, he⟩ := List.mem_flatMap.mp (children_dirVisits.mem_iff.mp he)
      exact h d hd e he
  rw [nodes_dirVisits, hchildren]
  exact forall₂_and.symm

theorem nodup_openedDirs : (openedDirs fs wd free).Nodup :=
  (List.take_sublist _ _).nodup (nodup_addWatcherRecursive fs _ wd)

theorem openedDirs_of_le (h : (directories fs wd).length ≤ free) :
    openedDirs fs wd free = addWatcherRecursive fs (depth fs + 1) wd := by
  apply List.take_of_length_le
  rw [(perm_directories fs wd).length_eq]
  exact h

end Visits

section Watched
variable {fs : Tree} {cwd : List Byte} {wd : Path} {free : ℕ}

/-- A fold over visits stores the directories that are opened, while there is room. -/
theorem foldlM_watchVisit_iff (cwd : List Byte) (wd : Path) (vs : List (Visit Path))
    {table t : WatchTable} (h : table.inotifySize ≤ table.capacity) :
    vs.foldlM (watchVisit cwd wd) table = some t ↔
      (table.inotifySize + (vs.filterMap Visit.node).length ≤ table.capacity ∧
        (∀ d ∈ vs.filterMap Visit.node,
          (textBelow cwd wd d ++ slash :: ascii "..").length < pathMax) ∧
        ∀ e ∈ vs.filterMap Visit.child, (textBelow cwd wd e).length < pathMax) ∧
        t = table.storeAll (vs.filterMap Visit.node) := by
  induction vs generalizing table with
  | nil =>
    change some table = some t ↔ _
    simp [WatchTable.storeAll, h, eq_comm]
  | cons v vs ih =>
    rw [List.foldlM_cons]
    cases v with
    | entry e =>
      change (watchVisit cwd wd table (.entry e)).bind _ = some t ↔
        (_ ∧ _ ∧ ∀ e' ∈ e :: vs.filterMap Visit.child, _) ∧ _
      rw [List.forall_mem_cons]
      by_cases hfits : (textBelow cwd wd e).length < pathMax
      · have hact : watchVisit cwd wd table (.entry e) = some table := if_pos hfits
        rw [hact, Option.bind_some, ih h]
        simp only [hfits, true_and]
        exact Iff.rfl
      · have hact : watchVisit cwd wd table (.entry e) = none := if_neg hfits
        rw [hact]
        exact iff_of_false (fun he => by cases he) fun hall => hfits hall.1.2.2.1
    | opened d =>
      change (watchVisit cwd wd table (.opened d)).bind _ = some t ↔
        (_ + (d :: vs.filterMap Visit.node).length ≤ _ ∧
          (∀ d' ∈ d :: vs.filterMap Visit.node, _) ∧ _) ∧
          t = (table.store d).storeAll (vs.filterMap Visit.node)
      rw [List.forall_mem_cons, List.length_cons]
      by_cases hroom : table.inotifySize < table.capacity ∧
          (textBelow cwd wd d ++ slash :: ascii "..").length < pathMax
      · have hstored : (table.store d).inotifySize ≤ (table.store d).capacity := hroom.1
        have hcount : ∀ n, (table.store d).inotifySize + n = table.inotifySize + (n + 1) := by
          intro n
          change table.inotifySize + 1 + n = _
          omega
        have hact : watchVisit cwd wd table (.opened d) = some (table.store d) := if_pos hroom
        rw [hact, Option.bind_some, ih hstored, hcount]
        simp only [hroom.2, true_and]
        exact Iff.rfl
      · have hact : watchVisit cwd wd table (.opened d) = none := if_neg hroom
        rw [hact]
        refine iff_of_false (fun he => by cases he) fun hall => hroom ⟨?_, hall.1.2.1.1⟩
        have hlen := hall.1.1
        omega

theorem watchWithin_iff {left : ℕ} {t : WatchTable} :
    watchWithin fs cwd wd free = some (left, t) ↔
      ((openedDirs fs wd free).length ≤ inotifyCapacity ∧
        ∀ d ∈ openedDirs fs wd free, PathsFit fs cwd wd d) ∧
        left = free - (directories fs wd).length ∧
        t = daemonInit.storeAll (openedDirs fs wd free) := by
  have hwalk : watchWithin fs cwd wd free =
      ((dirVisits fs free wd).foldlM (watchVisit cwd wd) daemonInit).map fun t =>
        (free - (directories fs wd).length, t) := by
    have heq := descend_eq (fun d => fs.get d = some .dir) fs.entries (watchVisit cwd wd)
      (depth fs + 1) free daemonInit wd
    rw [preorder_eq, (perm_directories fs wd).length_eq] at heq
    exact heq
  have hempty : daemonInit.inotifySize ≤ daemonInit.capacity := Nat.zero_le _
  have hzero : daemonInit.inotifySize + (openedDirs fs wd free).length =
      (openedDirs fs wd free).length := Nat.zero_add _
  have hfold : ∀ t, (dirVisits fs free wd).foldlM (watchVisit cwd wd) daemonInit = some t ↔
      ((openedDirs fs wd free).length ≤ inotifyCapacity ∧
        ∀ d ∈ openedDirs fs wd free, PathsFit fs cwd wd d) ∧
        t = daemonInit.storeAll (openedDirs fs wd free) := by
    intro t
    rw [foldlM_watchVisit_iff cwd wd _ hempty, forall_dirVisits_iff, nodes_dirVisits, hzero]
    exact Iff.rfl
  rw [hwalk, Option.map_eq_some_iff]
  constructor
  · rintro ⟨t', ht', heq⟩
    obtain ⟨rfl, rfl⟩ := Prod.mk.inj heq
    obtain ⟨hfits, ht⟩ := (hfold _).mp ht'
    exact ⟨hfits, rfl, ht⟩
  · rintro ⟨hfits, rfl, ht⟩
    exact ⟨t, (hfold t).mpr ⟨hfits, ht⟩, rfl⟩

theorem map_snd_storeAll (table : WatchTable) (l : List Path) :
    (table.storeAll l).inotifyWds.map Prod.snd = table.inotifyWds.map Prod.snd ++ l := by
  induction l generalizing table with
  | nil => exact (List.append_nil _).symm
  | cons d l ih =>
    change ((table.store d).storeAll l).inotifyWds.map Prod.snd = _
    rw [ih]
    simp [WatchTable.store]

/-- With descriptors for all directories the array is that of the recursion without limits. -/
theorem startTable_of_watchWithin {left : ℕ} {t : WatchTable}
    (h : watchWithin fs cwd wd free = some (left, t)) (hfree : (directories fs wd).length ≤ free) :
    t = startTable fs wd := by
  obtain ⟨-, -, rfl⟩ := watchWithin_iff.mp h
  rw [openedDirs_of_le hfree]
  exact (storeWatches_eq fs _ _ wd).symm

end Watched

/-- The call stays within its arrays exactly when the directories that the descriptors allow it to
open, and the paths of their entries, fit. It then watches these directories, and all of them
exactly when there are descriptors enough. -/
theorem watches_within (fs : Tree) (cwd : List Byte) (wd : Path) (free : ℕ) :
    ((∃ s, watchWithin fs cwd wd free = some s) ↔
        (openedDirs fs wd free).length ≤ inotifyCapacity ∧
          ∀ d ∈ openedDirs fs wd free, PathsFit fs cwd wd d) ∧
      ∀ left table, watchWithin fs cwd wd free = some (left, table) →
        table.inotifyWds.map Prod.snd = openedDirs fs wd free ∧
          left = free - (directories fs wd).length ∧
          ((∀ q, fs.get q = some .dir → wd <:+ q → q ∈ table.inotifyWds.map Prod.snd) ↔
            (directories fs wd).length ≤ free) := by
  constructor
  · constructor
    · rintro ⟨⟨left, table⟩, h⟩
      exact (watchWithin_iff.mp h).1
    · intro hfits
      exact ⟨_, watchWithin_iff.mpr ⟨hfits, rfl, rfl⟩⟩
  · intro left table h
    obtain ⟨-, hleft, rfl⟩ := watchWithin_iff.mp h
    have hperm := perm_directories fs wd
    have hwatched := map_snd_storeAll daemonInit (openedDirs fs wd free)
    rw [hwatched]
    refine ⟨rfl, hleft, ?_⟩
    change (∀ q, fs.get q = some .dir → wd <:+ q → q ∈ openedDirs fs wd free) ↔ _
    rw [← hperm.length_eq, ← forall_mem_take_iff (nodup_addWatcherRecursive fs _ wd)]
    constructor
    · intro hall q hq
      obtain ⟨hdir, hwd⟩ := mem_directories.mp (hperm.mem_iff.mp hq)
      exact hall q hdir hwd
    · intro hall q hdir hwd
      exact hall q (hperm.mem_iff.mpr (mem_directories.mpr ⟨hdir, hwd⟩))

section Listed
variable {fs : Tree} {regular : Path → Bool} {cwd : List Byte} {name : Path} {free : ℕ}

theorem nodup_entries (d : Path) : (fs.entries d).Nodup := List.nodup_dedup _

/-- A fold over visits prints the entries, while their paths fit. -/
theorem foldlM_searchVisit_iff (vs : List (Visit Path)) {lines out : List (Path × List Byte)} :
    vs.foldlM (searchVisit fs regular cwd name) lines = some out ↔
      ((∀ d ∈ vs.filterMap Visit.node,
          (textBelow cwd name d ++ slash :: ascii "..").length < pathMax) ∧
        ∀ e ∈ vs.filterMap Visit.child, roomFor fs cwd name e < pathMax) ∧
        out = lines ++ (vs.filterMap Visit.child).filterMap fun e =>
          (printed fs regular cwd name e).map fun line => (e, line) := by
  induction vs generalizing lines with
  | nil =>
    change some lines = some out ↔ _
    simp [eq_comm]
  | cons v vs ih =>
    rw [List.foldlM_cons]
    cases v with
    | opened d =>
      change (searchVisit fs regular cwd name lines (.opened d)).bind _ = some out ↔
        ((∀ d' ∈ d :: vs.filterMap Visit.node, _) ∧ _) ∧ _
      rw [List.forall_mem_cons]
      by_cases hfits : (textBelow cwd name d ++ slash :: ascii "..").length < pathMax
      · have hact : searchVisit fs regular cwd name lines (.opened d) = some lines := if_pos hfits
        rw [hact, Option.bind_some, ih]
        simp only [hfits, true_and]
        exact Iff.rfl
      · have hact : searchVisit fs regular cwd name lines (.opened d) = none := if_neg hfits
        rw [hact]
        exact iff_of_false (fun he => by cases he) fun hall => hfits hall.1.1.1
    | entry e =>
      change (searchVisit fs regular cwd name lines (.entry e)).bind _ = some out ↔
        (_ ∧ ∀ e' ∈ e :: vs.filterMap Visit.child, _) ∧
          out = lines ++ (e :: vs.filterMap Visit.child).filterMap _
      rw [List.forall_mem_cons]
      by_cases hfits : roomFor fs cwd name e < pathMax
      · have hact : searchVisit fs regular cwd name lines (.entry e) = some (lines ++
            ((printed fs regular cwd name e).map fun line => (e, line)).toList) := if_pos hfits
        rw [hact, Option.bind_some, ih]
        simp only [hfits, true_and]
        have hout : lines ++ ((printed fs regular cwd name e).map fun line => (e, line)).toList ++
            ((vs.filterMap Visit.child).filterMap fun e =>
              (printed fs regular cwd name e).map fun line => (e, line)) =
            lines ++ ((e :: vs.filterMap Visit.child).filterMap fun e =>
              (printed fs regular cwd name e).map fun line => (e, line)) := by
          rw [List.append_assoc, List.filterMap_cons]
          cases printed fs regular cwd name e <;> rfl
        rw [hout]
        exact Iff.rfl
      · have hact : searchVisit fs regular cwd name lines (.entry e) = none := if_neg hfits
        rw [hact]
        exact iff_of_false (fun he => by cases he) fun hall => hfits hall.1.2.1

theorem searchWithin_iff {left : ℕ} {out : List (Path × List Byte)} :
    searchWithin fs regular cwd name free = some (left, out) ↔
      (∀ d ∈ openedDirs fs name free, LinesFit fs cwd name d) ∧
        left = free - (directories fs name).length ∧
        out = ((dirVisits fs free name).filterMap Visit.child).filterMap fun e =>
          (printed fs regular cwd name e).map fun line => (e, line) := by
  have hwalk : searchWithin fs regular cwd name free =
      ((dirVisits fs free name).foldlM (searchVisit fs regular cwd name) []).map fun t =>
        (free - (directories fs name).length, t) := by
    have heq := descend_eq (fun d => fs.get d = some .dir) fs.entries (searchVisit fs regular cwd name)
      (depth fs + 1) free [] name
    rw [preorder_eq, (perm_directories fs name).length_eq] at heq
    exact heq
  have hfold : ∀ t, (dirVisits fs free name).foldlM (searchVisit fs regular cwd name) [] = some t ↔
      (∀ d ∈ openedDirs fs name free, LinesFit fs cwd name d) ∧
        t = ((dirVisits fs free name).filterMap Visit.child).filterMap fun e =>
          (printed fs regular cwd name e).map fun line => (e, line) := by
    intro t
    rw [foldlM_searchVisit_iff, forall_dirVisits_iff, List.nil_append]
    exact Iff.rfl
  rw [hwalk, Option.map_eq_some_iff]
  constructor
  · rintro ⟨t', ht', heq⟩
    obtain ⟨rfl, rfl⟩ := Prod.mk.inj heq
    obtain ⟨hfits, ht⟩ := (hfold _).mp ht'
    exact ⟨hfits, rfl, ht⟩
  · rintro ⟨hfits, rfl, ht⟩
    exact ⟨out, (hfold out).mpr ⟨hfits, ht⟩, rfl⟩

theorem nodup_children : ((dirVisits fs free name).filterMap Visit.child).Nodup := by
  rw [children_dirVisits.nodup_iff, List.nodup_flatMap]
  refine ⟨fun d _ => nodup_entries d, ?_⟩
  have hnodup : (openedDirs fs name free).Nodup := nodup_openedDirs
  apply hnodup.imp
  intro d d' hne q hq hq'
  obtain ⟨_, htail, _⟩ := FileTree.mem_entries.mp hq
  obtain ⟨_, htail', _⟩ := FileTree.mem_entries.mp hq'
  exact hne (htail.symm.trans htail')

theorem mem_children_iff {q : Path} :
    q ∈ (dirVisits fs free name).filterMap Visit.child ↔
      fs.get q ≠ none ∧ q ≠ [] ∧ q.tail ∈ openedDirs fs name free := by
  rw [children_dirVisits.mem_iff, List.mem_flatMap]
  constructor
  · intro h
    obtain ⟨d, hd, hq⟩ := h
    obtain ⟨hget, rfl, hne⟩ := FileTree.mem_entries.mp hq
    exact ⟨hget, hne, hd⟩
  · intro h
    obtain ⟨hget, hne, hd⟩ := h
    exact ⟨q.tail, hd, FileTree.mem_entries.mpr ⟨hget, rfl, hne⟩⟩

/-- With enough descriptors all entries below the directory are gone through. -/
theorem opened_tail_iff (h : (directories fs name).length ≤ free) {q : Path}
    (hq : fs.get q ≠ none) :
    q ≠ [] ∧ q.tail ∈ openedDirs fs name free ↔ name <:+ q ∧ q ≠ name := by
  rw [openedDirs_of_le h, (perm_directories fs name).mem_iff, mem_directories]
  constructor
  · intro h
    obtain ⟨hne, _, hname⟩ := h
    obtain ⟨n, d, rfl⟩ := List.exists_cons_of_ne_nil hne
    refine ⟨hname.trans (List.suffix_cons n d), ?_⟩
    intro he
    have hlen := hname.length_le
    rw [← he, List.tail_cons, List.length_cons] at hlen
    omega
  · intro h
    obtain ⟨hname, hne⟩ := h
    have hnil : q ≠ [] := by
      intro hq
      rw [hq] at hname hne
      exact hne (List.suffix_nil.mp hname).symm
    obtain ⟨n, d, rfl⟩ := List.exists_cons_of_ne_nil hnil
    rcases List.suffix_cons_iff.mp hname with rfl | hname
    · exact absurd rfl hne
    · exact ⟨hnil, fs.parent n d hq, hname⟩

end Listed

/-- The call stays within its arrays exactly when the paths of the entries of the directories that
can be opened fit. It then prints the line of each of these entries once, and nothing else; with
enough descriptors these are all entries below the directory. -/
theorem listed_iff (fs : Tree) (regular : Path → Bool) (cwd : List Byte) (name : Path)
    (free : ℕ) :
    ((∃ s, searchWithin fs regular cwd name free = some s) ↔
        ∀ d ∈ openedDirs fs name free, LinesFit fs cwd name d) ∧
      ∀ left lines, searchWithin fs regular cwd name free = some (left, lines) →
        (lines.map Prod.fst).Nodup ∧
          (∀ q line, (q, line) ∈ lines ↔ printed fs regular cwd name q = some line ∧
            fs.get q ≠ none ∧ q ≠ [] ∧ q.tail ∈ openedDirs fs name free) ∧
          ((directories fs name).length ≤ free →
            ∀ q line, (q, line) ∈ lines ↔ printed fs regular cwd name q = some line ∧
              fs.get q ≠ none ∧ name <:+ q ∧ q ≠ name) := by
  constructor
  · constructor
    · rintro ⟨⟨left, lines⟩, h⟩
      exact (searchWithin_iff.mp h).1
    · intro hfits
      exact ⟨_, searchWithin_iff.mpr ⟨hfits, rfl, rfl⟩⟩
  · intro left lines h
    obtain ⟨-, -, hlines⟩ := searchWithin_iff.mp h
    have hmem : ∀ q line, (q, line) ∈ lines ↔ printed fs regular cwd name q = some line ∧
        fs.get q ≠ none ∧ q ≠ [] ∧ q.tail ∈ openedDirs fs name free := by
      intro q line
      rw [hlines, List.mem_filterMap, ← mem_children_iff]
      constructor
      · rintro ⟨e, he, hprinted⟩
        obtain ⟨line', hline, heq⟩ := Option.map_eq_some_iff.mp hprinted
        obtain ⟨rfl, rfl⟩ := Prod.mk.inj heq
        exact ⟨hline, he⟩
      · rintro ⟨hline, hq⟩
        exact ⟨q, hq, Option.map_eq_some_iff.mpr ⟨line, hline, rfl⟩⟩
    refine ⟨?_, hmem, ?_⟩
    · have hsub : (lines.map Prod.fst).Sublist
          ((dirVisits fs free name).filterMap Visit.child) := by
        rw [hlines]
        generalize (dirVisits fs free name).filterMap Visit.child = es
        induction es with
        | nil => exact List.Sublist.refl _
        | cons e es ih =>
          rw [List.filterMap_cons]
          cases printed fs regular cwd name e with
          | none => exact ih.cons e
          | some line => exact ih.cons_cons e
      exact hsub.nodup nodup_children
    · intro hfew q line
      rw [hmem]
      constructor
      · rintro ⟨hline, hget, hopened⟩
        exact ⟨hline, hget, (opened_tail_iff hfew hget).mp hopened⟩
      · rintro ⟨hline, hget, hbelow⟩
        exact ⟨hline, hget, (opened_tail_iff hfew hget).mpr hbelow⟩

end OsTasks.Backup

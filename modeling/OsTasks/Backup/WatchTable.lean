import OsTasks.Backup.Watches

/-! The array `inotify_wds`, whose capacity `daemon_init` sets once, and what
`add_watcher_recursive` stores in it. The text of `path`, which has an array of its own, is left
out. -/
namespace OsTasks.Backup
open OsTasks.Lib

/-- The fields of `struct Daemon` that `add_watcher_recursive` uses. -/
structure WatchTable where
  inotifySize : ℕ
  capacity : ℕ
  /-- the stores into `inotify_wds`: the index of each, and the directory of its watch -/
  inotifyWds : List (ℕ × Path)

/-- `daemon_init` -/
def daemonInit : WatchTable := ⟨0, inotifyCapacity, []⟩

def WatchTable.store (d : WatchTable) (wd : Path) : WatchTable :=
  { d with inotifyWds := d.inotifyWds ++ [(d.inotifySize, wd)], inotifySize := d.inotifySize + 1 }

/-- `add_watcher_recursive` with the array it fills, but without the text in `path`. -/
def storeWatches (fs : Tree) : ℕ → WatchTable → Path → WatchTable
  | 0, d, _ => d
  | fuel + 1, d, wd =>
    if fs.get wd = some .dir then (fs.entries wd).foldl (storeWatches fs fuel) (d.store wd) else d

/-- The array after the call at the start. -/
def startTable (fs : Tree) (wd : Path) : WatchTable :=
  storeWatches fs (depth fs + 1) daemonInit wd

/-- Each store of the call is to an entry that the array has. -/
def WithinCapacity (fs : Tree) (wd : Path) : Prop :=
  ∀ entry ∈ (startTable fs wd).inotifyWds, entry.1 < (startTable fs wd).capacity

/-- The directories from `wd` down. -/
def directories (fs : Tree) (wd : Path) : List Path :=
  (fs.paths.filter fun p => fs.get p = some .dir ∧ wd <:+ p).dedup

section Walk
variable {fs : Tree} {fuel : ℕ} {wd q : Path}

theorem mem_directories : q ∈ directories fs wd ↔ fs.get q = some .dir ∧ wd <:+ q := by
  simp only [directories, List.mem_dedup, List.mem_filter, decide_eq_true_eq,
    and_iff_right_iff_imp]
  intro h
  apply fs.mem_paths q
  rw [h.1]
  exact Option.some_ne_none _

theorem suffix_of_mem_addWatcherRecursive (h : q ∈ addWatcherRecursive fs fuel wd) : wd <:+ q := by
  induction fuel generalizing wd with
  | zero => cases h
  | succ fuel ih =>
    unfold addWatcherRecursive at h
    split_ifs at h
    · rcases List.mem_cons.mp h with rfl | h
      · exact List.suffix_rfl
      · obtain ⟨e, he, hq⟩ := List.mem_flatMap.mp h
        obtain ⟨_, htail, _⟩ := FileTree.mem_entries.mp he
        rw [← htail]
        exact (List.tail_suffix e).trans (ih hq)
    · cases h

theorem nodup_addWatcherRecursive (fs : Tree) (fuel : ℕ) (wd : Path) :
    (addWatcherRecursive fs fuel wd).Nodup := by
  induction fuel generalizing wd with
  | zero => exact List.nodup_nil
  | succ fuel ih =>
    have hentry : ∀ e ∈ fs.entries wd, e.length = wd.length + 1 := by
      intro e he
      obtain ⟨_, htail, hne⟩ := FileTree.mem_entries.mp he
      obtain ⟨n, d, rfl⟩ := List.exists_cons_of_ne_nil hne
      rw [← htail]
      rfl
    unfold addWatcherRecursive
    split_ifs
    · rw [List.nodup_cons]
      refine ⟨?_, ?_⟩
      · intro hmem
        obtain ⟨e, he, hwd⟩ := List.mem_flatMap.mp hmem
        have hle := (suffix_of_mem_addWatcherRecursive hwd).length_le
        have hlen := hentry e he
        omega
      · rw [List.nodup_flatMap]
        refine ⟨fun e _ => ih e, ?_⟩
        have hdistinct : (fs.entries wd).Nodup := List.nodup_dedup _
        apply hdistinct.imp_of_mem
        intro e e' he he' hne q hq hq'
        -- two entries of one directory are not both on the way to `q`
        have hsuf := suffix_of_mem_addWatcherRecursive hq
        have hsuf' := suffix_of_mem_addWatcherRecursive hq'
        have hlen := (hentry e he).trans (hentry e' he').symm
        exact hne ((List.suffix_of_suffix_length_le hsuf hsuf' hlen.le).eq_of_length hlen)
    · exact List.nodup_nil

/-- The call has a watch for each directory from `wd` down, and no other. -/
theorem perm_directories (fs : Tree) (wd : Path) :
    (addWatcherRecursive fs (depth fs + 1) wd).Perm (directories fs wd) := by
  apply (List.perm_ext_iff_of_nodup (nodup_addWatcherRecursive fs _ wd) (List.nodup_dedup _)).mpr
  intro q
  change _ ↔ q ∈ directories fs wd
  rw [mem_directories]
  constructor
  · exact fun h => ⟨dir_of_mem_addWatcherRecursive h, suffix_of_mem_addWatcherRecursive h⟩
  · rintro ⟨hdir, hwd⟩
    apply mem_addWatcherRecursive hdir hwd
    have hdepth : q.length ≤ depth fs := by
      apply length_le_depth
      rw [hdir]
      exact Option.some_ne_none _
    omega

/-- The watches of `l` stored one after the other. -/
def WatchTable.storeAll (d : WatchTable) (l : List Path) : WatchTable := l.foldl WatchTable.store d

theorem storeWatches_eq (fs : Tree) (fuel : ℕ) (d : WatchTable) (wd : Path) :
    storeWatches fs fuel d wd = d.storeAll (addWatcherRecursive fs fuel wd) := by
  induction fuel generalizing d wd with
  | zero => rfl
  | succ fuel ih =>
    have hfold : ∀ (l : List Path) (d : WatchTable), l.foldl (storeWatches fs fuel) d =
        d.storeAll (l.flatMap (addWatcherRecursive fs fuel)) := by
      intro l
      induction l with
      | nil => exact fun d => rfl
      | cons e l ihl =>
        intro d
        rw [List.foldl_cons, ihl, ih, List.flatMap_cons]
        exact (List.foldl_append).symm
    unfold storeWatches addWatcherRecursive
    split_ifs
    · exact hfold _ _
    · rfl

theorem storeAll_capacity (d : WatchTable) (l : List Path) :
    (d.storeAll l).capacity = d.capacity := by
  induction l generalizing d with
  | nil => rfl
  | cons wd l ih => exact ih (d.store wd)

theorem storeAll_indices (d : WatchTable) (l : List Path) :
    (d.storeAll l).inotifyWds.map Prod.fst =
      d.inotifyWds.map Prod.fst ++ List.range' d.inotifySize l.length := by
  induction l generalizing d with
  | nil => simp [WatchTable.storeAll]
  | cons wd l ih =>
    change ((d.store wd).storeAll l).inotifyWds.map Prod.fst = _
    rw [ih, List.length_cons, List.range'_succ]
    simp [WatchTable.store]

end Walk

theorem withinCapacity_iff_length (fs : Tree) (wd : Path) :
    WithinCapacity fs wd ↔ (addWatcherRecursive fs (depth fs + 1) wd).length ≤ inotifyCapacity := by
  have htable : startTable fs wd =
      daemonInit.storeAll (addWatcherRecursive fs (depth fs + 1) wd) := storeWatches_eq fs _ _ wd
  have hcapacity := storeAll_capacity daemonInit (addWatcherRecursive fs (depth fs + 1) wd)
  have hindices := storeAll_indices daemonInit (addWatcherRecursive fs (depth fs + 1) wd)
  have hmap : WithinCapacity fs wd ↔
      ∀ i ∈ (startTable fs wd).inotifyWds.map Prod.fst, i < (startTable fs wd).capacity := by
    rw [List.forall_mem_map]
    exact Iff.rfl
  rw [hmap, htable, hindices, hcapacity]
  change (∀ i ∈ List.range' 0 _, i < inotifyCapacity) ↔ _
  constructor
  · intro h
    by_contra hlt
    exact lt_irrefl _ (h inotifyCapacity (List.mem_range'_1.mpr ⟨Nat.zero_le _, by omega⟩))
  · intro h i hi
    have hlt := (List.mem_range'_1.mp hi).2
    omega

/-- All stores are within the capacity exactly when there are not more directories than that. -/
theorem withinCapacity_iff (fs : Tree) (wd : Path) :
    WithinCapacity fs wd ↔ (directories fs wd).length ≤ inotifyCapacity := by
  rw [withinCapacity_iff_length, (perm_directories fs wd).length_eq]

section Deep

/-- Directories named "d", each in the one before it. -/
def nested (n : ℕ) : Tree := FileTree.chain (List.replicate n (ascii "d"))

theorem nested_get {n k : ℕ} (hk : k ≤ n) :
    (nested n).get (List.replicate k (ascii "d")) = some .dir := by
  apply FileTree.get_chain
  refine ⟨List.replicate (n - k) (ascii "d"), ?_⟩
  rw [List.replicate_append_replicate, Nat.sub_add_cancel hk]

theorem lt_length_addWatcherRecursive_nested (n : ℕ) :
    n < (addWatcherRecursive (nested n) (depth (nested n) + 1) []).length := by
  have hall : (List.range (n + 1)).map (fun k => List.replicate k (ascii "d")) ⊆
      addWatcherRecursive (nested n) (depth (nested n) + 1) [] := by
    intro q hq
    obtain ⟨k, hk, rfl⟩ := List.mem_map.mp hq
    have hdir := nested_get (Nat.le_of_lt_succ (List.mem_range.mp hk))
    exact (perm_directories _ _).mem_iff.mpr (mem_directories.mpr ⟨hdir, List.nil_suffix⟩)
  have hdistinct : ((List.range (n + 1)).map fun k => List.replicate k (ascii "d")).Nodup := by
    apply List.nodup_range.map
    intro j k hjk
    have hlen := congrArg List.length hjk
    rw [List.length_replicate, List.length_replicate] at hlen
    exact hlen
  have hle := (hdistinct.subperm hall).length_le
  rw [List.length_map, List.length_range] at hle
  exact hle

end Deep

/-- A hundred directories below the watched one are too many. -/
theorem nested_beyond_capacity : ¬ WithinCapacity (nested 100) [] := by
  intro h
  rw [withinCapacity_iff_length] at h
  exact (lt_length_addWatcherRecursive_nested 100).not_ge h

end OsTasks.Backup

import OsTasks.Backup.OpenDirs

/-! A tree of directories and files is a file system with links that has none. In it the two
embeddings of `add_watcher_recursive` make the same calls. -/
namespace OsTasks.Backup
open OsTasks.Lib

/-- The inodes are the absolute paths. -/
def Linked.ofTree (fs : Tree) : LinkTree Path Name where
  root := []
  inode p :=
    if fs.get p = some .dir then .dir p.tail ((fs.entries p).map fun e => (e.headD [], e)) else .other
  nodup_entries := by
    intro d parent entries h
    split_ifs at h
    cases h
    rw [List.map_map]
    apply List.Nodup.map_on _ (nodup_entries d)
    intro e he e' he' hname
    obtain ⟨_, htail, hne⟩ := FileTree.mem_entries.mp he
    obtain ⟨_, htail', hne'⟩ := FileTree.mem_entries.mp he'
    obtain ⟨n, d, rfl⟩ := List.exists_cons_of_ne_nil hne
    obtain ⟨n', d', rfl⟩ := List.exists_cons_of_ne_nil hne'
    obtain rfl : d = d' := htail.trans htail'.symm
    obtain rfl : n = n' := hname
    rfl

section Linked
variable {fs : Tree} {wd : Path}

theorem inode_ofTree {p : Path} (h : fs.get p = some .dir) : (Linked.ofTree fs).inode p =
    .dir p.tail ((fs.entries p).map fun e => (e.headD [], e)) := if_pos h

theorem isDir_ofTree {p : Path} : (Linked.ofTree fs).isDir p = true ↔ fs.get p = some .dir := by
  unfold LinkTree.isDir Linked.ofTree
  dsimp only
  split_ifs with h
  · exact iff_of_true rfl h
  · exact iff_of_false (fun hfalse => by cases hfalse) h

theorem names_ofTree {p : Path} (h : fs.get p = some .dir) :
    (Linked.ofTree fs).names p = (fs.entries p).map fun e => e.headD [] := by
  unfold LinkTree.names
  rw [inode_ofTree h]
  exact List.map_map ..

theorem entry_ofTree (p : Path) (n : Name) :
    LinkTree.entry ((fs.entries p).map fun e => (e.headD [], e)) n =
      if fs.get (n :: p) = none then none else some (n :: p) := by
  have hfound : ∀ e ∈ fs.entries p, e.headD [] = n → e = n :: p := by
    intro e he hname
    obtain ⟨_, rfl, hne⟩ := FileTree.mem_entries.mp he
    obtain ⟨m, d, rfl⟩ := List.exists_cons_of_ne_nil hne
    exact congrArg (· :: d) hname
  unfold LinkTree.entry
  rw [List.find?_map, Option.map_map]
  split_ifs with hnone
  · rw [Option.map_eq_none_iff, List.find?_eq_none]
    intro e he hname
    rw [hfound e he (of_decide_eq_true hname)] at he
    exact (FileTree.mem_entries.mp he).1 hnone
  · rw [Option.map_eq_some_iff]
    have hmem : n :: p ∈ fs.entries p :=
      FileTree.mem_entries.mpr ⟨hnone, rfl, List.cons_ne_nil _ _⟩
    have hsome : ((fs.entries p).find? fun e => e.headD [] = n).isSome := by
      rw [List.find?_isSome]
      exact ⟨n :: p, hmem, decide_eq_true rfl⟩
    obtain ⟨e, he⟩ := Option.isSome_iff_exists.mp hsome
    have hname := List.find?_some he
    exact ⟨e, he, hfound e (List.mem_of_find?_eq_some he) (of_decide_eq_true hname)⟩

theorem get_ne_none_of_suffix {p q : Path} (hq : fs.get q ≠ none) (h : p <:+ q) :
    fs.get p ≠ none := by
  cases q with
  | nil =>
    rw [List.suffix_nil.mp h]
    exact hq
  | cons n d =>
    rcases List.suffix_cons_iff.mp h with rfl | h
    · exact hq
    · rw [FileTree.dir_of_suffix (fs.parent n d hq) h]
      exact Option.some_ne_none _

/-- A path of names leads to the path that they make, if there is one. -/
theorem resolveWith_ofTree (follow : Path → List (Component Name) → Option Path) (l : List Name)
    {d : Path} (hd : fs.get d ≠ none) :
    (Linked.ofTree fs).resolveWith follow d (l.map .name) =
      if fs.get (l.reverse ++ d) = none then none else some (l.reverse ++ d) := by
  induction l generalizing d with
  | nil => exact (if_neg hd).symm
  | cons n l ih =>
    have hpath : (n :: l).reverse ++ d = l.reverse ++ n :: d := by
      rw [List.reverse_cons, List.append_assoc, List.singleton_append]
    rw [hpath, List.map_cons]
    unfold LinkTree.resolveWith
    by_cases hdir : fs.get d = some .dir
    · rw [inode_ofTree hdir]
      dsimp only
      rw [entry_ofTree]
      by_cases hnone : fs.get (n :: d) = none
      · have habove : fs.get (l.reverse ++ n :: d) = none := by
          by_contra hne
          exact get_ne_none_of_suffix hne (List.suffix_append _ _) hnone
        rw [if_pos hnone, if_pos habove]
        rfl
      · rw [if_neg hnone, Option.bind_some, ← ih hnone]
        unfold Linked.ofTree
        dsimp only
        split_ifs <;> rfl
    · have hnone : fs.get (n :: d) = none := by
        by_contra hne
        exact hdir (fs.parent n d hne)
      have habove : fs.get (l.reverse ++ n :: d) = none := by
        by_contra hne
        exact get_ne_none_of_suffix hne (List.suffix_append _ _) hnone
      have hinode : (Linked.ofTree fs).inode d = .other := if_neg hdir
      rw [hinode, if_pos habove]

theorem dirAt_ofTree (hwd : fs.get wd ≠ none) (links : ℕ) (rel : Path) :
    Linked.dirAt (Linked.ofTree fs) links wd rel =
      if fs.get (rel ++ wd) = some .dir then some (rel ++ wd) else none := by
  have hresolve : (Linked.ofTree fs).resolve links wd (rel.reverse.map .name) =
      if fs.get (rel ++ wd) = none then none else some (rel ++ wd) := by
    have hwith := fun follow => resolveWith_ofTree follow rel.reverse hwd
    rw [List.reverse_reverse] at hwith
    cases links with
    | zero => exact hwith _
    | succ links => exact hwith _
  unfold Linked.dirAt
  rw [hresolve]
  by_cases hdir : fs.get (rel ++ wd) = some .dir
  · rw [if_pos hdir, if_neg (by rw [hdir]; exact Option.some_ne_none _)]
    exact Option.filter_eq_some_iff.mpr ⟨rfl, isDir_ofTree.mpr hdir⟩
  · rw [if_neg hdir]
    split_ifs
    · rfl
    · rw [Option.filter_eq_none_iff]
      intro q hq hisdir
      cases hq
      exact hdir (isDir_ofTree.mp hisdir)

theorem relTo_append (rel wd : Path) : relTo wd (rel ++ wd) = rel := by
  unfold relTo
  rw [List.length_append, Nat.add_sub_cancel, List.take_left']
  rfl

/-- Both recursions get to the same directories in the same order. -/
theorem trail_ofTree (hwd : fs.get wd ≠ none) (links fuel : ℕ) (rel : Path) :
    Linked.trail (Linked.ofTree fs) links wd fuel rel =
      (addWatcherRecursive fs fuel (rel ++ wd)).map fun q => (relTo wd q, q) := by
  induction fuel generalizing rel with
  | zero => rfl
  | succ fuel ih =>
    unfold Linked.trail addWatcherRecursive
    rw [dirAt_ofTree hwd]
    by_cases hdir : fs.get (rel ++ wd) = some .dir
    · rw [if_pos hdir, if_pos hdir]
      dsimp only
      rw [names_ofTree hdir, List.flatMap_map, List.map_cons, relTo_append, List.map_flatMap]
      congr 1
      apply List.flatMap_congr
      intro e he
      obtain ⟨_, htail, hne⟩ := FileTree.mem_entries.mp he
      obtain ⟨n, d, rfl⟩ := List.exists_cons_of_ne_nil hne
      obtain rfl : d = rel ++ wd := htail
      exact ih (n :: rel)
    · rw [if_neg hdir, if_neg hdir]
      rfl

theorem entriesFit_ofTree {cwd : List Byte} {d : Path} (hd : fs.get d = some .dir)
    (hwd : wd <:+ d) :
    Linked.EntriesFit (Linked.ofTree fs) cwd (relTo wd d) d ↔ PathsFit fs cwd wd d := by
  obtain ⟨rel, rfl⟩ := hwd
  have htext : ∀ n, textBelow cwd wd (n :: (rel ++ wd)) =
      Linked.pathText cwd rel ++ slash :: n := by
    intro n
    unfold textBelow
    rw [← List.cons_append, relTo_append]
    rfl
  have hnames : (∀ e ∈ (Linked.ofTree fs).names (rel ++ wd),
      Linked.EntryFits cwd rel (.name e)) ↔
        ∀ e ∈ fs.entries (rel ++ wd), (textBelow cwd wd e).length < pathMax := by
    rw [names_ofTree hd, List.forall_mem_map]
    apply forall₂_congr
    intro e he
    obtain ⟨_, htail, hne⟩ := FileTree.mem_entries.mp he
    obtain ⟨n, d, rfl⟩ := List.exists_cons_of_ne_nil hne
    obtain rfl : d = rel ++ wd := htail
    rw [htext]
    exact Iff.rfl
  unfold Linked.EntriesFit Linked.readdir PathsFit
  rw [relTo_append, List.forall_mem_cons, List.forall_mem_cons, List.forall_mem_map, hnames,
    ← and_assoc]
  apply and_congr_left'
  unfold textBelow
  rw [relTo_append]
  change (Linked.pathText cwd rel ++ slash :: ascii ".").length < pathMax ∧
    (Linked.pathText cwd rel ++ slash :: ascii "..").length < pathMax ↔ _
  constructor
  · exact fun h => h.2
  · intro h
    refine ⟨lt_of_le_of_lt ?_ h, h⟩
    rw [List.length_append, List.length_append]
    exact Nat.add_le_add_left (by decide) _

theorem addWatcherRecursive_add {fuel : ℕ} {wd : Path}
    (h : ∀ q, fs.get q = some .dir → wd <:+ q → q.length < wd.length + fuel) (more : ℕ) :
    addWatcherRecursive fs (fuel + more) wd = addWatcherRecursive fs fuel wd := by
  induction fuel generalizing wd with
  | zero =>
    have hdir : fs.get wd ≠ some .dir := fun hdir => lt_irrefl _ (h wd hdir List.suffix_rfl)
    rw [Nat.zero_add]
    cases more with
    | zero => rfl
    | succ more => exact if_neg hdir
  | succ fuel ih =>
    rw [Nat.succ_add]
    unfold addWatcherRecursive
    split_ifs
    · congr 1
      apply List.flatMap_congr
      intro e he
      obtain ⟨_, rfl, hne⟩ := FileTree.mem_entries.mp he
      obtain ⟨n, d, rfl⟩ := List.exists_cons_of_ne_nil hne
      apply ih
      intro q hq hwd
      have hlen := h q hq ((List.suffix_cons n d).trans hwd)
      rw [List.length_cons]
      rw [List.tail_cons] at hlen
      omega
    · rfl

theorem length_lt_of_pathsFit {cwd : List Byte} {q : Path} (h : PathsFit fs cwd wd q)
    (hwd : wd <:+ q) : q.length < wd.length + pathMax := by
  obtain ⟨rel, rfl⟩ := hwd
  have hlen := Linked.length_le_pathText cwd rel
  have hfit := h.1
  unfold textBelow at hfit
  rw [relTo_append, List.length_append] at hfit
  rw [List.length_append]
  omega

theorem addWatcherRecursive_pathMax
    (h : ∀ q, fs.get q = some .dir → wd <:+ q → q.length < wd.length + pathMax) :
    addWatcherRecursive fs pathMax wd = addWatcherRecursive fs (depth fs + 1) wd := by
  have hdepth : ∀ q, fs.get q = some .dir → wd <:+ q → q.length < wd.length + (depth fs + 1) := by
    intro q hq _
    have hle : q.length ≤ depth fs := by
      apply length_le_depth
      rw [hq]
      exact Option.some_ne_none _
    omega
  rw [← addWatcherRecursive_add h (depth fs + 1), Nat.add_comm,
    addWatcherRecursive_add hdepth pathMax]

/-- The recursion with links needs the same room as the one without, and makes the same calls. -/
theorem watchRoot_ofTree_iff {cwd : List Byte} (hwd : fs.get wd ≠ none) (links : ℕ)
    {calls : List Path} :
    Linked.watchRoot (Linked.ofTree fs) links wd cwd = some calls ↔
      (∀ d ∈ addWatcherRecursive fs (depth fs + 1) wd, PathsFit fs cwd wd d) ∧
        (addWatcherRecursive fs (depth fs + 1) wd).length ≤ inotifyCapacity ∧
        calls = addWatcherRecursive fs (depth fs + 1) wd := by
  have htrail : Linked.trail (Linked.ofTree fs) links wd pathMax [] =
      (addWatcherRecursive fs pathMax wd).map fun q => (relTo wd q, q) :=
    trail_ofTree hwd links pathMax []
  have hfit : (∀ v ∈ Linked.trail (Linked.ofTree fs) links wd pathMax [],
      Linked.EntriesFit (Linked.ofTree fs) cwd v.1 v.2) ↔
        ∀ d ∈ addWatcherRecursive fs pathMax wd, PathsFit fs cwd wd d := by
    rw [htrail, List.forall_mem_map]
    apply forall₂_congr
    intro d hd
    exact entriesFit_ofTree (dir_of_mem_addWatcherRecursive hd)
      (suffix_of_mem_addWatcherRecursive hd)
  have hmap : ((addWatcherRecursive fs pathMax wd).map fun q => (relTo wd q, q)).map Prod.snd =
      addWatcherRecursive fs pathMax wd := by
    rw [List.map_map]
    exact List.map_id _
  rw [Linked.watchRoot_iff, hfit, htrail, List.length_map, hmap]
  constructor
  · rintro ⟨hall, hlen, hcalls⟩
    have hsame : addWatcherRecursive fs pathMax wd = addWatcherRecursive fs (depth fs + 1) wd := by
      apply addWatcherRecursive_pathMax
      rintro q hq ⟨rel, rfl⟩
      have hdir : Linked.dirAt (Linked.ofTree fs) links wd rel = some (rel ++ wd) := by
        rw [dirAt_ofTree hwd, if_pos hq]
      have hmem := Linked.mem_trail_of_fit (hfit.mpr hall) hdir
      rw [htrail] at hmem
      obtain ⟨q', hq', heq⟩ := List.mem_map.mp hmem
      obtain rfl : q' = rel ++ wd := (Prod.mk.inj heq).2
      exact length_lt_of_pathsFit (hall _ hq') (List.suffix_append _ _)
    rw [← hsame]
    exact ⟨hall, hlen, hcalls⟩
  · rintro ⟨hall, hlen, hcalls⟩
    have hsame : addWatcherRecursive fs pathMax wd = addWatcherRecursive fs (depth fs + 1) wd := by
      apply addWatcherRecursive_pathMax
      intro q hq hsuf
      have hmem : q ∈ addWatcherRecursive fs (depth fs + 1) wd :=
        (perm_directories fs wd).mem_iff.mpr (mem_directories.mpr ⟨hq, hsuf⟩)
      exact length_lt_of_pathsFit (hall q hmem) hsuf
    rw [hsame]
    exact ⟨hall, hlen, hcalls⟩

/-- With descriptors for all directories both embeddings watch the same, or neither returns. -/
theorem watchRoot_ofTree {cwd : List Byte} (hwd : fs.get wd ≠ none) (links : ℕ) {free : ℕ}
    (hfree : (directories fs wd).length ≤ free) :
    Linked.watchRoot (Linked.ofTree fs) links wd cwd =
      (watchWithin fs cwd wd free).map fun s => s.2.inotifyWds.map Prod.snd := by
  ext calls
  rw [watchRoot_ofTree_iff hwd links, Option.map_eq_some_iff]
  constructor
  · rintro ⟨hall, hlen, rfl⟩
    refine ⟨(_, _), watchWithin_iff.mpr ⟨?_, rfl, rfl⟩, ?_⟩
    · rw [openedDirs_of_le hfree]
      exact ⟨hlen, hall⟩
    · rw [openedDirs_of_le hfree]
      exact map_snd_storeAll daemonInit _
  · rintro ⟨⟨left, table⟩, hwatch, rfl⟩
    obtain ⟨⟨hlen, hall⟩, -, rfl⟩ := watchWithin_iff.mp hwatch
    rw [openedDirs_of_le hfree] at hlen hall ⊢
    exact ⟨hall, hlen, map_snd_storeAll daemonInit _⟩

end Linked

section Start
variable {cfg : Config} {fs : Tree}

theorem linked_pathText_eq (cwd : List Byte) (rel : Path) :
    Linked.pathText cwd rel = cwd ++ (rel.reverse.map (slash :: ·)).flatten := by
  induction rel with
  | nil => exact (List.append_nil cwd).symm
  | cons n rel ih =>
    unfold Linked.pathText
    rw [ih, List.reverse_cons, List.map_append, List.flatten_append, List.append_assoc]
    simp

theorem textBelow_eq_pathText (q : Path) :
    textBelow (cfg.cwd.reverse.map (slash :: ·)).flatten cfg.cwd q = pathText cfg q := by
  unfold textBelow pathText relTo relText
  rw [linked_pathText_eq]
  rfl

/-- A daemon that starts with descriptors enough has the watches of this recursion. -/
theorem watchWithin_of_startFits (h : StartFits cfg fs) {free : ℕ}
    (hfree : (directories fs cfg.cwd).length ≤ free) :
    ∃ left table, watchWithin fs (cfg.cwd.reverse.map (slash :: ·)).flatten cfg.cwd free =
      some (left, table) ∧
        table.inotifyWds.map Prod.snd = (backup cfg fs).init.watches := by
  obtain ⟨hlen, hpaths⟩ := h
  refine ⟨_, _, watchWithin_iff.mpr ⟨⟨?_, ?_⟩, rfl, rfl⟩, ?_⟩
  · rw [openedDirs_of_le hfree]
    exact hlen
  · intro d hd
    rw [openedDirs_of_le hfree] at hd
    have hdir := dir_of_mem_addWatcherRecursive hd
    have hsuf := suffix_of_mem_addWatcherRecursive hd
    have hget : fs.get d ≠ none := by
      rw [hdir]
      exact Option.some_ne_none _
    have hroom := hpaths d (fs.mem_paths d hget) hget hsuf
    rw [if_pos hdir] at hroom
    constructor
    · rw [textBelow_eq_pathText, List.length_append]
      exact lt_of_le_of_lt (Nat.add_le_add_left (by decide) _) hroom
    · intro e he
      obtain ⟨hget', htail, _⟩ := FileTree.mem_entries.mp he
      have hbelow : cfg.cwd <:+ e := by
        rw [← htail] at hsuf
        exact hsuf.trans (List.tail_suffix e)
      have hfit := hpaths e (fs.mem_paths e hget') hget' hbelow
      rw [textBelow_eq_pathText]
      omega
  · rw [openedDirs_of_le hfree]
    exact map_snd_storeAll daemonInit _

end Start

end OsTasks.Backup

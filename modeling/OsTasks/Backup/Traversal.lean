import Mathlib.Data.Set.Card
import OsTasks.Backup.Watches
import OsTasks.Lib.Links

/-! `add_watcher_recursive` in a file system with symbolic links, which `stat` follows. A path is
relative to the watched root, whose text is `cwd`. -/
namespace OsTasks.Backup.Linked
open OsTasks.Lib

variable {ι : Type}

/-- The text of an entry that `readdir` returns. -/
def dName : Component Name → List Byte
  | .here => ascii "."
  | .up => ascii ".."
  | .name n => n

/-- All entries of a directory. -/
def readdir (fs : LinkTree ι Name) (d : ι) : List (Component Name) :=
  .here :: .up :: (fs.names d).map .name

def pathText (cwd : List Byte) : Path → List Byte
  | [] => cwd
  | n :: wd => pathText cwd wd ++ slash :: n

section Calls
variable (fs : LinkTree ι Name) (links : ℕ) (root : ι) (cwd : List Byte)

/-- The directory that `stat` and `opendir` find at a path. -/
def dirAt (wd : Path) : Option ι :=
  (fs.resolve links root (wd.reverse.map .name)).filter fs.isDir

/-- The path of the entry and its NUL fit into `path`. -/
def EntryFits (wd : Path) (e : Component Name) : Prop :=
  (pathText cwd wd ++ slash :: dName e).length < pathMax

instance (wd : Path) (e : Component Name) : Decidable (EntryFits cwd wd e) :=
  inferInstanceAs (Decidable (_ < _))

/-- The body of the loop over the entries of `wd`. A store behind the end of `path` has no result. -/
def visitEntry (recursive : List ι → Path → Option (List ι)) (wd : Path) (calls : List ι)
    (e : Component Name) : Option (List ι) :=
  if EntryFits cwd wd e then
    match e with
    | .name n =>
      if (dirAt fs links root (n :: wd)).isSome then recursive calls (n :: wd) else some calls
    | _ => some calls
  else none

/-- The calls of `inotify_add_watch`, each with the directory its path leads to. A store behind the
end of `inotify_wds` has no result. -/
def addWatcherRecursive : ℕ → List ι → Path → Option (List ι)
  | 0, _, _ => none
  | fuel + 1, calls, wd =>
    match dirAt fs links root wd with
    | none => some calls
    | some d =>
      if calls.length < inotifyCapacity ∧ (pathText cwd wd ++ [slash]).length < pathMax then
        (readdir fs d).foldlM
          (visitEntry fs links root cwd (addWatcherRecursive fuel) wd) (calls ++ [d])
      else none

/-- The call on the root. -/
def watchRoot : Option (List ι) := addWatcherRecursive fs links root cwd pathMax [] []

/-- A path of names leads to the directory. -/
def Reachable (d : ι) : Prop := ∃ p, dirAt fs links root p = some d

/-- The call returns, and has made one watch for each directory that can be reached. -/
def VisitsOnce : Prop :=
  ∃ calls, watchRoot fs links root cwd = some calls ∧ calls.Nodup ∧
    ∀ d, d ∈ calls ↔ Reachable fs links root d

/-- The paths of a directory's entries fit into `path`. -/
def EntriesFit (wd : Path) (d : ι) : Prop :=
  ∀ e ∈ readdir fs d, EntryFits cwd wd e

/-- The directories form a tree that is small enough. -/
structure SmallTree : Prop where
  onePath : ∀ p q d, dirAt fs links root p = some d → dirAt fs links root q = some d → p = q
  fit : ∀ p d, dirAt fs links root p = some d → EntriesFit fs cwd p d
  few : {d | Reachable fs links root d}.encard ≤ inotifyCapacity

/-- The directories in the order in which the recursion gets to them, each with its path. -/
def trail : ℕ → Path → List (Path × ι)
  | 0, _ => []
  | fuel + 1, wd =>
    match dirAt fs links root wd with
    | none => []
    | some d => (wd, d) :: (fs.names d).flatMap fun n => trail fuel (n :: wd)

end Calls

section Trail
variable {fs : LinkTree ι Name} {links : ℕ} {root : ι} {cwd : List Byte} {fuel : ℕ} {wd p : Path}
  {d : ι}

theorem exists_dirAt_above {n : Name} (h : dirAt fs links root (n :: wd) = some d) :
    ∃ above, dirAt fs links root wd = some above ∧ n ∈ fs.names above := by
  obtain ⟨hresolve, _⟩ := Option.filter_eq_some_iff.mp h
  rw [List.reverse_cons, List.map_append] at hresolve
  obtain ⟨above, habove, hdir, hname⟩ := LinkTree.resolve_concat hresolve
  exact ⟨above, Option.filter_eq_some_iff.mpr ⟨habove, hdir⟩, hname⟩

theorem exists_dirAt_of_suffix (h : dirAt fs links root p = some d) (hwd : wd <:+ p) :
    ∃ above, dirAt fs links root wd = some above := by
  induction p generalizing d with
  | nil =>
    rw [List.suffix_nil.mp hwd]
    exact ⟨d, h⟩
  | cons n q ih =>
    rcases List.suffix_cons_iff.mp hwd with rfl | hwd
    · exact ⟨d, h⟩
    · obtain ⟨above, habove, _⟩ := exists_dirAt_above h
      exact ih habove hwd

theorem mem_trail_of_dirAt (h : dirAt fs links root p = some d) (hwd : wd <:+ p)
    (hfuel : p.length < wd.length + fuel) : (p, d) ∈ trail fs links root fuel wd := by
  induction fuel generalizing wd with
  | zero => exact absurd hwd.length_le (by omega)
  | succ fuel ih =>
    obtain ⟨above, habove⟩ := exists_dirAt_of_suffix h hwd
    unfold trail
    rw [habove]
    by_cases he : wd = p
    · rw [he, h] at habove
      rw [he, Option.some.inj habove]
      exact List.mem_cons_self
    · obtain ⟨n, hn⟩ := exists_cons_suffix hwd he
      obtain ⟨child, hchild⟩ := exists_dirAt_of_suffix h hn
      obtain ⟨above', habove', hname⟩ := exists_dirAt_above hchild
      rw [habove] at habove'
      obtain rfl := Option.some.inj habove'
      apply List.mem_cons_of_mem
      apply List.mem_flatMap.mpr
      refine ⟨n, hname, ih hn ?_⟩
      rw [List.length_cons]
      omega

theorem dirAt_of_mem_trail (h : (p, d) ∈ trail fs links root fuel wd) :
    dirAt fs links root p = some d ∧ wd <:+ p := by
  induction fuel generalizing wd with
  | zero => cases h
  | succ fuel ih =>
    unfold trail at h
    cases hwd : dirAt fs links root wd with
    | none =>
      rw [hwd] at h
      cases h
    | some above =>
      rw [hwd] at h
      rcases List.mem_cons.mp h with he | h
      · obtain ⟨rfl, rfl⟩ := Prod.mk.inj he
        exact ⟨hwd, List.suffix_rfl⟩
      · obtain ⟨n, _, hn⟩ := List.mem_flatMap.mp h
        obtain ⟨hdir, hsuf⟩ := ih hn
        exact ⟨hdir, (List.suffix_cons n wd).trans hsuf⟩

theorem nodup_trail (fs : LinkTree ι Name) (links : ℕ) (root : ι) (fuel : ℕ) (wd : Path) :
    ((trail fs links root fuel wd).map Prod.fst).Nodup := by
  induction fuel generalizing wd with
  | zero => exact List.nodup_nil
  | succ fuel ih =>
    unfold trail
    cases hwd : dirAt fs links root wd with
    | none => exact List.nodup_nil
    | some d =>
      have hsuffix : ∀ n, ∀ q ∈ (trail fs links root fuel (n :: wd)).map Prod.fst, n :: wd <:+ q := by
        intro n q hq
        obtain ⟨⟨q', e⟩, hmem, rfl⟩ := List.mem_map.mp hq
        exact (dirAt_of_mem_trail hmem).2
      dsimp only
      rw [List.map_cons, List.map_flatMap, List.nodup_cons]
      refine ⟨?_, ?_⟩
      · intro hmem
        obtain ⟨n, _, hq⟩ := List.mem_flatMap.mp hmem
        have hle := (hsuffix n wd hq).length_le
        rw [List.length_cons] at hle
        omega
      · rw [List.nodup_flatMap]
        refine ⟨fun n _ => ih (n :: wd), ?_⟩
        apply (LinkTree.nodup_names d).imp
        intro n m hne q hq hq'
        -- one path does not go on from `wd` with two names
        have hsuf := List.suffix_of_suffix_length_le (hsuffix n q hq) (hsuffix m q hq') le_rfl
        exact hne (List.cons.inj (hsuf.eq_of_length rfl)).1

/-- A fold whose steps append, and stop where there is no room or a condition fails. -/
theorem foldlM_append_iff {α β : Type} {f : List β → α → Option (List β)} {Q : α → Prop}
    {out : α → List β} {room : ℕ} {l : List α}
    (hf : ∀ x ∈ l, ∀ ys zs, ys.length ≤ room →
      (f ys x = some zs ↔ Q x ∧ ys.length + (out x).length ≤ room ∧ zs = ys ++ out x))
    (ys zs : List β) (hys : ys.length ≤ room) :
    l.foldlM f ys = some zs ↔ (∀ x ∈ l, Q x) ∧ ys.length + (l.flatMap out).length ≤ room ∧
      zs = ys ++ l.flatMap out := by
  induction l generalizing ys with
  | nil => simp [hys, eq_comm]
  | cons x l ih =>
    have hrest := ih fun y hy => hf y (List.mem_cons_of_mem x hy)
    have hfirst := fun ws => hf x List.mem_cons_self ys ws hys
    rw [List.foldlM_cons, List.flatMap_cons, List.forall_mem_cons]
    constructor
    · intro h
      obtain ⟨ws, hws, h⟩ := Option.bind_eq_some_iff.mp h
      obtain ⟨hx, hroom, rfl⟩ := (hfirst ws).mp hws
      obtain ⟨hl, hlen, rfl⟩ := (hrest _ (by rw [List.length_append]; exact hroom)).mp h
      rw [List.length_append] at hlen
      refine ⟨⟨hx, hl⟩, ?_, List.append_assoc _ _ _⟩
      rw [List.length_append]
      omega
    · rintro ⟨⟨hx, hl⟩, hlen, rfl⟩
      rw [List.length_append] at hlen
      have hws := (hfirst (ys ++ out x)).mpr ⟨hx, by omega, rfl⟩
      apply Option.bind_eq_some_iff.mpr
      refine ⟨_, hws, (hrest _ (by rw [List.length_append]; omega)).mpr ⟨hl, ?_, ?_⟩⟩
      · rw [List.length_append]
        omega
      · rw [List.append_assoc]

/-- What the recursion gets to behind an entry. -/
def below (fs : LinkTree ι Name) (links : ℕ) (root : ι) (fuel : ℕ) (wd : Path) :
    Component Name → List (Path × ι)
  | .name n => trail fs links root fuel (n :: wd)
  | _ => []

theorem length_pathText_cons (cwd : List Byte) (n : Name) (wd : Path) :
    (pathText cwd (n :: wd)).length = (pathText cwd wd).length + (n.length + 1) := by
  change (pathText cwd wd ++ slash :: n).length = _
  rw [List.length_append, List.length_cons]

theorem trail_of_dirAt_eq_none (h : dirAt fs links root wd = none) :
    trail fs links root fuel wd = [] := by
  cases fuel with
  | zero => rfl
  | succ fuel =>
    unfold trail
    rw [h]

/-- The room that the call from `wd` needs. -/
def Fits (fs : LinkTree ι Name) (cwd : List Byte) (calls : List ι) (visits : List (Path × ι)) :
    Prop :=
  (∀ v ∈ visits, EntriesFit fs cwd v.1 v.2) ∧ calls.length + visits.length ≤ inotifyCapacity

theorem forall_below_readdir_iff {P : Path × ι → Prop} :
    (∀ e ∈ readdir fs d, ∀ v ∈ below fs links root fuel wd e, P v) ↔
      ∀ v ∈ (fs.names d).flatMap fun n => trail fs links root fuel (n :: wd), P v := by
  unfold readdir
  rw [List.forall_mem_cons, List.forall_mem_cons, List.forall_mem_map]
  simp only [below, List.not_mem_nil, false_imp_iff, implies_true, true_and, List.mem_flatMap,
    forall_exists_index, and_imp]
  exact ⟨fun h v n hn hv => h n hn v hv, fun h n hn v hv => h v n hn hv⟩

theorem visitEntry_iff {recursive : List ι → Path → Option (List ι)} (e : Component Name)
    (hrec : ∀ n calls calls', calls.length ≤ inotifyCapacity →
      (pathText cwd (n :: wd)).length < pathMax → (recursive calls (n :: wd) = some calls' ↔
        Fits fs cwd calls (trail fs links root fuel (n :: wd)) ∧
          calls' = calls ++ (trail fs links root fuel (n :: wd)).map Prod.snd))
    {calls calls' : List ι} (hcalls : calls.length ≤ inotifyCapacity) :
    visitEntry fs links root cwd recursive wd calls e = some calls' ↔
      (EntryFits cwd wd e ∧ ∀ v ∈ below fs links root fuel wd e, EntriesFit fs cwd v.1 v.2) ∧
        calls.length + ((below fs links root fuel wd e).map Prod.snd).length ≤ inotifyCapacity ∧
        calls' = calls ++ (below fs links root fuel wd e).map Prod.snd := by
  unfold visitEntry
  by_cases hfits : EntryFits cwd wd e
  · rw [if_pos hfits]
    cases e with
    | here => simp [below, hfits, hcalls, eq_comm]
    | up => simp [below, hfits, hcalls, eq_comm]
    | name n =>
      unfold below
      dsimp only
      cases hn : dirAt fs links root (n :: wd) with
      | none =>
        rw [trail_of_dirAt_eq_none hn]
        simp [hfits, hcalls, eq_comm]
      | some child =>
        have hcall := hrec n calls calls' hcalls hfits
        change recursive calls (n :: wd) = some calls' ↔ _
        rw [hcall, List.length_map]
        unfold Fits
        simp only [hfits, true_and, and_assoc]
  · rw [if_neg hfits]
    exact iff_of_false nofun fun h => hfits h.1.1

/-- The call returns when there is room for all directories and for the paths of all entries. -/
theorem addWatcherRecursive_iff {calls calls' : List ι} (hcalls : calls.length ≤ inotifyCapacity)
    (hpos : 0 < fuel) (hfuel : pathMax ≤ fuel + (pathText cwd wd).length) :
    addWatcherRecursive fs links root cwd fuel calls wd = some calls' ↔
      Fits fs cwd calls (trail fs links root fuel wd) ∧
        calls' = calls ++ (trail fs links root fuel wd).map Prod.snd := by
  induction fuel generalizing calls calls' wd with
  | zero => exact absurd hpos (lt_irrefl 0)
  | succ fuel ih =>
    unfold addWatcherRecursive trail
    cases hwd : dirAt fs links root wd with
    | none => simp [Fits, hcalls, eq_comm]
    | some d =>
      have hrec : ∀ n calls calls', calls.length ≤ inotifyCapacity →
          (pathText cwd (n :: wd)).length < pathMax →
            (addWatcherRecursive fs links root cwd fuel calls (n :: wd) = some calls' ↔
              Fits fs cwd calls (trail fs links root fuel (n :: wd)) ∧
                calls' = calls ++ (trail fs links root fuel (n :: wd)).map Prod.snd) := by
        intro n calls calls' hcalls hshort
        have hlen := length_pathText_cons cwd n wd
        exact ih hcalls (by omega) (by omega)
      have hout : (readdir fs d).flatMap (fun e => (below fs links root fuel wd e).map Prod.snd) =
          ((fs.names d).flatMap fun n => trail fs links root fuel (n :: wd)).map Prod.snd := by
        unfold readdir
        rw [List.flatMap_cons, List.flatMap_cons, List.flatMap_map, List.map_flatMap]
        rfl
      have hentries : (∀ e ∈ readdir fs d, EntryFits cwd wd e ∧
          ∀ v ∈ below fs links root fuel wd e, EntriesFit fs cwd v.1 v.2) ↔
          EntriesFit fs cwd wd d ∧
            ∀ v ∈ (fs.names d).flatMap fun n => trail fs links root fuel (n :: wd),
              EntriesFit fs cwd v.1 v.2 := by
        rw [← forall_below_readdir_iff]
        exact forall₂_and
      dsimp only
      by_cases hroom : calls.length < inotifyCapacity ∧
          (pathText cwd wd ++ [slash]).length < pathMax
      · have hlen : (calls ++ [d]).length ≤ inotifyCapacity := by
          rw [List.length_append]
          exact hroom.1
        have hfold := foldlM_append_iff
          (fun e (_ : e ∈ readdir fs d) ys zs hys => visitEntry_iff e hrec hys) _ calls' hlen
        have hcount : ∀ visits : List (Path × ι), calls.length + [d].length + visits.length =
            calls.length + ((wd, d) :: visits).length := by
          intro visits
          rw [List.length_singleton, List.length_cons]
          omega
        rw [if_pos hroom, hfold, hentries, hout]
        unfold Fits
        rw [List.forall_mem_cons, List.length_append, List.length_map, hcount, List.append_assoc]
        exact and_assoc.symm
      · rw [if_neg hroom]
        refine iff_of_false nofun ?_
        rintro ⟨⟨hfit, hlen⟩, _⟩
        rw [List.forall_mem_cons] at hfit
        have hup : (pathText cwd wd ++ slash :: ascii "..").length < pathMax :=
          hfit.1 .up (List.mem_cons_of_mem _ List.mem_cons_self)
        rw [List.length_cons] at hlen
        rw [List.length_append, List.length_cons] at hup
        apply hroom
        rw [List.length_append, List.length_singleton]
        omega

theorem length_le_pathText (cwd : List Byte) (wd : Path) :
    wd.length ≤ (pathText cwd wd).length := by
  induction wd with
  | nil => exact Nat.zero_le _
  | cons n wd ih =>
    rw [length_pathText_cons, List.length_cons]
    omega

/-- Where all entries fit, the recursion gets to all directories. -/
theorem mem_trail_of_fit
    (hfit : ∀ v ∈ trail fs links root pathMax [], EntriesFit fs cwd v.1 v.2)
    (h : dirAt fs links root p = some d) : (p, d) ∈ trail fs links root pathMax [] := by
  induction p generalizing d with
  | nil => exact mem_trail_of_dirAt h List.suffix_rfl (show 0 < 0 + 4096 by omega)
  | cons n q ih =>
    obtain ⟨above, habove, hname⟩ := exists_dirAt_above h
    have hentry : Component.name n ∈ readdir fs above :=
      List.mem_cons_of_mem _ (List.mem_cons_of_mem _ (List.mem_map_of_mem hname))
    have hshort : (pathText cwd (n :: q)).length < pathMax := hfit _ (ih habove) _ hentry
    have hlen := length_le_pathText cwd (n :: q)
    apply mem_trail_of_dirAt h List.nil_suffix
    rw [List.length_nil, Nat.zero_add]
    exact hlen.trans_lt hshort

theorem watchRoot_iff {calls : List ι} :
    watchRoot fs links root cwd = some calls ↔
      (∀ v ∈ trail fs links root pathMax [], EntriesFit fs cwd v.1 v.2) ∧
        (trail fs links root pathMax []).length ≤ inotifyCapacity ∧
        calls = (trail fs links root pathMax []).map Prod.snd := by
  have hcall : watchRoot fs links root cwd = some calls ↔
      Fits fs cwd [] (trail fs links root pathMax []) ∧
        calls = [] ++ (trail fs links root pathMax []).map Prod.snd :=
    addWatcherRecursive_iff (Nat.zero_le _) (show 0 < 4096 by omega) (Nat.le_add_right _ _)
  rw [hcall]
  unfold Fits
  rw [List.length_nil, Nat.zero_add, List.nil_append, and_assoc]

theorem VisitsOnce.onePath (h : VisitsOnce fs links root cwd) {p q : Path} {d : ι}
    (hp : dirAt fs links root p = some d) (hq : dirAt fs links root q = some d) : p = q := by
  obtain ⟨calls, hcalls, hnodup, _⟩ := h
  obtain ⟨hfit, _, rfl⟩ := watchRoot_iff.mp hcalls
  have hsame := List.inj_on_of_nodup_map hnodup (mem_trail_of_fit hfit hp)
    (mem_trail_of_fit hfit hq) rfl
  exact congrArg Prod.fst hsame

theorem encard_setOf_mem {α : Type} {l : List α} (hl : l.Nodup) :
    {x | x ∈ l}.encard = l.length := by
  classical
  have hset : {x | x ∈ l} = (l.toFinset : Set α) := by
    ext x
    simp
  rw [hset, Set.encard_coe_eq_coe_finsetCard, List.toFinset_card_of_nodup hl]

end Trail

section Once
variable {ι : Type} (fs : LinkTree ι Name) (links : ℕ) (root : ι) (cwd : List Byte)

/-- Each directory gets one watch exactly when one path leads to each, and there is room for all. -/
theorem visitsOnce_iff : VisitsOnce fs links root cwd ↔ SmallTree fs links root cwd := by
  constructor
  · intro h
    obtain ⟨calls, hcalls, hnodup, hmem⟩ := h
    obtain ⟨hfit, hlen, hmap⟩ := watchRoot_iff.mp hcalls
    refine ⟨?_, ?_, ?_⟩
    · intro p q d hp hq
      exact VisitsOnce.onePath ⟨calls, hcalls, hnodup, hmem⟩ hp hq
    · intro p d hp
      exact hfit _ (mem_trail_of_fit hfit hp)
    · have hset : {d | Reachable fs links root d} = {d | d ∈ calls} := Set.ext fun d => (hmem d).symm
      rw [hset, encard_setOf_mem hnodup, hmap, List.length_map]
      exact Nat.cast_le.mpr hlen
  · rintro ⟨hpath, hfit, hfew⟩
    have hentries : ∀ v ∈ trail fs links root pathMax [], EntriesFit fs cwd v.1 v.2 :=
      fun v hv => hfit _ _ (dirAt_of_mem_trail hv).1
    have hnodup : ((trail fs links root pathMax []).map Prod.snd).Nodup := by
      apply (nodup_trail fs links root pathMax []).of_map.map_on
      rintro ⟨p, d⟩ hp ⟨q, e⟩ hq he
      obtain rfl : d = e := he
      rw [hpath p q d (dirAt_of_mem_trail hp).1 (dirAt_of_mem_trail hq).1]
    have hmem : ∀ d, d ∈ (trail fs links root pathMax []).map Prod.snd ↔
        Reachable fs links root d := by
      intro d
      constructor
      · intro hd
        obtain ⟨⟨p, d⟩, hp, rfl⟩ := List.mem_map.mp hd
        exact ⟨p, (dirAt_of_mem_trail hp).1⟩
      · rintro ⟨p, hp⟩
        exact List.mem_map_of_mem (f := Prod.snd) (mem_trail_of_fit hentries hp)
    have hlen : (trail fs links root pathMax []).length ≤ inotifyCapacity := by
      have hset : {d | Reachable fs links root d} =
          {d | d ∈ (trail fs links root pathMax []).map Prod.snd} :=
        Set.ext fun d => (hmem d).symm
      rw [hset, encard_setOf_mem hnodup, List.length_map] at hfew
      exact Nat.cast_le.mp hfew
    exact ⟨_, watchRoot_iff.mpr ⟨hentries, hlen, rfl⟩, hnodup, hmem⟩

end Once

/-- "/w" with one entry, the link "l" to "." -/
def selfLink : LinkTree ℕ Name where
  root := 0
  inode
    | 0 => .dir 0 [(ascii "w", 1)]
    | 1 => .dir 0 [(ascii "l", 2)]
    | 2 => .link false [.here]
    | _ => .other
  nodup_entries := by
    intro d parent entries h
    split at h <;> cases h <;> exact List.nodup_singleton _

/-- "/w" and "/w/l" are one directory. -/
theorem selfLink_visited_again : ¬ VisitsOnce selfLink 40 1 (ascii "/w") := by
  intro h
  have hself : dirAt selfLink 40 1 [] = some 1 := rfl
  have hlink : dirAt selfLink 40 1 [ascii "l"] = some 1 := rfl
  exact absurd (h.onePath hself hlink) (List.cons_ne_nil _ _).symm

end OsTasks.Backup.Linked

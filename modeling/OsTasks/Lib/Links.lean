import Mathlib.Tactic

/-! File systems with symbolic links, and the resolution of path names in them. -/
namespace OsTasks.Lib

/-- A component of a path name. -/
inductive Component (ν : Type*) where
  /-- "." -/
  | here
  /-- ".." -/
  | up
  | name (n : ν)
  deriving DecidableEq

inductive Inode (ι ν : Type*) where
  | dir (parent : ι) (entries : List (ν × ι))
  | link (absolute : Bool) (target : List (Component ν))
  | other

structure LinkTree (ι ν : Type*) where
  root : ι
  inode : ι → Inode ι ν
  nodup_entries : ∀ d parent entries, inode d = .dir parent entries → (entries.map Prod.fst).Nodup

namespace LinkTree
variable {ι ν : Type*} [DecidableEq ν] (fs : LinkTree ι ν)

/-- The entry of a name. -/
def entry (entries : List (ν × ι)) (n : ν) : Option ι :=
  (entries.find? fun e => e.1 = n).map Prod.snd

/-- A path from the directory `d` on. `follow` goes on where a link leads. -/
def resolveWith (follow : ι → List (Component ν) → Option ι) : ι → List (Component ν) → Option ι
  | d, [] => some d
  | d, c :: cs =>
    match fs.inode d with
    | .dir parent entries =>
      match c with
      | .here => resolveWith follow d cs
      | .up => resolveWith follow parent cs
      | .name n =>
        (entry entries n).bind fun e =>
          match fs.inode e with
          | .link absolute target => follow (if absolute then fs.root else d) (target ++ cs)
          | _ => resolveWith follow e cs
    | _ => none

/-- A path that meets at most `links` links. -/
def resolve : ℕ → ι → List (Component ν) → Option ι
  | 0 => fs.resolveWith fun _ _ => none
  | links + 1 => fs.resolveWith (resolve links)

def isDir (d : ι) : Bool :=
  match fs.inode d with
  | .dir _ _ => true
  | _ => false

/-- The names that are entries of a directory. -/
def names (d : ι) : List ν :=
  match fs.inode d with
  | .dir _ entries => entries.map Prod.fst
  | _ => []

variable {fs}

omit [DecidableEq ν] in
theorem nodup_names (d : ι) : (fs.names d).Nodup := by
  unfold names
  cases hd : fs.inode d with
  | dir parent entries => exact fs.nodup_entries d parent entries hd
  | link absolute target => exact List.nodup_nil
  | other => exact List.nodup_nil

/-- Where a link leads does not depend on what follows it, so neither does a whole path. -/
theorem resolveWith_append {follow : ι → List (Component ν) → Option ι}
    {Q : ι → Prop} {e : ι} {ds : List (Component ν)}
    (hfollow : ∀ d cs, follow d (cs ++ ds) = some e → ∃ m, follow d cs = some m ∧ Q m)
    (hend : ∀ m, fs.resolveWith follow m ds = some e → Q m) {d : ι}
    {cs : List (Component ν)} (h : fs.resolveWith follow d (cs ++ ds) = some e) :
    ∃ m, fs.resolveWith follow d cs = some m ∧ Q m := by
  induction cs generalizing d with
  | nil => exact ⟨d, rfl, hend d h⟩
  | cons c cs ih =>
    rw [List.cons_append] at h
    unfold resolveWith at h ⊢
    cases hd : fs.inode d with
    | link absolute target =>
      rw [hd] at h
      cases h
    | other =>
      rw [hd] at h
      cases h
    | dir parent entries =>
      rw [hd] at h
      cases c with
      | here => exact ih h
      | up => exact ih h
      | name n =>
        obtain ⟨f, hf, h⟩ := Option.bind_eq_some_iff.mp h
        dsimp only
        rw [hf, Option.bind_some]
        cases hinode : fs.inode f with
        | link absolute target =>
          rw [hinode] at h
          exact hfollow _ (target ++ cs) (by rw [List.append_assoc]; exact h)
        | dir parent' entries' =>
          rw [hinode] at h
          exact ih h
        | other =>
          rw [hinode] at h
          exact ih h

/-- The path before its last part, which is resolved with the links that are left. -/
theorem resolve_append {links : ℕ} {d e : ι} {cs ds : List (Component ν)}
    (h : fs.resolve links d (cs ++ ds) = some e) :
    ∃ m, fs.resolve links d cs = some m ∧ ∃ k, fs.resolve k m ds = some e := by
  induction links generalizing d cs with
  | zero =>
    apply resolveWith_append _ _ h
    · exact nofun
    · exact fun m hm => ⟨0, hm⟩
  | succ links ih =>
    apply resolveWith_append _ _ h
    · exact fun d cs hd => ih hd
    · exact fun m hm => ⟨links + 1, hm⟩

theorem mem_names_of_resolve {links : ℕ} {d e : ι} {n : ν}
    (h : fs.resolve links d [.name n] = some e) : fs.isDir d = true ∧ n ∈ fs.names d := by
  have hwith : ∃ follow, fs.resolveWith follow d [.name n] = some e := by
    cases links with
    | zero => exact ⟨_, h⟩
    | succ links => exact ⟨_, h⟩
  obtain ⟨follow, h⟩ := hwith
  unfold resolveWith at h
  unfold isDir names
  cases hd : fs.inode d with
  | link absolute target =>
    rw [hd] at h
    cases h
  | other =>
    rw [hd] at h
    cases h
  | dir parent entries =>
    rw [hd] at h
    obtain ⟨f, hf, _⟩ := Option.bind_eq_some_iff.mp h
    obtain ⟨found, hfind, _⟩ := Option.map_eq_some_iff.mp hf
    have hname : found.1 = n := by simpa using List.find?_some hfind
    refine ⟨rfl, ?_⟩
    rw [← hname]
    exact List.mem_map_of_mem (List.mem_of_find?_eq_some hfind)

theorem resolve_concat {links : ℕ} {d e : ι} {cs : List (Component ν)} {n : ν}
    (h : fs.resolve links d (cs ++ [.name n]) = some e) :
    ∃ m, fs.resolve links d cs = some m ∧ fs.isDir m = true ∧ n ∈ fs.names m := by
  obtain ⟨m, hm, k, hk⟩ := resolve_append h
  obtain ⟨hdir, hname⟩ := mem_names_of_resolve hk
  exact ⟨m, hm, hdir, hname⟩

end LinkTree

end OsTasks.Lib

import Mathlib.Tactic
import Mathlib.Data.List.Infix
import Mathlib.Logic.Function.Basic

/-! Finite trees of directories and files. A path lists its names from the innermost one out. -/
namespace OsTasks.Lib

inductive Node (γ : Type*) where
  | dir
  | file (content : γ)
  deriving DecidableEq

structure FileTree (ν γ : Type*) where
  get : List ν → Option (Node γ)
  paths : List (List ν)
  mem_paths : ∀ p, get p ≠ none → p ∈ paths
  root : get [] = some .dir
  parent : ∀ n d, get (n :: d) ≠ none → get d = some .dir

namespace FileTree
variable {ν γ : Type*} [DecidableEq ν] [DecidableEq γ] (t : FileTree ν γ)

def empty : FileTree ν γ where
  get p := if p = [] then some .dir else none
  paths := [[]]
  mem_paths := by
    intro p hp
    rw [List.mem_singleton]
    by_contra hne
    exact hp (if_neg hne)
  root := if_pos rfl
  parent := by
    intro n d h
    exact absurd (if_neg (List.cons_ne_nil n d)) h

/-- An entry of a directory is made, or a file written over. -/
def Allows (n : ν) (d : List ν) (v : Node γ) : Prop :=
  t.get d = some .dir ∧ (t.get (n :: d) = none ∨ v ≠ .dir ∧ t.get (n :: d) ≠ some .dir)

instance (n : ν) (d : List ν) (v : Node γ) : Decidable (t.Allows n d v) :=
  inferInstanceAs (Decidable (_ ∧ _))

omit [DecidableEq ν] [DecidableEq γ] in
theorem allows_file_iff {t : FileTree ν γ} {n : ν} {d : List ν} {c : γ} :
    t.Allows n d (.file c) ↔ t.get d = some .dir ∧ t.get (n :: d) ≠ some .dir := by
  unfold Allows
  constructor
  · rintro ⟨hd, hnone | ⟨_, hfile⟩⟩
    · rw [hnone]
      exact ⟨hd, (Option.some_ne_none _).symm⟩
    · exact ⟨hd, hfile⟩
  · rintro ⟨hd, hfile⟩
    refine ⟨hd, Or.inr ⟨?_, hfile⟩⟩
    intro he
    cases he

/-- The tree with `v` as the entry `n` of the directory `d`, where that is allowed. -/
def put (n : ν) (d : List ν) (v : Node γ) : FileTree ν γ :=
  if h : t.Allows n d v then
    { get := Function.update t.get (n :: d) (some v)
      paths := (n :: d) :: t.paths
      mem_paths := by
        intro p hp
        by_cases he : p = n :: d
        · rw [he]
          exact List.mem_cons_self
        · rw [Function.update_of_ne he] at hp
          exact List.mem_cons_of_mem _ (t.mem_paths p hp)
      root := by
        rw [Function.update_of_ne (List.cons_ne_nil n d).symm]
        exact t.root
      parent := by
        intro m e he
        by_cases hchild : m :: e = n :: d
        · obtain ⟨rfl, rfl⟩ := List.cons_eq_cons.mp hchild
          have hne : e ≠ m :: e := (List.cons_ne_self m e).symm
          rw [Function.update_of_ne hne]
          exact h.1
        · rw [Function.update_of_ne hchild] at he
          have hdir := t.parent m e he
          by_cases hself : e = n :: d
          · subst hself
            rcases h.2 with hnone | ⟨_, hfile⟩
            · rw [hnone] at hdir
              cases hdir
            · exact absurd hdir hfile
          · rw [Function.update_of_ne hself]
            exact hdir }
  else t

/-- The tree without the file `n :: d`. -/
def removeFile (n : ν) (d : List ν) : FileTree ν γ :=
  if h : t.get (n :: d) = some .dir then t
  else
    { get := Function.update t.get (n :: d) none
      paths := t.paths
      mem_paths := by
        intro p hp
        by_cases he : p = n :: d
        · rw [he, Function.update_self] at hp
          exact absurd rfl hp
        · rw [Function.update_of_ne he] at hp
          exact t.mem_paths p hp
      root := by
        rw [Function.update_of_ne (List.cons_ne_nil n d).symm]
        exact t.root
      parent := by
        intro m e he
        by_cases hchild : m :: e = n :: d
        · rw [hchild, Function.update_self] at he
          exact absurd rfl he
        · rw [Function.update_of_ne hchild] at he
          have hdir := t.parent m e he
          by_cases hself : e = n :: d
          · subst hself
            exact absurd hdir h
          · rw [Function.update_of_ne hself]
            exact hdir }

variable {t}

theorem put_of_not_allows {n : ν} {d : List ν} {v : Node γ} (h : ¬ t.Allows n d v) :
    t.put n d v = t := dif_neg h

theorem get_put (n : ν) (d : List ν) (v : Node γ) (p : List ν) :
    (t.put n d v).get p = if p = n :: d ∧ t.Allows n d v then some v else t.get p := by
  unfold put
  split_ifs with h hp hp
  · rw [hp.1]
    exact Function.update_self _ _ _
  · exact Function.update_of_ne (fun he => hp ⟨he, h⟩) _ _
  · exact absurd hp.2 h
  · rfl

theorem get_put_of_ne {n : ν} {d : List ν} {v : Node γ} {p : List ν} (h : p ≠ n :: d) :
    (t.put n d v).get p = t.get p := by
  rw [get_put, if_neg (fun hp => h hp.1)]

theorem get_put_self {n : ν} {d : List ν} {v : Node γ} (h : t.Allows n d v) :
    (t.put n d v).get (n :: d) = some v := by
  rw [get_put, if_pos ⟨rfl, h⟩]

theorem get_put_of_dir {n : ν} {d : List ν} {v : Node γ} {p : List ν} (h : t.get p = some .dir) :
    (t.put n d v).get p = some .dir := by
  rw [get_put]
  split_ifs with hp
  · obtain ⟨rfl, _, hv⟩ := hp
    rcases hv with hnone | ⟨_, hfile⟩
    · rw [hnone] at h
      cases h
    · exact absurd h hfile
  · exact h

/-- A new directory is the only one `put` makes. -/
theorem dir_of_get_put {n : ν} {d : List ν} {v : Node γ} {p : List ν}
    (h : (t.put n d v).get p = some .dir) : t.get p = some .dir ∨ p = n :: d ∧ v = .dir := by
  rw [get_put] at h
  split_ifs at h with hp
  · exact Or.inr ⟨hp.1, Option.some.inj h⟩
  · exact Or.inl h

theorem get_removeFile_of_ne {n : ν} {d p : List ν} (h : p ≠ n :: d) :
    (t.removeFile n d).get p = t.get p := by
  unfold removeFile
  split_ifs
  · rfl
  · exact Function.update_of_ne h _ _

theorem get_removeFile_dir_iff {n : ν} {d p : List ν} :
    (t.removeFile n d).get p = some .dir ↔ t.get p = some .dir := by
  unfold removeFile
  split_ifs with h
  · exact Iff.rfl
  · by_cases hp : p = n :: d
    · rw [hp]
      change Function.update t.get (n :: d) none (n :: d) = some .dir ↔ _
      rw [Function.update_self]
      exact iff_of_false nofun h
    · change Function.update t.get (n :: d) none p = some .dir ↔ _
      rw [Function.update_of_ne hp]

omit [DecidableEq ν] [DecidableEq γ] in
theorem dir_of_suffix {p q : List ν} (h : t.get q = some .dir) (hp : p <:+ q) :
    t.get p = some .dir := by
  induction q with
  | nil =>
    rw [List.suffix_nil] at hp
    rw [hp]
    exact t.root
  | cons n d ih =>
    rcases List.suffix_cons_iff.mp hp with rfl | hp
    · exact h
    · apply ih _ hp
      apply t.parent n d
      rw [h]
      exact Option.some_ne_none _

variable (t)

/-- The entries of a directory, in some order. -/
def entries (d : List ν) : List (List ν) :=
  (t.paths.filter fun p => t.get p ≠ none ∧ p.tail = d ∧ p ≠ []).dedup

/-- All that is named `n` at any depth below `d`, in some order. -/
def named (d : List ν) (n : ν) : List (List ν) :=
  (t.paths.filter fun p => t.get p ≠ none ∧ p.head? = some n ∧ d <:+ p.tail).dedup

variable {t}

omit [DecidableEq γ] in
theorem mem_entries {d p : List ν} : p ∈ t.entries d ↔ t.get p ≠ none ∧ p.tail = d ∧ p ≠ [] := by
  simp only [entries, List.mem_dedup, List.mem_filter, decide_eq_true_eq, and_iff_right_iff_imp]
  intro h
  exact t.mem_paths p h.1

omit [DecidableEq γ] in
theorem mem_named {d p : List ν} {n : ν} :
    p ∈ t.named d n ↔ t.get p ≠ none ∧ p.head? = some n ∧ d <:+ p.tail := by
  simp only [named, List.mem_dedup, List.mem_filter, decide_eq_true_eq, and_iff_right_iff_imp]
  intro h
  exact t.mem_paths p h.1

/-- The tree of the directory `d` and those above it. -/
def chain : List ν → FileTree ν γ
  | [] => empty
  | n :: d => (chain d).put n d .dir

theorem suffix_of_get_chain {p d : List ν} (h : (chain (γ := γ) d).get p ≠ none) : p <:+ d := by
  induction d with
  | nil =>
    by_cases hp : p = []
    · rw [hp]
    · exact absurd (if_neg hp) h
  | cons n d ih =>
    by_cases hp : p = n :: d
    · rw [hp]
    · unfold chain at h
      rw [get_put_of_ne hp] at h
      exact (ih h).trans (List.suffix_cons n d)

theorem get_chain {p d : List ν} (h : p <:+ d) : (chain (γ := γ) d).get p = some .dir := by
  induction d generalizing p with
  | nil =>
    rw [List.suffix_nil.mp h]
    exact root _
  | cons n d ih =>
    have hnew : (chain (γ := γ) d).get (n :: d) = none := by
      by_contra hne
      have hle := (suffix_of_get_chain hne).length_le
      rw [List.length_cons] at hle
      omega
    unfold chain
    rcases List.suffix_cons_iff.mp h with rfl | h
    · exact get_put_self ⟨ih List.suffix_rfl, Or.inl hnew⟩
    · exact get_put_of_dir (ih h)

end FileTree

end OsTasks.Lib

import Mathlib.Tactic
import Mathlib.Logic.Function.Basic

/-! Descriptor tables: finitely many numbers refer to open files, and a new descriptor takes the
lowest free number. -/
namespace OsTasks.Lib

structure FdTable (φ : Type*) where
  get : ℕ → Option φ
  bound : ℕ
  get_of_le : ∀ n, bound ≤ n → get n = none

namespace FdTable
variable {φ : Type*} (t : FdTable φ)

def empty : FdTable φ := ⟨fun _ => none, 0, fun _ _ => rfl⟩

/-- Some descriptor refers to `f`. -/
def Holds (f : φ) : Prop := ∃ n < t.bound, t.get n = some f

instance [DecidableEq φ] (f : φ) : Decidable (t.Holds f) :=
  inferInstanceAs (Decidable (∃ n < t.bound, t.get n = some f))

def put (n : ℕ) (f : φ) : FdTable φ where
  get := Function.update t.get n (some f)
  bound := max t.bound (n + 1)
  get_of_le := by
    intro m hm
    rw [Function.update_of_ne (by omega)]
    exact t.get_of_le m (by omega)

def close (n : ℕ) : FdTable φ where
  get := Function.update t.get n none
  bound := t.bound
  get_of_le := by
    intro m hm
    by_cases h : m = n
    · rw [h, Function.update_self]
    · rw [Function.update_of_ne h]
      exact t.get_of_le m hm

def lowestFree : ℕ := ((List.range t.bound).find? fun n => (t.get n).isNone).getD t.bound

/-- The new descriptor and the table with it. -/
def alloc (f : φ) : ℕ × FdTable φ := (t.lowestFree, t.put t.lowestFree f)

/-- The numbers of the next `n` descriptors. -/
def allocs (f : φ) : FdTable φ → ℕ → List ℕ
  | _, 0 => []
  | t, n + 1 => (t.alloc f).1 :: allocs f (t.alloc f).2 n

/-- `dup2` on a closed descriptor fails and changes nothing. -/
def dup2 (old new : ℕ) : FdTable φ :=
  match t.get old with
  | none => t
  | some f => t.put new f

/-- The table over other names of the open files. -/
def map {ψ : Type*} (rename : φ → ψ) : FdTable ψ where
  get := fun n => (t.get n).map rename
  bound := t.bound
  get_of_le := by
    intro m hm
    rw [t.get_of_le m hm]
    rfl

/-- The descriptors in use. -/
def openFds : Finset ℕ := (Finset.range t.bound).filter fun n => (t.get n).isSome

variable {t}

theorem mem_openFds {n : ℕ} : n ∈ t.openFds ↔ (t.get n).isSome := by
  unfold openFds
  rw [Finset.mem_filter, Finset.mem_range]
  constructor
  · intro h
    exact h.2
  · intro h
    refine ⟨?_, h⟩
    by_contra hn
    rw [t.get_of_le n (not_lt.mp hn)] at h
    cases h

@[simp] theorem get_map {ψ : Type*} (rename : φ → ψ) (n : ℕ) :
    (t.map rename).get n = (t.get n).map rename := rfl

@[simp] theorem openFds_map {ψ : Type*} (rename : φ → ψ) : (t.map rename).openFds = t.openFds := by
  ext n
  rw [mem_openFds, mem_openFds, get_map, Option.isSome_map]

@[simp] theorem get_put (n : ℕ) (f : φ) (m : ℕ) :
    (t.put n f).get m = if m = n then some f else t.get m := by
  simp only [put, Function.update_apply]

@[simp] theorem get_close (n m : ℕ) : (t.close n).get m = if m = n then none else t.get m := by
  simp only [close, Function.update_apply]

theorem dup2_eq_put {old new : ℕ} {f : φ} (h : t.get old = some f) :
    t.dup2 old new = t.put new f := by
  unfold dup2
  rw [h]

theorem holds_iff {f : φ} : t.Holds f ↔ ∃ n, t.get n = some f := by
  constructor
  · rintro ⟨n, _, h⟩
    exact ⟨n, h⟩
  · rintro ⟨n, h⟩
    refine ⟨n, ?_, h⟩
    by_contra hn
    rw [t.get_of_le n (not_lt.mp hn)] at h
    cases h

theorem get_lowestFree (t : FdTable φ) : t.get t.lowestFree = none := by
  unfold lowestFree
  cases h : (List.range t.bound).find? fun n => (t.get n).isNone with
  | none => exact t.get_of_le _ le_rfl
  | some n => simpa using List.find?_some h

theorem isSome_of_lt_lowestFree {m : ℕ} (h : m < t.lowestFree) : (t.get m).isSome := by
  by_contra hm
  rw [Bool.not_eq_true, Option.isSome_eq_false_iff] at hm
  unfold lowestFree at h
  cases hf : (List.range t.bound).find? fun n => (t.get n).isNone with
  | none =>
    rw [hf, Option.getD_none] at h
    have hnone := List.find?_eq_none.mp hf m (List.mem_range.mpr h)
    exact hnone hm
  | some n =>
    rw [hf, Option.getD_some] at h
    obtain ⟨_, i, hi, hn, hbefore⟩ := List.find?_eq_some_iff_getElem.mp hf
    rw [List.getElem_range] at hn
    rw [List.length_range] at hi
    have hlt := hbefore m (hn ▸ h)
    rw [List.getElem_range, hm] at hlt
    cases hlt

/-- Numbers are handed out in order. -/
theorem lowestFree_lt_put (t : FdTable φ) (f : φ) :
    t.lowestFree < (t.put t.lowestFree f).lowestFree := by
  by_contra h
  have hfree := (t.put t.lowestFree f).get_lowestFree
  rw [get_put] at hfree
  split_ifs at hfree with he
  have hsome := t.isSome_of_lt_lowestFree (lt_of_le_of_ne (not_lt.mp h) he)
  rw [hfree] at hsome
  cases hsome

@[simp] theorem length_allocs (f : φ) (t : FdTable φ) (n : ℕ) : (t.allocs f n).length = n := by
  induction n generalizing t with
  | zero => rfl
  | succ n ih => exact congrArg (· + 1) (ih (t.alloc f).2)

theorem lowestFree_le_of_mem_allocs {f : φ} {t : FdTable φ} {n m : ℕ} (h : m ∈ t.allocs f n) :
    t.lowestFree ≤ m := by
  induction n generalizing t with
  | zero => cases h
  | succ n ih =>
    rcases List.mem_cons.mp h with rfl | h
    · exact le_rfl
    · exact (t.lowestFree_lt_put f).le.trans (ih h)

theorem nodup_allocs (f : φ) (t : FdTable φ) (n : ℕ) : (t.allocs f n).Nodup := by
  induction n generalizing t with
  | zero => exact List.nodup_nil
  | succ n ih =>
    refine List.nodup_cons.mpr ⟨?_, ih (t.alloc f).2⟩
    intro h
    exact absurd (t.lowestFree_lt_put f) (not_lt.mpr (lowestFree_le_of_mem_allocs h))

end FdTable

end OsTasks.Lib

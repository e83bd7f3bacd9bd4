import Mathlib.Data.List.Perm.Subperm
import Mathlib.Tactic.Linarith

/-! A recursion that opens the nodes of a tree and goes through their children, where a node can be
opened only so often. What is done on the way may fail. -/
namespace OsTasks.Lib

/-- What the recursion comes to: it opens a node, and gets to each of its children. -/
inductive Visit (α : Type*) where
  | opened (x : α)
  | entry (x : α)

namespace Visit
variable {α : Type*}

def node : Visit α → Option α
  | opened x => some x
  | entry _ => none

def child : Visit α → Option α
  | opened _ => none
  | entry x => some x

end Visit

section Descent
variable {α σ : Type*} (opens : α → Prop) [DecidablePred opens] (children : α → List α)

/-- The nodes that can be opened, each before its children. -/
def preorder : ℕ → α → List α
  | 0, _ => []
  | fuel + 1, x => if opens x then x :: (children x).flatMap (preorder fuel) else []

/-- `f` of each element, with what the ones before it leave of `free`. -/
def withRest {β : Type*} (cost : α → ℕ) (f : ℕ → α → List β) : ℕ → List α → List β
  | _, [] => []
  | free, x :: xs => f free x ++ withRest cost f (free - cost x) xs

/-- The visits of a recursion that may open `free` nodes. -/
def visits : ℕ → ℕ → α → List (Visit α)
  | 0, _, _ => []
  | fuel + 1, free, x =>
    if opens x ∧ free ≠ 0 then
      .opened x :: withRest (fun y => (preorder opens children fuel y).length)
        (fun free y => .entry y :: visits fuel free y) (free - 1) (children x)
    else []

/-- The recursion with what it does at each visit. A node that cannot be opened any more is passed
over. -/
def descend (act : σ → Visit α → Option σ) : ℕ → ℕ × σ → α → Option (ℕ × σ)
  | 0, s, _ => some s
  | fuel + 1, s, x =>
    if opens x ∧ s.1 ≠ 0 then
      (act s.2 (.opened x)).bind fun t =>
        (children x).foldlM
          (fun s y => (act s.2 (.entry y)).bind fun t => descend act fuel (s.1, t) y) (s.1 - 1, t)
    else some s

/-- The recursion does what its visits do one after the other. -/
theorem descend_eq (act : σ → Visit α → Option σ) (fuel free : ℕ) (s : σ) (x : α) :
    descend opens children act fuel (free, s) x =
      ((visits opens children fuel free x).foldlM act s).map fun t =>
        (free - (preorder opens children fuel x).length, t) := by
  induction fuel generalizing free s x with
  | zero => rfl
  | succ fuel ih =>
    have hlist : ∀ (xs : List α) (free : ℕ) (s : σ),
        xs.foldlM (fun s y => (act s.2 (.entry y)).bind fun t =>
            descend opens children act fuel (s.1, t) y) (free, s) =
          ((withRest (fun y => (preorder opens children fuel y).length)
            (fun free y => .entry y :: visits opens children fuel free y) free xs).foldlM
              act s).map fun t => (free - (xs.flatMap (preorder opens children fuel)).length, t) := by
      intro xs
      induction xs with
      | nil => exact fun _ _ => rfl
      | cons y ys ihs =>
        intro free s
        rw [List.foldlM_cons, withRest, List.cons_append, List.foldlM_cons, List.flatMap_cons,
          List.length_append, ← Nat.sub_sub]
        cases act s (.entry y) with
        | none => rfl
        | some t =>
          simp only [Option.bind_eq_bind, Option.bind_some]
          rw [ih, List.foldlM_append]
          cases (visits opens children fuel free y).foldlM act t with
          | none => rfl
          | some u => exact ihs _ u
    rw [descend, visits, preorder]
    by_cases hx : opens x ∧ free ≠ 0
    · obtain ⟨hopens, hfree⟩ := hx
      rw [if_pos ⟨hopens, hfree⟩, if_pos hopens, if_pos ⟨hopens, hfree⟩, List.foldlM_cons]
      cases act s (.opened x) with
      | none => rfl
      | some t =>
        simp only [Option.bind_eq_bind, Option.bind_some]
        rw [hlist, List.length_cons, Nat.add_comm, Nat.sub_sub]
    · rw [if_neg hx, if_neg hx]
      have hleft : free - (if opens x then
          x :: (children x).flatMap (preorder opens children fuel) else []).length = free := by
        by_cases hopens : opens x
        · rw [not_not.mp fun hfree => hx ⟨hopens, hfree⟩, Nat.zero_sub]
        · rw [if_neg hopens, List.length_nil, Nat.sub_zero]
      rw [hleft]
      rfl

/-- The first nodes in the order of the recursion are opened. -/
theorem nodes_visits (fuel free : ℕ) (x : α) :
    (visits opens children fuel free x).filterMap Visit.node =
      (preorder opens children fuel x).take free := by
  induction fuel generalizing free x with
  | zero => exact List.take_nil.symm
  | succ fuel ih =>
    have hlist : ∀ (xs : List α) (free : ℕ),
        (withRest (fun y => (preorder opens children fuel y).length)
          (fun free y => .entry y :: visits opens children fuel free y) free xs).filterMap
            Visit.node = (xs.flatMap (preorder opens children fuel)).take free := by
      intro xs
      induction xs with
      | nil => exact fun _ => List.take_nil.symm
      | cons y ys ihs =>
        intro free
        rw [withRest, List.filterMap_append, ihs, List.flatMap_cons, List.take_append]
        exact congrArg (· ++ _) (ih free y)
    rw [visits, preorder]
    by_cases hx : opens x
    · cases free with
      | zero =>
        rw [if_neg (fun h => h.2 rfl), List.take_zero]
        rfl
      | succ free =>
        rw [if_pos ⟨hx, Nat.succ_ne_zero free⟩, if_pos hx, List.take_succ_cons, ← hlist]
        rfl
    · rw [if_neg (fun h => hx h.1), if_neg hx, List.take_nil]
      rfl

/-- The children of the nodes that are opened are gone through. -/
theorem children_visits (fuel free : ℕ) (x : α) :
    ((visits opens children fuel free x).filterMap Visit.child).Perm
      (((preorder opens children fuel x).take free).flatMap children) := by
  induction fuel generalizing free x with
  | zero =>
    rw [visits, preorder]
    rw [List.take_nil]
    exact List.Perm.refl _
  | succ fuel ih =>
    have hlist : ∀ (xs : List α) (free : ℕ),
        ((withRest (fun y => (preorder opens children fuel y).length)
          (fun free y => .entry y :: visits opens children fuel free y) free xs).filterMap
            Visit.child).Perm
          (xs ++ ((xs.flatMap (preorder opens children fuel)).take free).flatMap children) := by
      intro xs
      induction xs with
      | nil =>
        intro free
        rw [List.flatMap_nil, List.take_nil]
        exact List.Perm.refl _
      | cons y ys ihs =>
        intro free
        rw [withRest, List.filterMap_append, List.flatMap_cons, List.take_append, List.flatMap_append]
        have hfirst := (ih free y).cons y
        refine (hfirst.append (ihs _)).trans ?_
        rw [List.cons_append, List.cons_append, ← List.append_assoc, ← List.append_assoc]
        exact (List.perm_append_comm.append_right _).cons y
    rw [visits, preorder]
    by_cases hx : opens x
    · cases free with
      | zero =>
        rw [if_neg (fun h => h.2 rfl), List.take_zero]
        exact List.Perm.refl _
      | succ free =>
        rw [if_pos ⟨hx, Nat.succ_ne_zero free⟩, if_pos hx, List.take_succ_cons, List.flatMap_cons]
        exact hlist (children x) free
    · rw [if_neg (fun h => hx h.1), if_neg hx, List.take_nil]
      exact List.Perm.refl _

end Descent

theorem forall_mem_take_iff {α : Type*} {l : List α} (hd : l.Nodup) (n : ℕ) :
    (∀ x ∈ l, x ∈ l.take n) ↔ l.length ≤ n := by
  constructor
  · intro h
    have hsub : l ⊆ l.take n := h
    have hlen := (List.subperm_of_subset hd hsub).length_le
    rw [List.length_take] at hlen
    omega
  · intro h x hx
    rw [List.take_of_length_le h]
    exact hx

end OsTasks.Lib

import Mathlib.Tactic

/-! Streams to which several writers append: each item carries its writer. -/
namespace OsTasks.Lib
variable {ι β : Type*}

/-- What `j` writes, in its order. -/
def tagged (items : ι → List β) (j : ι) : List (ι × β) := (items j).map (Prod.mk j)

/-- The writers' whole sequences, one writer after the other. -/
def inTurn (items : ι → List β) (order : List ι) : List (ι × β) := order.flatMap (tagged items)

variable {items : ι → List β}

@[simp] theorem inTurn_nil : inTurn items [] = [] := rfl

@[simp] theorem inTurn_cons (j : ι) (order : List ι) :
    inTurn items (j :: order) = tagged items j ++ inTurn items order := rfl

theorem inTurn_concat (order : List ι) (j : ι) :
    inTurn items (order ++ [j]) = inTurn items order ++ tagged items j := by
  rw [inTurn, List.flatMap_append, List.flatMap_singleton]
  rfl

theorem tagged_eq_nil_iff {j : ι} : tagged items j = [] ↔ items j = [] := List.map_eq_nil_iff

/-- A writer with more than one item is not followed by another after its first. -/
theorem eq_of_isPrefix_inTurn {order : List ι} {a b : ι} {x y : β}
    (h : [(a, x), (b, y)] <+: inTurn items order) (ha : 1 < (items a).length) : a = b := by
  induction order with
  | nil =>
    have := h.length_le
    simp at this
  | cons j order ih =>
    rw [inTurn_cons] at h
    cases hj : items j with
    | nil =>
      rw [tagged_eq_nil_iff.mpr hj, List.nil_append] at h
      exact ih h
    | cons z l =>
      unfold tagged at h
      rw [hj, List.map_cons, List.cons_append, List.cons_prefix_cons] at h
      obtain ⟨he, hrest⟩ := h
      obtain ⟨rfl, rfl⟩ := Prod.mk.inj he
      rw [hj] at ha
      cases l with
      | nil => exact absurd ha (by simp)
      | cons z' l =>
        rw [List.map_cons, List.cons_append, List.cons_prefix_cons] at hrest
        exact (Prod.mk.inj hrest.1).1.symm

theorem map_snd_inTurn (order : List ι) :
    (inTurn items order).map Prod.snd = order.flatMap items := by
  induction order with
  | nil => rfl
  | cons j order ih =>
    have hj : (tagged items j).map Prod.snd = items j := by
      unfold tagged
      rw [List.map_map]
      exact List.map_id _
    rw [inTurn_cons, List.map_append, ih, hj, List.flatMap_cons]

end OsTasks.Lib

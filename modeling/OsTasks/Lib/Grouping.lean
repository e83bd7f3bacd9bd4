import Mathlib.Tactic

/-! Lists split by a key, and the indices of the entries that satisfy a predicate. -/
namespace OsTasks.Lib
variable {α κ : Type*}

/-- The parts of a list by a key, over keys that are all different and leave none out. -/
theorem perm_flatMap_filter [DecidableEq κ] (key : α → κ) {ks : List κ} (hks : ks.Nodup)
    {l : List α} (hl : ∀ a ∈ l, key a ∈ ks) :
    (ks.flatMap fun k => l.filter fun a => key a = k).Perm l := by
  induction ks generalizing l with
  | nil =>
    have hnil : l = [] := List.eq_nil_iff_forall_not_mem.mpr fun a ha => List.not_mem_nil (hl a ha)
    rw [hnil]
    exact List.Perm.refl _
  | cons k ks ih =>
    obtain ⟨hk, hks⟩ := List.nodup_cons.mp hks
    have hrest : ∀ a ∈ l.filter fun a => !decide (key a = k), key a ∈ ks := by
      intro a ha
      have hmem := List.mem_filter.mp ha
      have hne : key a ≠ k := by simpa using hmem.2
      exact (List.mem_cons.mp (hl a hmem.1)).resolve_left hne
    have hsame : (ks.flatMap fun k' => l.filter fun a => key a = k') =
        ks.flatMap fun k' =>
          (l.filter fun a => !decide (key a = k)).filter fun a => key a = k' := by
      apply List.flatMap_congr
      intro k' hk'
      have hne : k' ≠ k := by
        rintro rfl
        exact hk hk'
      rw [List.filter_filter]
      apply List.filter_congr
      intro a _
      by_cases ha : key a = k'
      · simp [ha, hne]
      · simp [ha]
    rw [List.flatMap_cons, hsame]
    have hparts := (List.Perm.refl (l.filter fun a => key a = k)).append (ih hks hrest)
    exact hparts.trans (List.filter_append_perm _ l)

theorem filterMap_getElem?_filter (p : α → Bool) (l : List α) :
    ((List.range l.length).filter fun j => (l[j]?).any p).filterMap (l[·]?) = l.filter p := by
  induction l using List.reverseRecOn with
  | nil => rfl
  | append_singleton l a ih =>
    have hold : ∀ j ∈ List.range l.length, (l ++ [a])[j]? = l[j]? :=
      fun j hj => List.getElem?_append_left (List.mem_range.mp hj)
    have hfront : ((List.range l.length).filter fun j => ((l ++ [a])[j]?).any p) =
        (List.range l.length).filter fun j => (l[j]?).any p := by
      apply List.filter_congr
      intro j hj
      rw [hold j hj]
    have hmap : ((List.range l.length).filter fun j => (l[j]?).any p).filterMap ((l ++ [a])[·]?) =
        l.filter p := by
      rw [← ih]
      apply List.filterMap_congr
      intro j hj
      exact hold j (List.mem_filter.mp hj).1
    have hlast : (l ++ [a])[l.length]? = some a := by simp
    rw [List.length_append, List.length_singleton, List.range_succ, List.filter_append, hfront,
      List.filterMap_append, hmap, List.filter_append, List.filter_singleton, hlast]
    cases hp : p a with
    | false => simp [hp]
    | true => simp [hp]

end OsTasks.Lib

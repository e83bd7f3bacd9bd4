import Mathlib.Data.Nat.ModEq
import Mathlib.Data.List.Basic

/-! A buffer of `n` cells used as a ring: the element with number `k` of what was put in lies in
the cell `k % n`. -/
namespace OsTasks.Lib
variable {α : Type*}

/-- The cells hold the elements of `xs` from number `r` on. -/
def Window (n : ℕ) (cells xs : List α) (r : ℕ) : Prop :=
  ∀ k, r ≤ k → k < xs.length → cells[k % n]? = xs[k]?

namespace Window
variable {n : ℕ} {cells xs : List α} {r : ℕ}

theorem nil (n : ℕ) (cells : List α) : Window n cells [] 0 := by
  intro k _ hk
  cases hk

theorem pop (h : Window n cells xs r) : Window n cells xs (r + 1) :=
  fun k hr hk => h k (by omega) hk

/-- A new element goes into the cell behind the last one while the ring has room. -/
theorem push (h : Window n cells xs r) (hcells : cells.length = n) (hroom : xs.length < r + n)
    (hr : r ≤ xs.length) (x : α) :
    Window n (cells.set (xs.length % n) x) (xs ++ [x]) r := by
  have hn : 0 < n := by omega
  intro k hk hlen
  rw [List.length_append, List.length_singleton] at hlen
  by_cases hlast : k = xs.length
  · subst k
    have hlt : xs.length % n < cells.length := (Nat.mod_lt _ hn).trans_eq hcells.symm
    rw [List.getElem?_set_self hlt, List.getElem?_append_right le_rfl]
    simp
  · have hlt : k < xs.length := by omega
    have hne : xs.length % n ≠ k % n := by
      intro heq
      have hdvd : n ∣ xs.length - k := (Nat.modEq_iff_dvd' (by omega)).mp heq.symm
      have := Nat.le_of_dvd (by omega) hdvd
      omega
    rw [List.getElem?_set_ne hne, List.getElem?_append_left hlt]
    exact h k hk hlt

theorem front (h : Window n cells xs r) (hr : r < xs.length) (d : α) :
    xs.take (r + 1) = xs.take r ++ [cells.getD (r % n) d] := by
  rw [List.getD_eq_getElem?_getD, h r le_rfl hr, List.take_add_one, List.getElem?_eq_getElem hr]
  rfl

end Window

end OsTasks.Lib

import Mathlib.Logic.Function.Basic

/-! A mutex and the section of the threads' code it guards. -/
namespace OsTasks.Lib

/-- Exactly the owner of the mutex is inside the section. -/
def Guards {τ β : Type*} (inside : β → Bool) (owner : Option τ) (thread : τ → β) : Prop :=
  ∀ t, inside (thread t) = true ↔ owner = some t

namespace Guards
variable {τ β : Type*} [DecidableEq τ] {inside : β → Bool} {owner : Option τ} {thread : τ → β}
  {t u : τ} {l : β}

omit [DecidableEq τ] in
theorem exclusive (h : Guards inside owner thread) (ht : inside (thread t) = true)
    (hu : inside (thread u) = true) : t = u :=
  Option.some.inj (((h t).mp ht).symm.trans ((h u).mp hu))

omit [DecidableEq τ] in
theorem free (h : ∀ t, inside (thread t) = false) : Guards inside none thread := by
  intro t
  simp [h t]

theorem lock (h : Guards inside none thread) (hl : inside l = true) :
    Guards inside (some t) (Function.update thread t l) := by
  intro u
  by_cases hu : u = t
  · subst u
    simp [hl]
  · rw [Function.update_of_ne hu, h u]
    simp [Ne.symm hu]

theorem unlock (h : Guards inside owner thread) (ht : inside (thread t) = true)
    (hl : inside l = false) : Guards inside none (Function.update thread t l) := by
  intro u
  by_cases hu : u = t
  · subst u
    simp [hl]
  · have hout : ¬ inside (thread u) = true := fun hin => hu (h.exclusive hin ht)
    rw [Function.update_of_ne hu]
    simp [hout]

/-- A step of a thread that neither enters nor leaves the section. -/
theorem keep (h : Guards inside owner thread) (hl : inside l = inside (thread t)) :
    Guards inside owner (Function.update thread t l) := by
  intro u
  by_cases hu : u = t
  · subst u
    rw [Function.update_self, hl]
    exact h t
  · rw [Function.update_of_ne hu]
    exact h u

end Guards

end OsTasks.Lib

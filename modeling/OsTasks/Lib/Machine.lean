import Mathlib.Order.Basic
import Mathlib.Order.Nat
import Mathlib.Tactic.WLOG

/-! Machines with guarded actions: runs, reachable states, invariants, and runs all of
whose steps meet a condition. -/
namespace OsTasks.Lib

/-- `step s a = none` when the action `a` is not enabled in `s`. -/
structure Machine (σ α : Type*) where
  init : σ
  step : σ → α → Option σ

namespace Machine
variable {σ α : Type*} (M : Machine σ α)

def runFrom (s : σ) : List α → Option σ
  | [] => some s
  | a :: as => (M.step s a).bind fun t => runFrom t as

def run (as : List α) : Option σ := M.runFrom M.init as

def Reachable (s : σ) : Prop := ∃ as, M.run as = some s

/-- No action is enabled. -/
def Halted (s : σ) : Prop := ∀ a, M.step s a = none

/-- Every step of the run of `as` from `s` meets `P`. -/
def AllSteps (P : σ → α → Prop) (s : σ) : List α → Prop
  | [] => True
  | a :: as => P s a ∧ ∀ t, M.step s a = some t → AllSteps P t as

variable {M}

@[simp] theorem runFrom_nil (s : σ) : M.runFrom s [] = some s := rfl

@[simp] theorem runFrom_cons (s : σ) (a : α) (as : List α) :
    M.runFrom s (a :: as) = (M.step s a).bind fun t => M.runFrom t as := rfl

theorem runFrom_cons_eq_some {s t : σ} {a : α} {as : List α} :
    M.runFrom s (a :: as) = some t ↔ ∃ u, M.step s a = some u ∧ M.runFrom u as = some t := by
  simp only [runFrom_cons, Option.bind_eq_some_iff]

theorem runFrom_append (s : σ) (as bs : List α) :
    M.runFrom s (as ++ bs) = (M.runFrom s as).bind fun t => M.runFrom t bs := by
  induction as generalizing s with
  | nil => rfl
  | cons a as ih =>
    cases h : M.step s a with
    | none => simp [h]
    | some t => simp [h, ih]

theorem reachable_init : M.Reachable M.init := ⟨[], rfl⟩

theorem Reachable.runFrom {s t : σ} {as : List α} (hs : M.Reachable s)
    (h : M.runFrom s as = some t) : M.Reachable t := by
  obtain ⟨bs, hb⟩ := hs
  refine ⟨bs ++ as, ?_⟩
  unfold run
  rw [runFrom_append, show M.runFrom M.init bs = some s from hb]
  exact h

theorem Reachable.step {s t : σ} {a : α} (hs : M.Reachable s) (h : M.step s a = some t) :
    M.Reachable t := by
  have hr : M.runFrom s [a] = some t := by simp [h]
  exact hs.runFrom hr

/-- What one step preserves under a condition on the step, a run whose steps all meet the
condition preserves. -/
theorem runFrom_invariant_of_allSteps {I : σ → Prop} {P : σ → α → Prop}
    (hI : ∀ s a t, I s → P s a → M.step s a = some t → I t)
    {s t : σ} {as : List α} (hs : I s) (hP : M.AllSteps P s as)
    (h : M.runFrom s as = some t) : I t := by
  induction as generalizing s with
  | nil => cases h; exact hs
  | cons a as ih =>
    obtain ⟨u, hu, hr⟩ := runFrom_cons_eq_some.mp h
    exact ih (hI s a u hs hP.1 hu) (hP.2 u hu) hr

/-- A condition on the steps of a run gives another through an invariant it keeps. -/
theorem allSteps_of_allSteps {I : σ → Prop} {P Q : σ → α → Prop}
    (hI : ∀ s a t, I s → P s a → M.step s a = some t → I t)
    (hQ : ∀ s a t, I s → P s a → M.step s a = some t → Q s a)
    {s t : σ} {as : List α} (hs : I s) (hP : M.AllSteps P s as)
    (h : M.runFrom s as = some t) : M.AllSteps Q s as := by
  induction as generalizing s with
  | nil => trivial
  | cons a as ih =>
    obtain ⟨u, hu, hr⟩ := runFrom_cons_eq_some.mp h
    refine ⟨hQ s a u hs hP.1 hu, fun v hv => ?_⟩
    cases hu.symm.trans hv
    exact ih (hI s a u hs hP.1 hu) (hP.2 u hu) hr

theorem AllSteps.cons {P : σ → α → Prop} {s t : σ} {a : α} {as : List α} (ha : P s a)
    (h : M.step s a = some t) (has : M.AllSteps P t as) : M.AllSteps P s (a :: as) := by
  refine ⟨ha, fun u hu => ?_⟩
  cases h.symm.trans hu
  exact has

theorem AllSteps.append {P : σ → α → Prop} {s : σ} {as bs : List α} (has : M.AllSteps P s as)
    (hbs : ∀ t, M.runFrom s as = some t → M.AllSteps P t bs) : M.AllSteps P s (as ++ bs) := by
  induction as generalizing s with
  | nil => exact hbs s rfl
  | cons a as ih =>
    refine ⟨has.1, fun t ht => ih (has.2 t ht) fun u hu => hbs u ?_⟩
    rw [runFrom_cons, ht]
    exact hu

/-- A condition that can be tested at a step can be tested along a run. -/
instance decidableAllSteps {P : σ → α → Prop} [∀ s a, Decidable (P s a)] (s : σ) (as : List α) :
    Decidable (M.AllSteps P s as) :=
  match as with
  | [] => isTrue trivial
  | a :: as =>
    match h : M.step s a with
    | none => decidable_of_iff (P s a)
        ⟨fun ha => ⟨ha, fun t ht => by cases h.symm.trans ht⟩, fun hall => hall.1⟩
    | some t =>
      have := decidableAllSteps (P := P) t as
      decidable_of_iff (P s a ∧ M.AllSteps P t as)
        ⟨fun hall => AllSteps.cons hall.1 h hall.2, fun hall => ⟨hall.1, hall.2 t h⟩⟩

theorem allSteps_results_cons {Q : σ → Prop} {s : σ} {a : α} {as : List α} :
    M.AllSteps (fun s a => ∀ t, M.step s a = some t → Q t) s (a :: as) ↔
      ∀ t, M.step s a = some t →
        Q t ∧ M.AllSteps (fun s a => ∀ t, M.step s a = some t → Q t) t as :=
  forall₂_and.symm

theorem allSteps_of_forall {P : σ → α → Prop} {s : σ} {as : List α}
    (h : ∀ t, ∀ a ∈ as, P t a) : M.AllSteps P s as := by
  induction as generalizing s with
  | nil => trivial
  | cons a as ih =>
    refine ⟨h s a List.mem_cons_self, fun t _ => ih fun u b hb => ?_⟩
    exact h u b (List.mem_cons_of_mem a hb)

/-- A property that every step keeps exactly under a condition holds behind a run exactly when it
held before it and all steps met the condition. -/
theorem runFrom_iff_allSteps {I J : σ → Prop} {P : σ → α → Prop}
    (hJ : ∀ s a t, J s → M.step s a = some t → J t)
    (hI : ∀ s a t, J s → M.step s a = some t → (I t ↔ I s ∧ P s a))
    {s t : σ} {as : List α} (hs : J s) (h : M.runFrom s as = some t) :
    I t ↔ I s ∧ M.AllSteps P s as := by
  induction as generalizing s with
  | nil =>
    cases h
    exact (and_iff_left trivial).symm
  | cons a as ih =>
    obtain ⟨u, hu, hr⟩ := runFrom_cons_eq_some.mp h
    have hrest : M.AllSteps P s (a :: as) ↔ P s a ∧ M.AllSteps P u as := by
      refine and_congr_right fun _ => ⟨fun hall => hall u hu, fun hall v hv => ?_⟩
      cases hu.symm.trans hv
      exact hall
    rw [ih (hJ s a u hs hu) hr, hI s a u hs hu, hrest, and_assoc]

theorem runFrom_invariant {I : σ → Prop} (hI : ∀ s a t, I s → M.step s a = some t → I t)
    {s t : σ} {as : List α} (hs : I s) (h : M.runFrom s as = some t) : I t := by
  induction as generalizing s with
  | nil => cases h; exact hs
  | cons a as ih =>
    obtain ⟨u, hu, hr⟩ := runFrom_cons_eq_some.mp h
    exact ih (hI s a u hs hu) hr

/-- The invariant rule. -/
theorem Reachable.invariant {I : σ → Prop} (h0 : I M.init)
    (hI : ∀ s a t, I s → M.step s a = some t → I t) {s : σ} (hs : M.Reachable s) : I s := by
  obtain ⟨as, h⟩ := hs
  exact runFrom_invariant hI h0 h

/-- When each step has a counterpart between related states, so has each run. -/
theorem runFrom_related {τ : Type*} {N : Machine τ α} {R : σ → τ → Prop}
    (hR : ∀ s t a s', R s t → M.step s a = some s' → ∃ t', N.step t a = some t' ∧ R s' t')
    {s s' : σ} {t : τ} {as : List α} (hs : R s t) (h : M.runFrom s as = some s') :
    ∃ t', N.runFrom t as = some t' ∧ R s' t' := by
  induction as generalizing s t with
  | nil =>
    cases h
    exact ⟨t, rfl, hs⟩
  | cons a as ih =>
    obtain ⟨u, hu, hr⟩ := runFrom_cons_eq_some.mp h
    obtain ⟨v, hv, huv⟩ := hR s t a u hs hu
    obtain ⟨t', ht', hR'⟩ := ih huv hr
    exact ⟨t', runFrom_cons_eq_some.mpr ⟨v, hv, ht'⟩, hR'⟩

theorem Halted.runFrom_eq {s t : σ} {as : List α} (hs : M.Halted s)
    (h : M.runFrom s as = some t) : as = [] ∧ t = s := by
  cases as with
  | nil => cases h; exact ⟨rfl, rfl⟩
  | cons a as =>
    rw [runFrom_cons, hs a] at h
    cases h

/-- Two runs along one sequence of actions that both end halted end in one state. -/
theorem eq_of_run_halted {f : ℕ → α} {j k : ℕ} {s t : σ}
    (hs : M.run ((List.range j).map f) = some s) (hhs : M.Halted s)
    (ht : M.run ((List.range k).map f) = some t) (hht : M.Halted t) : s = t := by
  wlog hjk : j ≤ k generalizing j k s t
  · exact (this ht hht hs hhs (Nat.le_of_not_le hjk)).symm
  obtain ⟨d, rfl⟩ := Nat.exists_eq_add_of_le hjk
  rw [run, List.range_add, List.map_append, runFrom_append,
    show M.runFrom M.init ((List.range j).map f) = some s from hs] at ht
  exact (hhs.runFrom_eq ht).2.symm

/-- Along a sequence of actions there is a run of every length, or one that ends where the next
action is not enabled. -/
theorem run_range_or_stuck (f : ℕ → α) (k : ℕ) :
    (∃ s, M.run ((List.range k).map f) = some s) ∨
      ∃ j s, j < k ∧ M.run ((List.range j).map f) = some s ∧ M.step s (f j) = none := by
  induction k with
  | zero => exact Or.inl ⟨M.init, rfl⟩
  | succ k ih =>
    rcases ih with ⟨s, hs⟩ | ⟨j, s, hj, hs, hstuck⟩
    · cases hstep : M.step s (f k) with
      | none => exact Or.inr ⟨k, s, Nat.lt_succ_self k, hs, hstep⟩
      | some t =>
        refine Or.inl ⟨t, ?_⟩
        rw [run, List.range_succ, List.map_append, runFrom_append,
          show M.runFrom M.init ((List.range k).map f) = some s from hs]
        exact runFrom_cons_eq_some.mpr ⟨t, hstep, rfl⟩
    · exact Or.inr ⟨j, s, hj.trans (Nat.lt_succ_self k), hs, hstuck⟩

/-- The machine without the actions that fail `P`. -/
def restrict (M : Machine σ α) (P : α → Prop) [DecidablePred P] : Machine σ α where
  init := M.init
  step := fun s a => if P a then M.step s a else none

theorem restrict_step_eq_some {P : α → Prop} [DecidablePred P] {s t : σ} {a : α} :
    (M.restrict P).step s a = some t ↔ P a ∧ M.step s a = some t := by
  simp only [restrict, Option.ite_none_right_eq_some]

theorem Reachable.of_restrict {P : α → Prop} [DecidablePred P] {s : σ}
    (hs : (M.restrict P).Reachable s) : M.Reachable s := by
  have h0 : M.Reachable (M.restrict P).init := reachable_init
  apply hs.invariant h0
  intro u a v hu hv
  exact Reachable.step hu (restrict_step_eq_some.mp hv).2

theorem Halted.of_restrict {P : α → Prop} [DecidablePred P] {s : σ}
    (hs : (M.restrict P).Halted s) {a : α} (ha : P a) : M.step s a = none :=
  (if_pos ha).symm.trans (hs a)

/-- A quantity no step increases, and every step that fails `P` decreases, is smaller after
a run with such a step. -/
theorem runFrom_measure_lt {I : σ → Prop} {P : σ → α → Prop} {μ : σ → ℕ}
    (hI : ∀ s a t, I s → M.step s a = some t → I t)
    (hle : ∀ s a t, I s → M.step s a = some t → μ t ≤ μ s)
    (hlt : ∀ s a t, I s → ¬ P s a → M.step s a = some t → μ t < μ s)
    {s t : σ} {as : List α} (hs : I s) (hP : ¬ M.AllSteps P s as)
    (h : M.runFrom s as = some t) : μ t < μ s := by
  induction as generalizing s with
  | nil => exact absurd trivial hP
  | cons a as ih =>
    obtain ⟨u, hu, hr⟩ := runFrom_cons_eq_some.mp h
    have hmono : μ t ≤ μ u :=
      (runFrom_invariant (I := fun v => I v ∧ μ v ≤ μ u)
        (fun v b w hv hw => ⟨hI v b w hv.1 hw, (hle v b w hv.1 hw).trans hv.2⟩)
        ⟨hI s a u hs hu, le_rfl⟩ hr).2
    by_cases ha : P s a
    · have hrest : ¬ M.AllSteps P u as := by
        intro hall
        refine hP ⟨ha, fun v hv => ?_⟩
        cases hu.symm.trans hv
        exact hall
      exact (ih (hI s a u hs hu) hrest hr).trans_le (hle s a u hs hu)
    · exact hmono.trans_lt (hlt s a u hs ha hu)

/-- When every step decreases a measure, a run has no more steps than the measure allows. -/
theorem runFrom_length_le {I : σ → Prop} {μ : σ → ℕ}
    (hI : ∀ s a t, I s → M.step s a = some t → I t)
    (hμ : ∀ s a t, I s → M.step s a = some t → μ t < μ s)
    {s t : σ} {as : List α} (hs : I s) (h : M.runFrom s as = some t) : as.length + μ t ≤ μ s := by
  induction as generalizing s with
  | nil => cases h; exact (Nat.zero_add _).le
  | cons a as ih =>
    obtain ⟨u, hu, hr⟩ := runFrom_cons_eq_some.mp h
    have hrest := ih (hI s a u hs hu) hr
    have hfirst := hμ s a u hs hu
    rw [List.length_cons]
    omega

/-- When every step decreases a measure, every state has a run to a halted one. -/
theorem exists_run_halted {I : σ → Prop} {μ : σ → ℕ}
    (hI : ∀ s a t, I s → M.step s a = some t → I t)
    (hμ : ∀ s a t, I s → M.step s a = some t → μ t < μ s) (s : σ) (hs : I s) :
    ∃ as t, M.runFrom s as = some t ∧ M.Halted t := by
  induction hn : μ s using Nat.strong_induction_on generalizing s with
  | _ n ih =>
    by_cases hh : M.Halted s
    · exact ⟨[], s, rfl, hh⟩
    obtain ⟨a, ha⟩ := not_forall.mp hh
    obtain ⟨u, hu⟩ := Option.ne_none_iff_exists'.mp ha
    obtain ⟨as, t, hr, ht⟩ := ih (μ u) (hn ▸ hμ s a u hs hu) u (hI s a u hs hu) rfl
    exact ⟨a :: as, t, runFrom_cons_eq_some.mpr ⟨u, hu, hr⟩, ht⟩

/-- The machine with a history: `record s a t` takes the history over the step from `s` to `t`. -/
def withHistory {η : Type*} (M : Machine σ α) (start : η) (record : σ → α → σ → η → η) :
    Machine (σ × η) α where
  init := (M.init, start)
  step := fun p a => (M.step p.1 a).map fun t => (t, record p.1 a t p.2)

section History
variable {η : Type*} {start : η} {record : σ → α → σ → η → η}

theorem withHistory_step_eq_some {p q : σ × η} {a : α} :
    (M.withHistory start record).step p a = some q ↔
      M.step p.1 a = some q.1 ∧ q.2 = record p.1 a q.1 p.2 := by
  simp only [withHistory, Option.map_eq_some_iff]
  constructor
  · rintro ⟨t, ht, rfl⟩
    exact ⟨ht, rfl⟩
  · rintro ⟨ht, hq⟩
    exact ⟨q.1, ht, Prod.ext rfl hq.symm⟩

theorem runFrom_withHistory_map (p : σ × η) (as : List α) :
    ((M.withHistory start record).runFrom p as).map Prod.fst = M.runFrom p.1 as := by
  induction as generalizing p with
  | nil => rfl
  | cons a as ih =>
    cases h : M.step p.1 a with
    | none => simp [withHistory, h]
    | some t => simpa [withHistory, h] using ih (t, record p.1 a t p.2)

theorem Halted.withHistory {s : σ} (h : M.Halted s) (e : η) :
    (M.withHistory start record).Halted (s, e) := by
  intro a
  change (M.step s a).map _ = none
  rw [h a]
  rfl

/-- A history changes no run. -/
theorem run_withHistory_map (as : List α) :
    ((M.withHistory start record).run as).map Prod.fst = M.run as :=
  runFrom_withHistory_map (M.init, start) as

theorem Reachable.of_withHistory {s : σ} {e : η}
    (h : (M.withHistory start record).Reachable (s, e)) : M.Reachable s := by
  obtain ⟨as, has⟩ := h
  have hfst : M.run as = some s :=
    (run_withHistory_map as).symm.trans (congrArg (Option.map Prod.fst) has)
  exact ⟨as, hfst⟩

/-- The invariant rule with a history. -/
theorem Reachable.invariant_withHistory {I : σ → η → Prop} (h0 : I M.init start)
    (hI : ∀ s e a t, M.Reachable s → I s e → M.step s a = some t → I t (record s a t e))
    {s : σ} {e : η} (h : (M.withHistory start record).Reachable (s, e)) : I s e := by
  have hboth : (M.withHistory start record).Reachable (s, e) ∧ I s e := by
    apply h.invariant (I := fun p => (M.withHistory start record).Reachable p ∧ I p.1 p.2)
      ⟨reachable_init, h0⟩
    intro p a q hp hq
    obtain ⟨ht, hrec⟩ := withHistory_step_eq_some.mp hq
    refine ⟨hp.1.step hq, ?_⟩
    rw [hrec]
    exact hI p.1 p.2 a q.1 hp.1.of_withHistory hp.2 ht
  exact hboth.2

/-- What one step preserves together with its history under a condition, a run whose steps all meet
the condition preserves. -/
theorem run_withHistory_invariant {I : σ → η → Prop} {P : σ × η → α → Prop} (h0 : I M.init start)
    (hI : ∀ s e a t, I s e → P (s, e) a → M.step s a = some t → I t (record s a t e))
    {s : σ} {e : η} {as : List α} (h : (M.withHistory start record).run as = some (s, e))
    (hP : (M.withHistory start record).AllSteps P (M.init, start) as) : I s e := by
  apply runFrom_invariant_of_allSteps (I := fun p => I p.1 p.2) _ h0 hP h
  intro p a q hp ha hq
  obtain ⟨ht, hrec⟩ := withHistory_step_eq_some.mp hq
  rw [hrec]
  exact hI p.1 p.2 a q.1 hp ha ht

/-- What holds at first, and what every step keeps exactly under a condition, holds with its history
behind a run exactly when all steps met the condition. -/
theorem run_withHistory_iff_allSteps {I J : σ × η → Prop} {P : σ × η → α → Prop}
    (hI0 : I (M.init, start)) (hJ0 : J (M.init, start))
    (hJ : ∀ s e a t, J (s, e) → M.step s a = some t → J (t, record s a t e))
    (hI : ∀ s e a t, J (s, e) → M.step s a = some t →
      (I (t, record s a t e) ↔ I (s, e) ∧ P (s, e) a))
    {p : σ × η} {as : List α} (h : (M.withHistory start record).run as = some p) :
    I p ↔ (M.withHistory start record).AllSteps P (M.init, start) as := by
  have hiff : I p ↔ I (M.init, start) ∧
      (M.withHistory start record).AllSteps P (M.init, start) as := by
    apply runFrom_iff_allSteps (J := J) _ _ hJ0 h
    · rintro ⟨s, e⟩ a ⟨t, e'⟩ hp hq
      obtain ⟨ht, hrec⟩ := withHistory_step_eq_some.mp hq
      change e' = record s a t e at hrec
      rw [hrec]
      exact hJ s e a t hp ht
    · rintro ⟨s, e⟩ a ⟨t, e'⟩ hp hq
      obtain ⟨ht, hrec⟩ := withHistory_step_eq_some.mp hq
      change e' = record s a t e at hrec
      rw [hrec]
      exact hI s e a t hp ht
  rw [hiff]
  exact and_iff_right hI0

end History

end Machine

end OsTasks.Lib

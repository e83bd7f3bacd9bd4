import Mathlib.Data.List.Forall2
import Mathlib.Data.List.Basic

/-! Byte streams that carry messages: what a reader does for the messages it has taken, and what
is still in the stream. -/
namespace OsTasks.Lib
variable {μ β ε : Type*}

/-- The `effects` are those of the messages `ms` in order, each as `R` has it. -/
def Answers (R : μ → List ε → Prop) (ms : List μ) (effects : List ε) : Prop :=
  ∃ answers, List.Forall₂ R ms answers ∧ effects = answers.flatten

/-- Of the messages written, the first have their effects and the others are whole in the
stream. -/
def Answered (text : μ → List β) (R : μ → List ε → Prop) (written : List μ) (stream : List β)
    (effects : List ε) : Prop :=
  ∃ done rest, written = done ++ rest ∧ stream = (rest.map text).flatten ∧
    Answers R done effects

variable {text : μ → List β} {R S : μ → List ε → Prop} {written : List μ} {stream : List β}
  {effects : List ε}

theorem answers_nil : Answers R ([] : List μ) [] := ⟨[], .nil, rfl⟩

theorem Answers.concat {ms : List μ} {m : μ} {e : List ε} (h : Answers R ms effects)
    (hm : R m e) : Answers R (ms ++ [m]) (effects ++ e) := by
  obtain ⟨answers, hr, he⟩ := h
  refine ⟨answers ++ [e], List.rel_append hr (.cons hm .nil), ?_⟩
  rw [he, List.flatten_append, List.flatten_singleton]

theorem Answers.imp {ms : List μ} (hRS : ∀ m e, R m e → S m e) (h : Answers R ms effects) :
    Answers S ms effects := by
  obtain ⟨answers, hr, he⟩ := h
  exact ⟨answers, hr.imp hRS, he⟩

theorem answered_nil : Answered text R [] [] [] := ⟨[], [], rfl, rfl, answers_nil⟩

theorem Answered.imp (hRS : ∀ m e, R m e → S m e) (h : Answered text R written stream effects) :
    Answered text S written stream effects := by
  obtain ⟨done, rest, hw, hs, ha⟩ := h
  exact ⟨done, rest, hw, hs, ha.imp hRS⟩

theorem Answered.write (h : Answered text R written stream effects) (m : μ) :
    Answered text R (written ++ [m]) (stream ++ text m) effects := by
  obtain ⟨done, rest, hw, hs, ha⟩ := h
  refine ⟨done, rest ++ [m], ?_, ?_, ha⟩
  · rw [hw, List.append_assoc]
  · rw [hs, List.map_append, List.flatten_append, List.map_singleton, List.flatten_singleton]

theorem eq_nil_of_flatten_text (ht : ∀ m, text m ≠ []) {rest : List μ}
    (h : (rest.map text).flatten = []) : rest = [] := by
  cases rest with
  | nil => rfl
  | cons m ms =>
    rw [List.map_cons, List.flatten_cons, List.append_eq_nil_iff] at h
    exact absurd h.1 (ht m)

/-- A stream that holds the last message alone has had all the others answered. -/
theorem Answered.read (ht : ∀ m, text m ≠ []) (h : Answered text R written stream effects)
    {m : μ} (hm : m ∈ written.getLast?) (hs : stream = text m) {e : List ε} (he : R m e) :
    Answered text R written [] (effects ++ e) := by
  obtain ⟨done, rest, hw, hr, ha⟩ := h
  rcases List.eq_nil_or_concat' rest with rfl | ⟨init, n, rfl⟩
  · rw [hs] at hr
    exact absurd hr (ht m)
  have hn : n = m := by
    rw [hw, ← List.append_assoc, List.getLast?_concat] at hm
    exact Option.some.inj hm
  subst hn
  have hinit : init = [] := by
    apply eq_nil_of_flatten_text ht
    rw [hs, List.map_append, List.flatten_append, List.map_singleton,
      List.flatten_singleton] at hr
    exact List.self_eq_append_left.mp hr
  subst hinit
  exact ⟨done ++ [n], [], by rw [hw, List.nil_append, List.append_nil], rfl, ha.concat he⟩

/-- When nothing is in the stream, all messages are answered. -/
theorem Answered.answers (ht : ∀ m, text m ≠ []) (h : Answered text R written [] effects) :
    Answers R written effects := by
  obtain ⟨done, rest, hw, hs, ha⟩ := h
  rw [hw, eq_nil_of_flatten_text ht hs.symm, List.append_nil]
  exact ha

/-- The effects one by one, when each message has the one that `g` has of it, or none. -/
theorem Answers.map_eq_filterMap {ι : Type*} {f : ε → ι} {g : μ → Option ι}
    (hR : ∀ m e, R m e → e.map f = (g m).toList) {ms : List μ} (h : Answers R ms effects) :
    effects.map f = ms.filterMap g := by
  obtain ⟨answers, hr, rfl⟩ := h
  induction hr with
  | nil => rfl
  | @cons m e ms answers hm hr ih =>
    rw [List.flatten_cons, List.map_append, ih, hR m e hm, List.filterMap_cons]
    cases g m <;> rfl

end OsTasks.Lib

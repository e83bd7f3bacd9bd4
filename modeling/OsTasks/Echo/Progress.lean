import OsTasks.Echo.Content

/-! Where the duplex pipe can get stuck: the parent waits for the echo of each of its messages. -/
namespace OsTasks.Echo
open OsTasks.Lib

/-- The parent waits for an echo from a child that has returned or is itself waiting. -/
structure Stuck (s : State) : Prop where
  parent : s.parent = .rcv
  back : s.back = []
  child : s.child = .done ∨ s.child = .rcv ∧ s.direct = []

/-- No process waits for the other in vain, and the child returns only after the final message. -/
structure Progress (file : List Byte) (s : State) : Prop where
  not_stuck : ¬ Stuck s
  halted : (echo file).Halted s → s.parent = .done ∧ s.child = .done
  child_last : s.child = .done → s.parent = .done

theorem not_stuck_of_phase {e : Option (List Byte)} {s : State} (h : Phase e s) (he : e ≠ none) :
    ¬ Stuck s := by
  rintro ⟨hp, hback, hc | ⟨hc, hdirect⟩⟩
  · simp only [Phase, hp, hc] at h
    exact he h.2
  · simp only [Phase, hp, hc] at h
    rcases h with ⟨_, _, hnone⟩ | ⟨_, hne, _⟩ | ⟨_, hne, _⟩
    · exact he hnone
    · exact hne hdirect
    · exact hne hback

theorem parent_done_of_phase {e : Option (List Byte)} {s : State} (h : Phase e s)
    (he : e ≠ none) (hc : s.child = .done) : s.parent = .done := by
  cases hp : s.parent <;> simp only [Phase, hp, hc] at h
  case rcv => exact absurd h.2 he
  case done => rfl

theorem both_done_of_halted {e : Option (List Byte)} {s : State} (h : Inv e s) (hs : s.loopDone)
    (hparent : parentStep s = none) (hchild : childStep s = none) :
    s.parent = .done ∧ s.child = .done := by
  have hph := h.phase
  rcases hs with hp | hp
  · cases hc : s.child <;> simp only [Phase, hp, hc] at hph
    simp [parentStep, hp, hph.1, snd_nil h.parent_len] at hparent
  · refine ⟨hp, ?_⟩
    cases hc : s.child <;> simp only [Phase, hp, hc] at hph
    case rcv =>
      obtain ⟨_, hlen, _⟩ := hph
      have hne : s.direct ≠ [] := by
        rintro hnil
        rw [hnil] at hlen
        cases hlen
      simp [childStep, hc, rcv_of_length_le _ hne hlen.le] at hchild
    case test =>
      simp only [childStep, hc] at hchild
      split_ifs at hchild
    case done => rfl

/-- Every reachable state makes progress exactly for the files each of whose blocks gets an
echo. -/
theorem echo_progress_iff (file : List Byte) :
    (∀ s, (echo file).Reachable s → Progress file s) ↔ ¬ Hangs file := by
  rw [← fate_eq_none_iff]
  constructor
  · intro h hnone
    obtain ⟨s, hs, hparent, hchild⟩ := exists_halted file
    have hhalted : (echo file).Halted s := by
      intro p
      cases p with
      | parent => exact hparent
      | child => exact hchild
    have hdone : s.loopDone := Or.inr ((h s hs).halted hhalted).1
    have hout := phase_of_loopDone (inv_of_reachable hs).phase hdone
    rw [hnone] at hout
    cases hout
  · intro hfate s hs
    have hinv := inv_of_reachable hs
    constructor
    · exact not_stuck_of_phase hinv.phase hfate
    · intro hh
      have hdone := (halted_loopDone hinv (hh .parent) (hh .child)).resolve_right hfate
      exact both_done_of_halted hinv hdone (hh .parent) (hh .child)
    · exact parent_done_of_phase hinv.phase hfate

/-- The child takes the whole file "exit" for the final message. -/
theorem exit_file_stuck :
    ∃ s, (echo exit).Reachable s ∧ Stuck s ∧ s.child = .done ∧ s.parent ≠ .done :=
  ⟨_, ⟨[.parent, .parent, .child, .child], rfl⟩, ⟨rfl, rfl, Or.inl rfl⟩, rfl, by decide⟩

end OsTasks.Echo

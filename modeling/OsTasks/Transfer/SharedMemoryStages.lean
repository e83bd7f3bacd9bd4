import OsTasks.Transfer.SharedMemory

/-! The stages of the segment between a write of the client and the end of the server's read. -/
namespace OsTasks.Transfer.SharedMemory

/-- The client has stored into the segment and not yet posted `empty_sem`. -/
def ClientPc.stored : ClientPc → Bool
  | .postMutex | .postEmpty | .endPostMutex | .endPostEmpty => true
  | _ => false

/-- What has happened to the contents of the segment. -/
inductive Stage where
  | free | untested | tested | ended
  deriving DecidableEq

def stage (s : State) : Stage :=
  match s.server with
  | .waitEmpty => if 0 < s.empty ∨ s.client.stored = true then .untested else .free
  | .waitMutex | .test => .untested
  | .fwrite => .tested
  | .postMutex | .postFull => .free
  | .done => .ended

/-- While the client has its turn the server waits for `empty_sem`. -/
theorem Semaphores.server_of_turn {s : State} (h : Semaphores s)
    (hc : s.client.turn = 1) : s.server = .waitEmpty ∧ s.empty = 0 := by
  have h1 := h.turn
  refine ⟨?_, by omega⟩
  cases hs : s.server <;> simp only [hs, ServerPc.turn] at h1 <;> first | rfl | omega

/-- Only the client's writes move the segment on while the client runs. -/
theorem stage_client {s t : State} (hcopy : s.client ≠ .copy) (hsprintf : s.client ≠ .sprintf)
    (ht : clientStep s = some t) : stage t = stage s ∧ t.shm = s.shm := by
  unfold clientStep at ht
  cases hc : s.client <;>
    simp only [hc, reduceCtorEq, not_true_eq_false, ne_eq] at ht hcopy hsprintf
  all_goals
    (try split at ht) <;> cases ht <;> simp [stage, hc, ClientPc.stored]

theorem stage_write {s : State} (h : Semaphores s) (hc : s.client = .copy ∨ s.client = .sprintf)
    {t : State} (ht : clientStep s = some t) : stage s = .free ∧ stage t = .untested := by
  have hturn : s.client.turn = 1 := by
    rcases hc with hc | hc <;> rw [hc] <;> rfl
  obtain ⟨hserver, hempty⟩ := h.server_of_turn hturn
  rcases hc with hc | hc
  · simp only [clientStep, hc] at ht
    cases ht
    simp [stage, hserver, hempty, hc, ClientPc.stored]
  · simp only [clientStep, hc] at ht
    cases ht
    simp [stage, hserver, hempty, hc, ClientPc.stored]

theorem stage_server {s t : State} (h : Semaphores s) (htest : s.server ≠ .test)
    (hfwrite : s.server ≠ .fwrite) (ht : serverStep s = some t) :
    stage t = stage s ∧ t.shm = s.shm := by
  have hturn := h.turn
  unfold serverStep at ht
  cases hs : s.server <;>
    simp only [hs, reduceCtorEq, not_true_eq_false, ne_eq] at ht htest hfwrite hturn
  case waitEmpty =>
    split_ifs at ht with he
    cases ht
    simp [stage, hs, he]
  case postFull =>
    cases ht
    simp only [ServerPc.turn] at hturn
    have hst : s.client.stored = false := by
      cases hc : s.client <;> simp only [hc, ClientPc.turn] at hturn <;> first | rfl | omega
    simp [stage, hs, hst, show s.empty = 0 by omega]
  all_goals
    (try split at ht) <;> cases ht
    all_goals simp [stage, hs]

end OsTasks.Transfer.SharedMemory

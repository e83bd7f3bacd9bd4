import OsTasks.FileServer.DispatchActed
import OsTasks.FileServer.PoolStreams
import OsTasks.FileServer.Server

/-! The file server of task_7 as one process: its main loop, the pool that runs the jobs the loop
adds, and the FIFOs they share. -/
namespace OsTasks.FileServer.Process
open OsTasks.Lib Dispatch

structure ProcessState where
  loop : State
  pool : PoolState

inductive ProcessEvent where
  /-- the main loop, whose `abort` is a failed `select` here, or a client -/
  | main (e : ServerEvent)
  /-- the pool, and what FIFOs and files there are at that moment -/
  | pool (w : World) (a : PoolAction)

/-- The arguments of the calls of `thpool_add_work`. -/
def requestsOf (s : State) : List Request := s.jobs.map Job.request

/-- The bytes a step of the pool writes to the FIFO `n`. -/
def sent (p q : PoolState) (n : Name) : List Byte :=
  (((q.stream n).drop (p.stream n).length).map Prod.snd).flatten

/-- The FIFOs with what the jobs wrote to them. -/
def receive (s : State) (bytes : Name → List Byte) : State :=
  { s with fifo := fun n => s.fifo n ++ bytes n }

section Process
variable (setup : Setup)

/-- Nothing goes on behind a failed assertion or `exit`. A job that the main loop adds is taken over
by the pool's `dispatch`. -/
def processStep (s : ProcessState) : ProcessEvent → Option ProcessState
  | .main e =>
    if s.pool.aborted then none
    else (serverStep setup s.loop e).map fun t => { s with loop := t }
  | .pool w a =>
    if s.loop.pc = .exited then none
    else (poolStep w (requestsOf s.loop) s.pool a).map fun q =>
      ⟨receive s.loop (sent s.pool q), q⟩

def process : Machine ProcessState ProcessEvent where
  init := ⟨(server setup).init, ⟨0, fun _ => .waiting, fun _ => [], false⟩⟩
  step := processStep setup

/-- Neither the main loop nor the pool can do anything. -/
def Quiet (w : World) (s : ProcessState) : Prop :=
  Idle setup s.loop ∧ (pool w (requestsOf s.loop)).Halted s.pool

end Process

/-- The files and FIFOs are those of `w` when a job runs. -/
def SameWorld (w : World) : ProcessEvent → Prop
  | .main _ => True
  | .pool w' _ => w' = w

/-- The steps of the main loop lose no message, and the files stay. -/
def LoopOk (w : World) (s : ProcessState) : ProcessEvent → Prop
  | .main (.event (.act a)) => Ok s.loop a
  | .main _ => False
  | .pool w' _ => w' = w

/-- The file that a message asks for. -/
def asks (m : Message) : Option Name := (clientRequest m.text).join

/-- The files that the clients with the reply FIFO `rx` asked for. -/
def asked (s : State) (rx : Name) : List Name :=
  s.added.flatMap fun p => if p.2 = rx then (s.written p.1).filterMap asks else []

/-- The bytes the jobs wrote to the FIFO `rx`. -/
def received (s : ProcessState) (rx : Name) : List Byte :=
  ((s.pool.stream rx).map Prod.snd).flatten

def fileOf (w : World) (f : Name) : List Byte := (w.file f).getD []

/-- Neither file is of more than one block while there is anything in the other. -/
def Unmixed (w : World) (f g : Name) : Prop :=
  (bufSize < (fileOf w f).length → fileOf w g = []) ∧
    (bufSize < (fileOf w g).length → fileOf w f = [])

variable {w : World} {setup : Setup}

section Pool
variable {reqs : List Request}

theorem poolStep_append {s t : PoolState} (hwf : Wf reqs s) {a : PoolAction}
    (ht : poolStep w reqs s a = some t) (more : List Request) :
    poolStep w (reqs ++ more) s a = some t := by
  have hab := (poolStep_cases ht).1
  have hidle : ∀ k, reqs.length ≤ k → (s.job k).busy = false := by
    intro k hk
    rw [(hwf.waiting k).mpr (hwf.le.trans hk)]
    rfl
  cases a with
  | dispatch =>
    simp only [poolStep, hab, Bool.false_eq_true, if_false] at ht ⊢
    obtain ⟨hd, ht⟩ := Option.ite_none_right_eq_some.mp ht
    have hlt : s.dispatched < (reqs ++ more).length := by
      rw [List.length_append]
      omega
    rw [if_pos hlt]
    exact ht
  | take j =>
    have hcount : ((List.range (reqs ++ more).length).countP fun k => (s.job k).busy) =
        (List.range reqs.length).countP fun k => (s.job k).busy := by
      rw [List.length_append, List.range_add, List.countP_append, Nat.add_eq_left,
        List.countP_eq_zero]
      intro k hk
      obtain ⟨i, _, rfl⟩ := List.mem_map.mp hk
      rw [hidle _ (Nat.le_add_right _ _)]
      exact Bool.false_ne_true
    simp only [poolStep, hab, Bool.false_eq_true, if_false] at ht ⊢
    rw [hcount]
    exact ht
  | send j =>
    obtain ⟨-, ⟨he, -⟩ | ⟨j', he, -⟩ | ⟨j', r, pc, he, hj, hr, rfl⟩⟩ := poolStep_cases ht
    · cases he
    · cases he
    · cases he
      have hr' : (reqs ++ more)[j]? = some r := by
        rw [List.getElem?_append_left (List.getElem?_eq_some_iff.mp hr).1, hr]
      exact poolStep_send hab hr' hj

/-- Whatever is requested later, the pool is in a state of a run over all the requests. -/
def Ahead (w : World) (reqs : List Request) (s : PoolState) : Prop :=
  ∀ more, (pool w (reqs ++ more)).Reachable s

theorem Ahead.reachable {s : PoolState} (h : Ahead w reqs s) : (pool w reqs).Reachable s := by
  have hnone := h []
  rwa [List.append_nil] at hnone

theorem wf_of_reachable {s : PoolState} (hs : (pool w reqs).Reachable s) : Wf reqs s :=
  hs.invariant wf_init fun _ _ _ hu hv => hu.step hv

theorem Ahead.step {s t : PoolState} (h : Ahead w reqs s) {a : PoolAction}
    (ht : poolStep w reqs s a = some t) : Ahead w reqs t := by
  intro more
  exact reachable_step (h more) (poolStep_append (wf_of_reachable h.reachable) ht more)

theorem Ahead.append {s : PoolState} (h : Ahead w reqs s) (new : List Request) :
    Ahead w (reqs ++ new) s := by
  intro more
  rw [List.append_assoc]
  exact h (new ++ more)

end Pool

theorem exists_jobs_of_step {s t : State} {e : ServerEvent} (ht : serverStep setup s e = some t) :
    ∃ new, t.jobs = s.jobs ++ new := by
  have hadded : ∀ {o : Option Registration}, Handled s t o → ∃ new, t.jobs = s.jobs ++ new := by
    intro o h
    cases h with
    | other hk hj =>
      rcases hj with hj | ⟨j, c, -, -, hj⟩
      · exact ⟨[], by rw [hj, List.append_nil]⟩
      · exact ⟨[j], hj⟩
    | register hnew hc hm ho hj => exact ⟨[], by rw [hj, List.append_nil]⟩
  exact hadded (handled_of_step ht)

theorem ahead_step {s t : ProcessState} {e : ProcessEvent}
    (hs : Ahead w (requestsOf s.loop) s.pool) (he : SameWorld w e)
    (ht : processStep setup s e = some t) : Ahead w (requestsOf t.loop) t.pool := by
  cases e with
  | main e =>
    obtain ⟨-, ht⟩ := Option.ite_none_left_eq_some.mp ht
    obtain ⟨u, hu, rfl⟩ := Option.map_eq_some_iff.mp ht
    obtain ⟨new, hnew⟩ := exists_jobs_of_step hu
    unfold requestsOf
    rw [hnew, List.map_append]
    exact hs.append _
  | pool w' a =>
    obtain rfl : w' = w := he
    obtain ⟨-, ht⟩ := Option.ite_none_left_eq_some.mp ht
    obtain ⟨q, hq, rfl⟩ := Option.map_eq_some_iff.mp ht
    exact hs.step hq

/-- While the files stay, the pool is in a state of a run over the requests so far. -/
theorem ahead_of_run {es : List ProcessEvent} {s : ProcessState}
    (hs : (process setup).run es = some s)
    (hw : (process setup).AllSteps (fun _ => SameWorld w) (process setup).init es) :
    Ahead w (requestsOf s.loop) s.pool := by
  apply Machine.runFrom_invariant_of_allSteps
    (I := fun u => Ahead w (requestsOf u.loop) u.pool) _ _ hw hs
  · intro u a v hu ha hv
    exact ahead_step hu ha hv
  · exact fun more => Machine.reachable_init (M := pool w ([] ++ more))

theorem LoopOk.sameWorld {s : ProcessState} {e : ProcessEvent} (h : LoopOk w s e) :
    SameWorld w e := by
  cases e with
  | main e => trivial
  | pool w' a => exact h

end OsTasks.FileServer.Process

import OsTasks.Lib.Machine
import OsTasks.Lib.Mutex

/-! task_4/examples/10_prod_cons_cond_var.c: producers and consumers over one ring, with a mutex
and a condition variable for each side. `main` creates one thread of each kind ("may be any number,
in general"). -/
namespace OsTasks.Threads.ProdCons
open OsTasks.Lib

/-- `BUF_SIZE` -/
def bufSize : ℕ := 10

inductive Thread where
  | producer (k : ℕ)
  | consumer (k : ℕ)
  deriving DecidableEq

/-- The statements of both loops: `cell`, `index` and `count` are the three that use the ring. -/
inductive Pc where
  | lock | test | wait | relock | cell | index | count | signal | unlock | print | leave | done
  deriving DecidableEq

structure Local where
  i : ℕ
  pc : Pc

inductive Line where
  /-- "producer: inserted %d" -/
  | inserted (i : ℕ)
  /-- "producer quiting" -/
  | quiting
  /-- "Consume value %d" -/
  | consumed (i : ℕ)

structure State where
  buffer : List ℕ
  add : ℕ
  rem : ℕ
  num : ℤ
  m : Option Thread
  thread : Thread → Local
  stdout : List Line

def State.put (s : State) (t : Thread) (l : Local) : State :=
  { s with thread := Function.update s.thread t l }

def State.goto (s : State) (t : Thread) (pc : Pc) : State :=
  s.put t { s.thread t with pc := pc }

inductive Act where
  /-- the next statement of the thread, other than `pthread_cond_signal` -/
  | run (t : Thread)
  /-- `pthread_cond_signal` of the thread and the thread it wakes -/
  | signal (t : Thread) (woken : Option Thread)
  /-- `pthread_cond_wait` may return without a signal -/
  | spurious (t : Thread)
  deriving DecidableEq

/-- The test of the `if` in front of `pthread_cond_wait`. -/
def State.blocks (s : State) : Thread → Bool
  | .producer _ => s.num == bufSize
  | .consumer _ => s.num == 0

/-- The statements the two loops share; `pthread_cond_wait` gives the mutex up and takes it again
before it returns, into the code behind the `if`. -/
def monitorStep (s : State) (t : Thread) : Option State :=
  match (s.thread t).pc with
  | .lock => if s.m = none then some ({ s with m := some t }.goto t .test) else none
  | .test =>
    if s.blocks t then some ({ s with m := none }.goto t .wait) else some (s.goto t .cell)
  | .relock => if s.m = none then some ({ s with m := some t }.goto t .cell) else none
  | .unlock => some ({ s with m := none }.goto t .print)
  | _ => none

def producerStep (s : State) (k : ℕ) : Option State :=
  let t := Thread.producer k
  let l := s.thread t
  match l.pc with
  | .cell => some ({ s with buffer := s.buffer.set s.add l.i }.goto t .index)
  | .index => some ({ s with add := (s.add + 1) % bufSize }.goto t .count)
  | .count => some ({ s with num := s.num + 1 }.goto t .signal)
  | .print =>
    some ({ s with stdout := s.stdout ++ [Line.inserted l.i] }.put t
      { i := l.i + 1, pc := if l.i + 1 ≤ 20 then .lock else .leave })
  | .leave => some ({ s with stdout := s.stdout ++ [Line.quiting] }.goto t .done)
  | _ => monitorStep s t

def consumerStep (s : State) (k : ℕ) : Option State :=
  let t := Thread.consumer k
  let l := s.thread t
  match l.pc with
  | .cell => some (s.put t { i := s.buffer.getD s.rem 0, pc := .index })
  | .index => some ({ s with rem := (s.rem + 1) % bufSize }.goto t .count)
  | .count => some ({ s with num := s.num - 1 }.goto t .signal)
  | .print => some ({ s with stdout := s.stdout ++ [Line.consumed l.i] }.goto t .lock)
  | _ => monitorStep s t

variable (producers consumers : ℕ)

def Thread.created : Thread → Bool
  | .producer k => k < producers
  | .consumer k => k < consumers

/-- A producer signals `c_cons`, a consumer `c_prod`. -/
def Thread.signals : Thread → Thread → Bool
  | .producer _, .consumer _ => true
  | .consumer _, .producer _ => true
  | _, _ => false

/-- No thread waits for a signal of `t`. -/
def State.nobodyWaits (s : State) : Thread → Bool
  | .producer _ => (List.range consumers).all fun k => (s.thread (.consumer k)).pc != .wait
  | .consumer _ => (List.range producers).all fun k => (s.thread (.producer k)).pc != .wait

def step (s : State) : Act → Option State
  | .run t =>
    if t.created producers consumers then
      match t with
      | .producer k => producerStep s k
      | .consumer k => consumerStep s k
    else none
  | .signal t (some u) =>
    if t.created producers consumers ∧ (s.thread t).pc = .signal ∧ t.signals u ∧
        u.created producers consumers ∧ (s.thread u).pc = .wait then
      some ((s.goto t .unlock).goto u .relock)
    else none
  | .signal t none =>
    if t.created producers consumers ∧ (s.thread t).pc = .signal ∧
        s.nobodyWaits producers consumers t then
      some (s.goto t .unlock)
    else none
  | .spurious t =>
    if t.created producers consumers ∧ (s.thread t).pc = .wait then some (s.goto t .relock)
    else none

def prodCons : Machine State Act where
  init :=
    { buffer := List.replicate bufSize 0, add := 0, rem := 0, num := 0, m := none,
      thread := fun
        | .producer _ => { i := 1, pc := .lock }
        | .consumer _ => { i := 0, pc := .lock }
      stdout := [] }
  step := step producers consumers

/-- The values in the order of the stores, each with its producer, and in the order of the
loads. -/
structure History where
  inserted : List (ℕ × ℕ)
  taken : List ℕ

def record (s : State) (a : Act) (_ : State) (h : History) : History :=
  match a with
  | .run (.producer k) =>
    if (s.thread (.producer k)).pc = .cell then
      { h with inserted := h.inserted ++ [(k, (s.thread (.producer k)).i)] }
    else h
  | .run (.consumer k) =>
    if (s.thread (.consumer k)).pc = .cell then
      { h with taken := h.taken ++ [s.buffer.getD s.rem 0] }
    else h
  | _ => h

def recorded : Machine (State × History) Act :=
  (prodCons producers consumers).withHistory { inserted := [], taken := [] } record

/-- What a step of the recorded machine does, one case for each statement. -/
inductive Move (s : State) (h : History) : Act → State → History → Prop
  | lock (t : Thread) : t.created producers consumers → (s.thread t).pc = .lock → s.m = none →
      Move s h (.run t) ({ s with m := some t }.goto t .test) h
  | block (t : Thread) : t.created producers consumers → (s.thread t).pc = .test → s.blocks t →
      Move s h (.run t) ({ s with m := none }.goto t .wait) h
  | pass (t : Thread) : t.created producers consumers → (s.thread t).pc = .test → ¬ s.blocks t →
      Move s h (.run t) (s.goto t .cell) h
  | relock (t : Thread) : t.created producers consumers → (s.thread t).pc = .relock → s.m = none →
      Move s h (.run t) ({ s with m := some t }.goto t .cell) h
  | unlock (t : Thread) : t.created producers consumers → (s.thread t).pc = .unlock →
      Move s h (.run t) ({ s with m := none }.goto t .print) h
  | store (k : ℕ) : k < producers → (s.thread (.producer k)).pc = .cell →
      Move s h (.run (.producer k))
        ({ s with buffer := s.buffer.set s.add (s.thread (.producer k)).i }.goto
          (.producer k) .index)
        { h with inserted := h.inserted ++ [(k, (s.thread (.producer k)).i)] }
  | load (k : ℕ) : k < consumers → (s.thread (.consumer k)).pc = .cell →
      Move s h (.run (.consumer k))
        (s.put (.consumer k) { i := s.buffer.getD s.rem 0, pc := .index })
        { h with taken := h.taken ++ [s.buffer.getD s.rem 0] }
  | addIndex (k : ℕ) : k < producers → (s.thread (.producer k)).pc = .index →
      Move s h (.run (.producer k))
        ({ s with add := (s.add + 1) % bufSize }.goto (.producer k) .count) h
  | remIndex (k : ℕ) : k < consumers → (s.thread (.consumer k)).pc = .index →
      Move s h (.run (.consumer k))
        ({ s with rem := (s.rem + 1) % bufSize }.goto (.consumer k) .count) h
  | addCount (k : ℕ) : k < producers → (s.thread (.producer k)).pc = .count →
      Move s h (.run (.producer k)) ({ s with num := s.num + 1 }.goto (.producer k) .signal) h
  | remCount (k : ℕ) : k < consumers → (s.thread (.consumer k)).pc = .count →
      Move s h (.run (.consumer k)) ({ s with num := s.num - 1 }.goto (.consumer k) .signal) h
  | printInserted (k : ℕ) : k < producers → (s.thread (.producer k)).pc = .print →
      Move s h (.run (.producer k))
        ({ s with stdout := s.stdout ++ [Line.inserted (s.thread (.producer k)).i] }.put
          (.producer k) { i := (s.thread (.producer k)).i + 1, pc :=
            if (s.thread (.producer k)).i + 1 ≤ 20 then .lock else .leave }) h
  | printQuiting (k : ℕ) : k < producers → (s.thread (.producer k)).pc = .leave →
      Move s h (.run (.producer k))
        ({ s with stdout := s.stdout ++ [Line.quiting] }.goto (.producer k) .done) h
  | printConsumed (k : ℕ) : k < consumers → (s.thread (.consumer k)).pc = .print →
      Move s h (.run (.consumer k))
        ({ s with stdout := s.stdout ++ [Line.consumed (s.thread (.consumer k)).i] }.goto
          (.consumer k) .lock) h
  | wake (t u : Thread) : t.created producers consumers → (s.thread t).pc = .signal →
      t.signals u → u.created producers consumers → (s.thread u).pc = .wait →
      Move s h (.signal t (some u)) ((s.goto t .unlock).goto u .relock) h
  | wakeNobody (t : Thread) : t.created producers consumers → (s.thread t).pc = .signal →
      s.nobodyWaits producers consumers t → Move s h (.signal t none) (s.goto t .unlock) h
  | spurious (t : Thread) : t.created producers consumers → (s.thread t).pc = .wait →
      Move s h (.spurious t) (s.goto t .relock) h

variable {producers consumers}

theorem move_of_monitorStep {s s' : State} {t : Thread} (h : History)
    (hc : t.created producers consumers) (hs : monitorStep s t = some s') :
    Move producers consumers s h (.run t) s' h := by
  unfold monitorStep at hs
  cases hpc : (s.thread t).pc <;> simp only [hpc] at hs
  case lock =>
    split_ifs at hs with hm
    exact Option.some.inj hs ▸ .lock t hc hpc hm
  case test =>
    split_ifs at hs with hb
    · exact Option.some.inj hs ▸ .block t hc hpc hb
    · exact Option.some.inj hs ▸ .pass t hc hpc hb
  case relock =>
    split_ifs at hs with hm
    exact Option.some.inj hs ▸ .relock t hc hpc hm
  case unlock => exact Option.some.inj hs ▸ .unlock t hc hpc
  all_goals cases hs

theorem move_of_step {s s' : State} {a : Act} (h : History)
    (hs : step producers consumers s a = some s') :
    Move producers consumers s h a s' (record s a s' h) := by
  cases a with
  | run t =>
    obtain ⟨hc, hs⟩ := Option.ite_none_right_eq_some.mp hs
    cases t with
    | producer k =>
      have hk : k < producers := of_decide_eq_true hc
      dsimp only at hs
      unfold producerStep at hs
      cases hpc : (s.thread (.producer k)).pc <;> simp only [hpc, record] at hs ⊢
      case cell => exact Option.some.inj hs ▸ .store k hk hpc
      case index => exact Option.some.inj hs ▸ .addIndex k hk hpc
      case count => exact Option.some.inj hs ▸ .addCount k hk hpc
      case print => exact Option.some.inj hs ▸ .printInserted k hk hpc
      case leave => exact Option.some.inj hs ▸ .printQuiting k hk hpc
      all_goals exact move_of_monitorStep h hc hs
    | consumer k =>
      have hk : k < consumers := of_decide_eq_true hc
      dsimp only at hs
      unfold consumerStep at hs
      cases hpc : (s.thread (.consumer k)).pc <;> simp only [hpc, record] at hs ⊢
      case cell => exact Option.some.inj hs ▸ .load k hk hpc
      case index => exact Option.some.inj hs ▸ .remIndex k hk hpc
      case count => exact Option.some.inj hs ▸ .remCount k hk hpc
      case print => exact Option.some.inj hs ▸ .printConsumed k hk hpc
      all_goals exact move_of_monitorStep h hc hs
  | signal t woken =>
    cases woken with
    | some u =>
      obtain ⟨⟨hc, hpc, hsig, hcu, hu⟩, hs⟩ := Option.ite_none_right_eq_some.mp hs
      exact Option.some.inj hs ▸ .wake t u hc hpc hsig hcu hu
    | none =>
      obtain ⟨⟨hc, hpc, hn⟩, hs⟩ := Option.ite_none_right_eq_some.mp hs
      exact Option.some.inj hs ▸ .wakeNobody t hc hpc hn
  | spurious t =>
    obtain ⟨⟨hc, hpc⟩, hs⟩ := Option.ite_none_right_eq_some.mp hs
    exact Option.some.inj hs ▸ .spurious t hc hpc

@[simp] theorem State.put_thread_self (s : State) (t : Thread) (l : Local) :
    (s.put t l).thread t = l := Function.update_self ..

theorem State.put_thread_of_ne (s : State) {t u : Thread} (l : Local) (h : u ≠ t) :
    (s.put t l).thread u = s.thread u := Function.update_of_ne h ..

@[simp] theorem State.goto_thread_self (s : State) (t : Thread) (pc : Pc) :
    (s.goto t pc).thread t = { s.thread t with pc := pc } := s.put_thread_self ..

theorem State.goto_thread_of_ne (s : State) {t u : Thread} (pc : Pc) (h : u ≠ t) :
    (s.goto t pc).thread u = s.thread u := s.put_thread_of_ne _ h

/-- The locations between `pthread_mutex_lock` and `pthread_mutex_unlock` with the mutex held. -/
def Local.inside (l : Local) : Bool :=
  match l.pc with
  | .test | .cell | .index | .count | .signal | .unlock => true
  | _ => false

end OsTasks.Threads.ProdCons

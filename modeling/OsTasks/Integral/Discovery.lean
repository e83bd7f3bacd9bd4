import OsTasks.Integral.DistributedMean

/-! How the master of task_8 finds its workers: the invitation it broadcasts, the answers of the
workers, and the datagrams between them, which may be lost, late, repeated and out of order. -/
namespace OsTasks.Integral.Discovery
open OsTasks.Lib

/-- The master's host and those the broadcast reaches. It does not come back to the master, whose
socket for the answers is not bound yet. -/
structure Subnet where
  master : Ip4
  hosts : List Ip4
  nodup : hosts.Nodup
  master_notMem : master ∉ hosts

/-- Where a worker's `main` stands, up to `accept`. -/
inductive HostPc where
  | off
  /-- at `recvfrom` -/
  | bound
  /-- before `sendto` -/
  | invited (client : Ip4)
  | answered
  | listening
  deriving DecidableEq

inductive MasterPc where
  | start
  | invited
  | receiving
  | closed
  deriving DecidableEq

/-- A datagram for the port 8123 of `dest`. -/
structure Packet where
  dest : Ip4
  source : Ip4
  bytes : List Byte

structure State where
  master : MasterPc
  host : Ip4 → HostPc
  flight : List Packet
  /-- what `rcv_ip_from_workers` read, in order -/
  received : List Datagram

inductive Action where
  | sendInvite
  | bind
  /-- the five seconds are over -/
  | close
  | start (x : Ip4)
  | answer (x : Ip4)
  | listen (x : Ip4)
  | deliver (k : ℕ)
  | lose (k : ℕ)
  | copy (k : ℕ)

def hello : List Byte := ascii "Hello"

/-- What `snprintf` makes of `numCores`. -/
def coresBuffer : List Byte := decimal maxCores

def State.setHost (s : State) (x : Ip4) (pc : HostPc) : State :=
  { s with host := Function.update s.host x pc }

section Step
variable (net : Subnet)

/-- A datagram at its host: a socket that is not bound, or not read any more, loses it. -/
def State.arrive (s : State) (p : Packet) : State :=
  if p.dest = net.master then
    if s.master = .receiving then { s with received := s.received ++ [⟨p.source, p.bytes⟩] } else s
  else if s.host p.dest = .bound then s.setHost p.dest (.invited p.source)
  else s

def step (s : State) : Action → Option State
  | .sendInvite =>
    if s.master = .start then
      some { s with
        master := .invited
        flight := s.flight ++ net.hosts.map fun x => ⟨x, net.master, hello⟩ }
    else none
  | .bind => if s.master = .invited then some { s with master := .receiving } else none
  | .close => if s.master = .receiving then some { s with master := .closed } else none
  | .start x =>
    if x ∈ net.hosts ∧ s.host x = .off then some (s.setHost x .bound) else none
  | .answer x =>
    match s.host x with
    | .invited client =>
      some { s.setHost x .answered with flight := s.flight ++ [⟨client, x, coresBuffer⟩] }
    | _ => none
  | .listen x => if s.host x = .answered then some (s.setHost x .listening) else none
  | .deliver k =>
    s.flight[k]?.map fun p => State.arrive net { s with flight := s.flight.eraseIdx k } p
  | .lose k => s.flight[k]?.map fun _ => { s with flight := s.flight.eraseIdx k }
  | .copy k => s.flight[k]?.map fun p => { s with flight := p :: s.flight }

def discovery : Machine State Action where
  init := ⟨.start, fun _ => .off, [], []⟩
  step := step net

end Step

/-- The worker is behind its `sendto`. -/
def HostPc.HasAnswered (pc : HostPc) : Prop := pc = .answered ∨ pc = .listening

/-- An answer of a worker that has answered. -/
structure AnswerOf (net : Subnet) (host : Ip4 → HostPc) (source : Ip4) (bytes : List Byte) :
    Prop where
  mem : source ∈ net.hosts
  bytes : bytes = coresBuffer
  answered : (host source).HasAnswered

/-- What the parties know of each other in every run. -/
structure Inv (net : Subnet) (s : State) : Prop where
  started : ∀ x, s.host x ≠ .off → x ∈ net.hosts
  invited : ∀ x client, s.host x = .invited client → client = net.master
  flight : ∀ p ∈ s.flight, (p.dest ∈ net.hosts ∧ p.source = net.master) ∨
    p.dest = net.master ∧ AnswerOf net s.host p.source p.bytes
  received : ∀ d ∈ s.received, AnswerOf net s.host d.source d.bytes

/-- The hosts whose answers are on their way to the master or there. -/
def answers (net : Subnet) (s : State) : List Ip4 :=
  (s.flight.filter fun p => p.dest = net.master).map Packet.source ++
    s.received.map Datagram.source

variable {net : Subnet}

theorem inv_init : Inv net (discovery net).init where
  started := fun _ h => absurd rfl h
  invited := nofun
  flight := fun _ hp => absurd hp List.not_mem_nil
  received := fun _ hd => absurd hd List.not_mem_nil

/-- The next statement of a worker. -/
structure Moves (net : Subnet) (s : State) (x : Ip4) (pc : HostPc) : Prop where
  mem : x ∈ net.hosts
  invited : ∀ client, pc = .invited client → client = net.master
  keeps : (s.host x).HasAnswered → pc.HasAnswered

section Moves
variable {s : State} {x : Ip4} {pc : HostPc}

theorem Moves.answerOf (h : Moves net s x pc) {source : Ip4} {bytes : List Byte}
    (ha : AnswerOf net s.host source bytes) :
    AnswerOf net (s.setHost x pc).host source bytes := by
  refine ⟨ha.mem, ha.bytes, ?_⟩
  unfold State.setHost
  dsimp only
  rw [Function.update_apply]
  split_ifs with he
  · rw [he] at ha
    exact h.keeps ha.answered
  · exact ha.answered

theorem Inv.setHost (hs : Inv net s) (h : Moves net s x pc) : Inv net (s.setHost x pc) where
  started := by
    intro y hy
    unfold State.setHost at hy
    dsimp only at hy
    rw [Function.update_apply] at hy
    split_ifs at hy with he
    · rw [he]
      exact h.mem
    · exact hs.started y hy
  invited := by
    intro y client hy
    unfold State.setHost at hy
    dsimp only at hy
    rw [Function.update_apply] at hy
    split_ifs at hy with he
    · exact h.invited client hy
    · exact hs.invited y client hy
  flight := fun p hp => (hs.flight p hp).imp_right fun hq => ⟨hq.1, h.answerOf hq.2⟩
  received := fun d hd => h.answerOf (hs.received d hd)

end Moves

theorem Inv.subset {s : State} (hs : Inv net s) {flight : List Packet}
    (h : ∀ p ∈ flight, p ∈ s.flight) : Inv net { s with flight := flight } :=
  ⟨hs.started, hs.invited, fun p hp => hs.flight p (h p hp), hs.received⟩

theorem Inv.source_of_dest {s : State} (hs : Inv net s) {p : Packet} (hp : p ∈ s.flight)
    (hdest : p.dest = net.master) : AnswerOf net s.host p.source p.bytes := by
  rcases hs.flight p hp with ⟨hhost, _⟩ | ⟨_, ha⟩
  · rw [hdest] at hhost
    exact absurd hhost net.master_notMem
  · exact ha

theorem Inv.arrive {s : State} (hs : Inv net s) {p : Packet}
    (hp : (p.dest ∈ net.hosts ∧ p.source = net.master) ∨
      p.dest = net.master ∧ AnswerOf net s.host p.source p.bytes) :
    Inv net (s.arrive net p) := by
  unfold State.arrive
  split_ifs with hdest hreceiving hbound
  · refine ⟨hs.started, hs.invited, hs.flight, ?_⟩
    intro d hd
    rcases List.mem_append.mp hd with hd | hd
    · exact hs.received d hd
    · rw [List.mem_singleton.mp hd]
      rcases hp with ⟨hhost, _⟩ | ⟨_, ha⟩
      · rw [hdest] at hhost
        exact absurd hhost net.master_notMem
      · exact ha
  · exact hs
  · rcases hp with ⟨hhost, hsource⟩ | ⟨hmaster, _⟩
    · apply hs.setHost
      refine ⟨hhost, ?_, ?_⟩
      · intro client h
        cases h
        exact hsource
      · rw [hbound]
        exact fun h => h.elim nofun nofun
    · exact absurd hmaster hdest
  · exact hs

theorem inv_step {s t : State} {a : Action} (hs : Inv net s) (ht : step net s a = some t) :
    Inv net t := by
  cases a with
  | sendInvite =>
    obtain ⟨_, ht⟩ := Option.ite_none_right_eq_some.mp ht
    cases ht
    refine ⟨hs.started, hs.invited, ?_, hs.received⟩
    intro p hp
    rcases List.mem_append.mp hp with hp | hp
    · exact hs.flight p hp
    · obtain ⟨x, hx, rfl⟩ := List.mem_map.mp hp
      exact Or.inl ⟨hx, rfl⟩
  | bind =>
    obtain ⟨_, ht⟩ := Option.ite_none_right_eq_some.mp ht
    cases ht
    exact ⟨hs.started, hs.invited, hs.flight, hs.received⟩
  | close =>
    obtain ⟨_, ht⟩ := Option.ite_none_right_eq_some.mp ht
    cases ht
    exact ⟨hs.started, hs.invited, hs.flight, hs.received⟩
  | start x =>
    obtain ⟨⟨hx, hoff⟩, ht⟩ := Option.ite_none_right_eq_some.mp ht
    cases ht
    apply hs.setHost
    refine ⟨hx, nofun, ?_⟩
    rw [hoff]
    exact fun h => h.elim nofun nofun
  | answer x =>
    unfold step at ht
    dsimp only at ht
    cases hx : s.host x with
    | invited client =>
      rw [hx] at ht
      cases ht
      obtain rfl := hs.invited x client hx
      have hmem : x ∈ net.hosts := hs.started x (by rw [hx]; nofun)
      have hmoved : Inv net (s.setHost x .answered) :=
        hs.setHost ⟨hmem, nofun, fun _ => Or.inl rfl⟩
      refine ⟨hmoved.started, hmoved.invited, ?_, hmoved.received⟩
      intro p hp
      rcases List.mem_append.mp hp with hp | hp
      · exact hmoved.flight p hp
      · rw [List.mem_singleton.mp hp]
        refine Or.inr ⟨rfl, hmem, rfl, ?_⟩
        exact Or.inl (Function.update_self _ _ _)
    | off => simp [hx] at ht
    | bound => simp [hx] at ht
    | answered => simp [hx] at ht
    | listening => simp [hx] at ht
  | listen x =>
    obtain ⟨hx, ht⟩ := Option.ite_none_right_eq_some.mp ht
    cases ht
    have hmem : x ∈ net.hosts := hs.started x (by rw [hx]; nofun)
    exact hs.setHost ⟨hmem, nofun, fun _ => Or.inr rfl⟩
  | deliver k =>
    obtain ⟨p, hp, rfl⟩ := Option.map_eq_some_iff.mp ht
    have hrest : Inv net { s with flight := s.flight.eraseIdx k } :=
      hs.subset fun q hq => List.mem_of_mem_eraseIdx hq
    exact hrest.arrive (hs.flight p (List.mem_of_getElem? hp))
  | lose k =>
    obtain ⟨p, hp, rfl⟩ := Option.map_eq_some_iff.mp ht
    exact hs.subset fun q hq => List.mem_of_mem_eraseIdx hq
  | copy k =>
    obtain ⟨p, hp, rfl⟩ := Option.map_eq_some_iff.mp ht
    apply hs.subset
    intro q hq
    rcases List.mem_cons.mp hq with rfl | hq
    · exact List.mem_of_getElem? hp
    · exact hq

theorem inv_of_run {as : List Action} {s : State} (hs : (discovery net).run as = some s) :
    Inv net s := by
  apply Machine.runFrom_invariant (I := Inv net) _ inv_init hs
  intro u a v hu hv
  exact inv_step hu hv

section Answers
variable {s t : State}

theorem answered_of_mem (hs : Inv net s) {x : Ip4} (hx : x ∈ answers net s) :
    (s.host x).HasAnswered := by
  rcases List.mem_append.mp hx with hx | hx
  · obtain ⟨p, hp, rfl⟩ := List.mem_map.mp hx
    obtain ⟨hp, hdest⟩ := List.mem_filter.mp hp
    exact (hs.source_of_dest hp (of_decide_eq_true hdest)).answered
  · obtain ⟨d, hd, rfl⟩ := List.mem_map.mp hx
    exact (hs.received d hd).answered

theorem answers_perm_eraseIdx {k : ℕ} {p : Packet} (hp : s.flight[k]? = some p) :
    (answers net s).Perm ((if p.dest = net.master then [p.source] else []) ++
      answers net { s with flight := s.flight.eraseIdx k }) := by
  obtain ⟨hk, rfl⟩ := List.getElem?_eq_some_iff.mp hp
  have hflight := ((List.getElem_cons_eraseIdx_perm hk).symm.filter
    fun p => p.dest = net.master).map Packet.source
  have hall := hflight.append_right (s.received.map Datagram.source)
  rw [List.filter_cons] at hall
  unfold answers
  split_ifs at hall ⊢ with hdest hother hother
  · exact hall
  · exact absurd hdest (by simpa using hother)
  · exact absurd (by simpa using hother) hdest
  · exact hall

theorem nodup_answers_step {a : Action} (hs : Inv net s) (hnodup : (answers net s).Nodup)
    (ha : ∀ k, a ≠ .copy k) (ht : step net s a = some t) : (answers net t).Nodup := by
  cases a with
  | sendInvite =>
    obtain ⟨_, ht⟩ := Option.ite_none_right_eq_some.mp ht
    cases ht
    have hnone : ((net.hosts.map fun x => (⟨x, net.master, hello⟩ : Packet)).filter
        fun p => p.dest = net.master) = [] := by
      rw [List.filter_eq_nil_iff]
      intro p hp
      obtain ⟨x, hx, rfl⟩ := List.mem_map.mp hp
      have hne : x ≠ net.master := fun he => net.master_notMem (he ▸ hx)
      simpa using hne
    unfold answers
    rw [List.filter_append, hnone, List.append_nil]
    exact hnodup
  | bind =>
    obtain ⟨_, ht⟩ := Option.ite_none_right_eq_some.mp ht
    cases ht
    exact hnodup
  | close =>
    obtain ⟨_, ht⟩ := Option.ite_none_right_eq_some.mp ht
    cases ht
    exact hnodup
  | start x =>
    obtain ⟨_, ht⟩ := Option.ite_none_right_eq_some.mp ht
    cases ht
    exact hnodup
  | answer x =>
    unfold step at ht
    dsimp only at ht
    cases hx : s.host x with
    | invited client =>
      rw [hx] at ht
      cases ht
      obtain rfl := hs.invited x client hx
      have hnew : x ∉ answers net s := by
        intro hmem
        have hanswered := answered_of_mem hs hmem
        rw [hx] at hanswered
        exact hanswered.elim nofun nofun
      have hlast : [(⟨net.master, x, coresBuffer⟩ : Packet)].filter
          (fun p => p.dest = net.master) = [⟨net.master, x, coresBuffer⟩] := by simp
      unfold answers at hnew hnodup ⊢
      change (((s.flight ++ [(⟨net.master, x, coresBuffer⟩ : Packet)]).filter
        fun p => p.dest = net.master).map Packet.source ++
          s.received.map Datagram.source).Nodup
      rw [List.filter_append, hlast, List.map_append, List.map_singleton, List.append_assoc,
        List.singleton_append]
      exact List.nodup_middle.mpr (List.nodup_cons.mpr ⟨hnew, hnodup⟩)
    | off => simp [hx] at ht
    | bound => simp [hx] at ht
    | answered => simp [hx] at ht
    | listening => simp [hx] at ht
  | listen x =>
    obtain ⟨_, ht⟩ := Option.ite_none_right_eq_some.mp ht
    cases ht
    exact hnodup
  | deliver k =>
    obtain ⟨p, hp, rfl⟩ := Option.map_eq_some_iff.mp ht
    have hperm := (answers_perm_eraseIdx hp).nodup_iff.mp hnodup
    have hrest := hperm.of_append_right
    unfold State.arrive
    split_ifs with hdest hreceiving hbound
    · rw [if_pos hdest] at hperm
      unfold answers at hperm ⊢
      dsimp only
      rw [List.map_append, List.map_singleton, ← List.append_assoc]
      exact List.nodup_append_comm.mp hperm
    · exact hrest
    · exact hrest
    · exact hrest
  | lose k =>
    obtain ⟨p, hp, rfl⟩ := Option.map_eq_some_iff.mp ht
    exact ((answers_perm_eraseIdx hp).nodup_iff.mp hnodup).of_append_right
  | copy k => exact absurd rfl (ha k)

/-- Without repeated datagrams no worker is registered twice. -/
theorem nodup_received {as : List Action} (hs : (discovery net).run as = some s)
    (hcopy : ∀ k, .copy k ∉ as) : (s.received.map Datagram.source).Nodup := by
  have hall : (discovery net).AllSteps (fun _ a => ∀ k, a ≠ .copy k) (discovery net).init as := by
    apply Machine.allSteps_of_forall
    intro _ a ha k he
    rw [he] at ha
    exact hcopy k ha
  have hboth : Inv net s ∧ (answers net s).Nodup := by
    apply Machine.runFrom_invariant_of_allSteps
      (I := fun u => Inv net u ∧ (answers net u).Nodup) _ ⟨inv_init, List.nodup_nil⟩ hall hs
    intro u a v hu ha hv
    exact ⟨inv_step hu.1 hv, nodup_answers_step hu.1 hu.2 ha hv⟩
  exact hboth.2.of_append_right

end Answers

section Tasks
variable {ds : List Datagram} {b : Behaviour} {memory : ℕ → Unset} {server : Server}
  {sent : List (ℕ × Task)}

theorem atoi_coresBuffer {d : Datagram} (h : d.bytes = coresBuffer) : (atoi d.buffer).val = 8 := by
  have hbuffer : d.buffer = coresBuffer.take (datagramBufSize - 1) ++ [0] := by
    unfold Datagram.buffer
    rw [h]
  rw [hbuffer]
  decide +kernel

theorem map_cores_of_answers (h : ∀ d ∈ ds, d.bytes = coresBuffer) :
    ((ds.take maxWorkers).map fun d => (atoi d.buffer).val) =
      List.replicate (ds.take maxWorkers).length 8 := by
  rw [List.eq_replicate_iff, List.length_map]
  refine ⟨rfl, ?_⟩
  intro c hc
  obtain ⟨d, hd, rfl⟩ := List.mem_map.mp hc
  exact atoi_coresBuffer (h d (List.mem_of_mem_take hd))

theorem indexSafe_of_answers (h : ∀ d ∈ ds, d.bytes = coresBuffer) (memory : ℕ → Unset) :
    (∃ numOfCores, IndexSafe ((rcvIpFromWorkers memory ds).server []).workers numOfCores) ↔
      ds ≠ [] := by
  have hvalues : (((ds.take maxWorkers).map fun d => atoi d.buffer).map SInt.val) =
      List.replicate (ds.take maxWorkers).length 8 := by
    rw [List.map_map]
    exact map_cores_of_answers h
  have hten : (ds.take maxWorkers).length ≤ maxWorkers := List.length_take_le _ _
  rw [indexSafe_iff_cores, map_numOfCores, hvalues, List.sum_replicate, ne_eq, List.map_eq_nil_iff,
    List.take_eq_nil_iff, List.forall_mem_map]
  constructor
  · rintro ⟨hne, _, _⟩ hnil
    exact hne (Or.inr hnil)
  · intro hne
    refine ⟨fun hnil => hnil.elim (by decide) hne, ?_, ?_⟩
    · intro d hd
      rw [atoi_coresBuffer (h d (List.mem_of_mem_take hd))]
      decide
    · have hsmall : (ds.take maxWorkers).length ≤ 10 := hten
      simp only [nsmul_eq_mul]
      push_cast
      omega

theorem registered_values (h : ∀ d ∈ ds, d.bytes = coresBuffer)
    (hserver : master b.connect b.fds memory ds = some server) :
    (server.workers.map fun w => w.numOfCores.val) =
      List.replicate (min maxWorkers ds.length) 8 := by
  have hmap := congrArg (List.map fun c : CInt => c.val) (master_cores hserver)
  rw [List.map_map, List.map_map] at hmap
  rw [← List.length_take, ← map_cores_of_answers h]
  exact hmap

/-- The task of each of `n` workers of eight cores. -/
structure FirstSlab (n : ℕ) (t : Task) : Prop where
  x1 : t.x1 = 0
  x2 : t.x2 = 3 / n
  y1 : t.y1 = 0
  y2 : t.y2 = 3
  numOrPoints : t.numOrPoints.val = 100000 / (8 * n) * 8

theorem firstSlab_of_slab {n : ℕ} {t : Task} (h : SlabOf mainTask (8 * n) 8 t) : FirstSlab n t where
  x1 := h.x1
  x2 := by
    rw [h.main_right]
    push_cast
    rw [mul_comm (8 : ℚ), mul_div_mul_right _ _ (by norm_num)]
  y1 := h.y1
  y2 := h.y2
  numOrPoints := h.points (by decide)

/-- The workers that are registered all get the same task. -/
theorem sent_of_answers (h : ∀ d ∈ ds, d.bytes = coresBuffer) (hne : ds ≠ [])
    (hserver : master b.connect b.fds memory ds = some server)
    (hsent : sendTask server = some sent) :
    server.workers.length = min maxWorkers ds.length ∧
      sent.length = min maxWorkers ds.length ∧
      (∀ p ∈ sent, FirstSlab (min maxWorkers ds.length) p.2) ∧
      squaredShares server.workers = 1 / (min maxWorkers ds.length : ℕ) := by
  set n := min maxWorkers ds.length with hn
  have hvalues : (server.workers.map fun w => w.numOfCores.val) = List.replicate n 8 :=
    registered_values h hserver
  have hlength : server.workers.length = n := by
    have hlen := congrArg List.length hvalues
    rw [List.length_map, List.length_replicate] at hlen
    exact hlen
  have hpos : 0 < n := by
    rw [hn, lt_min_iff]
    exact ⟨by decide, List.length_pos_of_ne_nil hne⟩
  have hworkers : server.workers ≠ [] := by
    intro hnil
    rw [hnil] at hlength
    exact hpos.ne hlength
  have htotal : coreSum server.workers = 8 * n := by
    unfold coreSum
    rw [hvalues, List.sum_replicate, nsmul_eq_mul, mul_comm]
  have hcore : ∀ w ∈ server.workers, w.numOfCores.val = 8 := by
    intro w hw
    have hmem : w.numOfCores.val ∈ server.workers.map fun w => w.numOfCores.val :=
      List.mem_map_of_mem hw
    rw [hvalues] at hmem
    exact List.eq_of_mem_replicate hmem
  obtain ⟨_, hslabs⟩ := master_sent hserver hsent hworkers
  refine ⟨hlength, hslabs.length_eq.symm.trans hlength, ?_, ?_⟩
  · intro p hp
    obtain ⟨w, hw, -, hslab⟩ := exists_of_forall₂ hslabs hp
    rw [htotal, hcore w hw] at hslab
    exact firstSlab_of_slab hslab
  · have hne' : (n : ℚ) ≠ 0 := by exact_mod_cast hpos.ne'
    have hshares : (server.workers.map fun w =>
        ((w.numOfCores.val : ℚ) / coreSum server.workers) ^ 2) =
        List.replicate n ((8 / (8 * n)) ^ 2 : ℚ) := by
      rw [List.eq_replicate_iff, List.length_map]
      refine ⟨hlength, ?_⟩
      intro q hq
      obtain ⟨w, hw, rfl⟩ := List.mem_map.mp hq
      rw [hcore w hw, htotal]
      push_cast
      rfl
    unfold squaredShares
    rw [hshares, List.sum_replicate, nsmul_eq_mul]
    field_simp

/-- A master that can connect to the workers it has registered sends their tasks. -/
theorem exists_sent_of_answers (h : ∀ d ∈ ds, d.bytes = coresBuffer) (hne : ds ≠ [])
    (hconnect : ∀ d ∈ ds, (∃ o ∈ d.source.octets, o.toNat < 100) ∧
      ∀ fd, b.connect fd d.source = true) :
    ∃ server sent, master b.connect b.fds memory ds = some server ∧
      sendTask server = some sent := by
  obtain ⟨server, hserver⟩ :=
    exists_master_of_short ((indexSafe_of_answers h memory).mpr hne) hconnect b.fds
  obtain ⟨sent, hsent⟩ := master_sends hserver
  exact ⟨server, sent, hserver, hsent⟩

end Tasks

/-- In every run, with datagrams lost, late, repeated and out of order: the master registers only
workers that were there and have answered, each once while no datagram is repeated; the indices of
`send_task` and `gather_results` are within their arrays exactly when some answer arrived; it then
gets there when it can connect to all of them and their addresses fit; and where it gets there all
its workers are sent the same task, the first of as many slabs as there are workers. -/
theorem workers_discovered (net : Subnet) {as : List Action} {s : State}
    (hs : (discovery net).run as = some s) :
    (∀ d ∈ s.received, AnswerOf net s.host d.source d.bytes) ∧
      ((∀ k, .copy k ∉ as) → (s.received.map Datagram.source).Nodup) ∧
      ∀ memory,
        ((∃ numOfCores,
          IndexSafe ((rcvIpFromWorkers memory s.received).server []).workers numOfCores) ↔
            s.received ≠ []) ∧
        (∀ b : Behaviour, s.received ≠ [] →
          (∀ d ∈ s.received, (∃ o ∈ d.source.octets, o.toNat < 100) ∧
            ∀ fd, b.connect fd d.source = true) →
          ∃ server sent, master b.connect b.fds memory s.received = some server ∧
            sendTask server = some sent) ∧
        ∀ (b : Behaviour) server sent, s.received ≠ [] →
          master b.connect b.fds memory s.received = some server → sendTask server = some sent →
          server.workers.length = min maxWorkers s.received.length ∧
            sent.length = min maxWorkers s.received.length ∧
            (∀ p ∈ sent, FirstSlab (min maxWorkers s.received.length) p.2) ∧
            squaredShares server.workers = 1 / (min maxWorkers s.received.length : ℕ) := by
  have hinv := inv_of_run hs
  have hbytes : ∀ d ∈ s.received, d.bytes = coresBuffer := fun d hd => (hinv.received d hd).bytes
  refine ⟨hinv.received, nodup_received hs, fun memory => ⟨?_, ?_, ?_⟩⟩
  · exact indexSafe_of_answers hbytes memory
  · intro b hne hconnect
    exact exists_sent_of_answers hbytes hne hconnect
  · intro b server sent hne hserver hsent
    exact sent_of_answers hbytes hne hserver hsent

def twoHosts : Subnet where
  master := ⟨192, 168, 109, 1⟩
  hosts := [⟨192, 168, 109, 5⟩, ⟨192, 168, 109, 6⟩]
  nodup := by decide
  master_notMem := by decide

/-- Two workers whose answers overtake each other. -/
def overtaking : List Action :=
  [.start ⟨192, 168, 109, 5⟩, .start ⟨192, 168, 109, 6⟩, .sendInvite, .bind, .deliver 0, .deliver 0,
    .answer ⟨192, 168, 109, 5⟩, .answer ⟨192, 168, 109, 6⟩, .deliver 1, .deliver 0,
    .listen ⟨192, 168, 109, 5⟩, .close]

/-- Both get the left half. -/
theorem workers_discovered_overtaking :
    ∃ s, (discovery twoHosts).run overtaking = some s ∧
      s.received = [⟨⟨192, 168, 109, 6⟩, coresBuffer⟩, ⟨⟨192, 168, 109, 5⟩, coresBuffer⟩] ∧
      (s.received.map Datagram.source).Nodup ∧
      (∀ d ∈ s.received, AnswerOf twoHosts s.host d.source d.bytes) ∧
      (∃ numOfCores, IndexSafe
        ((rcvIpFromWorkers (fun _ => zeroed) s.received).server []).workers numOfCores) ∧
      ∃ server sent, master twoAnswers.connect twoAnswers.fds (fun _ => zeroed) s.received =
          some server ∧ sendTask server = some sent ∧ sent.length = 2 ∧
        (∀ p ∈ sent, FirstSlab 2 p.2) ∧ squaredShares server.workers = 1 / 2 := by
  have hrun : (discovery twoHosts).run overtaking = some _ := rfl
  obtain ⟨hanswers, honce, htasks⟩ := workers_discovered twoHosts hrun
  obtain ⟨hindices, hsends, hslabs⟩ := htasks fun _ => zeroed
  have hcopy : ∀ k, .copy k ∉ overtaking := by
    intro k hk
    simp [overtaking] at hk
  have hconnect : ∀ x ∈ [(⟨192, 168, 109, 6⟩ : Ip4), ⟨192, 168, 109, 5⟩],
      ∃ o ∈ x.octets, o.toNat < 100 := by decide
  obtain ⟨server, sent, hserver, hsent⟩ := hsends twoAnswers (List.cons_ne_nil _ _) (fun d hd =>
    ⟨hconnect d.source (List.mem_map_of_mem hd), fun _ => rfl⟩)
  obtain ⟨-, hlength, hfirst, hshares⟩ :=
    hslabs twoAnswers server sent (List.cons_ne_nil _ _) hserver hsent
  exact ⟨_, hrun, rfl, honce hcopy, hanswers, hindices.mpr (List.cons_ne_nil _ _), server, sent,
    hserver, hsent, hlength, hfirst, hshares⟩

end OsTasks.Integral.Discovery

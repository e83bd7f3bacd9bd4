import OsTasks.FileServer.Process
import OsTasks.Lib.Grouping

/-! From the requests the clients of the file server write to the files they receive: what the main
loop made of each message, what the pool wrote for it, and that nothing else was written. -/
namespace OsTasks.FileServer.Process
open OsTasks.Lib Dispatch

variable {w : World} {setup : Setup}

/-- The jobs of one message are for the file it asks for. -/
def Makes (m : Message) (jobs : List Job) : Prop :=
  (jobs.map fun j => j.request.fileName) = (asks m).toList

/-- Each client has its own FIFO, each job is for the client it was read from, and the jobs are
those of the messages read, in order. A FIFO that gets replies is not accounted for. -/
structure Told (s : State) : Prop where
  nodup : (s.added.map Prod.fst).Nodup
  jobs : ∀ j ∈ s.jobs, (j.source, j.request.destFileName) ∈ s.added
  requests : ∀ n, n ≠ cmdFifo → (∀ p ∈ s.added, p.2 ≠ n) →
    Answered Message.text Makes (s.written n) (s.fifo n) (s.jobsFrom n)

theorem told_init : Told (dispatch setup).init where
  nodup := List.nodup_nil
  jobs := fun _ hj => absurd hj List.not_mem_nil
  requests := fun _ _ _ => answered_nil

theorem told_write {s : State} (hs : Told s) (n : Name) (m : Message) : Told (s.write n m) where
  nodup := hs.nodup
  jobs := hs.jobs
  requests := by
    intro n' hcmd hreply
    have hold := hs.requests n' hcmd hreply
    change Answered _ _ (Function.update s.written n (s.written n ++ [m]) n')
      (Function.update s.fifo n (s.fifo n ++ m.text) n') (s.jobsFrom n')
    by_cases h : n' = n
    · subst h
      rw [Function.update_self, Function.update_self]
      exact hold.write m
    · rw [Function.update_of_ne h, Function.update_of_ne h]
      exact hold

theorem Told.read {s : State} (hs : Told s) {n : Name} (hn : n ≠ cmdFifo)
    (hreply : ∀ p ∈ s.added, p.2 ≠ n) :
    Answered Message.text Makes (s.written n) ((s.read cmdFifo).fifo n) (s.jobsFrom n) := by
  rw [read_fifo_of_ne hn]
  exact hs.requests n hn hreply

theorem told_register {s : State} (hs : Told s) {tx rx : Name} {fd : Option ℕ}
    (hfresh : ∀ p ∈ s.added, p.1 ≠ tx) : Told (addClient (s.read cmdFifo) tx rx fd) where
  nodup := by
    change ((s.added ++ [(tx, rx)]).map Prod.fst).Nodup
    rw [List.map_append, List.nodup_append]
    refine ⟨hs.nodup, List.nodup_singleton _, ?_⟩
    intro a ha b hb
    obtain ⟨p, hp, rfl⟩ := List.mem_map.mp ha
    rw [List.map_singleton, List.mem_singleton] at hb
    rw [hb]
    exact hfresh p hp
  jobs := fun j hj => List.mem_append_left _ (hs.jobs j hj)
  requests := by
    intro n hn hreply
    exact hs.read hn fun p hp => hreply p (List.mem_append_left _ hp)

theorem told_serve {s : State} (hs : Told s) {i : ℕ} {c : Client} {fd : ℕ} {n : Name} {m : Message}
    {file : Option Name} (hserves : Serves s i c fd n) (hm : Alone s n m)
    (hfile : clientRequest m.text = some file) (pc : Pc) (rfds : Finset ℕ) :
    Told { s.read n with
      pc := pc
      rfds := rfds
      jobs := s.jobs ++ (file.map fun f => (⟨i, n, ⟨c.rxFilename, f⟩⟩ : Job)).toList } := by
  have hnew : ∀ j ∈ (file.map fun f => (⟨i, n, ⟨c.rxFilename, f⟩⟩ : Job)).toList,
      j.source = n ∧ j.request.destFileName = c.rxFilename := by
    intro j hj
    obtain ⟨f, _, rfl⟩ := Option.map_eq_some_iff.mp (Option.mem_toList.mp hj)
    exact ⟨rfl, rfl⟩
  have hmakes : Makes m (file.map fun f => (⟨i, n, ⟨c.rxFilename, f⟩⟩ : Job)).toList := by
    unfold Makes asks
    rw [hfile]
    cases file <;> rfl
  refine ⟨hs.nodup, ?_, ?_⟩
  · intro j hj
    rcases List.mem_append.mp hj with hj | hj
    · exact hs.jobs j hj
    · obtain ⟨hsource, hdest⟩ := hnew j hj
      rw [hsource, hdest]
      exact List.mem_of_getElem? hserves.added
  · intro n' hn' hreply
    unfold State.jobsFrom
    rw [List.filter_append]
    change Answered _ _ (s.written n') ((s.read n).fifo n') _
    by_cases h : n' = n
    · subst h
      have hall : ((file.map fun f => (⟨i, n', ⟨c.rxFilename, f⟩⟩ : Job)).toList.filter
          fun j => j.source = n') =
          (file.map fun f => (⟨i, n', ⟨c.rxFilename, f⟩⟩ : Job)).toList :=
        List.filter_eq_self.mpr fun j hj => decide_eq_true (hnew j hj).1
      rw [hall, hm.read]
      exact (hs.requests n' hn' hreply).read Message.text_ne_nil hm.1 hm.2 hmakes
    · have hnone : ((file.map fun f => (⟨i, n, ⟨c.rxFilename, f⟩⟩ : Job)).toList.filter
          fun j => j.source = n') = [] := by
        rw [List.filter_eq_nil_iff]
        intro j hj
        rw [(hnew j hj).1]
        simpa using Ne.symm h
      rw [hnone, List.append_nil, read_fifo_of_ne h]
      exact hs.requests n' hn' hreply

theorem told_moved {s t : State} (hs : Told s) (ht : Moved setup s t) : Told t := by
  cases ht with
  | write n m hpc => exact told_write hs n m
  | off hpc hm hadds hn => exact ⟨hs.nodup, hs.jobs, fun _ => hs.read⟩
  | unknown hpc hm hadds => exact ⟨hs.nodup, hs.jobs, fun _ => hs.read⟩
  | register hpc hm hadds hfits hfd h0 hnew => exact told_register hs hfits.fresh
  | serve hpc hc hserves hm hfile => exact told_serve hs hserves hm hfile _ _
  | select hpc => exact ⟨hs.nodup, hs.jobs, hs.requests⟩
  | finish hpc => exact ⟨hs.nodup, hs.jobs, hs.requests⟩
  | skip hpc => exact ⟨hs.nodup, hs.jobs, hs.requests⟩
  | abort h => exact ⟨hs.nodup, hs.jobs, hs.requests⟩

theorem sent_eq_nil {reqs : List Request} {p q : PoolState} {a : PoolAction}
    (hq : poolStep w reqs p a = some q) {n : Name} (hn : ∀ r ∈ reqs, r.destFileName ≠ n) :
    sent p q n = [] := by
  have hsame : q.stream n = p.stream n := by
    obtain ⟨-, ⟨-, hd, rfl⟩ | ⟨j, -, hj, rfl⟩ | ⟨j, r, pc, -, hj, hr, rfl⟩⟩ := poolStep_cases hq
    · rfl
    · rfl
    · rcases sendFile_cases w p j r pc with
        ⟨he, -⟩ | ⟨pc', he, -⟩ | ⟨-, he⟩ | ⟨rest, -, -, he⟩
      · rw [he]
      · rw [he, setJob_stream]
      · rw [he, setJob_stream]
      · rw [he]
        exact Function.update_of_ne (hn r (List.mem_of_getElem? hr)).symm _ _
  unfold sent
  rw [hsame, List.drop_length]
  rfl

theorem told_receive {s : State} (hs : Told s) {bytes : Name → List Byte}
    (hb : ∀ n, (∀ r ∈ requestsOf s, r.destFileName ≠ n) → bytes n = []) :
    Told (receive s bytes) where
  nodup := hs.nodup
  jobs := hs.jobs
  requests := by
    intro n hn hreply
    have hnone : bytes n = [] := by
      apply hb
      intro r hr
      obtain ⟨j, hj, rfl⟩ := List.mem_map.mp hr
      exact hreply _ (hs.jobs j hj)
    change Answered _ _ (s.written n) (s.fifo n ++ bytes n) (s.jobsFrom n)
    rw [hnone, List.append_nil]
    exact hs.requests n hn hreply

/-- What the jobs write takes nothing from a FIFO. -/
theorem watching_receive {s : State} (hs : Watching setup s) (hpc : s.pc ≠ .exited)
    (bytes : Name → List Byte) : Watching setup (receive s bytes) where
  opened := hs.opened
  select := hs.select
  cmd := fun h => List.append_ne_nil_of_left_ne_nil (hs.cmd h) _
  ready := by
    intro h fd hfd hne
    obtain ⟨n, hn⟩ := hs.opened fd hfd
    have hp := hs.ready h fd hfd hne
    rw [pending_of_opened hn] at hp
    have hn' : (receive s bytes).opened fd = some n := hn
    rw [pending_of_opened hn']
    exact List.append_ne_nil_of_left_ne_nil hp _
  ne_fault := hs.ne_fault
  exited := fun h => absurd h hpc

/-- What holds along every run whose main loop loses no message. -/
structure LoopInv (setup : Setup) (s : State) : Prop where
  registered : Registered setup s
  watching : Watching setup s
  told : Told s

theorem loopInv_step {s t : ProcessState} {e : ProcessEvent} (hs : LoopInv setup s.loop)
    (hok : LoopOk w s e) (ht : processStep setup s e = some t) : LoopInv setup t.loop := by
  cases e with
  | main e =>
    obtain ⟨-, ht⟩ := Option.ite_none_left_eq_some.mp ht
    obtain ⟨u, hu, rfl⟩ := Option.map_eq_some_iff.mp ht
    cases e with
    | emptyRead env => exact hok.elim
    | event e =>
      cases e with
      | put n bytes => exact hok.elim
      | overrun a => exact hok.elim
      | act a =>
        have hmoved := moved_of_ok hs.registered hok hu
        exact ⟨registered_moved hs.registered hmoved,
          watching_moved hs.watching hs.registered hmoved, told_moved hs.told hmoved⟩
  | pool w' a =>
    obtain ⟨hpc, ht⟩ := Option.ite_none_left_eq_some.mp ht
    obtain ⟨q, hq, rfl⟩ := Option.map_eq_some_iff.mp ht
    exact ⟨hs.registered.congr rfl rfl rfl rfl, watching_receive hs.watching hpc _,
      told_receive hs.told fun n hn => sent_eq_nil hq hn⟩

theorem loopInv_of_run {es : List ProcessEvent} {s : ProcessState}
    (hs : (process setup).run es = some s)
    (hok : (process setup).AllSteps (LoopOk w) (process setup).init es) :
    LoopInv setup s.loop := by
  apply Machine.runFrom_invariant_of_allSteps (I := fun u => LoopInv setup u.loop)
    (P := LoopOk w) _ ⟨registered_init, watching_init, told_init⟩ hok hs
  intro u a v hu ha hv
  exact loopInv_step hu ha hv

theorem sameWorld_of_loopOk {es : List ProcessEvent} {s : ProcessState}
    (hs : (process setup).run es = some s)
    (hok : (process setup).AllSteps (LoopOk w) (process setup).init es) :
    (process setup).AllSteps (fun _ => SameWorld w) (process setup).init es :=
  Machine.allSteps_of_allSteps (I := fun _ => True) (fun _ _ _ _ _ _ => trivial)
    (fun _ _ _ _ ha _ => ha.sameWorld) trivial hok hs

/-- The files requested for `rx`. -/
def filesFor (reqs : List Request) (rx : Name) : List Name :=
  (reqs.filter fun r => r.destFileName = rx).map Request.fileName

theorem Told.filter_jobs {s : State} (hs : Told s) {p : Name × Name} (hp : p ∈ s.added)
    (rx : Name) : ((s.jobs.filter fun j => j.request.destFileName = rx).filter
      fun j => j.source = p.1) = if p.2 = rx then s.jobsFrom p.1 else [] := by
  have hdest : ∀ j ∈ s.jobs, j.source = p.1 → j.request.destFileName = p.2 := by
    intro j hj hsource
    have he := List.inj_on_of_nodup_map hs.nodup (hs.jobs j hj) hp hsource
    exact congrArg Prod.snd he
  rw [List.filter_comm, List.filter_filter]
  split_ifs with h
  · apply List.filter_congr
    intro j hj
    by_cases hsource : j.source = p.1
    · simp [hsource, hdest j hj hsource, h]
    · simp [hsource]
  · rw [List.filter_eq_nil_iff]
    intro j hj
    by_cases hsource : j.source = p.1
    · simp [hsource, hdest j hj hsource, h]
    · simp [hsource]

/-- When all messages have been read the jobs are for the files asked for. -/
theorem filesFor_perm_asked {s : State} (hs : Told s)
    (hread : ∀ p ∈ s.added, Answers Makes (s.written p.1) (s.jobsFrom p.1)) (rx : Name) :
    (filesFor (requestsOf s) rx).Perm (asked s rx) := by
  let forRx := s.jobs.filter fun j => j.request.destFileName = rx
  have hfiles : filesFor (requestsOf s) rx = forRx.map fun j => j.request.fileName := by
    unfold filesFor requestsOf
    rw [List.filter_map, List.map_map]
    rfl
  have hsources : ∀ j ∈ forRx, j.source ∈ s.added.map Prod.fst :=
    fun j hj => List.mem_map.mpr ⟨_, hs.jobs j (List.mem_filter.mp hj).1, rfl⟩
  have hparts := (perm_flatMap_filter Job.source hs.nodup hsources).map
    fun j => j.request.fileName
  have hasked : (((s.added.map Prod.fst).flatMap fun n => forRx.filter fun j => j.source = n).map
      fun j => j.request.fileName) = asked s rx := by
    unfold asked
    rw [List.flatMap_map, List.map_flatMap]
    apply List.flatMap_congr
    intro p hp
    rw [hs.filter_jobs hp rx]
    split_ifs
    · exact (hread p hp).map_eq_filterMap fun _ _ h => h
    · rfl
  rw [hfiles, ← hasked]
  exact hparts.symm

theorem Unmixed.symm {f g : Name} (h : Unmixed w f g) : Unmixed w g f := ⟨h.2, h.1⟩

section Requests
variable {reqs : List Request}

theorem content_eq_fileOf {j : ℕ} {r : Request} (hr : reqs[j]? = some r) :
    content w reqs j = fileOf w r.fileName := by
  unfold content
  rw [hr, Option.bind_some]
  rfl

theorem available_of_files
    (h : ∀ rx, ∀ f ∈ filesFor reqs rx, w.opens rx = true ∧ (w.file f).isSome) :
    Available w reqs := by
  intro r hr
  have hmem : r ∈ reqs.filter fun r' => r'.destFileName = r.destFileName :=
    List.mem_filter.mpr ⟨hr, decide_eq_true rfl⟩
  exact h r.destFileName r.fileName (List.mem_map_of_mem hmem)

theorem apart_of_files (h : ∀ rx, (filesFor reqs rx).Pairwise (Unmixed w)) : Apart w reqs := by
  intro i hi j hj hij hdest hlong
  have hri : reqs[i]? = some reqs[i] := List.getElem?_eq_getElem hi
  have hrj : reqs[j]? = some reqs[j] := List.getElem?_eq_getElem hj
  rw [destOf_eq hri, destOf_eq hrj] at hdest
  have hsame : reqs[i].destFileName = reqs[j].destFileName := Option.some.inj hdest
  have hpair := h reqs[j].destFileName
  unfold filesFor at hpair
  rw [List.pairwise_map, List.pairwise_filter, List.pairwise_iff_getElem] at hpair
  rw [content_eq_fileOf hri] at hlong
  rw [content_eq_fileOf hrj]
  rcases lt_or_gt_of_ne hij with hlt | hgt
  · exact (hpair i j hi hj hlt (decide_eq_true hsame) (decide_eq_true rfl)).1 hlong
  · exact (hpair j i hj hi hgt (decide_eq_true rfl) (decide_eq_true hsame)).2 hlong

theorem filterMap_jobsFor (rx : Name) :
    (jobsFor reqs rx).filterMap (fun j => reqs[j]?.map Request.fileName) = filesFor reqs rx := by
  have hindices : jobsFor reqs rx = (List.range reqs.length).filter fun j =>
      (reqs[j]?).any fun r => decide (r.destFileName = rx) := by
    unfold jobsFor
    apply List.filter_congr
    intro j _
    cases reqs[j]? with
    | none => rfl
    | some r => simp
  unfold filesFor
  rw [hindices, ← filterMap_getElem?_filter _ reqs, List.map_filterMap]

theorem flatten_blocks {order : List ℕ} (h : ∀ j ∈ order, j < reqs.length) :
    (order.flatMap (blocks w reqs)).flatten =
      ((order.filterMap fun j => reqs[j]?.map Request.fileName).map (fileOf w)).flatten := by
  induction order with
  | nil => rfl
  | cons j order ih =>
    obtain ⟨hj, hrest⟩ := List.forall_mem_cons.mp h
    have hr : reqs[j]? = some reqs[j] := List.getElem?_eq_getElem hj
    have hblocks : (blocks w reqs j).flatten = fileOf w reqs[j].fileName := by
      unfold blocks
      rw [flatten_freadBlocks bufSize_pos, content_eq_fileOf hr]
    rw [List.flatMap_cons, List.flatten_append, ih hrest, hblocks, List.filterMap_cons, hr]
    rfl

theorem exists_order_of_delivered {s : PoolState} {rx : Name} (h : Delivered w reqs s rx) :
    ∃ order : List Name, order.Perm (filesFor reqs rx) ∧
      ((s.stream rx).map Prod.snd).flatten = (order.map (fileOf w)).flatten := by
  obtain ⟨order, hperm, -, hstream⟩ := h
  have hlt : ∀ j ∈ order, j < reqs.length :=
    fun j hj => lt_of_destOf (mem_jobsFor.mp (hperm.mem_iff.mp hj))
  refine ⟨order.filterMap fun j => reqs[j]?.map Request.fileName, ?_, ?_⟩
  · rw [← filterMap_jobsFor]
    exact hperm.filterMap _
  · rw [hstream, map_snd_inTurn, flatten_blocks hlt]

end Requests

/-- In a run whose main loop loses no message, of clients whose files are there, are not mixed and
go to FIFOs the server does not read: whenever neither the loop nor the pool can do anything, each
client has received the files it asked for, whole and once for each time, and nothing else. -/
theorem files_arrive (w : World) (setup : Setup) {es : List ProcessEvent} {s : ProcessState}
    (hs : (process setup).run es = some s)
    (hok : (process setup).AllSteps (LoopOk w) (process setup).init es)
    (hfifos : ∀ p ∈ s.loop.added, ∀ q ∈ s.loop.added, q.2 ≠ p.1)
    (hopens : ∀ rx, ∀ f ∈ asked s.loop rx, w.opens rx = true ∧ (w.file f).isSome)
    (hunmixed : ∀ rx, (asked s.loop rx).Pairwise (Unmixed w)) (hquiet : Quiet setup w s)
    (rx : Name) : ∃ order : List Name, order.Perm (asked s.loop rx) ∧
      received s rx = (order.map (fileOf w)).flatten := by
  have hinv := loopInv_of_run hs hok
  obtain ⟨hidle, hhalted⟩ := hquiet
  have hserved := served_of_idle hinv.watching hinv.registered hidle
  have hread : ∀ p ∈ s.loop.added,
      Answers Makes (s.loop.written p.1) (s.loop.jobsFrom p.1) := by
    intro p hp
    obtain ⟨i, c, fd, hserves⟩ := hinv.registered.exists_serves hp
    have hans := hinv.told.requests p.1 hserves.ne_cmdFifo fun q hq => hfifos p hp q hq
    rw [hserved.2 p hp] at hans
    exact hans.answers Message.text_ne_nil
  have hperm := filesFor_perm_asked hinv.told hread
  have hav : Available w (requestsOf s.loop) := by
    apply available_of_files
    intro rx f hf
    exact hopens rx f ((hperm rx).mem_iff.mp hf)
  have hapart : Apart w (requestsOf s.loop) := by
    apply apart_of_files
    intro rx
    exact ((hperm rx).pairwise_iff fun h => h.symm).mpr (hunmixed rx)
  have hahead := ahead_of_run hs (sameWorld_of_loopOk hs hok)
  have hpool := poolInv_of_reachable hav hapart hahead.reachable
  have hfinished := finished_of_halted hpool.wf hpool.running hhalted
  have hdelivered := delivered_of_finished hpool hfinished rx
  obtain ⟨order, horder, hbytes⟩ := exists_order_of_delivered hdelivered
  exact ⟨order, horder.trans (hperm rx), hbytes⟩

/-- The files "f" and "g". -/
def twoFiles : World where
  opens := fun _ => true
  file := fun n => if n = [0x66] then some [1, 2, 3] else if n = [0x67] then some [4, 5] else none

/-- The jobs of the two requests in turn. -/
def jobsInTurn : List PoolAction :=
  [.dispatch, .take 0, .dispatch, .take 1, .send 0, .send 1, .send 0, .send 1, .send 1, .send 0,
    .send 0, .send 1]

/-- Two clients register and ask for a file each. -/
def twoRequests : List ProcessEvent :=
  twoClients.map (fun a => .main (.event (.act a))) ++ jobsInTurn.map (.pool twoFiles)

/-- Steps of the main loop alone, in a process with no failed assertion. -/
theorem loopOk_of_ok {as : List Action} {s : ProcessState}
    (h : (dispatch setup).AllSteps Ok s.loop as) :
    (process setup).AllSteps (LoopOk w) s (as.map fun a => .main (.event (.act a))) := by
  induction as generalizing s with
  | nil => trivial
  | cons a as ih =>
    refine ⟨h.1, fun t ht => ?_⟩
    obtain ⟨-, ht⟩ := Option.ite_none_left_eq_some.mp ht
    obtain ⟨u, hu, rfl⟩ := Option.map_eq_some_iff.mp ht
    exact ih (h.2 u hu)

theorem ok_twoClients : (dispatch lowest).AllSteps Ok (dispatch lowest).init twoClients := by
  refine .cons (show Pc.select ≠ .exited by decide) rfl ?_
  refine .cons trivial rfl ?_
  refine .cons ⟨⟨regA, rfl, rfl⟩, .reg [0x61] [0x62], rfl, nofun, ?_⟩ rfl ?_
  · intro tx rx h
    cases h
    exact ⟨by decide, by decide, ⟨5, rfl, by decide⟩, by decide, nofun⟩
  refine .cons ?_ rfl ?_
  · intro i c hpc hc fd hfd hmem
    cases hpc
    cases hc
    cases hfd
    exact absurd hmem (by decide)
  refine .cons ?_ rfl ?_
  · intro i c hpc hc
    cases hpc
    cases hc
  refine .cons (show Pc.select ≠ .exited by decide) rfl ?_
  refine .cons trivial rfl ?_
  refine .cons ⟨⟨regC, rfl, rfl⟩, .reg [0x63] [0x64], rfl, nofun, ?_⟩ rfl ?_
  · intro tx rx h
    cases h
    refine ⟨by decide, by decide, ⟨6, rfl, by decide⟩, by decide, ?_⟩
    intro p hp
    rw [List.mem_singleton.mp hp]
    decide
  refine .cons ?_ rfl ?_
  · intro i c hpc hc fd hfd hmem
    cases hpc
    cases hc
    cases hfd
    exact absurd hmem (by decide)
  refine .cons ?_ rfl ?_
  · intro i c hpc hc fd hfd hmem
    cases hpc
    cases hc
    cases hfd
    exact absurd hmem (by decide)
  refine .cons ?_ rfl ?_
  · intro i c hpc hc
    cases hpc
    cases hc
  refine .cons (show Pc.select ≠ .exited by decide) rfl ?_
  refine .cons (show Pc.select ≠ .exited by decide) rfl ?_
  refine .cons trivial rfl ?_
  refine .cons ?_ rfl ?_
  · intro i c hpc hc fd hfd _ n hn
    cases hpc
    cases hc
    cases hfd
    cases hn
    exact ⟨getF, rfl, rfl⟩
  refine .cons ?_ rfl ?_
  · intro i c hpc hc fd hfd _ n hn
    cases hpc
    cases hc
    cases hfd
    cases hn
    exact ⟨getG, rfl, rfl⟩
  refine .cons ?_ rfl trivial
  intro i c hpc hc
  cases hpc
  cases hc

theorem loopOk_twoRequests :
    (process lowest).AllSteps (LoopOk twoFiles) (process lowest).init twoRequests := by
  apply Machine.AllSteps.append (loopOk_of_ok ok_twoClients)
  intro t _
  apply Machine.allSteps_of_forall
  intro s e he
  obtain ⟨a, _, rfl⟩ := List.mem_map.mp he
  rfl

theorem exists_run_twoRequests :
    ∃ s, (process lowest).run twoRequests = some s ∧ s.loop.pc = .select ∧
      s.loop.ready = ∅ ∧ s.loop.added = [([0x61], [0x62]), ([0x63], [0x64])] ∧
      s.loop.written [0x61] = [getF] ∧ s.loop.written [0x63] = [getG] ∧
      requestsOf s.loop = [⟨[0x62], [0x66]⟩, ⟨[0x64], [0x67]⟩] ∧ s.pool.job 0 = .finished ∧
      s.pool.job 1 = .finished :=
  ⟨_, rfl, rfl, by decide, rfl, rfl, rfl, rfl, rfl, rfl⟩

/-- Each client receives the file it asked for. -/
theorem files_arrive_twoRequests :
    ∃ s, (process lowest).run twoRequests = some s ∧ received s [0x62] = [1, 2, 3] ∧
      received s [0x64] = [4, 5] := by
  obtain ⟨s, hs, hpc, hready, hadded, hwrittenA, hwrittenC, hrequests, hjob, hjob'⟩ :=
    exists_run_twoRequests
  have hasked : ∀ rx, asked s.loop rx =
      (if [0x62] = rx then [[0x66]] else []) ++ if [0x64] = rx then [[0x67]] else [] := by
    intro rx
    have hfileA : (s.loop.written [0x61]).filterMap asks = [[0x66]] := by
      rw [hwrittenA]
      rfl
    have hfileC : (s.loop.written [0x63]).filterMap asks = [[0x67]] := by
      rw [hwrittenC]
      rfl
    simp only [asked, hadded, List.flatMap_cons, List.flatMap_nil, hfileA, hfileC,
      List.append_nil]
  have hsub : ∀ rx, (asked s.loop rx).Sublist [[0x66], [0x67]] := by
    intro rx
    rw [hasked]
    change ((_ : List Name) ++ _).Sublist ([[0x66]] ++ [[0x67]])
    apply List.Sublist.append
    · split_ifs
      · exact List.Sublist.refl _
      · exact List.nil_sublist _
    · split_ifs
      · exact List.Sublist.refl _
      · exact List.nil_sublist _
  have hahead := ahead_of_run hs (sameWorld_of_loopOk hs loopOk_twoRequests)
  have hquiet : Quiet lowest twoFiles s := by
    refine ⟨⟨?_, ?_, ?_⟩, halted_of_finished (wf_of_reachable hahead.reachable) ?_⟩
    · simp [step, hready]
    · intro env
      simp [step, hpc]
    · simp [step, hpc]
    · intro j hj
      rw [hrequests] at hj
      have htwo : j = 0 ∨ j = 1 := by
        change j < 2 at hj
        omega
      rcases htwo with rfl | rfl
      · exact hjob
      · exact hjob'
  have hopens : ∀ rx, ∀ f ∈ asked s.loop rx,
      twoFiles.opens rx = true ∧ (twoFiles.file f).isSome := by
    intro rx f hf
    have hfiles : ∀ f ∈ [[(0x66 : Byte)], [0x67]], (twoFiles.file f).isSome := by decide
    exact ⟨rfl, hfiles f ((hsub rx).subset hf)⟩
  have hunmixed : ∀ rx, (asked s.loop rx).Pairwise (Unmixed twoFiles) := by
    intro rx
    apply List.Pairwise.sublist (hsub rx)
    rw [List.pairwise_pair]
    exact ⟨fun hlong => absurd hlong (by decide), fun hlong => absurd hlong (by decide)⟩
  have hfifos : ∀ p ∈ s.loop.added, ∀ q ∈ s.loop.added, q.2 ≠ p.1 := by
    rw [hadded]
    decide
  have harrive := files_arrive twoFiles lowest hs loopOk_twoRequests hfifos hopens hunmixed hquiet
  obtain ⟨orderA, hpermA, hbytesA⟩ := harrive [0x62]
  obtain ⟨orderC, hpermC, hbytesC⟩ := harrive [0x64]
  have haskedA : asked s.loop [0x62] = [[0x66]] := (hasked _).trans (by decide)
  have haskedC : asked s.loop [0x64] = [[0x67]] := (hasked _).trans (by decide)
  rw [haskedA, List.perm_singleton] at hpermA
  rw [haskedC, List.perm_singleton] at hpermC
  rw [hpermA] at hbytesA
  rw [hpermC] at hbytesC
  exact ⟨s, hs, hbytesA, hbytesC⟩

end OsTasks.FileServer.Process

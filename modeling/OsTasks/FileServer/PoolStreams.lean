import OsTasks.FileServer.PoolSteps

/-! The streams of the file server's pool while no client has a file of more than one block together
with another: whole files one after the other. -/
namespace OsTasks.FileServer
open OsTasks.Lib

variable {w : World} {reqs : List Request}

def destOf (reqs : List Request) (j : ℕ) : Option Name := reqs[j]?.map Request.destFileName

theorem destOf_eq {j : ℕ} {r : Request} (h : reqs[j]? = some r) :
    destOf reqs j = some r.destFileName := by
  unfold destOf
  rw [h]
  rfl

theorem lt_of_destOf {j : ℕ} {rx : Name} (h : destOf reqs j = some rx) : j < reqs.length := by
  obtain ⟨r, hr, _⟩ := Option.map_eq_some_iff.mp h
  exact (List.getElem?_eq_some_iff.mp hr).1

/-- The jobs for `rx` are done, and the stream is their whole files, each once. -/
def Delivered (w : World) (reqs : List Request) (s : PoolState) (rx : Name) : Prop :=
  ∃ order : List ℕ, order.Perm (jobsFor reqs rx) ∧ (∀ j ∈ order, s.job j = .finished) ∧
    s.stream rx = inTurn (blocks w reqs) order

theorem mem_jobsFor {rx : Name} {j : ℕ} : j ∈ jobsFor reqs rx ↔ destOf reqs j = some rx := by
  simp only [jobsFor, List.mem_filter, List.mem_range, decide_eq_true_eq, destOf]
  exact ⟨And.right, fun h => ⟨lt_of_destOf h, h⟩⟩

/-- No client has a file of more than one block together with another that is not empty. -/
def Apart (w : World) (reqs : List Request) : Prop :=
  ∀ i < reqs.length, ∀ j < reqs.length, i ≠ j → destOf reqs i = destOf reqs j →
    bufSize < (content w reqs i).length → content w reqs j = []

/-- Every FIFO and every file requested can be opened. -/
def Available (w : World) (reqs : List Request) : Prop :=
  ∀ r ∈ reqs, w.opens r.destFileName = true ∧ (w.file r.fileName).isSome

/-- The stream to `rx` while no file is interrupted: the whole files of the jobs `done`, then a
part of the file of one job that is still copying. -/
structure Streamed (w : World) (reqs : List Request) (s : PoolState) (rx : Name)
    (done : List ℕ) (part : List (ℕ × List Byte)) (owner : Option ℕ) : Prop where
  stream : s.stream rx = inTurn (blocks w reqs) done ++ part
  nodup : done.Nodup
  dest : ∀ j ∈ done, destOf reqs j = some rx
  sent : ∀ j ∈ done, s.job j = .finished ∨ s.job j = .running (.copy [])
  finished : ∀ j, destOf reqs j = some rx → s.job j = .finished → j ∈ done
  part_of_none : owner = none → part = []
  part_of_some : ∀ j, owner = some j → j ∉ done ∧ destOf reqs j = some rx ∧ part ≠ [] ∧
    ∃ rest, rest ≠ [] ∧ s.job j = .running (.copy rest) ∧
      tagged (blocks w reqs) j = part ++ (freadBlocks bufSize rest).map (Prod.mk j)
  fresh : ∀ j rest, destOf reqs j = some rx → s.job j = .running (.copy rest) → j ∉ done →
    owner ≠ some j → rest = content w reqs j

def Uninterrupted (w : World) (reqs : List Request) (s : PoolState) : Prop :=
  ∀ rx, ∃ done part owner, Streamed w reqs s rx done part owner

theorem uninterrupted_init : Uninterrupted w reqs (pool w reqs).init := by
  intro rx
  refine ⟨[], [], none, rfl, List.nodup_nil, ?_, ?_, ?_, fun _ => rfl, ?_, ?_⟩
  · exact fun j hj => absurd hj List.not_mem_nil
  · exact fun j hj => absurd hj List.not_mem_nil
  · intro j _ h
    cases h
  · exact fun j h => nomatch h
  · intro j rest _ h
    cases h

theorem Streamed.setJob {s : PoolState} {rx : Name} {done : List ℕ}
    {part : List (ℕ × List Byte)} {owner : Option ℕ} (h : Streamed w reqs s rx done part owner)
    {j : ℕ} (hj : s.job j ≠ .finished ∧ ∀ rest, s.job j ≠ .running (.copy rest)) {pc : JobPc}
    (hpc : pc ≠ .finished)
    (hcopy : ∀ rest, pc = .running (.copy rest) → rest = content w reqs j) :
    Streamed w reqs (s.setJob j pc) rx done part owner := by
  have hdone : j ∉ done := fun hm => (h.sent j hm).elim hj.1 (hj.2 [])
  refine ⟨h.stream, h.nodup, h.dest, ?_, ?_, h.part_of_none, ?_, ?_⟩
  · intro k hk
    have hne : k ≠ j := fun he => hdone (he ▸ hk)
    rw [setJob_job, if_neg hne]
    exact h.sent k hk
  · intro k hd hk
    rw [setJob_job] at hk
    split_ifs at hk with he
    · exact absurd hk hpc
    · exact h.finished k hd hk
  · intro k hk
    obtain ⟨h1, h2, h3, rest, h4, h5, h6⟩ := h.part_of_some k hk
    have hne : k ≠ j := by
      rintro rfl
      exact hj.2 rest h5
    refine ⟨h1, h2, h3, rest, h4, ?_, h6⟩
    rw [setJob_job, if_neg hne, h5]
  · intro k rest hd hk hmem ho
    rw [setJob_job] at hk
    split_ifs at hk with he
    · rw [he]
      exact hcopy rest hk
    · exact h.fresh k rest hd hk hmem ho

theorem Streamed.not_mem_of_copying {s : PoolState} {rx : Name} {done : List ℕ}
    {part : List (ℕ × List Byte)} {owner : Option ℕ} (h : Streamed w reqs s rx done part owner)
    {j : ℕ} {rest : List Byte} (hrest : rest ≠ []) (hj : s.job j = .running (.copy rest)) :
    j ∉ done := by
  intro hm
  rcases h.sent j hm with he | he
  · rw [hj] at he
    cases he
  · rw [hj] at he
    cases he
    exact hrest rfl

/-- The stream to `rx` only depends on the jobs for `rx`. -/
theorem Streamed.congr {s t : PoolState} {rx : Name} {done : List ℕ}
    {part : List (ℕ × List Byte)} {owner : Option ℕ} (h : Streamed w reqs s rx done part owner)
    (hstream : t.stream rx = s.stream rx)
    (hjob : ∀ j, destOf reqs j = some rx → t.job j = s.job j) :
    Streamed w reqs t rx done part owner := by
  refine ⟨hstream.trans h.stream, h.nodup, h.dest, ?_, ?_, h.part_of_none, ?_, ?_⟩
  · intro j hj
    rw [hjob j (h.dest j hj)]
    exact h.sent j hj
  · intro j hd hj
    rw [hjob j hd] at hj
    exact h.finished j hd hj
  · intro j hj
    obtain ⟨h1, h2, h3, rest, h4, h5, h6⟩ := h.part_of_some j hj
    exact ⟨h1, h2, h3, rest, h4, (hjob j h2).trans h5, h6⟩
  · intro j rest hd hj
    rw [hjob j hd] at hj
    exact h.fresh j rest hd hj

/-- What is left of a copying job follows what it wrote. -/
theorem Streamed.tagged_eq {s : PoolState} {rx : Name} {done : List ℕ}
    {part : List (ℕ × List Byte)} {owner : Option ℕ} (h : Streamed w reqs s rx done part owner)
    {j : ℕ} (hd : destOf reqs j = some rx) {rest : List Byte}
    (hj : s.job j = .running (.copy rest)) (hdone : j ∉ done)
    (ho : owner = none ∨ owner = some j) :
    tagged (blocks w reqs) j = part ++ (freadBlocks bufSize rest).map (Prod.mk j) := by
  rcases ho with ho | ho
  · have hrest := h.fresh j rest hd hj hdone (by rw [ho]; nofun)
    rw [h.part_of_none ho, hrest]
    rfl
  · obtain ⟨-, -, -, rest', -, hj', htag⟩ := h.part_of_some j ho
    cases hj.symm.trans hj'
    exact htag

theorem Streamed.nodup_concat {s : PoolState} {rx : Name} {done : List ℕ}
    {part : List (ℕ × List Byte)} {owner : Option ℕ} (h : Streamed w reqs s rx done part owner)
    {j : ℕ} (hdone : j ∉ done) : (done ++ [j]).Nodup := by
  rw [← List.concat_eq_append]
  exact h.nodup.concat hdone

theorem Streamed.dest_concat {s : PoolState} {rx : Name} {done : List ℕ}
    {part : List (ℕ × List Byte)} {owner : Option ℕ} (h : Streamed w reqs s rx done part owner)
    {j : ℕ} (hd : destOf reqs j = some rx) : ∀ k ∈ done ++ [j], destOf reqs k = some rx :=
  List.forall_mem_append.mpr ⟨h.dest, List.forall_mem_singleton.mpr hd⟩

theorem ne_some_of_ne {owner : Option ℕ} {j k : ℕ} (ho : owner = none ∨ owner = some j)
    (hk : k ≠ j) : owner ≠ some k := by
  intro he
  rcases ho with ho | ho
  · rw [ho] at he
    cases he
  · rw [ho] at he
    exact hk (Option.some.inj he).symm

theorem Streamed.write_last {s t : PoolState} {rx : Name} {done : List ℕ}
    {part : List (ℕ × List Byte)} {owner : Option ℕ} (h : Streamed w reqs s rx done part owner)
    {j : ℕ} (hd : destOf reqs j = some rx) {rest : List Byte} (hdone : j ∉ done)
    (ho : owner = none ∨ owner = some j) (hend : rest.drop bufSize = [])
    (htag : tagged (blocks w reqs) j = part ++ [(j, rest.take bufSize)])
    (hstream : t.stream rx = s.stream rx ++ [(j, rest.take bufSize)])
    (hjob : ∀ k, t.job k =
      if k = j then .running (.copy (rest.drop bufSize)) else s.job k) :
    Streamed w reqs t rx (done ++ [j]) [] none := by
  refine ⟨?_, h.nodup_concat hdone, h.dest_concat hd, ?_, ?_, fun _ => rfl, ?_, ?_⟩
  · rw [hstream, h.stream, inTurn_concat, htag, List.append_assoc, List.append_nil]
  · intro k hk
    rw [hjob]
    split_ifs with he
    · exact Or.inr (by rw [hend])
    · rcases List.mem_append.mp hk with hk | hk
      · exact h.sent k hk
      · exact absurd (List.mem_singleton.mp hk) he
  · intro k hk hf
    rw [hjob] at hf
    split_ifs at hf with he
    exact List.mem_append_left _ (h.finished k hk hf)
  · exact fun k hk => nomatch hk
  · intro k rest' hk hf hm _
    rw [hjob] at hf
    rw [List.mem_append, List.mem_singleton, not_or] at hm
    rw [if_neg hm.2] at hf
    exact h.fresh k rest' hk hf hm.1 (ne_some_of_ne ho hm.2)

theorem Streamed.write_more {s t : PoolState} {rx : Name} {done : List ℕ}
    {part : List (ℕ × List Byte)} {owner : Option ℕ} (h : Streamed w reqs s rx done part owner)
    {j : ℕ} (hd : destOf reqs j = some rx) {rest : List Byte} (hdone : j ∉ done)
    (ho : owner = none ∨ owner = some j) (hend : rest.drop bufSize ≠ [])
    (htag : tagged (blocks w reqs) j = part ++ (j, rest.take bufSize) ::
      (freadBlocks bufSize (rest.drop bufSize)).map (Prod.mk j))
    (hstream : t.stream rx = s.stream rx ++ [(j, rest.take bufSize)])
    (hjob : ∀ k, t.job k =
      if k = j then .running (.copy (rest.drop bufSize)) else s.job k) :
    Streamed w reqs t rx done (part ++ [(j, rest.take bufSize)]) (some j) := by
  refine ⟨?_, h.nodup, h.dest, ?_, ?_, nofun, ?_, ?_⟩
  · rw [hstream, h.stream, List.append_assoc]
  · intro k hk
    have hne : k ≠ j := fun he => hdone (he ▸ hk)
    rw [hjob, if_neg hne]
    exact h.sent k hk
  · intro k hk hf
    rw [hjob] at hf
    split_ifs at hf with he
    exact h.finished k hk hf
  · intro k hk
    cases hk
    refine ⟨hdone, hd, by simp, _, hend, by rw [hjob, if_pos rfl], ?_⟩
    rw [htag, List.append_assoc]
    rfl
  · intro k rest' hk hf hm hne
    have hkj : k ≠ j := fun he => hne (by rw [he])
    rw [hjob, if_neg hkj] at hf
    exact h.fresh k rest' hk hf hm (ne_some_of_ne ho hkj)

theorem Streamed.write {s t : PoolState} {rx : Name} {done : List ℕ}
    {part : List (ℕ × List Byte)} {owner : Option ℕ} (h : Streamed w reqs s rx done part owner)
    {j : ℕ} (hd : destOf reqs j = some rx) {rest : List Byte} (hrest : rest ≠ [])
    (hj : s.job j = .running (.copy rest)) (ho : owner = none ∨ owner = some j)
    (hstream : t.stream rx = s.stream rx ++ [(j, rest.take bufSize)])
    (hjob : ∀ k, t.job k =
      if k = j then .running (.copy (rest.drop bufSize)) else s.job k) :
    ∃ done part owner, Streamed w reqs t rx done part owner := by
  have hdone : j ∉ done := h.not_mem_of_copying hrest hj
  have htag := h.tagged_eq hd hj hdone ho
  rw [freadBlocks_of_ne_nil bufSize_pos hrest, List.map_cons] at htag
  by_cases hend : rest.drop bufSize = []
  · rw [hend, freadBlocks_nil bufSize_pos, List.map_nil] at htag
    exact ⟨_, _, _, h.write_last hd hdone ho hend htag hstream hjob⟩
  · exact ⟨_, _, _, h.write_more hd hdone ho hend htag hstream hjob⟩

/-- A file in progress leaves nothing to write to the others for the same client. -/
theorem Streamed.owner_of_apart {s : PoolState} {rx : Name} {done : List ℕ}
    {part : List (ℕ × List Byte)} {owner : Option ℕ} (h : Streamed w reqs s rx done part owner)
    (hapart : Apart w reqs) {j : ℕ} (hd : destOf reqs j = some rx) {rest : List Byte}
    (hrest : rest ≠ []) (hj : s.job j = .running (.copy rest)) (hdone : j ∉ done) :
    owner = none ∨ owner = some j := by
  cases ho : owner with
  | none => exact Or.inl rfl
  | some i =>
    by_contra hne
    have hij : i ≠ j := fun he => hne (Or.inr (by rw [he]))
    obtain ⟨-, hdi, hpart, resti, hresti, -, htag⟩ := h.part_of_some i ho
    have hlen : 1 < (blocks w reqs i).length := by
      have h1 := congrArg List.length htag
      have h2 := List.length_pos_of_ne_nil hpart
      have h3 := List.length_pos_of_ne_nil (mt (freadBlocks_eq_nil_iff bufSize_pos).mp hresti)
      unfold tagged at h1
      rw [List.length_map, List.length_append, List.length_map] at h1
      omega
    have hcontent := hapart i (lt_of_destOf hdi) j (lt_of_destOf hd) hij (hdi.trans hd.symm)
      ((one_lt_length_freadBlocks_iff bufSize_pos).mp hlen)
    have hfresh := h.fresh j rest hd hj hdone (by rw [ho]; exact fun he => hij (Option.some.inj he))
    exact hrest (hfresh.trans hcontent)

theorem Streamed.finish {s : PoolState} {rx : Name} {done : List ℕ}
    {part : List (ℕ × List Byte)} {owner : Option ℕ} (h : Streamed w reqs s rx done part owner)
    {j : ℕ} (hd : destOf reqs j = some rx) (hj : s.job j = .running (.copy [])) :
    ∃ done, Streamed w reqs (s.setJob j .finished) rx done part owner := by
  have hsome : ∀ k, owner = some k → k ≠ j := by
    rintro k hk rfl
    obtain ⟨-, -, -, rest, hr, hj', -⟩ := h.part_of_some k hk
    cases hj.symm.trans hj'
    exact hr rfl
  have hpart : ∀ done' : List ℕ, (∀ k ∈ done', k ∈ done ∨ k = j) → ∀ k, owner = some k →
      k ∉ done' ∧ destOf reqs k = some rx ∧ part ≠ [] ∧
        ∃ rest, rest ≠ [] ∧ (s.setJob j .finished).job k = .running (.copy rest) ∧
          tagged (blocks w reqs) k = part ++ (freadBlocks bufSize rest).map (Prod.mk k) := by
    intro done' hsub k hk
    obtain ⟨h1, h2, h3, rest, h4, h5, h6⟩ := h.part_of_some k hk
    have hne := hsome k hk
    refine ⟨fun hm => (hsub k hm).elim h1 hne, h2, h3, rest, h4, ?_, h6⟩
    rw [setJob_job, if_neg hne, h5]
  have hsent : ∀ k ∈ done, (s.setJob j .finished).job k = .finished ∨
      (s.setJob j .finished).job k = .running (.copy []) := by
    intro k hk
    rw [setJob_job]
    split_ifs
    · exact Or.inl rfl
    · exact h.sent k hk
  have hfresh : ∀ done' : List ℕ, (∀ k ∈ done, k ∈ done') → ∀ k rest, destOf reqs k = some rx →
      (s.setJob j .finished).job k = .running (.copy rest) → k ∉ done' → owner ≠ some k →
      rest = content w reqs k := by
    intro done' hsub k rest hk hf hm hne
    rw [setJob_job] at hf
    split_ifs at hf
    exact h.fresh k rest hk hf (fun hm' => hm (hsub k hm')) hne
  by_cases hm : j ∈ done
  · refine ⟨done, h.stream, h.nodup, h.dest, hsent, ?_, h.part_of_none,
      hpart done fun _ => Or.inl, hfresh done fun _ => id⟩
    intro k hk hf
    rw [setJob_job] at hf
    split_ifs at hf with he
    · exact he ▸ hm
    · exact h.finished k hk hf
  · -- nothing was written, so there was nothing to write
    have hempty : tagged (blocks w reqs) j = [] := by
      have hc := h.fresh j [] hd hj hm fun he => hsome j he rfl
      rw [tagged_eq_nil_iff, blocks, ← hc, freadBlocks_nil bufSize_pos]
    refine ⟨done ++ [j], ?_, ?_, ?_, ?_, ?_, h.part_of_none, hpart _ ?_, hfresh _ ?_⟩
    · rw [inTurn_concat, hempty, List.append_nil]
      exact h.stream
    · exact h.nodup_concat hm
    · exact h.dest_concat hd
    · intro k hk
      rcases List.mem_append.mp hk with hk | hk
      · exact hsent k hk
      · rw [List.mem_singleton.mp hk, setJob_self]
        exact Or.inl rfl
    · intro k hk hf
      rw [setJob_job] at hf
      split_ifs at hf with he
      · exact List.mem_append_right _ (List.mem_singleton.mpr he)
      · exact List.mem_append_left _ (h.finished k hk hf)
    · intro k hk
      rcases List.mem_append.mp hk with hk | hk
      · exact Or.inl hk
      · exact Or.inr (List.mem_singleton.mp hk)
    · exact fun k hk => List.mem_append_left _ hk

theorem uninterrupted_setJob {s : PoolState} (h : Uninterrupted w reqs s) {j : ℕ}
    (hj : s.job j ≠ .finished ∧ ∀ rest, s.job j ≠ .running (.copy rest)) {pc : JobPc}
    (hpc : pc ≠ .finished)
    (hcopy : ∀ rest, pc = .running (.copy rest) → rest = content w reqs j) :
    Uninterrupted w reqs (s.setJob j pc) := by
  intro rx
  obtain ⟨done, part, owner, hs⟩ := h rx
  exact ⟨done, part, owner, hs.setJob hj hpc hcopy⟩

/-- One step of a job keeps every stream uninterrupted. -/
theorem uninterrupted_sendFile (hapart : Apart w reqs) {s : PoolState} {j : ℕ} {r : Request}
    {pc : SendPc} (h : Uninterrupted w reqs s) (hj : s.job j = .running pc)
    (hr : reqs[j]? = some r) : Uninterrupted w reqs (sendFile w s j r pc) := by
  have hd := destOf_eq hr
  rcases sendFile_cases w s j r pc with
    ⟨he, -⟩ | ⟨pc', he, hpc, hcopy⟩ | ⟨rfl, he⟩ | ⟨rest, hrest, rfl, he⟩ <;> rw [he]
  · intro rx
    obtain ⟨done, part, owner, hs⟩ := h rx
    exact ⟨done, part, owner, hs.congr rfl fun _ _ => rfl⟩
  · refine uninterrupted_setJob h ⟨by rw [hj]; nofun, fun rest he => ?_⟩ nofun fun rest he => ?_
    · rw [hj] at he
      exact hpc rest (JobPc.running.inj he)
    · have hf := hcopy rest (JobPc.running.inj he)
      unfold content
      rw [hr, Option.bind_some, hf]
      rfl
  · intro rx
    obtain ⟨done, part, owner, hs⟩ := h rx
    by_cases hrx : destOf reqs j = some rx
    · obtain ⟨done, hs⟩ := hs.finish hrx hj
      exact ⟨done, part, owner, hs⟩
    · refine ⟨done, part, owner, hs.congr rfl fun k hk => ?_⟩
      have hne : k ≠ j := fun he => hrx (he ▸ hk)
      rw [setJob_job, if_neg hne]
  · intro rx
    obtain ⟨done, part, owner, hs⟩ := h rx
    by_cases hrx : rx = r.destFileName
    · subst hrx
      have hdone : j ∉ done := hs.not_mem_of_copying hrest hj
      have ho := hs.owner_of_apart hapart hd hrest hj hdone
      refine hs.write hd hrest hj ho (Function.update_self ..) fun k => ?_
      exact setJob_job s j _ k
    · refine ⟨done, part, owner, hs.congr (Function.update_of_ne hrx _ _) fun k hk => ?_⟩
      have hne : k ≠ j := by
        rintro rfl
        exact hrx (Option.some.inj (hk.symm.trans hd))
      change (s.setJob j _).job k = s.job k
      rw [setJob_job, if_neg hne]

/-- What holds in every reachable state when the requests are available and apart. -/
structure PoolInv (w : World) (reqs : List Request) (s : PoolState) : Prop where
  wf : Wf reqs s
  running : s.aborted = false
  streams : Uninterrupted w reqs s

theorem poolInv_step (hav : Available w reqs) (hapart : Apart w reqs) {s t : PoolState}
    {a : PoolAction} (h : PoolInv w reqs s) (ht : poolStep w reqs s a = some t) :
    PoolInv w reqs t := by
  refine ⟨h.wf.step ht, ?_, ?_⟩ <;>
    obtain ⟨hab, ⟨-, hd, rfl⟩ | ⟨j, -, hj, rfl⟩ | ⟨j, r, pc, -, hj, hr, rfl⟩⟩ := poolStep_cases ht
  · exact hab
  · exact hab
  · have hm := hav r (List.mem_of_getElem? hr)
    rcases sendFile_cases w s j r pc with
      ⟨-, ho | hf⟩ | ⟨pc', he, -⟩ | ⟨-, he⟩ | ⟨rest, -, -, he⟩
    · rw [hm.1] at ho
      cases ho
    · have := hm.2
      rw [hf] at this
      cases this
    · rw [he]
      exact hab
    · rw [he]
      exact hab
    · rw [he]
      exact hab
  · have hw : s.job s.dispatched = .waiting := (h.wf.waiting _).mpr le_rfl
    have hset : Uninterrupted w reqs (s.setJob s.dispatched .queued) :=
      uninterrupted_setJob h.streams ⟨by rw [hw]; nofun, by rw [hw]; nofun⟩ nofun nofun
    intro rx
    obtain ⟨done, part, owner, hs⟩ := hset rx
    exact ⟨done, part, owner, hs.congr rfl fun _ _ => rfl⟩
  · exact uninterrupted_setJob h.streams ⟨by rw [hj]; nofun, by rw [hj]; nofun⟩ nofun nofun
  · exact uninterrupted_sendFile hapart h.streams hj hr

theorem poolInv_of_reachable (hav : Available w reqs) (hapart : Apart w reqs) {s : PoolState}
    (hs : (pool w reqs).Reachable s) : PoolInv w reqs s := by
  refine hs.invariant (I := PoolInv w reqs) ⟨wf_init, rfl, uninterrupted_init⟩ ?_
  intro u a v hu hv
  exact poolInv_step hav hapart hu hv

theorem delivered_of_finished {s : PoolState} (h : PoolInv w reqs s)
    (hf : ∀ j < reqs.length, s.job j = .finished) (rx : Name) : Delivered w reqs s rx := by
  obtain ⟨done, part, owner, hs⟩ := h.streams rx
  have ho : owner = none := by
    cases ho : owner with
    | none => rfl
    | some j =>
      obtain ⟨-, hd, -, rest, -, hj, -⟩ := hs.part_of_some j ho
      rw [hf j (lt_of_destOf hd)] at hj
      cases hj
  refine ⟨done, ?_, fun j hj => hf j (lt_of_destOf (hs.dest j hj)), ?_⟩
  · have hnodup : (jobsFor reqs rx).Nodup := List.nodup_range.filter _
    rw [List.perm_ext_iff_of_nodup hs.nodup hnodup]
    intro j
    rw [mem_jobsFor]
    exact ⟨hs.dest j, fun hd => hs.finished j hd (hf j (lt_of_destOf hd))⟩
  · rw [hs.stream, hs.part_of_none ho, List.append_nil]

end OsTasks.FileServer

import OsTasks.Integral.GatherFirst
import OsTasks.Integral.GatherPieces

/-! The results that `gather_results` takes with one `recv` each: how they are counted, and what
they leave in the workers. -/
namespace OsTasks.Integral
open OsTasks.Lib

variable (decode : List Byte → ℚ)

/-- The whole result that a scan takes from a socket. -/
def fullRead (g : Gather) (fd : ℕ) : Option (ℕ × List Byte) :=
  if fd ∈ g.readSet then
    match (recv sizeofDouble (g.conns fd)).1 with
    | .bytes l => if l.length = sizeofDouble then some (fd, l) else none
    | .endOfStream => none
    | .error => none
  else none

/-- All of one pass. -/
def fullReads (s : GatherState) : Wake → List (ℕ × List Byte)
  | .failure => []
  | .arrivals batch =>
    let conns := deliverAll s.gather.conns batch
    let ready := select (s.maxfd + 1) s.gather.readSet conns
    (s.workers.map Worker.socket).filterMap
      (fullRead { s.gather with conns := conns, readSet := ready })

def recordReads (s : GatherState) (wake : Wake) (_ : GatherState) (reads : List (ℕ × List Byte)) :
    List (ℕ × List Byte) := reads ++ fullReads s wake

/-- `gather_results` with a record of the results taken. -/
def gatherReads (start : GatherState) : Machine (GatherState × List (ℕ × List Byte)) Wake :=
  (gatherLoop decode start).withHistory [] recordReads

/-- A worker after the results in `reads` were stored. -/
def Worker.after (decode : List Byte → ℚ) (reads : List (ℕ × List Byte)) (w : Worker) : Worker :=
  match reads.find? fun r => r.1 = w.socket with
  | some r => { w with result := decode r.2 }
  | none => w

@[simp] theorem Worker.socket_after (reads : List (ℕ × List Byte)) (w : Worker) :
    (w.after decode reads).socket = w.socket := by
  unfold Worker.after
  split <;> rfl

theorem fullRead_spec {g : Gather} {fd : ℕ} {r : ℕ × List Byte} (h : fullRead g fd = some r) :
    r.1 = fd ∧ r.2.length = sizeofDouble ∧ fd ∈ g.readSet := by
  unfold fullRead at h
  split_ifs at h with hfd
  split at h
  · split_ifs at h with h8
    cases h
    exact ⟨rfl, h8, hfd⟩
  · cases h
  · cases h

theorem fullRead_congr {g g' : Gather} {fd : ℕ} (hc : g'.conns fd = g.conns fd)
    (hr : fd ∈ g'.readSet ↔ fd ∈ g.readSet) : fullRead g' fd = fullRead g fd := by
  unfold fullRead
  simp only [hr, hc]

theorem serve_fullRead (w : Worker) (g : Gather) :
    (serve decode w g).1 = w.after decode (fullRead g w.socket).toList ∧
      (serve decode w g).2.responsesReceived =
        g.responsesReceived + (fullRead g w.socket).toList.length ∧
      (serve decode w g).2.readSet ⊆ g.readSet ∧
      (fullRead g w.socket ≠ none → w.socket ∉ (serve decode w g).2.readSet) := by
  unfold serve fullRead
  by_cases hw : w.socket ∈ g.readSet
  · rw [if_pos hw, if_pos hw]
    rcases recv sizeofDouble (g.conns w.socket) with ⟨l | _ | _, c⟩ <;> dsimp only
    · by_cases h8 : l.length = sizeofDouble
      · rw [if_pos h8, if_pos h8]
        refine ⟨?_, rfl, Finset.erase_subset _ _, fun _ => Finset.notMem_erase _ _⟩
        simp [Worker.after]
      · rw [if_neg h8, if_neg h8]
        exact ⟨rfl, rfl, Finset.Subset.refl _, fun h => absurd rfl h⟩
    · exact ⟨rfl, rfl, Finset.erase_subset _ _, fun h => absurd rfl h⟩
    · exact ⟨rfl, rfl, Finset.Subset.refl _, fun h => absurd rfl h⟩
  · rw [if_neg hw, if_neg hw]
    exact ⟨rfl, rfl, Finset.Subset.refl _, fun h => absurd rfl h⟩

theorem scan_fullReads {workers : List Worker} (hd : (workers.map Worker.socket).Nodup)
    (g : Gather) :
    (scan decode workers g).1 =
        workers.map (fun w => w.after decode (fullRead g w.socket).toList) ∧
      (scan decode workers g).2.responsesReceived = g.responsesReceived +
        ((workers.map Worker.socket).filterMap (fullRead g)).length ∧
      (scan decode workers g).2.readSet ⊆ g.readSet ∧
      ∀ w ∈ workers, fullRead g w.socket ≠ none →
        w.socket ∉ (scan decode workers g).2.readSet := by
  induction workers generalizing g with
  | nil => exact ⟨rfl, rfl, Finset.Subset.refl _, fun w hw => absurd hw List.not_mem_nil⟩
  | cons v vs ih =>
    obtain ⟨hother, hd⟩ := nodup_sockets_cons hd
    obtain ⟨hworker, hresp, hsub, hleft⟩ := serve_fullRead decode v g
    obtain ⟨hworkers, hresps, hsubs, hlefts⟩ := ih hd (serve decode v g).2
    have hsame : ∀ w ∈ vs, fullRead (serve decode v g).2 w.socket = fullRead g w.socket := by
      intro w hw
      obtain ⟨hconn, hread⟩ := serve_frame decode (g := g) (hother w hw)
      exact fullRead_congr hconn hread
    have hmap : vs.map (fun w => w.after decode (fullRead (serve decode v g).2 w.socket).toList) =
        vs.map fun w => w.after decode (fullRead g w.socket).toList := by
      apply List.map_congr_left
      intro w hw
      rw [hsame w hw]
    have hfilter : (vs.map Worker.socket).filterMap (fullRead (serve decode v g).2) =
        (vs.map Worker.socket).filterMap (fullRead g) := by
      apply List.filterMap_congr
      intro fd hfd
      obtain ⟨w, hw, rfl⟩ := List.mem_map.mp hfd
      exact hsame w hw
    have hscan : scan decode (v :: vs) g =
        ((serve decode v g).1 :: (scan decode vs (serve decode v g).2).1,
          (scan decode vs (serve decode v g).2).2) := rfl
    rw [hscan]
    dsimp only
    refine ⟨?_, ?_, hsubs.trans hsub, ?_⟩
    · rw [hworker, hworkers, hmap, List.map_cons]
    · rw [hresps, hresp, hfilter, List.map_cons]
      cases hfull : fullRead g v.socket with
      | none => rw [List.filterMap_cons_none hfull]; rfl
      | some r =>
        rw [List.filterMap_cons_some hfull, List.length_cons, Option.toList_some,
          List.length_singleton]
        omega
    · intro w hw hfull
      rcases List.mem_cons.mp hw with rfl | hw
      · exact fun hin => hleft hfull (hsubs hin)
      · apply hlefts w hw
        rw [hsame w hw]
        exact hfull

/-- The results taken so far: one from each of so many workers, none of which is waited for any
more, and what they left. -/
structure ReadsInv (workers : List Worker) (s : GatherState) (reads : List (ℕ × List Byte)) :
    Prop where
  responses : s.gather.responsesReceived = reads.length
  nodup : (reads.map Prod.fst).Nodup
  mem : ∀ r ∈ reads, r.1 ∈ workers.map Worker.socket ∧ r.2.length = sizeofDouble ∧
    r.1 ∉ s.gather.readSet
  workers : s.workers = workers.map (Worker.after decode reads)

section Reads
variable {decode}

theorem ReadsInv.sockets {workers : List Worker} {s : GatherState} {reads : List (ℕ × List Byte)}
    (h : ReadsInv decode workers s reads) :
    s.workers.map Worker.socket = workers.map Worker.socket := by
  rw [h.workers, List.map_map]
  apply List.map_congr_left
  intro w _
  exact Worker.socket_after decode reads w

theorem mem_fullReads {g : Gather} {fds : List ℕ} {r : ℕ × List Byte}
    (h : r ∈ fds.filterMap (fullRead g)) :
    fullRead g r.1 = some r ∧ r.1 ∈ fds ∧ r.2.length = sizeofDouble ∧ r.1 ∈ g.readSet := by
  obtain ⟨fd, hfd, hfull⟩ := List.mem_filterMap.mp h
  obtain ⟨rfl, h8, hin⟩ := fullRead_spec hfull
  exact ⟨hfull, hfd, h8, hin⟩

theorem sublist_fullReads (g : Gather) (fds : List ℕ) :
    ((fds.filterMap (fullRead g)).map Prod.fst).Sublist fds := by
  induction fds with
  | nil => exact List.Sublist.slnil
  | cons fd fds ih =>
    cases hfull : fullRead g fd with
    | none =>
      rw [List.filterMap_cons_none hfull]
      exact ih.cons fd
    | some r =>
      rw [List.filterMap_cons_some hfull, List.map_cons, (fullRead_spec hfull).1]
      exact ih.cons_cons fd

theorem find?_fullReads (g : Gather) {fds : List ℕ} {fd : ℕ} (h : fd ∈ fds) :
    (fds.filterMap (fullRead g)).find? (fun r => r.1 = fd) = fullRead g fd := by
  induction fds with
  | nil => cases h
  | cons a fds ih =>
    cases hfull : fullRead g a with
    | none =>
      rw [List.filterMap_cons_none hfull]
      rcases List.mem_cons.mp h with rfl | h
      · rw [hfull, List.find?_eq_none]
        intro r hr hfd
        have hfull' := (mem_fullReads hr).1
        rw [of_decide_eq_true hfd, hfull] at hfull'
        cases hfull'
      · exact ih h
    | some r =>
      have hra := (fullRead_spec hfull).1
      rw [List.filterMap_cons_some hfull]
      by_cases hfd : a = fd
      · rw [List.find?_cons_of_pos (by simp [hra, hfd]), ← hfd, hfull]
      · rw [List.find?_cons_of_neg (by simp [hra, hfd])]
        exact ih (List.mem_of_ne_of_mem (Ne.symm hfd) h)

theorem Worker.after_append (reads : List (ℕ × List Byte)) (g : Gather) {fds : List ℕ} {w : Worker}
    (hw : w.socket ∈ fds) (hread : ∀ r ∈ reads, r.1 ∉ g.readSet) :
    w.after decode (reads ++ fds.filterMap (fullRead g)) =
      (w.after decode reads).after decode (fullRead g w.socket).toList := by
  have hnew := find?_fullReads g hw
  conv_lhs => unfold Worker.after
  rw [List.find?_append, hnew]
  cases hold : reads.find? fun r => r.1 = w.socket with
  | none =>
    have hkept : w.after decode reads = w := by
      unfold Worker.after
      rw [hold]
    rw [hkept, Option.none_or]
    cases hfull : fullRead g w.socket with
    | none => rfl
    | some r =>
      have hfd : r.1 = w.socket := (fullRead_spec hfull).1
      simp [Worker.after, hfd]
  | some r =>
    have hfd : r.1 = w.socket := by
      have hfound := List.find?_some hold
      exact of_decide_eq_true hfound
    have hnone : fullRead g w.socket = none := by
      unfold fullRead
      rw [← hfd, if_neg (hread r (List.mem_of_find?_eq_some hold))]
    rw [hnone, Option.some_or]
    conv_rhs => unfold Worker.after
    dsimp only [Option.toList_none, List.find?_nil]
    rw [hold]

theorem ReadsInv.scanned {workers : List Worker} {s : GatherState} {reads : List (ℕ × List Byte)}
    (h : ReadsInv decode workers s reads) (hd : (workers.map Worker.socket).Nodup) {g : Gather}
    (hsub : g.readSet ⊆ s.gather.readSet)
    (hresp : g.responsesReceived = s.gather.responsesReceived) :
    ReadsInv decode workers
      { s with workers := (scan decode s.workers g).1, gather := (scan decode s.workers g).2 }
      (reads ++ (workers.map Worker.socket).filterMap (fullRead g)) := by
  have hsockets : s.workers.map Worker.socket = workers.map Worker.socket := h.sockets
  have hread : ∀ r ∈ reads, r.1 ∉ g.readSet := fun r hr hin => (h.mem r hr).2.2 (hsub hin)
  obtain ⟨hworkers, hcount, hleft, hgone⟩ := scan_fullReads decode (hsockets ▸ hd) g
  constructor
  · dsimp only
    rw [hcount, List.length_append, hsockets, hresp, h.responses]
  · rw [List.map_append, List.nodup_append]
    refine ⟨h.nodup, (sublist_fullReads g _).nodup hd, ?_⟩
    intro a ha b hb hab
    obtain ⟨r, hr, rfl⟩ := List.mem_map.mp ha
    obtain ⟨q, hq, rfl⟩ := List.mem_map.mp hb
    apply hread r hr
    rw [hab]
    exact (mem_fullReads hq).2.2.2
  · intro r hr
    rcases List.mem_append.mp hr with hr | hr
    · obtain ⟨hmem, h8, _⟩ := h.mem r hr
      exact ⟨hmem, h8, fun hin => hread r hr (hleft hin)⟩
    · obtain ⟨hfull, hmem, h8, _⟩ := mem_fullReads hr
      refine ⟨hmem, h8, ?_⟩
      rw [← hsockets] at hmem
      obtain ⟨w, hw, hsocket⟩ := List.mem_map.mp hmem
      rw [← hsocket] at hfull ⊢
      apply hgone w hw
      rw [hfull]
      exact Option.some_ne_none r
  · dsimp only
    rw [hworkers, h.workers, List.map_map]
    apply List.map_congr_left
    intro w hw
    have hstep : w.after decode
        (reads ++ (workers.map Worker.socket).filterMap (fullRead g)) = _ :=
      Worker.after_append reads g (List.mem_map_of_mem hw) hread
    rw [hstep, Function.comp_apply, Worker.socket_after]

theorem readsInv_step {workers : List Worker} {start s t : GatherState} {wake : Wake}
    {reads : List (ℕ × List Byte)} (hd : (workers.map Worker.socket).Nodup)
    (h : ReadsInv decode workers s reads) (ht : (gatherLoop decode start).step s wake = some t) :
    ReadsInv decode workers t (recordReads s wake t reads) ∧
      t.gather.readSet ⊆ s.gather.readSet := by
  obtain ⟨_, ht⟩ := Option.ite_none_right_eq_some.mp ht
  cases ht
  cases wake with
  | failure =>
    have hsame : recordReads s .failure (pass decode s .failure) reads = reads := List.append_nil _
    rw [hsame]
    exact ⟨⟨h.responses, h.nodup, h.mem, h.workers⟩, Finset.Subset.refl _⟩
  | arrivals batch =>
    set conns := deliverAll s.gather.conns batch with hconns
    set ready := select (s.maxfd + 1) s.gather.readSet conns with hready
    set g : Gather := { s.gather with conns := conns, readSet := ready } with hg
    have hsub : ready ⊆ s.gather.readSet := Finset.filter_subset _ _
    have hrecord : recordReads s (.arrivals batch) (pass decode s (.arrivals batch)) reads =
        reads ++ (workers.map Worker.socket).filterMap (fullRead g) := by
      rw [← h.sockets]
      rfl
    rw [hrecord]
    unfold pass
    dsimp only
    rw [← hconns, ← hready, ← hg]
    by_cases hempty : ready = ∅
    · have hnone : (workers.map Worker.socket).filterMap (fullRead g) = [] := by
        rw [List.eq_nil_iff_forall_not_mem]
        intro r hr
        have hin : r.1 ∈ ready := (mem_fullReads hr).2.2.2
        rw [hempty] at hin
        exact Finset.notMem_empty _ hin
      rw [if_pos hempty, hnone, List.append_nil]
      refine ⟨⟨h.responses, h.nodup, ?_, h.workers⟩, hsub⟩
      intro r hr
      obtain ⟨hmem, h8, hnot⟩ := h.mem r hr
      exact ⟨hmem, h8, fun hin => hnot (hsub hin)⟩
    · obtain ⟨_, _, hleft, _⟩ := scan_fullReads decode (h.sockets ▸ hd) g
      rw [if_neg hempty]
      exact ⟨h.scanned hd hsub rfl, hleft.trans hsub⟩

theorem readsInv_of_run {workers : List Worker} {conns : ℕ → Conn} {start s : GatherState}
    {wakes : List Wake} {reads : List (ℕ × List Byte)}
    (hd : (workers.map Worker.socket).Nodup) (hstart : gatherStart workers conns = some start)
    (hrun : (gatherReads decode start).run wakes = some (s, reads)) :
    ReadsInv decode workers s reads := by
  apply Machine.Reachable.invariant_withHistory _ _ ⟨wakes, hrun⟩
  · obtain ⟨maxfd, _, hs⟩ := Option.bind_eq_some_iff.mp hstart
    cases hs
    refine ⟨rfl, List.nodup_nil, fun r hr => absurd hr List.not_mem_nil, ?_⟩
    have hid : Worker.after decode [] = id := rfl
    change workers = workers.map (Worker.after decode [])
    rw [hid, List.map_id]
  · intro s reads wake t _ hinv ht
    exact (readsInv_step hd hinv ht).1

end Reads

end OsTasks.Integral

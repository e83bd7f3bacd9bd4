import OsTasks.Integral.Gather
import OsTasks.Lib.Blocks

/-! The pieces in which `recv` returns a worker's result, and what `gather_results` stores of
them. -/
namespace OsTasks.Integral
open OsTasks.Lib

variable (decode : List Byte → ℚ) {fd : ℕ}

/-- The pieces that `recv` has returned for a socket. -/
def recordPieces (fd : ℕ) (s : GatherState) (wake : Wake) (_ : GatherState)
    (pieces : List (List Byte)) : List (List Byte) :=
  match wake with
  | .failure => pieces
  | .arrivals batch =>
    let conns := deliverAll s.gather.conns batch
    if fd ∈ select (s.maxfd + 1) s.gather.readSet conns then
      match (recv sizeofDouble (conns fd)).1 with
      | .bytes l => pieces ++ [l]
      | .endOfStream => pieces
      | .error => pieces
    else pieces

/-- `gather_results` with a record of the pieces of one socket. -/
def gatherPieces (decode : List Byte → ℚ) (fd : ℕ) (start : GatherState) :
    Machine (GatherState × List (List Byte)) Wake :=
  (gatherLoop decode start).withHistory [] (recordPieces fd)

theorem serve_frame {v : Worker} {g : Gather} (h : v.socket ≠ fd) :
    (serve decode v g).2.conns fd = g.conns fd ∧
      (fd ∈ (serve decode v g).2.readSet ↔ fd ∈ g.readSet) := by
  unfold serve
  by_cases hv : v.socket ∈ g.readSet
  · have hconn := Function.update_of_ne h.symm (recv sizeofDouble (g.conns v.socket)).2 g.conns
    have herase : fd ∈ g.readSet.erase v.socket ↔ fd ∈ g.readSet := by
      rw [Finset.mem_erase, and_iff_right h.symm]
    rw [if_pos hv]
    rcases hrecv : recv sizeofDouble (g.conns v.socket) with ⟨l | _ | _, c⟩ <;>
      rw [hrecv] at hconn <;> dsimp only
    · split_ifs
      · exact ⟨hconn, herase⟩
      · exact ⟨hconn, Iff.rfl⟩
    · exact ⟨hconn, herase⟩
    · exact ⟨hconn, Iff.rfl⟩
  · rw [if_neg hv]
    exact ⟨rfl, Iff.rfl⟩

theorem serve_socket (v : Worker) (g : Gather) : (serve decode v g).1.socket = v.socket := by
  unfold serve
  by_cases hv : v.socket ∈ g.readSet
  · rw [if_pos hv]
    rcases recv sizeofDouble (g.conns v.socket) with ⟨l | _ | _, c⟩ <;> dsimp only
    split_ifs
    · rfl
    · rfl
  · rw [if_neg hv]

/-- What serving a worker does to it depends on its own socket alone. -/
theorem serve_congr {w : Worker} {g g' : Gather} (hc : g'.conns w.socket = g.conns w.socket)
    (hr : w.socket ∈ g'.readSet ↔ w.socket ∈ g.readSet) :
    (serve decode w g').1 = (serve decode w g).1 ∧
      (w.socket ∈ (serve decode w g').2.readSet ↔ w.socket ∈ (serve decode w g).2.readSet) := by
  unfold serve
  by_cases hw : w.socket ∈ g.readSet
  · rw [if_pos hw, if_pos (hr.mpr hw), hc]
    have herase : ∀ s : Finset ℕ, w.socket ∉ s.erase w.socket := fun s => Finset.notMem_erase _ _
    rcases recv sizeofDouble (g.conns w.socket) with ⟨l | _ | _, c⟩ <;> dsimp only
    · split_ifs
      · exact ⟨rfl, iff_of_false (herase _) (herase _)⟩
      · exact ⟨rfl, hr⟩
    · exact ⟨rfl, iff_of_false (herase _) (herase _)⟩
    · exact ⟨rfl, hr⟩
  · rw [if_neg hw, if_neg (mt hr.mp hw)]
    exact ⟨rfl, hr⟩

theorem scan_sockets (workers : List Worker) (g : Gather) :
    (scan decode workers g).1.map Worker.socket = workers.map Worker.socket := by
  induction workers generalizing g with
  | nil => rfl
  | cons v vs ih =>
    change (serve decode v g).1.socket :: _ = v.socket :: _
    rw [serve_socket]
    exact congrArg _ (ih _)

theorem exists_scan_socket {workers : List Worker} (h : ∃ w ∈ workers, w.socket = fd) (g : Gather) :
    ∃ w ∈ (scan decode workers g).1, w.socket = fd := by
  have hmem : fd ∈ (scan decode workers g).1.map Worker.socket := by
    rw [scan_sockets]
    exact List.mem_map.mpr h
  exact List.mem_map.mp hmem

theorem scan_worker {workers : List Worker} (hd : (workers.map Worker.socket).Nodup) (g : Gather) :
    (∀ w' ∈ (scan decode workers g).1, w'.socket = fd →
      ∃ w ∈ workers, w.socket = fd ∧ w' = (serve decode w g).1) ∧
    (fd ∈ (scan decode workers g).2.readSet →
      fd ∈ g.readSet ∧ ∀ w ∈ workers, w.socket = fd → fd ∈ (serve decode w g).2.readSet) := by
  induction workers generalizing g with
  | nil =>
    constructor
    · intro w' hw'
      cases hw'
    · intro hfd
      refine ⟨hfd, ?_⟩
      intro w hw
      cases hw
  | cons v vs ih =>
    obtain ⟨hother, hd⟩ := nodup_sockets_cons hd
    obtain ⟨hmem, hset⟩ := ih hd (serve decode v g).2
    by_cases hv : v.socket = fd
    · constructor
      · intro w' hw' hs
        rcases List.mem_cons.mp hw' with rfl | hw'
        · exact ⟨v, List.mem_cons_self, hv, rfl⟩
        · obtain ⟨w, hw, hwfd, _⟩ := hmem w' hw' hs
          exact absurd (hv.trans hwfd.symm) (hother w hw)
      · intro hfd
        obtain ⟨hserved, _⟩ := hset hfd
        have hbefore : fd ∈ g.readSet := by
          by_contra hnot
          rw [← hv] at hnot
          unfold serve at hserved
          rw [if_neg hnot, ← hv] at hserved
          exact hnot hserved
        refine ⟨hbefore, ?_⟩
        intro w hw hwfd
        rcases List.mem_cons.mp hw with rfl | hw
        · exact hserved
        · exact absurd (hv.trans hwfd.symm) (hother w hw)
    · obtain ⟨hconn, hread⟩ := serve_frame decode (g := g) hv
      constructor
      · intro w' hw' hs
        rcases List.mem_cons.mp hw' with rfl | hw'
        · exact absurd ((serve_socket decode v g).symm.trans hs) hv
        · obtain ⟨w, hw, rfl, rfl⟩ := hmem w' hw' hs
          exact ⟨w, List.mem_cons_of_mem _ hw, rfl, (serve_congr decode hconn hread).1⟩
      · intro hfd
        obtain ⟨hserved, hall⟩ := hset hfd
        refine ⟨hread.mp hserved, ?_⟩
        intro w hw hwfd
        rcases List.mem_cons.mp hw with rfl | hw
        · exact absurd hwfd hv
        · have hkept := hall w hw hwfd
          subst hwfd
          exact (serve_congr decode hconn hread).2.mp hkept

/-- The pieces so far, and the result they left: the one piece of eight bytes, or what was there. -/
structure PiecesInv (decode : List Byte → ℚ) (fd : ℕ) (before : ℚ) (s : GatherState)
    (pieces : List (List Byte)) : Prop where
  nodup : (s.workers.map Worker.socket).Nodup
  mem : ∃ w ∈ s.workers, w.socket = fd
  ne_nil : ∀ p ∈ pieces, p ≠ []
  short : fd ∈ s.gather.readSet → ∀ p ∈ pieces, p.length ≠ sizeofDouble
  result : ∀ w ∈ s.workers, w.socket = fd →
    w.result = before ∧ (∀ p ∈ pieces, p.length ≠ sizeofDouble) ∨
      ∃ p ∈ pieces, p.length = sizeofDouble ∧ w.result = decode p

theorem recv_ne_nil {c : Conn} {l : List Byte} (h : (recv sizeofDouble c).1 = .bytes l) :
    l ≠ [] := by
  unfold recv at h
  split_ifs at h with hne
  cases h
  intro htake
  rcases List.take_eq_nil_iff.mp htake with h8 | hnil
  · exact absurd h8 (by decide)
  · exact hne hnil

theorem serve_bytes {w : Worker} {g : Gather} {l : List Byte} (hw : w.socket ∈ g.readSet)
    (hr : (recv sizeofDouble (g.conns w.socket)).1 = .bytes l) :
    (serve decode w g).1.result = (if l.length = sizeofDouble then decode l else w.result) ∧
      (l.length = sizeofDouble → w.socket ∉ (serve decode w g).2.readSet) := by
  unfold serve
  rw [if_pos hw]
  rcases hrecv : recv sizeofDouble (g.conns w.socket) with ⟨r, c⟩
  rw [hrecv] at hr
  subst hr
  dsimp only
  split_ifs with h8
  · exact ⟨rfl, fun _ => Finset.notMem_erase _ _⟩
  · exact ⟨rfl, fun h => absurd h h8⟩

theorem serve_of_no_bytes {w : Worker} {g : Gather}
    (hr : w.socket ∈ g.readSet → ∀ l, (recv sizeofDouble (g.conns w.socket)).1 ≠ .bytes l) :
    (serve decode w g).1 = w := by
  unfold serve
  by_cases hw : w.socket ∈ g.readSet
  · rw [if_pos hw]
    rcases hrecv : recv sizeofDouble (g.conns w.socket) with ⟨l | _ | _, c⟩
    · exact absurd (by rw [hrecv]) (hr hw l)
    · rfl
    · rfl
  · rw [if_neg hw]

section Step
variable {decode} {before : ℚ} {s : GatherState} {pieces : List (List Byte)}

theorem PiecesInv.of_no_bytes (hinv : PiecesInv decode fd before s pieces) {g : Gather}
    (hsub : fd ∈ g.readSet → fd ∈ s.gather.readSet)
    (hr : fd ∈ g.readSet → ∀ l, (recv sizeofDouble (g.conns fd)).1 ≠ .bytes l) :
    PiecesInv decode fd before
      { s with workers := (scan decode s.workers g).1, gather := (scan decode s.workers g).2 }
      pieces := by
  obtain ⟨hmem, hset⟩ := scan_worker decode hinv.nodup g
  constructor
  · rw [scan_sockets]
    exact hinv.nodup
  · exact exists_scan_socket decode hinv.mem g
  · exact hinv.ne_nil
  · intro hfd
    exact hinv.short (hsub (hset hfd).1)
  · intro w' hw' hs
    obtain ⟨w, hw, hwfd, rfl⟩ := hmem w' hw' hs
    subst hwfd
    rw [serve_of_no_bytes decode hr]
    exact hinv.result w hw rfl

theorem PiecesInv.of_bytes (hinv : PiecesInv decode fd before s pieces) {g : Gather}
    {l : List Byte} (hfd : fd ∈ g.readSet) (hold : fd ∈ s.gather.readSet)
    (hr : (recv sizeofDouble (g.conns fd)).1 = .bytes l) :
    PiecesInv decode fd before
      { s with workers := (scan decode s.workers g).1, gather := (scan decode s.workers g).2 }
      (pieces ++ [l]) := by
  obtain ⟨hmem, hset⟩ := scan_worker decode hinv.nodup g
  have hshort := hinv.short hold
  have hbefore : ∀ w ∈ s.workers, w.socket = fd → w.result = before := by
    intro w hw hs
    rcases hinv.result w hw hs with ⟨hres, _⟩ | ⟨p, hp, h8, _⟩
    · exact hres
    · exact absurd h8 (hshort p hp)
  constructor
  · rw [scan_sockets]
    exact hinv.nodup
  · exact exists_scan_socket decode hinv.mem g
  · intro p hp
    rcases List.mem_append.mp hp with hp | hp
    · exact hinv.ne_nil p hp
    · rw [List.mem_singleton.mp hp]
      exact recv_ne_nil hr
  · intro hleft p hp
    obtain ⟨w, hw, hwfd⟩ := hinv.mem
    have hserved := (hset hleft).2 w hw hwfd
    rcases List.mem_append.mp hp with hp | hp
    · exact hshort p hp
    · rw [List.mem_singleton.mp hp]
      intro h8
      subst hwfd
      exact (serve_bytes decode hfd hr).2 h8 hserved
  · intro w' hw' hs
    obtain ⟨w, hw, hwfd, rfl⟩ := hmem w' hw' hs
    subst hwfd
    obtain ⟨hres, _⟩ := serve_bytes decode hfd hr
    by_cases h8 : l.length = sizeofDouble
    · right
      rw [if_pos h8] at hres
      exact ⟨l, List.mem_append_right _ (List.mem_singleton_self l), h8, hres⟩
    · left
      rw [if_neg h8, hbefore w hw rfl] at hres
      refine ⟨hres, ?_⟩
      intro p hp
      rcases List.mem_append.mp hp with hp | hp
      · exact hshort p hp
      · rw [List.mem_singleton.mp hp]
        exact h8

theorem piecesInv_step {start t : GatherState} {wake : Wake}
    (hinv : PiecesInv decode fd before s pieces)
    (ht : (gatherLoop decode start).step s wake = some t) :
    PiecesInv decode fd before t (recordPieces fd s wake t pieces) := by
  obtain ⟨_, ht⟩ := Option.ite_none_right_eq_some.mp ht
  cases ht
  cases wake with
  | failure => exact ⟨hinv.nodup, hinv.mem, hinv.ne_nil, hinv.short, hinv.result⟩
  | arrivals batch =>
    have hsub : fd ∈ select (s.maxfd + 1) s.gather.readSet (deliverAll s.gather.conns batch) →
        fd ∈ s.gather.readSet := fun hfd => (Finset.mem_filter.mp hfd).1
    unfold pass recordPieces
    dsimp only
    by_cases hfd : fd ∈ select (s.maxfd + 1) s.gather.readSet (deliverAll s.gather.conns batch)
    · have hne : select (s.maxfd + 1) s.gather.readSet (deliverAll s.gather.conns batch) ≠ ∅ :=
        Finset.ne_empty_of_mem hfd
      rw [if_pos hfd, if_neg hne]
      rcases hr : (recv sizeofDouble (deliverAll s.gather.conns batch fd)).1 with l | _ | _
      · exact hinv.of_bytes hfd (hsub hfd) hr
      · apply hinv.of_no_bytes hsub
        intro _ l hl
        rw [hr] at hl
        cases hl
      · apply hinv.of_no_bytes hsub
        intro _ l hl
        rw [hr] at hl
        cases hl
    · rw [if_neg hfd]
      split_ifs with hempty
      · refine ⟨hinv.nodup, hinv.mem, hinv.ne_nil, fun h => hinv.short (hsub h), hinv.result⟩
      · exact hinv.of_no_bytes hsub fun h => absurd h hfd

end Step

/-- In every run: when the eight bytes of a result have been taken, they are stored exactly when
one `recv` returned them all, or when the field held their value before. -/
theorem stored_iff (decode : List Byte → ℚ) {start s : GatherState} {w w' : Worker}
    {pieces : List (List Byte)} {wakes : List Wake}
    (hd : (start.workers.map Worker.socket).Nodup) (hw : w ∈ start.workers)
    (hrun : (gatherPieces decode w.socket start).run wakes = some (s, pieces))
    (h8 : pieces.flatten.length = sizeofDouble) (hw' : w' ∈ s.workers)
    (hs : w'.socket = w.socket) :
    w'.result = decode pieces.flatten ↔
      pieces = [pieces.flatten] ∨ w.result = decode pieces.flatten := by
  have hinv : PiecesInv decode w.socket w.result s pieces := by
    apply Machine.Reachable.invariant_withHistory _ _ ⟨wakes, hrun⟩
    · refine ⟨hd, ⟨w, hw, rfl⟩, ?_, ?_, ?_⟩
      · intro p hp
        cases hp
      · intro _ p hp
        cases hp
      · intro v hv hsock
        left
        rw [List.inj_on_of_nodup_map hd hv hw hsock]
        refine ⟨rfl, ?_⟩
        intro p hp
        cases hp
    · intro s pieces wake t _ hpieces ht
      exact piecesInv_step hpieces ht
  rcases hinv.result w' hw' hs with ⟨hres, hshort⟩ | ⟨p, hp, hlen, hres⟩
  · have hno : pieces ≠ [pieces.flatten] := by
      intro he
      apply hshort pieces.flatten _ h8
      rw [he]
      exact List.mem_singleton.mpr (List.flatten_singleton)
    rw [hres]
    exact (or_iff_right hno).symm
  · have hone : pieces = [p] := by
      apply eq_singleton_of_length_flatten_le hinv.ne_nil hp
      rw [h8, hlen]
    have hflat : pieces.flatten = p := by
      rw [hone]
      exact List.flatten_singleton
    rw [hflat]
    exact iff_of_true hres (Or.inl hone)

end OsTasks.Integral

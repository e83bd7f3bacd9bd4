import OsTasks.Integral.GatherReads

/-! The bytes that arrive on a connection of the master of task_8: however they are cut into
segments, a result that `gather_results` takes is all that the worker wrote. -/
namespace OsTasks.Integral
open OsTasks.Lib

def NetEvent.data : NetEvent → List Byte
  | .segment bytes => bytes
  | .close => []
  | .reset => []

/-- The bytes that arrive on `fd`. -/
def Wake.dataOn (fd : ℕ) : Wake → List Byte
  | .failure => []
  | .arrivals batch => batch.flatMap fun e => if e.1 = fd then e.2.data else []

theorem buffered_deliver (c : Conn) (e : NetEvent) :
    (c.deliver e).buffered = c.buffered ++ e.data := by
  cases e with
  | segment bytes => rfl
  | close => exact (List.append_nil _).symm
  | reset => exact (List.append_nil _).symm

theorem buffered_deliverAll (conns : ℕ → Conn) (batch : List (ℕ × NetEvent)) (fd : ℕ) :
    (deliverAll conns batch fd).buffered =
      (conns fd).buffered ++ (Wake.arrivals batch).dataOn fd := by
  induction batch generalizing conns with
  | nil => exact (List.append_nil _).symm
  | cons e batch ih =>
    have hcons : deliverAll conns (e :: batch) =
        deliverAll (Function.update conns e.1 ((conns e.1).deliver e.2)) batch := rfl
    have hdata : (Wake.arrivals (e :: batch)).dataOn fd =
        (if e.1 = fd then e.2.data else []) ++ (Wake.arrivals batch).dataOn fd :=
      List.flatMap_cons
    rw [hcons, ih, hdata, ← List.append_assoc]
    by_cases hfd : e.1 = fd
    · subst hfd
      rw [if_pos rfl, Function.update_self, buffered_deliver]
    · rw [if_neg hfd, Function.update_of_ne (Ne.symm hfd), List.append_nil]

theorem recv_rest (size : ℕ) (c : Conn) : (recv size c).2.buffered <:+ c.buffered := by
  unfold recv
  split_ifs
  · exact List.drop_suffix _ _
  · exact List.suffix_refl _
  · exact List.suffix_refl _

theorem recv_front {size : ℕ} {c : Conn} {l : List Byte} (h : (recv size c).1 = .bytes l) :
    l <+: c.buffered := by
  unfold recv at h
  split_ifs at h
  cases h
  exact List.take_prefix _ _

section Scan
variable {decode : List Byte → ℚ}

theorem serve_suffix (w : Worker) (g : Gather) (fd : ℕ) :
    ((serve decode w g).2.conns fd).buffered <:+ (g.conns fd).buffered := by
  by_cases hfd : w.socket = fd
  · subst hfd
    have htaken := recv_rest sizeofDouble (g.conns w.socket)
    have hown : ∀ c : Conn, c.buffered <:+ (g.conns w.socket).buffered →
        (Function.update g.conns w.socket c w.socket).buffered <:+
          (g.conns w.socket).buffered := by
      intro c hc
      rw [Function.update_self]
      exact hc
    unfold serve
    by_cases hw : w.socket ∈ g.readSet
    · rw [if_pos hw]
      rcases hrecv : recv sizeofDouble (g.conns w.socket) with ⟨l | _ | _, c⟩ <;>
        rw [hrecv] at htaken <;> dsimp only
      · split_ifs
        · exact hown c htaken
        · exact hown c htaken
      · exact hown c htaken
      · exact hown c htaken
    · rw [if_neg hw]
  · rw [(serve_frame decode hfd).1]

theorem scan_suffix (workers : List Worker) (g : Gather) (fd : ℕ) :
    ((scan decode workers g).2.conns fd).buffered <:+ (g.conns fd).buffered := by
  induction workers generalizing g with
  | nil => exact List.suffix_refl _
  | cons w ws ih => exact (ih (serve decode w g).2).trans (serve_suffix w g fd)

theorem pass_suffix (s : GatherState) (wake : Wake) (fd : ℕ) :
    ((pass decode s wake).gather.conns fd).buffered <:+
      (s.gather.conns fd).buffered ++ wake.dataOn fd := by
  cases wake with
  | failure =>
    change (s.gather.conns fd).buffered <:+ (s.gather.conns fd).buffered ++ []
    rw [List.append_nil]
  | arrivals batch =>
    rw [← buffered_deliverAll]
    unfold pass
    dsimp only
    split_ifs
    · exact List.suffix_refl _
    · exact scan_suffix _ _ fd

/-- A result is a piece of what was there and what arrived. -/
theorem fullReads_infix {s : GatherState} {wake : Wake} {r : ℕ × List Byte}
    (hr : r ∈ fullReads s wake) :
    r.2 <:+: (s.gather.conns r.1).buffered ++ wake.dataOn r.1 := by
  cases wake with
  | failure => cases hr
  | arrivals batch =>
    obtain ⟨hfull, _, _, hset⟩ := mem_fullReads hr
    rw [← buffered_deliverAll]
    unfold fullRead at hfull
    rw [if_pos hset] at hfull
    dsimp only at hfull
    split at hfull
    · next l hl =>
      obtain ⟨_, hsome⟩ := Option.ite_none_right_eq_some.mp hfull
      have hbytes : l = r.2 := congrArg Prod.snd (Option.some.inj hsome)
      rw [← hbytes]
      exact (recv_front hl).isInfix
    · cases hfull
    · cases hfull

/-- In every run: when what arrives on `fd` is the beginning of `payload`, a result taken from there
is a piece of `payload`. -/
theorem reads_infix {start s t : GatherState} {wakes : List Wake} {fd : ℕ}
    {reads reads' : List (ℕ × List Byte)} {past payload : List Byte}
    (hrun : (gatherReads decode start).runFrom (s, reads) wakes = some (t, reads'))
    (hbuffered : (s.gather.conns fd).buffered <:+ past)
    (hpayload : past ++ wakes.flatMap (Wake.dataOn fd) <+: payload)
    (hreads : ∀ r ∈ reads, r.1 = fd → r.2 <:+: payload) :
    ∀ r ∈ reads', r.1 = fd → r.2 <:+: payload := by
  induction wakes generalizing s reads past with
  | nil =>
    cases hrun
    exact hreads
  | cons wake wakes ih =>
    obtain ⟨⟨u, readsU⟩, hstep, hrest⟩ := Machine.runFrom_cons_eq_some.mp hrun
    obtain ⟨hpass, hrecord⟩ := Machine.withHistory_step_eq_some.mp hstep
    obtain ⟨_, hpass⟩ := Option.ite_none_right_eq_some.mp hpass
    obtain rfl : pass decode s wake = u := Option.some.inj hpass
    obtain rfl : readsU = reads ++ fullReads s wake := hrecord
    obtain ⟨seen, hseen⟩ := hbuffered
    have harrived : (s.gather.conns fd).buffered ++ wake.dataOn fd <:+ past ++ wake.dataOn fd :=
      ⟨seen, by rw [← List.append_assoc, hseen]⟩
    rw [List.flatMap_cons, ← List.append_assoc] at hpayload
    refine ih hrest ((pass_suffix s wake fd).trans harrived) hpayload ?_
    intro r hr hfd
    rcases List.mem_append.mp hr with hr | hr
    · exact hreads r hr hfd
    · have hpiece := fullReads_infix hr
      rw [hfd] at hpiece
      have hbegin : past ++ wake.dataOn fd <:+: payload :=
        ((List.prefix_append _ _).trans hpayload).isInfix
      exact (hpiece.trans harrived.isInfix).trans hbegin

end Scan

end OsTasks.Integral

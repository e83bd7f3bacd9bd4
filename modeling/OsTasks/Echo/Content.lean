import OsTasks.Echo.Phases

/-! Which files come back whole from the duplex pipe, over every interleaving of the two
processes. -/
namespace OsTasks.Echo
open OsTasks.Lib

/-- Bounds the statements both processes still execute. -/
def remaining (s : State) : ℕ :=
  let parent := match s.parent with
    | .fread => 8 | .snd => 16 | .rcv => 10 | .fwrite => 9 | .sndExit => 7 | .done => 0
  let child := match s.child with
    | .rcv => 0 | .test => 4 | .snd => 3 | .done => 0
  9 * s.rest.length + parent + child + (if s.direct = [] then 0 else 5) +
    if s.back = [] then 0 else 2

theorem remaining_parent {e : Option (List Byte)} {s t : State} (h : Inv e s)
    (ht : parentStep s = some t) : remaining t < remaining s := by
  obtain ⟨hpd, hpl, hcd, hcl, hph⟩ := h
  cases hp : s.parent <;> simp only [parentStep, hp] at ht
  case fread =>
    split at ht
    · cases ht
      simp only [remaining, hp]
      omega
    · rename_i b bs hb
      have hl := congrArg List.length hb
      simp only [List.length_take, List.length_cons] at hl
      have hsize : 0 < bufSize := by decide
      cases ht
      simp only [remaining, hp, List.length_drop]
      omega
  case rcv =>
    obtain ⟨r, hr, rfl⟩ := Option.map_eq_some_iff.mp ht
    have hback : s.back ≠ [] := by
      rintro hb
      simp [hb, rcv_nil] at hr
    have hl : s.back.length ≤ bufSize := by
      cases hc : s.child <;> simp only [Phase, hp, hc, hback, false_and, and_false, false_or] at hph
      exact hph.2.2.1
    rw [rcv_of_length_le _ hback hl] at hr
    cases hr
    simp only [remaining, hp, hback, if_true, if_false]
    omega
  case fwrite =>
    cases ht
    simp only [remaining, hp]
    omega
  case done => cases ht
  all_goals
    obtain ⟨q, hq, rfl⟩ := Option.map_eq_some_iff.mp ht
    simp only [remaining, hp]
    split_ifs <;> omega

theorem remaining_child {e : Option (List Byte)} {s t : State} (h : Inv e s)
    (ht : childStep s = some t) : remaining t < remaining s := by
  obtain ⟨hpd, hpl, hcd, hcl, hph⟩ := h
  cases hc : s.child <;> simp only [childStep, hc] at ht
  case rcv =>
    obtain ⟨r, hr, rfl⟩ := Option.map_eq_some_iff.mp ht
    have hdir : s.direct ≠ [] := by
      rintro hd
      simp [hd, rcv_nil] at hr
    have hl : s.direct.length ≤ bufSize := by
      cases hp : s.parent <;>
        simp only [Phase, hp, hc, hdir, false_and, false_or, or_false] at hph
      · exact hph.2.2.1
      · exact hph.2.1.le
    rw [rcv_of_length_le _ hdir hl] at hr
    cases hr
    simp only [remaining, hc, hdir, if_true, if_false]
    omega
  case test =>
    split_ifs at ht <;> cases ht <;> simp only [remaining, hc] <;> omega
  case snd =>
    obtain ⟨q, hq, rfl⟩ := Option.map_eq_some_iff.mp ht
    simp only [remaining, hc]
    split_ifs <;> omega
  case done => cases ht

theorem phase_of_loopDone {e : Option (List Byte)} {s : State} (h : Phase e s)
    (hs : s.loopDone) : e = some s.output := by
  rcases hs with hp | hp <;> cases hc : s.child <;> simp only [Phase, hp, hc] at h
  · exact h.2.2.2
  · exact h.2.2
  · exact h.2
  · exact h

/-- A run comes to rest with the loop done, or with no echo to come. -/
theorem halted_loopDone {e : Option (List Byte)} {s : State} (h : Inv e s)
    (hp : parentStep s = none) (hc : childStep s = none) : s.loopDone ∨ e = none := by
  obtain ⟨hpd, hpl, hcd, hcl, hph⟩ := h
  cases hps : s.parent <;> cases hcs : s.child <;> simp only [Phase, hps, hcs] at hph
  case fread.rcv =>
    simp only [parentStep, hps] at hp
    split at hp <;> cases hp
  case snd.rcv => simp [parentStep, hps, hph.1, snd_nil hpl] at hp
  case rcv.rcv =>
    rcases hph with ⟨-, -, he⟩ | ⟨-, hd, hl, -⟩ | ⟨-, hb, hl, -⟩
    · exact Or.inr he
    · simp [childStep, hcs, rcv_of_length_le _ hd hl] at hc
    · simp [parentStep, hps, rcv_of_length_le _ hb hl] at hp
  case rcv.test =>
    simp only [childStep, hcs] at hc
    split_ifs at hc
  case rcv.snd => simp [childStep, hcs, hph.2.1, snd_nil hcl] at hc
  case rcv.done => exact Or.inr hph.2
  case fwrite.rcv => simp [parentStep, hps] at hp
  all_goals simp [State.loopDone, hps]

theorem exists_halted (file : List Byte) :
    ∃ s, (echo file).Reachable s ∧ parentStep s = none ∧ childStep s = none := by
  obtain ⟨as, s, hr, hh⟩ := Machine.exists_run_halted (M := echo file) (I := Inv (fate file))
    (μ := remaining) inv_step (fun s p t hs ht => by
      cases p with
      | parent => exact remaining_parent hs ht
      | child => exact remaining_child hs ht) (echo file).init (inv_init file)
  exact ⟨s, ⟨as, hr⟩, hh .parent, hh .child⟩

/-- Some block of the file gets no echo: sent over the block before it (over NULs for the
first) it is empty or reads as "exit". -/
def Hangs (file : List Byte) : Prop :=
  ∃ before block after, freadBlocks bufSize file = before ++ block :: after ∧
    NoEcho (before.getLastD (List.replicate bufSize 0)) block

private theorem echoed_eq_none_iff (file : List Byte) {data : List Byte}
    (hd : data.length = bufSize) :
    echoed data (freadBlocks bufSize file) = none ↔
      ∃ before block after, freadBlocks bufSize file = before ++ block :: after ∧
        NoEcho (before.getLastD data) block := by
  have hsize : 0 < bufSize := by decide
  induction file using fread_induction hsize generalizing data with
  | nil => simp [hsize, echoed]
  | block l hl ih =>
    rw [freadBlocks_of_ne_nil hsize hl, echoed]
    set b := l.take bufSize with hb
    split_ifs with hn
    · exact iff_of_true rfl ⟨[], b, _, rfl, hn⟩
    · have hm : (message b).length ≤ bufSize :=
        (message_isPrefix b).length_le.trans (List.length_take_le _ _)
      have hd' : (overwrite data (message b)).length = bufSize := by
        rw [length_overwrite (by rw [hd]; exact hm), hd]
      have hlast : l.drop bufSize ≠ [] → overwrite data (message b) = b := by
        intro hr
        have hfull : b.length = bufSize := by
          have := List.length_pos_of_ne_nil hr
          rw [List.length_drop] at this
          rw [hb, List.length_take]
          omega
        unfold message
        rw [if_pos hfull, overwrite_of_length_le (by rw [hd, hfull])]
      refine Option.map_eq_none_iff.trans ((ih hd').trans ?_)
      constructor
      · rintro ⟨before, block, after, he, h⟩
        refine ⟨b :: before, block, after, by rw [he]; rfl, ?_⟩
        have hr : l.drop bufSize ≠ [] := by
          intro hr
          simp [hr, hsize] at he
        rw [hlast hr] at h
        rwa [List.getLastD_cons]
      · rintro ⟨before, block, after, he, h⟩
        cases before with
        | nil =>
          obtain ⟨rfl, -⟩ := List.cons_eq_cons.mp he
          exact absurd h hn
        | cons c before =>
          obtain ⟨rfl, htail⟩ := List.cons_eq_cons.mp he
          have hr : l.drop bufSize ≠ [] := by
            intro hr
            simp [hr, hsize] at htail
          refine ⟨before, block, after, htail, ?_⟩
          rwa [hlast hr, ← List.getLastD_cons]

theorem fate_eq_none_iff (file : List Byte) : fate file = none ↔ Hangs file :=
  echoed_eq_none_iff file List.length_replicate

private theorem echoed_eq_some {blocks : List (List Byte)} {data o : List Byte}
    (h : echoed data blocks = some o) : o = (blocks.map message).flatten := by
  induction blocks generalizing data o with
  | nil => cases h; rfl
  | cons b bs ih =>
    simp only [echoed] at h
    split_ifs at h
    obtain ⟨r, hr, rfl⟩ := Option.map_eq_some_iff.mp h
    rw [List.map_cons, List.flatten_cons, ← ih hr]

/-- Prefixes of the blocks make up the whole only as the blocks themselves. -/
private theorem map_message_eq {blocks : List (List Byte)}
    (h : (blocks.map message).flatten = blocks.flatten) : ∀ b ∈ blocks, message b = b := by
  have hle : ∀ bs : List (List Byte), (bs.map message).flatten.length ≤ bs.flatten.length := by
    intro bs
    induction bs with
    | nil => exact le_rfl
    | cons b bs ih =>
      have := (message_isPrefix b).length_le
      simp only [List.map_cons, List.flatten_cons, List.length_append]
      omega
  induction blocks with
  | nil => simp
  | cons b bs ih =>
    rw [List.map_cons, List.flatten_cons, List.flatten_cons] at h
    have hlen := congrArg List.length h
    rw [List.length_append, List.length_append] at hlen
    have hb := (message_isPrefix b).length_le
    have hbs := hle bs
    obtain ⟨h1, h2⟩ := List.append_inj h (by omega)
    intro c hc
    rcases List.mem_cons.mp hc with rfl | hc
    · exact h1
    · exact ih h2 c hc

/-- Whenever the parent leaves its read loop the output is the input, exactly for the files
whose short last block has no NUL, and for those on which the parent never leaves it. -/
theorem echo_eq_file_iff (file : List Byte) :
    (∀ s, (echo file).Reachable s → s.loopDone → s.output = file) ↔
      (∀ b ∈ freadBlocks bufSize file, b.length ≠ bufSize → 0 ∉ b) ∨ Hangs file := by
  have hflat : (freadBlocks bufSize file).flatten = file := flatten_freadBlocks (by decide) file
  constructor
  · intro h
    obtain ⟨s, hs, hp, hc⟩ := exists_halted file
    have hinv := inv_of_reachable hs
    rcases halted_loopDone hinv hp hc with hdone | hnone
    · have he := echoed_eq_some (phase_of_loopDone hinv.phase hdone)
      rw [h s hs hdone] at he
      exact Or.inl fun b hb =>
        (message_eq_self_iff b).mp (map_message_eq (he.symm.trans hflat.symm) b hb)
    · exact Or.inr ((fate_eq_none_iff file).mp hnone)
  · intro h s hs hdone
    have he := phase_of_loopDone (inv_of_reachable hs).phase hdone
    rcases h with hnul | hhang
    · have hm : (freadBlocks bufSize file).map message = freadBlocks bufSize file :=
        (List.map_congr_left fun b hb => (message_eq_self_iff b).mpr (hnul b hb)).trans
          (List.map_id _)
      rw [echoed_eq_some he, hm, hflat]
    · rw [(fate_eq_none_iff file).mpr hhang] at he
      cases he

/-- The parent and the child alternate over one block and the final message. -/
def oneBlockRun : List Party :=
  [.parent, .parent, .child, .child, .child, .parent, .parent, .parent]

/-- A file of the bytes 61 00 62 comes back as its first byte. -/
theorem nul_truncates :
    ∃ s, (echo [0x61, 0, 0x62]).run oneBlockRun = some s ∧ s.loopDone ∧ s.output = [0x61] ∧
      s.output ≠ [0x61, 0, 0x62] :=
  ⟨_, rfl, Or.inl rfl, by decide +kernel, by decide +kernel⟩

end OsTasks.Echo

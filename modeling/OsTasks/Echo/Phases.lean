import OsTasks.Lib.Blocks
import OsTasks.Echo.Duplex

/-! What the two processes of the duplex pipe hold between them in every state, and the output that
is to come of it. -/
namespace OsTasks.Echo
open OsTasks.Lib

/-- A message gets no echo: it is empty, or the child reads it, stored over what its data
block held, as "exit". -/
def NoEcho (data block : List Byte) : Prop :=
  message block = [] ∨ exit ++ [0] <+: overwrite data (message block)

instance (data block : List Byte) : Decidable (NoEcho data block) :=
  inferInstanceAs (Decidable (_ ∨ _))

/-- What the parent still writes when the child's data block is `data`; none when it waits
for an echo that never comes. -/
def echoed (data : List Byte) : List (List Byte) → Option (List Byte)
  | [] => some []
  | b :: bs =>
    if NoEcho data b then none
    else (echoed (overwrite data (message b)) bs).map (message b ++ ·)

/-- The whole output, when the parent has written `out` by the time the child's data block
holds `data` and the next block is read. -/
def later (s : State) (data out : List Byte) : Option (List Byte) :=
  (echoed data (freadBlocks bufSize s.rest)).map (out ++ ·)

/-- Where the one outstanding message is, and what the run comes to. -/
def Phase (e : Option (List Byte)) (s : State) : Prop :=
  match s.parent, s.child with
  | .fread, .rcv =>
    s.direct = [] ∧ s.back = [] ∧ s.parentPipe.len = bufSize ∧ e = later s s.childPipe.data s.output
  | .snd, .rcv =>
    s.direct = [] ∧ s.back = [] ∧ ∃ b, s.parentPipe.data.take s.parentPipe.len = message b ∧
      e = if NoEcho s.childPipe.data b then none
        else later s (overwrite s.childPipe.data (message b)) (s.output ++ message b)
  | .rcv, .rcv =>
    (s.direct = [] ∧ s.back = [] ∧ e = none) ∨
    (s.back = [] ∧ s.direct ≠ [] ∧ s.direct.length ≤ bufSize ∧
      e = if exit ++ [0] <+: overwrite s.childPipe.data s.direct then none
        else later s (overwrite s.childPipe.data s.direct) (s.output ++ s.direct)) ∨
    (s.direct = [] ∧ s.back ≠ [] ∧ s.back.length ≤ bufSize ∧
      e = later s s.childPipe.data (s.output ++ s.back))
  | .rcv, .test =>
    s.direct = [] ∧ s.back = [] ∧ s.childPipe.data.take s.childPipe.len ≠ [] ∧
      e = if exit ++ [0] <+: s.childPipe.data then none
        else later s s.childPipe.data (s.output ++ s.childPipe.data.take s.childPipe.len)
  | .rcv, .snd =>
    s.direct = [] ∧ s.back = [] ∧ s.childPipe.data.take s.childPipe.len ≠ [] ∧
      e = later s s.childPipe.data (s.output ++ s.childPipe.data.take s.childPipe.len)
  | .rcv, .done => s.back = [] ∧ e = none
  | .fwrite, .rcv =>
    s.direct = [] ∧ s.back = [] ∧
      e = later s s.childPipe.data (s.output ++ s.parentPipe.data.take s.parentPipe.len)
  | .sndExit, .rcv =>
    s.direct = [] ∧ s.parentPipe.len = bufSize ∧ exit ++ [0] <+: s.parentPipe.data ∧ e = some s.output
  | .done, .rcv => exit ++ [0] <+: s.direct ∧ s.direct.length = bufSize ∧ e = some s.output
  | .done, .test => exit ++ [0] <+: s.childPipe.data ∧ e = some s.output
  | .done, .done => e = some s.output
  | _, _ => False

structure Inv (e : Option (List Byte)) (s : State) : Prop where
  parent_data : s.parentPipe.data.length = bufSize
  parent_len : s.parentPipe.len ≤ bufSize
  child_data : s.childPipe.data.length = bufSize
  child_len : s.childPipe.len ≤ bufSize
  phase : Phase e s

def fate (file : List Byte) : Option (List Byte) :=
  echoed (List.replicate bufSize 0) (freadBlocks bufSize file)

theorem inv_init (file : List Byte) : Inv (fate file) (echo file).init where
  parent_data := List.length_replicate
  parent_len := le_rfl
  child_data := List.length_replicate
  child_len := le_rfl
  phase := ⟨rfl, rfl, rfl, by simp [later, echo, pipeCtor, fate]⟩

private theorem inv_fread {e : Option (List Byte)} {s t : State} (h : Inv e s)
    (hp : s.parent = .fread) (ht : parentStep s = some t) : Inv e t := by
  obtain ⟨hpd, hpl, hcd, hcl, hph⟩ := h
  cases hc : s.child <;> simp only [Phase, hp, hc] at hph
  obtain ⟨hdir, hback, hlen, he⟩ := hph
  have hsize : 0 < bufSize := by decide
  simp only [parentStep, hp] at ht
  split at ht
  · rename_i hnil
    have hrest : s.rest = [] := by
      rcases List.take_eq_nil_iff.mp hnil with h0 | h0
      · exact absurd h0 (by decide)
      · exact h0
    cases ht
    refine ⟨?_, hpl, hcd, hcl, ?_⟩
    · exact (length_overwrite (by rw [hpd]; decide)).trans hpd
    · simp only [Phase, hc]
      refine ⟨hdir, hlen, List.prefix_append _ _, ?_⟩
      simpa [later, hrest, hsize, echoed] using he
  · rename_i b bs hb
    have hle : (b :: bs).length ≤ bufSize := by
      rw [← hb]
      exact List.length_take_le _ _
    have hne : s.rest ≠ [] := by
      rintro hnil
      rw [hnil] at hb
      cases hb
    obtain ⟨h1, h2, h3⟩ := load_spec hpd hlen hle
    cases ht
    refine ⟨h1, h2, hcd, hcl, ?_⟩
    simp only [Phase, hc]
    refine ⟨hdir, hback, b :: bs, h3, ?_⟩
    rw [he]
    simp only [later, freadBlocks_of_ne_nil hsize hne, hb, echoed]
    split_ifs
    · rfl
    · simp only [Option.map_map, Function.comp_def, List.append_assoc]

private theorem inv_snd {e : Option (List Byte)} {s t : State} (h : Inv e s)
    (hp : s.parent = .snd) (ht : parentStep s = some t) : Inv e t := by
  obtain ⟨hpd, hpl, hcd, hcl, hph⟩ := h
  cases hc : s.child <;> simp only [Phase, hp, hc] at hph
  obtain ⟨hdir, hback, b, hb, he⟩ := hph
  simp only [parentStep, hp, hdir, snd_nil hpl, Option.map_some, hb] at ht
  cases ht
  refine ⟨hpd, hpl, hcd, hcl, ?_⟩
  simp only [Phase, hc]
  by_cases hm : message b = []
  · left
    exact ⟨hm, hback, by rw [he, if_pos (show NoEcho _ b from Or.inl hm)]⟩
  · right; left
    have hl : (message b).length ≤ bufSize := by
      rw [← hb]
      exact (List.length_take_le _ _).trans hpl
    refine ⟨hback, hm, hl, ?_⟩
    simp only [he, NoEcho, hm, false_or, later]

private theorem inv_parent_rcv {e : Option (List Byte)} {s t : State} (h : Inv e s)
    (hp : s.parent = .rcv) (ht : parentStep s = some t) : Inv e t := by
  obtain ⟨hpd, hpl, hcd, hcl, hph⟩ := h
  have hback : s.back ≠ [] := by
    rintro hb
    simp [parentStep, hp, hb, rcv_nil] at ht
  cases hc : s.child <;> simp only [Phase, hp, hc, hback, false_and, and_false, false_or] at hph
  obtain ⟨hdir, -, hl, he⟩ := hph
  simp only [parentStep, hp, rcv_of_length_le _ hback hl, Option.map_some] at ht
  cases ht
  refine ⟨?_, hl, hcd, hcl, ?_⟩
  · exact (length_overwrite (by rw [hpd]; exact hl)).trans hpd
  · simp only [Phase, hc]
    exact ⟨hdir, trivial, by simpa only [take_overwrite, later] using he⟩

theorem inv_parent {e : Option (List Byte)} {s t : State} (h : Inv e s)
    (ht : parentStep s = some t) : Inv e t := by
  cases hp : s.parent
  case fread => exact inv_fread h hp ht
  case snd => exact inv_snd h hp ht
  case rcv => exact inv_parent_rcv h hp ht
  case fwrite =>
    obtain ⟨hpd, hpl, hcd, hcl, hph⟩ := h
    cases hc : s.child <;> simp only [Phase, hp, hc] at hph
    obtain ⟨hdir, hback, he⟩ := hph
    simp only [parentStep, hp] at ht
    cases ht
    exact ⟨hpd, le_rfl, hcd, hcl, by simpa only [Phase, hc] using ⟨hdir, hback, trivial, he⟩⟩
  case sndExit =>
    obtain ⟨hpd, hpl, hcd, hcl, hph⟩ := h
    cases hc : s.child <;> simp only [Phase, hp, hc] at hph
    obtain ⟨hdir, hlen, hexit, he⟩ := hph
    have hd : s.parentPipe.data.take s.parentPipe.len = s.parentPipe.data := by
      rw [hlen, ← hpd, List.take_length]
    simp only [parentStep, hp, hdir, snd_nil hpl, Option.map_some, hd] at ht
    cases ht
    exact ⟨hpd, hpl, hcd, hcl, by simpa only [Phase, hc] using ⟨hexit, hpd, he⟩⟩
  case done => simp [parentStep, hp] at ht

private theorem inv_child_rcv {e : Option (List Byte)} {s t : State} (h : Inv e s)
    (hc : s.child = .rcv) (ht : childStep s = some t) : Inv e t := by
  obtain ⟨hpd, hpl, hcd, hcl, hph⟩ := h
  have hdir : s.direct ≠ [] := by
    rintro hd
    simp [childStep, hc, hd, rcv_nil] at ht
  have hstored (hl : s.direct.length ≤ bufSize) :
      (overwrite s.childPipe.data s.direct).length = bufSize :=
    (length_overwrite (by rw [hcd]; exact hl)).trans hcd
  cases hp : s.parent <;>
    simp only [Phase, hp, hc, hdir, false_and, false_or, or_false] at hph
  case rcv =>
    obtain ⟨hback, -, hl, he⟩ := hph
    simp only [childStep, hc, rcv_of_length_le _ hdir hl, Option.map_some] at ht
    cases ht
    refine ⟨hpd, hpl, hstored hl, hl, ?_⟩
    simp only [Phase, hp, take_overwrite]
    exact ⟨trivial, hback, hdir, by simpa only [later] using he⟩
  case done =>
    obtain ⟨hexit, hl, he⟩ := hph
    simp only [childStep, hc, rcv_of_length_le _ hdir hl.le, Option.map_some] at ht
    cases ht
    refine ⟨hpd, hpl, hstored hl.le, hl.le, ?_⟩
    simp only [Phase, hp]
    exact ⟨by rwa [overwrite_of_length_le (by rw [hcd, hl])], he⟩

private theorem inv_child_test {e : Option (List Byte)} {s t : State} (h : Inv e s)
    (hc : s.child = .test) (ht : childStep s = some t) : Inv e t := by
  obtain ⟨hpd, hpl, hcd, hcl, hph⟩ := h
  simp only [childStep, hc, strcmp_eq_zero_iff (show (0 : Byte) ∉ exit by decide)] at ht
  cases hp : s.parent <;> simp only [Phase, hp, hc] at hph
  case rcv =>
    obtain ⟨hdir, hback, hne, he⟩ := hph
    split_ifs at ht with hx <;> cases ht <;> refine ⟨hpd, hpl, hcd, hcl, ?_⟩ <;>
      simp only [Phase, hp]
    · exact ⟨hback, by rw [he, if_pos hx]⟩
    · exact ⟨hdir, hback, hne, by rw [he, if_neg hx]; rfl⟩
  case done =>
    rw [if_pos hph.1] at ht
    cases ht
    exact ⟨hpd, hpl, hcd, hcl, by simpa only [Phase, hp] using hph.2⟩

theorem inv_child {e : Option (List Byte)} {s t : State} (h : Inv e s)
    (ht : childStep s = some t) : Inv e t := by
  cases hc : s.child
  case rcv => exact inv_child_rcv h hc ht
  case test => exact inv_child_test h hc ht
  case snd =>
    obtain ⟨hpd, hpl, hcd, hcl, hph⟩ := h
    cases hp : s.parent <;> simp only [Phase, hp, hc] at hph
    obtain ⟨hdir, hback, hne, he⟩ := hph
    simp only [childStep, hc, hback, snd_nil hcl, Option.map_some] at ht
    cases ht
    refine ⟨hpd, hpl, hcd, le_rfl, ?_⟩
    simp only [Phase, hp]
    right; right
    exact ⟨hdir, hne, (List.length_take_le _ _).trans hcl, by simpa only [later] using he⟩
  case done => simp [childStep, hc] at ht

theorem inv_step {e : Option (List Byte)} (s : State) (p : Party) (t : State) (h : Inv e s)
    (ht : step s p = some t) : Inv e t := by
  cases p with
  | parent => exact inv_parent h ht
  | child => exact inv_child h ht

theorem inv_of_reachable {file : List Byte} {s : State} (h : (echo file).Reachable s) :
    Inv (fate file) s := h.invariant (inv_init file) inv_step

end OsTasks.Echo

import Mathlib.Logic.Relation
import OsTasks.Shell.ParserRoundTrip

/-! Lines that differ by the spaces around '|', and when the shell of task_1 sees the same commands
in them. -/
namespace OsTasks.Shell
open OsTasks.Lib

/-- What `main` gives to `parse_cmdline`, up to the NUL. -/
structure CommandLine where
  bytes : List Byte
  zero_notMem : 0 ∉ bytes
  length_lt : bytes.length < maxStrLen

/-- A space is inserted next to a '|'. -/
inductive InsertSpace : List Byte → List Byte → Prop where
  | before (x y : List Byte) : InsertSpace (x ++ bar :: y) (x ++ space :: bar :: y)
  | behind (x y : List Byte) : InsertSpace (x ++ bar :: y) (x ++ bar :: space :: y)

/-- Spaces are inserted and removed next to '|', one at a time. -/
def SpacedAlike (l l' : CommandLine) : Prop := Relation.EqvGen InsertSpace l.bytes l'.bytes

/-- The array of these commands results from `l`, whatever `malloc` returns. -/
def ParsesTo (l : CommandLine) (cmds : List (List (List Byte))) : Prop :=
  ∀ h rest, parseCmdline h (l.bytes ++ 0 :: rest) =
    some (storeFrom (argvSlot h) h.cmdArray 0 cmds)

def SameCommands (l l' : CommandLine) : Prop := ∃ cmds, ParsesTo l cmds ∧ ParsesTo l' cmds

/-- What directly follows each '|' in its command: nothing where another '|' or the end does. -/
def afterBars (l : CommandLine) : List (Option Byte) := (l.bytes.splitOn bar).tail.map List.head?

/-- No command is empty, and the same '|' are directly followed by a space. -/
structure SpacedSafely (l l' : CommandLine) : Prop where
  left : none ∉ afterBars l
  right : none ∉ afterBars l'
  same : (afterBars l).map (· == some space) = (afterBars l').map (· == some space)

theorem afterBars_eq {l : CommandLine} {g : List Byte} {gs : List (List Byte)}
    (hline : l.bytes.splitOn bar = g :: gs) : afterBars l = gs.map List.head? := by
  unfold afterBars
  rw [hline]
  rfl

theorem InsertSpace.map_words {l l' : List Byte} (h : InsertSpace l l') :
    (l.splitOn bar).map (words space) = (l'.splitOn bar).map (words space) := by
  have hne : space ≠ bar := by decide
  cases h with
  | before x y =>
    have hsplit : x ++ space :: bar :: y = (x ++ [space]) ++ bar :: y := by
      rw [List.append_assoc]
      rfl
    rw [hsplit, List.splitOn_append_cons_self, List.splitOn_append_cons_self, List.map_append,
      List.map_append, map_words_splitOn_concat hne]
  | behind x y =>
    rw [List.splitOn_append_cons_self, List.splitOn_append_cons_self, List.map_append,
      List.map_append, map_words_splitOn_cons hne]

theorem map_words_of_eqvGen {l l' : List Byte} (h : Relation.EqvGen InsertSpace l l') :
    (l.splitOn bar).map (words space) = (l'.splitOn bar).map (words space) := by
  induction h with
  | rel x y hxy => exact hxy.map_words
  | refl x => rfl
  | symm x y _ ih => exact ih.symm
  | trans x y z _ _ ih ih' => exact ih.trans ih'

section Pieces

theorem words_tail_eq_iff {b b' : Byte} {t t' : List Byte}
    (h : words space (b :: t) = words space (b' :: t')) :
    words space t = words space t' ↔ (b = space ↔ b' = space) := by
  by_cases hb : b = space
  · by_cases hb' : b' = space
    · rw [hb, hb', words_cons_delim, words_cons_delim] at h
      exact iff_of_true h (iff_of_true hb hb')
    · rw [hb, words_cons_delim] at h
      refine iff_of_false ?_ fun hiff => hb' (hiff.mp hb)
      intro ht
      exact words_cons_ne_self hb' t' (h.symm.trans ht)
  · by_cases hb' : b' = space
    · rw [hb', words_cons_delim] at h
      refine iff_of_false ?_ fun hiff => hb (hiff.mpr hb')
      intro ht
      exact words_cons_ne_self hb t (h.trans ht.symm)
    · exact iff_of_true (words_tail_congr hb hb' h) (iff_of_false hb hb')

theorem exists_map_cons_iff {α : Type*} {x x' : Option (List α)} {w w' : α} :
    (∃ l, x.map (w :: ·) = some l ∧ x'.map (w' :: ·) = some l) ↔
      w = w' ∧ ∃ l, x = some l ∧ x' = some l := by
  constructor
  · rintro ⟨l, hl, hr⟩
    obtain ⟨rest, hrest, rfl⟩ := Option.map_eq_some_iff.mp hl
    obtain ⟨rest', hrest', he⟩ := Option.map_eq_some_iff.mp hr
    obtain ⟨hw, rfl⟩ := List.cons.inj he
    exact ⟨hw.symm, rest', hrest, hrest'⟩
  · rintro ⟨hw, l, hl, hr⟩
    rw [hl, hr, hw]
    exact ⟨_, rfl, rfl⟩

theorem cutPieces_eq_iff {gs gs' : List (List Byte)}
    (h : gs.map (words space) = gs'.map (words space)) :
    (∃ cmds, cutPieces 1 gs = some cmds ∧ cutPieces 1 gs' = some cmds) ↔
      none ∉ gs.map List.head? ∧ none ∉ gs'.map List.head? ∧
        (gs.map List.head?).map (· == some space) = (gs'.map List.head?).map (· == some space) := by
  induction gs generalizing gs' with
  | nil =>
    rw [List.map_eq_nil_iff.mp h.symm]
    exact iff_of_true ⟨[], rfl, rfl⟩ ⟨List.not_mem_nil, List.not_mem_nil, rfl⟩
  | cons g gs ih =>
    cases gs' with
    | nil => cases h
    | cons g' gs' =>
      obtain ⟨hg, hgs⟩ := List.cons.inj h
      cases g with
      | nil =>
        refine iff_of_false ?_ fun hsafe => hsafe.1 List.mem_cons_self
        rintro ⟨cmds, hcut, _⟩
        cases hcut
      | cons b t =>
        cases g' with
        | nil =>
          refine iff_of_false ?_ fun hsafe => hsafe.2.1 List.mem_cons_self
          rintro ⟨cmds, _, hcut⟩
          cases hcut
        | cons b' t' =>
          have hcut : ∀ (b : Byte) t gs, cutPieces 1 ((b :: t) :: gs) =
              (cutPieces 1 gs).map (words space t :: ·) := fun b t gs => if_pos (by simp)
          have hsame : (some b == some space) = (some b' == some space) ↔
              (b = space ↔ b' = space) := by
            by_cases hb : b = space <;> by_cases hb' : b' = space <;> simp [hb, hb']
          rw [hcut, hcut, exists_map_cons_iff, words_tail_eq_iff hg, ih hgs, ← hsame]
          simp only [List.map_cons, List.head?_cons, List.mem_cons, List.cons.injEq, reduceCtorEq,
            false_or]
          tauto

end Pieces

theorem parseCmdline_eq (h : Malloc) (l : CommandLine) (rest : List Byte) :
    parseCmdline h (l.bytes ++ 0 :: rest) =
      (cutPieces 0 (l.bytes.splitOn bar)).map (storeFrom (argvSlot h) h.cmdArray 0) := by
  obtain ⟨g, gs, hg⟩ := List.exists_cons_of_ne_nil (List.splitOn_ne_nil bar l.bytes)
  have hline : [bar].intercalate (g :: gs) = l.bytes := by
    rw [← hg, List.intercalate_splitOn]
  have hplain : ∀ p ∈ g :: gs, ∀ b ∈ p, b ≠ bar ∧ b ≠ 0 := by
    intro p hp b hb
    obtain ⟨hbar, hmem⟩ := mem_of_mem_splitOn (hg ▸ hp) b hb
    exact ⟨hbar, fun hz => l.zero_notMem (hz ▸ hmem)⟩
  have hparse : (parseFrom h (l.bytes ++ 0 :: rest) 0 ([bar].intercalate (g :: gs) ++ 0 :: rest)
      ⟨h.cmdArray, 0, 0⟩).map Parse.cmdArray =
        (cutPieces 0 (g :: gs)).map (storeFrom (argvSlot h) h.cmdArray 0) :=
    parseFrom_pieces hplain rfl (by rw [hline]; rfl)
      (by rw [hline, Nat.zero_add]; exact l.length_lt) le_rfl
  rw [hline] at hparse
  rw [hg]
  exact hparse

section Store
variable {α β : Type} {value : ℕ → α → β}

theorem storeFrom_cons_self (a : ℕ → β) (i : ℕ) (x : α) (l : List α) :
    storeFrom value a i (x :: l) i = value i x := by
  change storeFrom value (Function.update a i (value i x)) (i + 1) l i = value i x
  rw [storeFrom_of_lt _ _ (Nat.lt_succ_self i), Function.update_self]

/-- An array tells which values were stored in it, where it held nothing like them before. -/
theorem storeFrom_injective (hvalue : ∀ n, Function.Injective (value n)) {a : ℕ → β} {i : ℕ}
    {l l' : List α} (hfree : ∀ n, i ≤ n → ∀ x, value n x ≠ a n)
    (h : storeFrom value a i l = storeFrom value a i l') : l = l' := by
  induction l generalizing a i l' with
  | nil =>
    cases l' with
    | nil => rfl
    | cons y l' =>
      have hi := (congrFun h i).trans (storeFrom_cons_self a i y l')
      exact absurd hi.symm (hfree i le_rfl y)
  | cons x l ih =>
    have hi := congrFun h i
    rw [storeFrom_cons_self] at hi
    cases l' with
    | nil => exact absurd hi (hfree i le_rfl x)
    | cons y l' =>
      rw [storeFrom_cons_self] at hi
      obtain rfl := hvalue i hi
      have hrest : ∀ n, i + 1 ≤ n → ∀ z, value n z ≠ Function.update a i (value i x) n := by
        intro n hn z
        rw [Function.update_of_ne (by omega)]
        exact hfree n (by omega) z
      rw [ih hrest h]

end Store

theorem argvSlot_cleared_injective (n : ℕ) : Function.Injective (argvSlot cleared n) := by
  intro ws ws' h
  have hargv := Slot.block.inj h
  apply storeFrom_injective _ _ hargv
  · intro k w w' hw
    exact List.append_cancel_right (Slot.block.inj hw)
  · exact fun k _ w => nofun

/-- The commands of a line are those of its pieces. -/
theorem parsesTo_iff {l : CommandLine} {cmds : List (List (List Byte))} :
    ParsesTo l cmds ↔ cutPieces 0 (l.bytes.splitOn bar) = some cmds := by
  constructor
  · intro h
    have hparse := h cleared []
    rw [parseCmdline_eq] at hparse
    obtain ⟨cmds', hcut, hstore⟩ := Option.map_eq_some_iff.mp hparse
    have hfree : ∀ n, 0 ≤ n → ∀ ws, argvSlot cleared n ws ≠ cleared.cmdArray n := by
      intro n _ ws he
      change Slot.block _ = Slot.null at he
      cases he
    rw [hcut, storeFrom_injective argvSlot_cleared_injective hfree hstore]
  · intro hcut h rest
    rw [parseCmdline_eq, hcut]
    rfl

/-- The spaces around '|' do not matter when no command is empty, and when the first characters
behind the '|', which are passed over, are spaces in both lines or in neither. -/
theorem sameCommands_iff {l l' : CommandLine} (h : SpacedAlike l l') :
    SameCommands l l' ↔ SpacedSafely l l' := by
  have hwords := map_words_of_eqvGen h
  obtain ⟨g, gs, hg⟩ := List.exists_cons_of_ne_nil (List.splitOn_ne_nil bar l.bytes)
  obtain ⟨g', gs', hg'⟩ := List.exists_cons_of_ne_nil (List.splitOn_ne_nil bar l'.bytes)
  rw [hg, hg'] at hwords
  obtain ⟨hfirst, hrest⟩ := List.cons.inj hwords
  have hcut : ∀ g gs, cutPieces 0 (g :: gs) = (cutPieces 1 gs).map (words space g :: ·) :=
    fun g gs => if_pos (Nat.zero_le _)
  have hboth : SameCommands l l' ↔
      ∃ cmds, cutPieces 1 gs = some cmds ∧ cutPieces 1 gs' = some cmds := by
    unfold SameCommands
    simp only [parsesTo_iff]
    rw [hg, hg', hcut, hcut, exists_map_cons_iff]
    exact and_iff_right hfirst
  rw [hboth, cutPieces_eq_iff hrest, ← afterBars_eq hg, ← afterBars_eq hg']
  constructor
  · rintro ⟨hl, hr, hs⟩
    exact ⟨hl, hr, hs⟩
  · intro hsafe
    exact ⟨hsafe.left, hsafe.right, hsafe.same⟩

section Lines

/-- A line of less than ten characters. -/
def shortLine (bytes : List Byte) (h0 : 0 ∉ bytes) (hlen : bytes.length < 10) : CommandLine where
  bytes := bytes
  zero_notMem := h0
  length_lt := hlen.trans (by decide)

/-- The line `a|b`. -/
def unspaced : CommandLine := shortLine [0x61, bar, 0x62] (by decide) (by decide)

/-- The line `a| b`. -/
def spacedBehind : CommandLine := shortLine [0x61, bar, space, 0x62] (by decide) (by decide)

/-- The line `a | b`. -/
def spacedAround : CommandLine := shortLine [0x61, space, bar, space, 0x62] (by decide) (by decide)

theorem spaced_lines_same : SameCommands spacedBehind spacedAround :=
  (sameCommands_iff (Relation.EqvGen.rel _ _ (.before [0x61] [space, 0x62]))).mpr
    ⟨by decide, by decide, by decide⟩

/-- The command behind the '|' is lost. -/
theorem unspaced_line_differs :
    SpacedAlike unspaced spacedBehind ∧ ¬ SameCommands unspaced spacedBehind := by
  refine ⟨Relation.EqvGen.rel _ _ (.behind [0x61] [0x62]), ?_⟩
  rintro ⟨cmds, hl, hr⟩
  have hlost : cutPieces 0 (unspaced.bytes.splitOn bar) = some [[[0x61]], []] := by decide
  have hkept : cutPieces 0 (spacedBehind.bytes.splitOn bar) = some [[[0x61]], [[0x62]]] := by decide
  rw [parsesTo_iff, hlost] at hl
  rw [parsesTo_iff, hkept] at hr
  exact absurd (hl.trans hr.symm) (by decide)

end Lines

end OsTasks.Shell

import OsTasks.Shell.ParserWords

/-! What `parse_cmdline` makes of a line in which spaces separate tokens and " | " commands. -/
namespace OsTasks.Shell
open OsTasks.Lib

structure Word where
  bytes : List Byte
  ne_nil : bytes ≠ []
  plain : ∀ b ∈ bytes, b ≠ space ∧ b ≠ bar ∧ b ≠ newline ∧ b ≠ 0

structure WordCommand where
  words : List Word
  ne_nil : words ≠ []

def wordsText (words : List Word) : List Byte := [space].intercalate (words.map Word.bytes)

def lineText (cmds : List WordCommand) : List Byte :=
  [space, bar, space].intercalate (cmds.map fun c => wordsText c.words)

/-- The block that `parse_cmd` makes for a token. -/
def tokenBlock (_ : ℕ) (w : Word) : Slot (List Byte) := .block (w.bytes ++ [0])

theorem wordsText_cons_cons (w v : Word) (l : List Word) :
    wordsText (w :: v :: l) = w.bytes ++ space :: wordsText (v :: l) := by
  unfold wordsText
  rw [List.map_cons, List.map_cons, List.intercalate_cons_cons, List.append_assoc]
  rfl

theorem wordsText_singleton (w : Word) : wordsText [w] = w.bytes := List.intercalate_singleton

theorem lineText_cons_cons (c d : WordCommand) (l : List WordCommand) :
    lineText (c :: d :: l) =
      wordsText c.words ++ ([space] ++ bar :: space :: lineText (d :: l)) := by
  unfold lineText
  rw [List.map_cons, List.map_cons, List.intercalate_cons_cons, List.append_assoc]
  rfl

theorem lineText_singleton (c : WordCommand) : lineText [c] = wordsText c.words :=
  List.intercalate_singleton

/-- A command's text has no '|' and no NUL. -/
theorem plain_wordsText (words : List Word) : ∀ b ∈ wordsText words, b ≠ bar ∧ b ≠ 0 := by
  induction words with
  | nil => intro b hb; cases hb
  | cons w l ih =>
    have hw : ∀ b ∈ w.bytes, b ≠ bar ∧ b ≠ 0 := fun b hb => ⟨(w.plain b hb).2.1, (w.plain b hb).2.2.2⟩
    cases l with
    | nil =>
      rw [wordsText_singleton]
      exact hw
    | cons v l =>
      rw [wordsText_cons_cons]
      intro b hb
      rcases List.mem_append.mp hb with hb | hb
      · exact hw b hb
      · rcases List.mem_cons.mp hb with rfl | hb
        · exact ⟨by decide, by decide⟩
        · exact ih b hb

/-- The argument array of the command that becomes number `n`. -/
def commandBlock (h : Malloc) (n : ℕ) (c : WordCommand) : Slot Argv :=
  .block (storeFrom tokenBlock (h.argv n) 0 c.words)

theorem words_wordsText (l : List Word) : words space (wordsText l) = l.map Word.bytes := by
  induction l with
  | nil => rfl
  | cons w l ih =>
    have hspace : space ∉ w.bytes := fun h => (w.plain space h).1 rfl
    cases l with
    | nil =>
      rw [wordsText_singleton]
      exact words_of_notMem w.ne_nil hspace
    | cons v l =>
      rw [wordsText_cons_cons, words_append_cons w.ne_nil hspace, ih]
      rfl

/-- The pieces of a line between '|', of which the first one has `k` spaces in front. -/
def linePieces : ℕ → WordCommand → List WordCommand → List (List Byte)
  | k, c, [] => [List.replicate k space ++ wordsText c.words]
  | k, c, d :: cs => (List.replicate k space ++ (wordsText c.words ++ [space])) :: linePieces 1 d cs

theorem intercalate_linePieces (k : ℕ) (c : WordCommand) (cs : List WordCommand) :
    [bar].intercalate (linePieces k c cs) = List.replicate k space ++ lineText (c :: cs) := by
  induction cs generalizing k c with
  | nil => rw [linePieces, List.intercalate_singleton, lineText_singleton]
  | cons d cs ih =>
    obtain ⟨p, ps, hp⟩ : ∃ p ps, linePieces 1 d cs = p :: ps := by
      cases cs <;> exact ⟨_, _, rfl⟩
    rw [linePieces, hp, List.intercalate_cons_cons, ← hp, ih, lineText_cons_cons]
    simp only [List.append_assoc]
    rfl

theorem plain_linePieces (k : ℕ) (c : WordCommand) (cs : List WordCommand) :
    ∀ p ∈ linePieces k c cs, ∀ b ∈ p, b ≠ bar ∧ b ≠ 0 := by
  have hspace : space ≠ bar ∧ space ≠ 0 := by decide
  have hfront : ∀ b ∈ List.replicate k space, b ≠ bar ∧ b ≠ 0 := by
    intro b hb
    rw [List.eq_of_mem_replicate hb]
    exact hspace
  have htext := plain_wordsText c.words
  induction cs generalizing k c with
  | nil => exact List.forall_mem_singleton.mpr (List.forall_mem_append.mpr ⟨hfront, htext⟩)
  | cons d cs ih =>
    refine List.forall_mem_cons.mpr ⟨?_, ih 1 d ?_ (plain_wordsText d.words)⟩
    · have hend : ∀ b ∈ [space], b ≠ bar ∧ b ≠ 0 := List.forall_mem_singleton.mpr hspace
      exact List.forall_mem_append.mpr ⟨hfront, List.forall_mem_append.mpr ⟨htext, hend⟩⟩
    · exact List.forall_mem_singleton.mpr hspace

theorem cutPieces_linePieces (k : ℕ) (c : WordCommand) (cs : List WordCommand) :
    cutPieces k (linePieces k c cs) =
      some ((c :: cs).map fun c => c.words.map Word.bytes) := by
  have hdrop : ∀ (k : ℕ) (t : List Byte), (List.replicate k space ++ t).drop k = t := by
    intro k t
    rw [List.drop_append_of_le_length (by simp), List.drop_eq_nil_of_le (by simp),
      List.nil_append]
  induction cs generalizing k c with
  | nil =>
    rw [linePieces, cutPieces, if_pos (by simp), hdrop, words_wordsText]
    rfl
  | cons d cs ih =>
    rw [linePieces, cutPieces, if_pos (by simp), hdrop, words_concat_delim, words_wordsText, ih]
    rfl

theorem argvSlot_words (h : Malloc) (n : ℕ) (c : WordCommand) :
    argvSlot h n (c.words.map Word.bytes) = commandBlock h n c :=
  congrArg Slot.block (storeFrom_map Word.bytes (h.argv n) 0 c.words)

/-- The array that `parse_cmdline` leaves for a line of commands. -/
theorem parseCmdline_lineText (h : Malloc) (c : WordCommand) (cs : List WordCommand)
    (hlen : (lineText (c :: cs)).length < maxStrLen) (rest : List Byte) :
    parseCmdline h (lineText (c :: cs) ++ 0 :: rest) =
      some (storeFrom (commandBlock h) h.cmdArray 0 (c :: cs)) := by
  have hline : [bar].intercalate (linePieces 0 c cs) = lineText (c :: cs) :=
    intercalate_linePieces 0 c cs
  obtain ⟨p, ps, hp⟩ : ∃ p ps, linePieces 0 c cs = p :: ps := by
    cases cs <;> exact ⟨_, _, rfl⟩
  have hvalue : (fun n c => argvSlot h n (c.words.map Word.bytes)) = commandBlock h := by
    funext n c
    exact argvSlot_words h n c
  have hparse : (parseFrom h (lineText (c :: cs) ++ 0 :: rest) 0
      ([bar].intercalate (p :: ps) ++ 0 :: rest) ⟨h.cmdArray, 0, 0⟩).map Parse.cmdArray =
        (cutPieces 0 (p :: ps)).map (storeFrom (argvSlot h) h.cmdArray 0) :=
    parseFrom_pieces (hp ▸ plain_linePieces 0 c cs) rfl (by rw [← hp, hline]; rfl)
      (by rw [← hp, hline, Nat.zero_add]; exact hlen) le_rfl
  rw [← hp, hline, cutPieces_linePieces, Option.map_some, storeFrom_map, hvalue] at hparse
  exact hparse

/-- The commands of a line are read back, each with its tokens. -/
theorem parse_cmdline_round_trip (h : Malloc) {cmds : List WordCommand} (hne : cmds ≠ [])
    (hlen : (lineText cmds ++ [0]).length ≤ maxStrLen) (rest : List Byte) :
    ∃ arr, parseCmdline h (lineText cmds ++ 0 :: rest) = some arr ∧
      ∀ i (hi : i < cmds.length), ∃ argv, arr i = .block argv ∧
        ∀ j (hj : j < cmds[i].words.length),
          argv j = .block (cmds[i].words[j].bytes ++ [0]) := by
  obtain ⟨c, cs, rfl⟩ := List.exists_cons_of_ne_nil hne
  rw [List.length_append, List.length_singleton] at hlen
  have hparse := parseCmdline_lineText h c cs (by omega) rest
  refine ⟨_, hparse, ?_⟩
  intro i hi
  have harr : storeFrom (commandBlock h) h.cmdArray 0 (c :: cs) (0 + i) = _ :=
    storeFrom_get _ _ _ hi
  rw [Nat.zero_add] at harr
  refine ⟨_, harr, ?_⟩
  intro j hj
  have hargv : storeFrom tokenBlock (h.argv i) 0 (c :: cs)[i].words (0 + j) = _ :=
    storeFrom_get _ _ _ hj
  rw [Nat.zero_add] at hargv
  exact hargv

/-- Blocks of NULs and NULL pointers. -/
def cleared : Malloc where
  cmdArray := fun _ => .null
  text := fun _ => List.replicate maxStrLen 0
  length_text := fun _ => List.length_replicate
  argv := fun _ _ => .null

/-- A command of one token of two characters. -/
def oneWord (b c : Byte) (hb : b ≠ space ∧ b ≠ bar ∧ b ≠ newline ∧ b ≠ 0)
    (hc : c ≠ space ∧ c ≠ bar ∧ c ≠ newline ∧ c ≠ 0) : WordCommand where
  words := [⟨[b, c], List.cons_ne_nil _ _,
    List.forall_mem_cons.mpr ⟨hb, List.forall_mem_singleton.mpr hc⟩⟩]
  ne_nil := List.cons_ne_nil _ _

/-- The line `ls | wc`. -/
theorem parse_ls_wc :
    ∃ arr, parseCmdline cleared ([0x6c, 0x73, space, bar, space, 0x77, 0x63] ++ 0 :: []) = some arr ∧
      (∃ argv, arr 0 = .block argv ∧ argv 0 = .block [0x6c, 0x73, 0]) ∧
      ∃ argv, arr 1 = .block argv ∧ argv 0 = .block [0x77, 0x63, 0] := by
  let ls : WordCommand := oneWord 0x6c 0x73 (by decide) (by decide)
  let wc : WordCommand := oneWord 0x77 0x63 (by decide) (by decide)
  obtain ⟨arr, hparse, harr⟩ := parse_cmdline_round_trip cleared (List.cons_ne_nil ls [wc])
    (by decide) []
  obtain ⟨argv, hls, htokens⟩ := harr 0 (by decide)
  obtain ⟨argv', hwc, htokens'⟩ := harr 1 (by decide)
  exact ⟨arr, hparse, ⟨argv, hls, htokens 0 (by decide)⟩, ⟨argv', hwc, htokens' 0 (by decide)⟩⟩

end OsTasks.Shell

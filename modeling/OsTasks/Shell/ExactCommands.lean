import OsTasks.Shell.Spacing

/-! What `seq_pipe` finds in the array of `parse_cmdline`, whose entries behind the last command are
those that `malloc` left there. -/
namespace OsTasks.Shell
open OsTasks.Lib

def Slot.isNull {α : Type} : Slot α → Bool
  | .null => true
  | _ => false

/-- What `execvp` reads of an argument array from its `i`-th entry on, of which the block has `n`
more. There is no string at an address that `malloc` left there. -/
def tokensFrom (a : Argv) : ℕ → ℕ → Option (List (List Byte))
  | 0, _ => none
  | n + 1, i =>
    match a i with
    | .null => some []
    | .wild => none
    | .block m => if 0 ∈ m then (tokensFrom a n (i + 1)).map (cstr m :: ·) else none

/-- An iteration of `seq_pipe`: the arguments of `execvp`, and the test `cmd[i+1] != NULL`. -/
structure Exec where
  args : List (List Byte)
  following : Bool
  deriving DecidableEq

/-- The loop of `seq_pipe` from its `i`-th iteration on, where the block of `cmd` has `n` more
entries. -/
def execsFrom (cmd : CmdArray) : ℕ → ℕ → Option (List Exec)
  | 0, _ => none
  | n + 1, i =>
    match cmd i with
    | .null => some []
    | .wild => none
    | .block a =>
      (tokensFrom a maxNumOfTokens 0).bind fun args =>
        (execsFrom cmd n (i + 1)).map (⟨args, !(cmd (i + 1)).isNull⟩ :: ·)

def execs (cmd : CmdArray) : Option (List Exec) := execsFrom cmd maxNumOfCmd 0

/-- One iteration a command, each but the last with another one behind it. -/
def pipelineExecs : List (List (List Byte)) → List Exec
  | [] => []
  | c :: cs => ⟨c, !cs.isEmpty⟩ :: pipelineExecs cs

/-- NULL stands behind the last of the commands and behind the last token of each. -/
structure Terminated (cmds : List (List (List Byte))) (arr : CmdArray) : Prop where
  commands : arr cmds.length = .null
  tokens : ∀ n (hn : n < cmds.length), ∃ a, arr n = .block a ∧ a cmds[n].length = .null

/-- The array that results from the line is terminated, and `seq_pipe` runs the line's commands. -/
def RunsExactly (h : Malloc) (l : CommandLine) (rest : List Byte) : Prop :=
  ∃ cmds arr, ParsesTo l cmds ∧ parseCmdline h (l.bytes ++ 0 :: rest) = some arr ∧
    Terminated cmds arr ∧ execs arr = some (pipelineExecs cmds)

/-- The texts of the commands: what lies between two '|', without the first character behind the
left one. -/
def commandTexts (l : CommandLine) : List (List Byte) :=
  match l.bytes.splitOn bar with
  | [] => []
  | g :: gs => g :: gs.map List.tail

/-- Another character follows each '|', and `malloc` returned NULL where the pointers of the line
end. -/
structure NullBehind (h : Malloc) (l : CommandLine) : Prop where
  separated : none ∉ afterBars l
  commands : h.cmdArray (commandTexts l).length = .null
  tokens : ∀ n (hn : n < (commandTexts l).length),
    h.argv n (words space (commandTexts l)[n]).length = .null

section Read

theorem tokensFrom_of_terminated {a : Argv} {ws : List (List Byte)} {i n : ℕ}
    (hword : ∀ w ∈ ws, 0 ∉ w) (hget : ∀ j (hj : j < ws.length), a (i + j) = .block (ws[j] ++ [0]))
    (hend : a (i + ws.length) = .null) (hn : ws.length < n) : tokensFrom a n i = some ws := by
  induction ws generalizing i n with
  | nil =>
    obtain ⟨n, rfl⟩ := Nat.exists_eq_succ_of_ne_zero (Nat.ne_of_gt hn)
    have hnull : a i = .null := hend
    unfold tokensFrom
    rw [hnull]
  | cons w ws ih =>
    obtain ⟨n, rfl⟩ := Nat.exists_eq_succ_of_ne_zero (Nat.ne_of_gt ((Nat.zero_le _).trans_lt hn))
    have hfirst : a i = .block (w ++ [0]) := hget 0 (Nat.zero_lt_succ _)
    have htext : cstr (w ++ [0]) = w := by
      rw [cstr_append_zero, (cstr_eq_self_iff w).mpr (hword w List.mem_cons_self)]
    have hrest : tokensFrom a n (i + 1) = some ws := by
      apply ih (fun v hv => hword v (List.mem_cons_of_mem _ hv))
      · intro j hj
        have hnext := hget (j + 1) (Nat.succ_lt_succ hj)
        rw [Nat.add_assoc, Nat.add_comm 1 j, hnext]
        rfl
      · rw [Nat.add_assoc, Nat.add_comm 1]
        exact hend
      · exact Nat.lt_of_succ_lt_succ hn
    unfold tokensFrom
    rw [hfirst]
    dsimp only
    rw [if_pos (by simp), hrest, htext, Option.map_some]

theorem execsFrom_of_terminated {arr : CmdArray} {cmds : List (List (List Byte))} {i n : ℕ}
    (hget : ∀ j (hj : j < cmds.length), ∃ a, arr (i + j) = .block a ∧
      tokensFrom a maxNumOfTokens 0 = some cmds[j])
    (hend : arr (i + cmds.length) = .null) (hn : cmds.length < n) :
    execsFrom arr n i = some (pipelineExecs cmds) := by
  induction cmds generalizing i n with
  | nil =>
    obtain ⟨n, rfl⟩ := Nat.exists_eq_succ_of_ne_zero (Nat.ne_of_gt hn)
    have hnull : arr i = .null := hend
    unfold execsFrom
    rw [hnull]
    rfl
  | cons c cs ih =>
    obtain ⟨n, rfl⟩ := Nat.exists_eq_succ_of_ne_zero (Nat.ne_of_gt ((Nat.zero_le _).trans_lt hn))
    obtain ⟨a, hfirst, hargs⟩ := hget 0 (Nat.zero_lt_succ _)
    have hfirst : arr i = .block a := hfirst
    have hgetRest : ∀ j (hj : j < cs.length), ∃ a, arr (i + 1 + j) = .block a ∧
        tokensFrom a maxNumOfTokens 0 = some cs[j] := by
      intro j hj
      rw [Nat.add_assoc, Nat.add_comm 1 j]
      exact hget (j + 1) (Nat.succ_lt_succ hj)
    have hendRest : arr (i + 1 + cs.length) = .null := by
      rw [Nat.add_assoc, Nat.add_comm 1]
      exact hend
    have hrest : execsFrom arr n (i + 1) = some (pipelineExecs cs) :=
      ih hgetRest hendRest (Nat.lt_of_succ_lt_succ hn)
    -- the test for a following command reads the entry that the next iteration begins with
    have hfollowing : (!(arr (i + 1)).isNull) = !cs.isEmpty := by
      cases cs with
      | nil =>
        have hnull : arr (i + 1) = .null := hendRest
        rw [hnull]
        rfl
      | cons d cs =>
        obtain ⟨b, hsecond, _⟩ := hgetRest 0 (Nat.zero_lt_succ _)
        have hsecond : arr (i + 1) = .block b := hsecond
        rw [hsecond]
        rfl
    unfold execsFrom
    rw [hfirst]
    dsimp only
    rw [hargs, Option.bind_some, hrest, hfollowing]
    rfl

theorem storeFrom_of_ge {α β : Type} {value : ℕ → α → β} (a : ℕ → β) {i k : ℕ} (l : List α)
    (hk : i + l.length ≤ k) : storeFrom value a i l k = a k := by
  induction l generalizing a i with
  | nil => rfl
  | cons x l ih =>
    rw [List.length_cons] at hk
    unfold storeFrom
    rw [ih _ (by omega), Function.update_of_ne (by omega)]

end Read

section Texts
variable {l : CommandLine}

theorem mem_of_mem_words {t w : List Byte} {b : Byte} (hw : w ∈ words space t) (hb : b ∈ w) :
    b ∈ t := by
  have hflat : b ∈ (words space t).flatten := List.mem_flatten.mpr ⟨w, hw, hb⟩
  rw [flatten_words] at hflat
  exact List.mem_of_mem_filter hflat

theorem cutPieces_one_eq (gs : List (List Byte)) :
    cutPieces 1 gs = if none ∉ gs.map List.head? then some ((gs.map List.tail).map (words space))
      else none := by
  induction gs with
  | nil => rfl
  | cons g gs ih =>
    cases g with
    | nil => simp [cutPieces]
    | cons b g =>
      unfold cutPieces
      rw [if_pos (by simp), ih]
      by_cases hgs : none ∈ gs.map List.head?
      · simp [hgs]
      · simp [hgs]

theorem commandTexts_eq {g : List Byte} {gs : List (List Byte)}
    (hline : l.bytes.splitOn bar = g :: gs) : commandTexts l = g :: gs.map List.tail := by
  unfold commandTexts
  rw [hline]

theorem parsesTo_iff_commandTexts {cmds : List (List (List Byte))} :
    ParsesTo l cmds ↔ none ∉ afterBars l ∧ cmds = (commandTexts l).map (words space) := by
  obtain ⟨g, gs, hline⟩ := List.exists_cons_of_ne_nil (List.splitOn_ne_nil bar l.bytes)
  have hcut : cutPieces 0 (g :: gs) = (cutPieces 1 gs).map (words space g :: ·) :=
    if_pos (Nat.zero_le _)
  rw [parsesTo_iff, hline, hcut, cutPieces_one_eq, afterBars_eq hline, commandTexts_eq hline]
  by_cases hgs : none ∈ gs.map List.head?
  · simp [hgs]
  · simp [hgs, eq_comm]

theorem mem_bytes_of_mem_commandTexts {t : List Byte} (ht : t ∈ commandTexts l) :
    ∀ b ∈ t, b ∈ l.bytes := by
  obtain ⟨g, gs, hline⟩ := List.exists_cons_of_ne_nil (List.splitOn_ne_nil bar l.bytes)
  have hpiece : ∀ p ∈ g :: gs, ∀ b ∈ p, b ∈ l.bytes := by
    intro p hp b hb
    exact (mem_of_mem_splitOn (hline ▸ hp) b hb).2
  rw [commandTexts_eq hline] at ht
  rcases List.mem_cons.mp ht with rfl | ht
  · exact hpiece t List.mem_cons_self
  · obtain ⟨p, hp, rfl⟩ := List.mem_map.mp ht
    exact fun b hb => hpiece p (List.mem_cons_of_mem _ hp) b (List.mem_of_mem_tail hb)

theorem length_le_of_mem_commandTexts {t : List Byte} (ht : t ∈ commandTexts l) :
    t.length ≤ l.bytes.length := by
  obtain ⟨g, gs, hline⟩ := List.exists_cons_of_ne_nil (List.splitOn_ne_nil bar l.bytes)
  have hpiece : ∀ p ∈ g :: gs, p.length ≤ l.bytes.length := by
    intro p hp
    have hsum := sum_length_splitOn bar l.bytes
    rw [hline] at hsum
    have hle := List.le_sum_of_mem (List.mem_map_of_mem (f := fun p => p.length + 1) hp)
    omega
  rw [commandTexts_eq hline] at ht
  rcases List.mem_cons.mp ht with rfl | ht
  · exact hpiece t List.mem_cons_self
  · obtain ⟨p, hp, rfl⟩ := List.mem_map.mp ht
    have hle := hpiece p (List.mem_cons_of_mem _ hp)
    rw [List.length_tail]
    omega

theorem length_commandTexts_lt (h : none ∉ afterBars l) :
    (commandTexts l).length < maxNumOfCmd := by
  obtain ⟨g, gs, hline⟩ := List.exists_cons_of_ne_nil (List.splitOn_ne_nil bar l.bytes)
  rw [afterBars_eq hline] at h
  have htwo : ∀ k ∈ gs.map fun p => p.length + 1, 2 ≤ k := by
    intro k hk
    obtain ⟨p, hp, rfl⟩ := List.mem_map.mp hk
    cases p with
    | nil => exact absurd (List.mem_map.mpr ⟨[], hp, rfl⟩) h
    | cons b p => simp
  have hsum := sum_length_splitOn bar l.bytes
  have hlow := List.card_nsmul_le_sum _ 2 htwo
  have hlen := l.length_lt
  rw [hline, List.map_cons, List.sum_cons] at hsum
  rw [List.length_map, smul_eq_mul] at hlow
  rw [commandTexts_eq hline, List.length_cons, List.length_map]
  change gs.length + 1 < 2097152
  change l.bytes.length < 2097152 at hlen
  omega

end Texts

section Stored
variable {h : Malloc} {l : CommandLine} {cmds : List (List (List Byte))}

theorem stored_get {n : ℕ} (hn : n < cmds.length) :
    storeFrom (argvSlot h) h.cmdArray 0 cmds n = argvSlot h n cmds[n] := by
  have hget : storeFrom (argvSlot h) h.cmdArray 0 cmds (0 + n) = argvSlot h (0 + n) cmds[n] :=
    storeFrom_get h.cmdArray 0 cmds hn
  rw [Nat.zero_add] at hget
  exact hget

theorem stored_end {α β : Type} (value : ℕ → α → β) (a : ℕ → β) (xs : List α) :
    storeFrom value a 0 xs xs.length = a xs.length :=
  storeFrom_of_ge a xs (Nat.zero_add _).le

/-- NULL is where `malloc` left it. -/
theorem terminated_iff :
    Terminated cmds (storeFrom (argvSlot h) h.cmdArray 0 cmds) ↔
      h.cmdArray cmds.length = .null ∧
        ∀ n (hn : n < cmds.length), h.argv n cmds[n].length = .null := by
  constructor
  · intro hterm
    have hcommands := hterm.commands
    rw [stored_end] at hcommands
    refine ⟨hcommands, ?_⟩
    intro n hn
    obtain ⟨a, ha, hend⟩ := hterm.tokens n hn
    rw [stored_get hn] at ha
    rw [← Slot.block.inj ha, stored_end] at hend
    exact hend
  · rintro ⟨hcommands, htokens⟩
    refine ⟨?_, ?_⟩
    · rw [stored_end]
      exact hcommands
    · intro n hn
      refine ⟨_, stored_get hn, ?_⟩
      rw [stored_end]
      exact htokens n hn

theorem execs_of_nullBehind (hnull : NullBehind h l) :
    execs (storeFrom (argvSlot h) h.cmdArray 0 ((commandTexts l).map (words space))) =
      some (pipelineExecs ((commandTexts l).map (words space))) := by
  apply execsFrom_of_terminated
  · intro n hn
    rw [Nat.zero_add]
    refine ⟨_, stored_get hn, ?_⟩
    have hn' : n < (commandTexts l).length := by rwa [List.length_map] at hn
    have hmem : (commandTexts l)[n] ∈ commandTexts l := List.getElem_mem hn'
    rw [List.getElem_map]
    apply tokensFrom_of_terminated
    · intro w hw hz
      exact l.zero_notMem (mem_bytes_of_mem_commandTexts hmem 0 (mem_of_mem_words hw hz))
    · exact fun j hj => storeFrom_get (h.argv n) 0 _ hj
    · rw [Nat.zero_add, stored_end]
      exact hnull.tokens n hn'
    · have hwords := words_length_le space (commandTexts l)[n]
      have htext := length_le_of_mem_commandTexts hmem
      exact (hwords.trans htext).trans_lt l.length_lt
  · rw [Nat.zero_add, stored_end, List.length_map]
    exact hnull.commands
  · rw [List.length_map]
    exact length_commandTexts_lt hnull.separated

end Stored

/-- Exactly the commands of a line are run when another character follows each '|', and `malloc`
returned NULL in all the entries that are never stored but are read. -/
theorem runsExactly_iff (h : Malloc) (l : CommandLine) (rest : List Byte) :
    RunsExactly h l rest ↔ NullBehind h l := by
  constructor
  · rintro ⟨cmds, arr, hcmds, hparse, hterm, _⟩
    have hstored := hcmds h rest
    obtain ⟨hafter, rfl⟩ := parsesTo_iff_commandTexts.mp hcmds
    obtain rfl := Option.some.inj (hparse.symm.trans hstored)
    obtain ⟨hcommands, htokens⟩ := terminated_iff.mp hterm
    refine ⟨hafter, ?_, ?_⟩
    · rw [List.length_map] at hcommands
      exact hcommands
    · intro n hn
      have hnull := htokens n (by rw [List.length_map]; exact hn)
      rw [List.getElem_map] at hnull
      exact hnull
  · intro hnull
    have hcmds := parsesTo_iff_commandTexts.mpr ⟨hnull.separated, rfl⟩
    refine ⟨_, _, hcmds, hcmds h rest, ?_, execs_of_nullBehind hnull⟩
    apply terminated_iff.mpr
    refine ⟨?_, ?_⟩
    · rw [List.length_map]
      exact hnull.commands
    · intro n hn
      rw [List.getElem_map]
      exact hnull.tokens n (by rwa [List.length_map] at hn)

/-- The blocks of `cleared`, but for one pointer that an earlier line left behind the first entry
of the array. -/
def reused : Malloc := { cleared with cmdArray := Function.update cleared.cmdArray 1 .wild }

/-- The line `a`. -/
def oneCommand : CommandLine := shortLine [0x61] (by decide) (by decide)

/-- The array has no end behind its one command. -/
theorem reused_array_not_terminated : ¬ RunsExactly reused oneCommand [] := by
  rintro ⟨cmds, arr, hcmds, hparse, hterm, _⟩
  obtain ⟨_, hone⟩ := parsesTo_iff_commandTexts.mp hcmds
  have hlen : cmds.length = 1 := congrArg List.length hone
  obtain rfl := Option.some.inj (hparse.symm.trans (hcmds reused []))
  obtain ⟨hnull, _⟩ := terminated_iff.mp hterm
  rw [hlen] at hnull
  cases hnull

end OsTasks.Shell

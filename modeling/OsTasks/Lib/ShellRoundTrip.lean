import OsTasks.Lib.ShellWords

/-! A command written out without quotes is read back as itself if and only if every word of it is
plain. -/
namespace OsTasks.Lib.Sh

def metacharacters : List Byte :=
  [0, 0x20, 0x09, 0x0a, 0x27, 0x22, 0x5c] ++ ascii "$`" ++ opBytes

/-- The bytes that are part of a word and stand for themselves. -/
def ordinary (b : Byte) : Bool := b ∉ metacharacters

/-- A text that is one word. -/
structure IsWord (s : List Byte) : Prop where
  ne_nil : s ≠ []
  ordinary : ∀ b ∈ s, ordinary b = true
  no_comment : s.head? ≠ some 0x23

structure Redirect.Plain (r : Redirect) : Prop where
  io : ∀ b ∈ r.io, isDigit b = true
  op : r.op ∈ redirections
  target : IsWord r.target
  no_home : r.target.head? ≠ some 0x7e

structure IsArgument (a : List Byte) : Prop where
  word : IsWord a
  no_home : a.head? ≠ some 0x7e
  literal : literalPath a = true

structure Command.Plain (c : Command) : Prop where
  named : c.named = true
  args : ∀ a ∈ c.args, IsArgument a
  redirects : ∀ r ∈ c.redirects, r.Plain

def unquoted (s : List Byte) : Word := s.map fun b => (b, false)

def Redirect.tokens (r : Redirect) : List Token :=
  (if r.io = [] then [] else [.ioNumber r.io]) ++ [.op r.op, .word (unquoted r.target)]

section Words
variable {a s : List Byte} {b : Byte} {cur : Current}

@[simp] theorem text_unquoted (s : List Byte) : (unquoted s).text = s := by
  simp [unquoted, Word.text, Function.comp_def]

theorem pattern_unquoted (s : List Byte) : (unquoted s).pattern = s := by
  unfold Word.pattern unquoted
  rw [List.flatMap_map]
  simp

theorem hasTilde_unquoted : (unquoted s).hasTilde = false ↔ s.head? ≠ some 0x7e := by
  have hall : ((unquoted s).takeWhile fun c => c.1 ≠ 0x2f).all (fun c => !c.2) = true := by
    rw [List.all_eq_true]
    intro c hc
    obtain ⟨b, _, rfl⟩ := List.mem_map.mp ((List.takeWhile_sublist _).subset hc)
    rfl
  have hhead : (unquoted s).head? = some (0x7e, false) ↔ s.head? = some 0x7e := by
    cases s <;> simp [unquoted]
  unfold Word.hasTilde
  rw [hall, decide_eq_false_iff_not, hhead]
  simp

theorem argument_unquoted :
    (unquoted s).argument = some a ↔ a = s ∧ s.head? ≠ some 0x7e ∧ literalPath s = true := by
  unfold Word.argument
  rw [Option.ite_none_right_eq_some, hasTilde_unquoted, pattern_unquoted, text_unquoted,
    Option.some.injEq, and_comm, eq_comm]

theorem target_unquoted : (unquoted s).target = some a ↔ a = s ∧ s.head? ≠ some 0x7e := by
  unfold Word.target
  rw [Option.ite_none_right_eq_some, hasTilde_unquoted, text_unquoted, Option.some.injEq,
    and_comm, eq_comm]

theorem lexFrom_cons (mode : Mode) : lexFrom mode cur (b :: s) =
    (step mode cur b).bind fun r => (lexFrom r.2.1 r.2.2 s).map (r.1 ++ ·) := rfl

theorem ordinary_iff : ordinary b = true ↔ b ≠ 0 ∧ b ∉ ascii "$`" ∧ b ≠ 0x5c ∧ isBlank b = false ∧
    b ≠ 0x0a ∧ b ∉ opBytes ∧ b ≠ 0x27 ∧ b ≠ 0x22 := by
  simp [ordinary, metacharacters, isBlank]
  tauto

/-- An ordinary byte is part of a word. Only where one begins is a hash mark not ordinary. -/
theorem plainStep_ordinary (cur : Current) (hb : ordinary b = true)
    (hcur : cur.extendedBy b = none) (hcomment : b = 0x23 → cur.isWord = true) :
    plainStep cur b = some (cur.endOp, .plain, .word (cur.begun ++ [(b, false)])) := by
  obtain ⟨h0, hdollar, hescape, hblank, hline, hop, hsingle, hdouble⟩ := ordinary_iff.mp hb
  have hhash : ¬ (b = 0x23 ∧ cur.isWord = false) := fun h => by
    rw [hcomment h.1] at h
    cases h.2
  unfold plainStep
  rw [hcur]
  simp only [h0, hdollar, hescape, hblank, hline, hop, hhash, hsingle, hdouble, or_self, if_false,
    Bool.false_eq_true]

theorem plainStep_opByte (hb : b ∈ opBytes) (hcur : cur.extendedBy b = none) :
    plainStep cur b = some (cur.endAt b, .plain, .op [b]) := by
  have hcases : b ∈ [0x7c, 0x26, 0x3b, 0x3c, 0x3e, 0x28, 0x29] := hb
  have hother : b ≠ 0 ∧ b ∉ ascii "$`" ∧ b ≠ 0x5c ∧ isBlank b = false ∧ b ≠ 0x0a := by
    simp only [List.mem_cons, List.not_mem_nil, or_false] at hcases
    rcases hcases with rfl | rfl | rfl | rfl | rfl | rfl | rfl <;> decide
  obtain ⟨h0, hdollar, hescape, hblank, hline⟩ := hother
  unfold plainStep
  rw [hcur]
  simp only [h0, hdollar, hescape, hblank, hline, hb, or_self, if_false, if_true,
    Bool.false_eq_true]

theorem plainStep_blank (hb : isBlank b = true) (hcur : cur.extendedBy b = none) :
    plainStep cur b = some (cur.endAt b, .plain, .none) := by
  have hother : b ≠ 0 ∧ b ∉ ascii "$`" ∧ b ≠ 0x5c := by
    rcases (Bool.or_eq_true _ _).mp hb with h | h <;> rw [of_decide_eq_true h] <;> decide
  obtain ⟨h0, hdollar, hescape⟩ := hother
  unfold plainStep
  rw [hcur]
  simp only [h0, hdollar, hescape, hb, or_self, if_false, if_true]

end Words

section Text
variable {c : Command} {r : Redirect} {w s : List Byte}

theorem endAt_word {b : Byte} (hb : b ∉ ascii "<>") (u : Word) :
    (Current.word u).endAt b = [.word u] := by
  rw [Current.endAt, if_neg fun h => hb h.2.2]

theorem lexFrom_ordinary (hw : ∀ b ∈ w, ordinary b = true) (u : Word) (s : List Byte) :
    lexFrom .plain (.word u) (w ++ s) = lexFrom .plain (.word (u ++ unquoted w)) s := by
  induction w generalizing u with
  | nil => rw [List.nil_append, unquoted, List.map_nil, List.append_nil]
  | cons b w ih =>
    obtain ⟨hb, hrest⟩ := List.forall_mem_cons.mp hw
    have hstep : step .plain (.word u) b = some ([], .plain, .word (u ++ [(b, false)])) :=
      plainStep_ordinary (.word u) hb rfl fun _ => rfl
    have hassoc : u ++ [(b, false)] ++ unquoted w = u ++ unquoted (b :: w) :=
      List.append_assoc u [(b, false)] (unquoted w)
    rw [List.cons_append, lexFrom_cons, hstep, Option.bind_some, ih hrest, hassoc]
    exact Option.map_id_apply

theorem lexFrom_isWord (hw : IsWord w) (s : List Byte) :
    lexFrom .plain .none (w ++ s) = lexFrom .plain (.word (unquoted w)) s := by
  obtain ⟨b, w, rfl⟩ := List.exists_cons_of_ne_nil hw.ne_nil
  obtain ⟨hb, hrest⟩ := List.forall_mem_cons.mp hw.ordinary
  have hhash : b ≠ 0x23 := fun h => hw.no_comment (congrArg some h)
  have hstep : step .plain .none b = some ([], .plain, .word [(b, false)]) :=
    plainStep_ordinary .none hb rfl fun h => absurd h hhash
  rw [List.cons_append, lexFrom_cons, hstep, Option.bind_some, lexFrom_ordinary hrest]
  exact Option.map_id_apply

theorem lexFrom_blank (cur : Current) (hcur : cur.extendedBy 0x20 = none) (s : List Byte) :
    lexFrom .plain cur (0x20 :: s) = (lexFrom .plain .none s).map (cur.endAt 0x20 ++ ·) := by
  have hstep : step .plain cur 0x20 = some (cur.endAt 0x20, .plain, .none) :=
    plainStep_blank rfl hcur
  rw [lexFrom_cons, hstep, Option.bind_some]

theorem lexFrom_opByte {cur : Current} {b : Byte} (hb : b ∈ opBytes)
    (hcur : cur.extendedBy b = none) (s : List Byte) :
    lexFrom .plain cur (b :: s) = (lexFrom .plain (.op [b]) s).map (cur.endAt b ++ ·) := by
  have hstep : step .plain cur b = some (cur.endAt b, .plain, .op [b]) := plainStep_opByte hb hcur
  rw [lexFrom_cons, hstep, Option.bind_some]

theorem lexFrom_opMore {op : List Byte} {b : Byte} (h : op ++ [b] ∈ operators) (s : List Byte) :
    lexFrom .plain (.op op) (b :: s) = lexFrom .plain (.op (op ++ [b])) s := by
  have hstep : step .plain (.op op) b = some ([], .plain, .op (op ++ [b])) := by
    have hext : (Current.op op).extendedBy b = some (op ++ [b]) := if_pos h
    change plainStep (.op op) b = _
    unfold plainStep
    rw [hext]
  rw [lexFrom_cons, hstep, Option.bind_some]
  exact Option.map_id_apply

/-- An operator behind no word, or behind digits. -/
theorem lexFrom_redirection {op : List Byte} (h : op ∈ redirections) {cur : Current}
    (hcur : ∀ b, cur.extendedBy b = none) (s : List Byte) :
    lexFrom .plain cur (op ++ 0x20 :: s) =
      (lexFrom .plain .none s).map (cur.endAt 0x3c ++ .op op :: ·) := by
  have hsides : cur.endAt 0x3e = cur.endAt 0x3c := by
    have hleft : (0x3c : Byte) ∈ ascii "<>" := by decide
    have hright : (0x3e : Byte) ∈ ascii "<>" := by decide
    cases cur with
    | none => rfl
    | word w => simp only [Current.endAt, hleft, hright]
    | op op => rfl
  have hone : ∀ b, b ∈ opBytes → [b] ++ [0x20] ∉ operators →
      lexFrom .plain cur ([b] ++ 0x20 :: s) =
        (lexFrom .plain .none s).map (cur.endAt b ++ .op [b] :: ·) := by
    intro b hb hblank
    rw [List.singleton_append, lexFrom_opByte hb (hcur b), lexFrom_blank (.op _) (if_neg hblank),
      Option.map_map]
    rfl
  have htwo : ∀ b c, b ∈ opBytes → [b] ++ [c] ∈ operators → [b, c] ++ [0x20] ∉ operators →
      lexFrom .plain cur ([b, c] ++ 0x20 :: s) =
        (lexFrom .plain .none s).map (cur.endAt b ++ .op [b, c] :: ·) := by
    intro b c hb hmore hblank
    change lexFrom .plain cur (b :: c :: 0x20 :: s) = _
    rw [lexFrom_opByte hb (hcur b), lexFrom_opMore hmore, List.singleton_append,
      lexFrom_blank (.op _) (if_neg hblank), Option.map_map]
    rfl
  simp only [redirections, List.map_cons, List.map_nil, List.mem_cons, List.not_mem_nil,
    or_false] at h
  rcases h with rfl | rfl | rfl | rfl | rfl | rfl | rfl
  · exact hone 0x3c (by decide) (by decide)
  · rw [← hsides]
    exact hone 0x3e (by decide) (by decide)
  · rw [← hsides]
    exact htwo 0x3e 0x3e (by decide) (by decide) (by decide)
  · exact htwo 0x3c 0x26 (by decide) (by decide) (by decide)
  · rw [← hsides]
    exact htwo 0x3e 0x26 (by decide) (by decide) (by decide)
  · exact htwo 0x3c 0x3e (by decide) (by decide) (by decide)
  · rw [← hsides]
    exact htwo 0x3e 0x7c (by decide) (by decide) (by decide)

/-- A piece of a text has these tokens, with a space behind it and at the end. -/
structure Reads (p : List Byte) (ts : List Token) : Prop where
  middle : ∀ s, lexFrom .plain .none (p ++ 0x20 :: s) = (lexFrom .plain .none s).map (ts ++ ·)
  last : lexFrom .plain .none p = some ts

theorem IsWord.reads (hw : IsWord w) : Reads w [.word (unquoted w)] where
  middle s := by
    rw [lexFrom_isWord hw, lexFrom_blank _ rfl, endAt_word (by decide)]
  last := by
    have hend := lexFrom_isWord hw []
    rw [List.append_nil] at hend
    rw [hend, lexFrom, finish, endAt_word (by decide)]

theorem ordinary_of_isDigit {b : Byte} (hb : isDigit b = true) :
    ordinary b = true ∧ b ≠ 0x23 := by
  have hnone : (0x23 :: metacharacters).all (fun c => !isDigit c) = true := by decide
  have hdigit : ∀ c ∈ 0x23 :: metacharacters, c ≠ b := by
    intro c hc h
    have hc := List.all_eq_true.mp hnone c hc
    rw [h, hb] at hc
    cases hc
  obtain ⟨hhash, hmeta⟩ := List.forall_mem_cons.mp hdigit
  exact ⟨decide_eq_true fun h => hmeta b h rfl, hhash.symm⟩

theorem Redirect.Plain.lexFrom_text (hr : r.Plain) (s : List Byte) :
    lexFrom .plain .none (r.text ++ s) =
      (lexFrom .plain .none (r.target ++ s)).map
        ((if r.io = [] then [] else [.ioNumber r.io]) ++ .op r.op :: ·) := by
  have htext : r.text ++ s = r.io ++ (r.op ++ 0x20 :: (r.target ++ s)) := by
    simp [Redirect.text]
  rw [htext]
  by_cases hio : r.io = []
  · rw [hio, List.nil_append, lexFrom_redirection hr.op fun _ => rfl]
    rfl
  · have hword : IsWord r.io := by
      refine ⟨hio, fun b hb => (ordinary_of_isDigit (hr.io b hb)).1, fun h => ?_⟩
      exact (ordinary_of_isDigit (hr.io 0x23 (List.mem_of_mem_head? h))).2 rfl
    have hend : (Current.word (unquoted r.io)).endAt 0x3c = [.ioNumber r.io] := by
      have hne : unquoted r.io ≠ [] := fun h => hio (List.map_eq_nil_iff.mp h)
      have hdigits : ((unquoted r.io).all fun c => isDigit c.1 && !c.2) = true := by
        rw [List.all_eq_true]
        intro c hc
        obtain ⟨b, hb, rfl⟩ := List.mem_map.mp hc
        rw [hr.io b hb]
        rfl
      rw [Current.endAt, if_pos ⟨hne, hdigits, by decide⟩, text_unquoted]
    rw [lexFrom_isWord hword, lexFrom_redirection hr.op fun _ => rfl, hend, if_neg hio]

theorem Redirect.Plain.reads (hr : r.Plain) : Reads r.text r.tokens where
  middle s := by
    rw [hr.lexFrom_text, hr.target.reads.middle, Option.map_map]
    congr 1
    funext ts
    simp [Redirect.tokens]
  last := by
    have hend := hr.lexFrom_text []
    rw [List.append_nil, List.append_nil, hr.target.reads.last] at hend
    rw [hend]
    rfl

/-- Pieces with a space between them have the tokens of each. -/
theorem lex_intercalate {l : List (List Byte × List Token)} (hl : ∀ x ∈ l, Reads x.1 x.2) :
    lex ([0x20].intercalate (l.map Prod.fst)) = some (l.flatMap Prod.snd) := by
  induction l with
  | nil => rfl
  | cons x l ih =>
    obtain ⟨hx, hrest⟩ := List.forall_mem_cons.mp hl
    have htail := ih hrest
    unfold lex at htail ⊢
    cases l with
    | nil =>
      rw [List.map_singleton, List.intercalate_singleton, hx.last]
      simp
    | cons y l =>
      rw [List.map_cons] at htail
      rw [List.map_cons, List.map_cons, List.intercalate_cons_cons, List.append_assoc,
        List.singleton_append, hx.middle, htail]
      rfl

/-- The tokens of a command. -/
def Command.tokens (c : Command) : List Token :=
  c.args.map (fun a => .word (unquoted a)) ++ c.redirects.flatMap Redirect.tokens

/-- The arguments and redirections, each with its tokens. -/
def Command.pieces (c : Command) : List (List Byte × List Token) :=
  c.args.map (fun a => (a, [.word (unquoted a)])) ++ c.redirects.map fun r => (r.text, r.tokens)

theorem Command.Plain.lex_text (hc : c.Plain) : lex c.text = some c.tokens := by
  have hreads : ∀ x ∈ c.pieces, Reads x.1 x.2 := by
    intro x hx
    rcases List.mem_append.mp hx with hx | hx
    · obtain ⟨a, ha, rfl⟩ := List.mem_map.mp hx
      exact (hc.args a ha).word.reads
    · obtain ⟨r, hr, rfl⟩ := List.mem_map.mp hx
      exact (hc.redirects r hr).reads
  have htexts : c.pieces.map Prod.fst = c.args ++ c.redirects.map Redirect.text := by
    simp [Command.pieces, Function.comp_def]
  have htokens : c.pieces.flatMap Prod.snd = c.tokens := by
    rw [Command.pieces, Command.tokens, List.flatMap_append, List.flatMap_map, List.flatMap_map,
      List.map_eq_flatMap]
  have hlex := lex_intercalate hreads
  rw [htexts, htokens] at hlex
  exact hlex

theorem parts_redirects {rs : List Redirect} (h : ∀ r ∈ rs, r.Plain) :
    parts (rs.flatMap Redirect.tokens) = some ⟨[], rs⟩ := by
  induction rs with
  | nil => rfl
  | cons r rs ih =>
    obtain ⟨hr, hrest⟩ := List.forall_mem_cons.mp h
    have htarget := target_unquoted.mpr ⟨rfl, hr.no_home⟩
    have hredirected : parts.redirected r.io r.op (unquoted r.target) (some ⟨[], rs⟩) =
        some ⟨[], r :: rs⟩ := by
      simp [parts.redirected, htarget, hr.op]
    rw [List.flatMap_cons, Redirect.tokens]
    by_cases hio : r.io = []
    · rw [if_pos hio, ← hredirected, ← ih hrest, hio]
      rfl
    · rw [if_neg hio, ← hredirected, ← ih hrest]
      rfl

theorem Command.Plain.parts_tokens (hc : c.Plain) : parts c.tokens = some c := by
  have hparts : ∀ as : List (List Byte), (∀ a ∈ as, IsArgument a) →
      parts (as.map (fun a => .word (unquoted a)) ++ c.redirects.flatMap Redirect.tokens) =
        some ⟨as, c.redirects⟩ := by
    intro as has
    induction as with
    | nil => exact parts_redirects hc.redirects
    | cons a as ih =>
      obtain ⟨ha, hrest⟩ := List.forall_mem_cons.mp has
      have hargument := argument_unquoted.mpr ⟨rfl, ha.no_home, ha.literal⟩
      rw [List.map_cons, List.cons_append, parts, ih hrest, hargument]
      rfl
  exact hparts c.args hc.args

theorem Command.Plain.command_text (hc : c.Plain) : command c.text = some c := by
  unfold command
  rw [hc.lex_text, Option.bind_some, hc.parts_tokens]
  exact if_pos hc.named

end Text

end OsTasks.Lib.Sh

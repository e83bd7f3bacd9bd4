import OsTasks.Lib.ShellRoundTrip

/-! A quote, an escape or a comment leaves fewer bytes than it has. A text that is read as the
command it was put together from has none of them. -/
namespace OsTasks.Lib.Sh

/-- The bytes other than blanks and newlines. -/
def solid (s : List Byte) : ℕ := s.countP fun b => !isBlank b && b ≠ 0x0a

def Token.solid : Token → ℕ
  | .word w => Sh.solid w.text
  | .ioNumber digits => Sh.solid digits
  | .op t => Sh.solid t
  | .newline => 0

def tokensSolid (ts : List Token) : ℕ := (ts.map Token.solid).sum

def Current.solid : Current → ℕ
  | .none => 0
  | .word w => Sh.solid w.text
  | .op t => Sh.solid t

/-- The backslash that a byte in double quotes may leave as it is. -/
def Mode.pending : Mode → ℕ
  | .doubleEscape => 1
  | _ => 0

/-- Read without quotes and escapes. -/
def Token.Good : Token → Prop
  | .word w => ∃ v, w = unquoted v ∧ IsWord v
  | .ioNumber digits => ∀ b ∈ digits, isDigit b = true
  | _ => True

def Current.Good : Current → Prop
  | .word w => ∃ v, w = unquoted v ∧ IsWord v
  | _ => True

/-- What a byte outside of quotes can do. -/
inductive PlainStep (cur : Current) (b : Byte) : List Token × Mode × Current → Prop where
  | more {t : List Byte} (h : cur = .op t) : PlainStep cur b ([], .plain, .op (t ++ [b]))
  | escape (hb : b = 0x5c) : PlainStep cur b ([], .escape, cur)
  | blank : PlainStep cur b (cur.endAt b, .plain, .none)
  | newline : PlainStep cur b (cur.endAt b ++ [.newline], .plain, .none)
  | op : PlainStep cur b (cur.endAt b, .plain, .op [b])
  | comment (hb : b = 0x23) : PlainStep cur b (cur.endAt b, .comment, .none)
  | single (hb : b = 0x27) : PlainStep cur b (cur.endOp, .single, .word cur.begun)
  | double (hb : b = 0x22) : PlainStep cur b (cur.endOp, .double, .word cur.begun)
  | ordinary (hb : ordinary b = true) (hhash : b = 0x23 → cur.isWord = true) :
    PlainStep cur b (cur.endOp, .plain, .word (cur.begun ++ [(b, false)]))

section Steps
variable {cur cur' : Current} {mode mode' : Mode} {b : Byte} {ts : List Token} {s t : List Byte}
  {r : List Token × Mode × Current}

theorem plainStep_cases (h : plainStep cur b = some r) : PlainStep cur b r := by
  unfold plainStep at h
  cases hext : cur.extendedBy b with
  | some t =>
    rw [hext] at h
    obtain ⟨t', rfl⟩ : ∃ t', cur = .op t' := by
      cases cur with
      | op t' => exact ⟨t', rfl⟩
      | none => cases hext
      | word w => cases hext
    obtain rfl : t' ++ [b] = t := (Option.ite_none_right_eq_some.mp hext).2 |> Option.some.inj
    obtain rfl := Option.some.inj h
    exact .more rfl
  | none =>
    rw [hext] at h
    dsimp only at h
    split_ifs at h with h0 h1 h2 h3 h4 h5 h6 h7
    · obtain rfl := Option.some.inj h
      exact .escape h1
    · obtain rfl := Option.some.inj h
      exact .blank
    · obtain rfl := Option.some.inj h
      exact .newline
    · obtain rfl := Option.some.inj h
      exact .op
    · obtain rfl := Option.some.inj h
      exact .comment h5.1
    · obtain rfl := Option.some.inj h
      exact .single h6
    · obtain rfl := Option.some.inj h
      exact .double h7
    · obtain rfl := Option.some.inj h
      obtain ⟨hnul, hdollar⟩ := not_or.mp h0
      refine .ordinary (ordinary_iff.mpr ⟨hnul, hdollar, h1, by simpa using h2, h3, h4, h6, h7⟩) ?_
      intro hb
      by_contra hword
      exact h5 ⟨hb, by simpa using hword⟩

@[simp] theorem solid_nil : solid [] = 0 := rfl

@[simp] theorem solid_append (s t : List Byte) : solid (s ++ t) = solid s + solid t :=
  List.countP_append

theorem solid_cons (b : Byte) (s : List Byte) : solid (b :: s) = solid [b] + solid s :=
  solid_append [b] s

@[simp] theorem text_append (u w : Word) : Word.text (u ++ w) = u.text ++ w.text :=
  List.map_append

@[simp] theorem text_singleton (b : Byte) (q : Bool) : Word.text [(b, q)] = [b] := rfl

@[simp] theorem solid_none : Current.none.solid = 0 := rfl

@[simp] theorem solid_word (w : Word) : (Current.word w).solid = solid w.text := rfl

@[simp] theorem solid_op (t : List Byte) : (Current.op t).solid = solid t := rfl

@[simp] theorem tokensSolid_nil : tokensSolid [] = 0 := rfl

@[simp] theorem tokensSolid_append (ts us : List Token) :
    tokensSolid (ts ++ us) = tokensSolid ts + tokensSolid us := by
  simp [tokensSolid]

@[simp] theorem tokensSolid_cons (t : Token) (ts : List Token) :
    tokensSolid (t :: ts) = t.solid + tokensSolid ts := by
  simp [tokensSolid]

@[simp] theorem tokensSolid_endAt (b : Byte) (cur : Current) :
    tokensSolid (cur.endAt b) = cur.solid := by
  cases cur with
  | none => rfl
  | word w =>
    unfold Current.endAt
    dsimp only
    split_ifs <;> simp [Token.solid, Current.solid]
  | op t => simp [Current.endAt, Token.solid, Current.solid]

theorem tokensSolid_endOp (cur : Current) :
    tokensSolid cur.endOp + solid cur.begun.text = cur.solid := by
  cases cur <;> simp [Current.endOp, Current.begun, Word.text, Token.solid, Current.solid]

theorem solid_begun_append_le (cur : Current) (w : Word) :
    solid (cur.begun ++ w).text ≤ cur.solid + solid w.text := by
  have hend := tokensSolid_endOp cur
  rw [text_append, solid_append]
  omega

theorem PlainStep.solid_le (h : PlainStep cur b (ts, mode, cur')) :
    tokensSolid ts + cur'.solid + mode.pending ≤ cur.solid + solid [b] := by
  have hend := tokensSolid_endOp cur
  cases h with
  | more h =>
    rw [h]
    simp [Mode.pending]
  | escape hb => simp [Mode.pending]
  | blank => simp [Mode.pending]
  | newline => simp [Mode.pending, Token.solid]
  | op => simp [Mode.pending]
  | comment hb => simp [Mode.pending]
  | single hb =>
    simp only [solid_word, Mode.pending]
    omega
  | double hb =>
    simp only [solid_word, Mode.pending]
    omega
  | ordinary hb hhash =>
    simp only [solid_word, Mode.pending, text_append, text_singleton, solid_append]
    omega

/-- A step leaves no more solid bytes than it reads. -/
theorem step_solid_le (h : step mode cur b = some (ts, mode', cur')) :
    tokensSolid ts + cur'.solid + mode'.pending ≤ cur.solid + mode.pending + solid [b] := by
  have hgrown := solid_begun_append_le cur [(b, true)]
  rw [text_singleton] at hgrown
  cases mode with
  | plain => exact (plainStep_cases h).solid_le
  | escape =>
    rw [step] at h
    split_ifs at h with h0 h1
    · obtain ⟨rfl, rfl, rfl⟩ := Prod.mk.inj (Option.some.inj h)
      simp [Mode.pending]
    · obtain ⟨rfl, rfl, rfl⟩ := Prod.mk.inj (Option.some.inj h)
      have hend := tokensSolid_endOp cur
      simp only [solid_word, text_append, text_singleton, solid_append, Mode.pending]
      omega
  | single =>
    rw [step] at h
    split_ifs at h with h0 h1
    · obtain ⟨rfl, rfl, rfl⟩ := Prod.mk.inj (Option.some.inj h)
      simp [Mode.pending]
    · obtain ⟨rfl, rfl, rfl⟩ := Prod.mk.inj (Option.some.inj h)
      simpa [Mode.pending] using hgrown
  | double =>
    rw [step] at h
    split_ifs at h with h0 h1 h2
    · obtain ⟨rfl, rfl, rfl⟩ := Prod.mk.inj (Option.some.inj h)
      simp [Mode.pending]
    · obtain ⟨rfl, rfl, rfl⟩ := Prod.mk.inj (Option.some.inj h)
      have hsolid : solid [b] = 1 := by
        rw [h2]
        rfl
      simp [Mode.pending, hsolid]
    · obtain ⟨rfl, rfl, rfl⟩ := Prod.mk.inj (Option.some.inj h)
      simpa [Mode.pending] using hgrown
  | doubleEscape =>
    rw [step] at h
    split_ifs at h with h0 h1 h2
    · obtain ⟨rfl, rfl, rfl⟩ := Prod.mk.inj (Option.some.inj h)
      simp only [tokensSolid_nil, Mode.pending]
      omega
    · obtain ⟨rfl, rfl, rfl⟩ := Prod.mk.inj (Option.some.inj h)
      simp only [solid_word, Mode.pending, tokensSolid_nil]
      omega
    · obtain ⟨rfl, rfl, rfl⟩ := Prod.mk.inj (Option.some.inj h)
      have hboth := solid_begun_append_le cur [(0x5c, true), (b, true)]
      have hpending : solid (Word.text [(0x5c, true), (b, true)]) = 1 + solid [b] :=
        solid_cons 0x5c [b]
      simp only [solid_word, Mode.pending, tokensSolid_nil]
      omega
  | comment =>
    rw [step] at h
    split_ifs at h with h0 h1
    · obtain ⟨rfl, rfl, rfl⟩ := Prod.mk.inj (Option.some.inj h)
      simp [Token.solid, Mode.pending]
    · obtain ⟨rfl, rfl, rfl⟩ := Prod.mk.inj (Option.some.inj h)
      simp [Mode.pending]

theorem finish_solid_le (h : finish mode cur = some ts) : tokensSolid ts ≤ cur.solid := by
  cases mode with
  | plain =>
    obtain rfl := Option.some.inj h
    rw [tokensSolid_endAt]
  | comment =>
    obtain rfl := Option.some.inj h
    exact Nat.zero_le _
  | escape => cases h
  | single => cases h
  | double => cases h
  | doubleEscape => cases h

theorem exists_of_lexFrom_cons (h : lexFrom mode cur (b :: s) = some ts) :
    ∃ ended mode' cur' rest, step mode cur b = some (ended, mode', cur') ∧
      lexFrom mode' cur' s = some rest ∧ ts = ended ++ rest := by
  rw [lexFrom_cons] at h
  obtain ⟨⟨ended, mode', cur'⟩, hstep, hrest⟩ := Option.bind_eq_some_iff.mp h
  obtain ⟨rest, hlex, hts⟩ := Option.map_eq_some_iff.mp hrest
  exact ⟨ended, mode', cur', rest, hstep, hlex, hts.symm⟩

theorem lexFrom_solid_le (h : lexFrom mode cur s = some ts) :
    tokensSolid ts ≤ cur.solid + mode.pending + solid s := by
  induction s generalizing mode cur ts with
  | nil => exact (finish_solid_le h).trans (by omega)
  | cons b s ih =>
    obtain ⟨ended, mode', cur', rest, hstep, hlex, rfl⟩ := exists_of_lexFrom_cons h
    have hle := step_solid_le hstep
    have htail := ih hlex
    rw [tokensSolid_append, solid_cons]
    omega

theorem Current.Good.endAt (hcur : cur.Good) (b : Byte) : ∀ t ∈ cur.endAt b, t.Good := by
  cases cur with
  | none =>
    intro t ht
    cases ht
  | word w =>
    unfold Current.endAt
    dsimp only
    split_ifs with hdigits
    · rw [List.forall_mem_singleton]
      intro c hc
      obtain ⟨d, hd, rfl⟩ := List.mem_map.mp hc
      exact ((Bool.and_eq_true _ _).mp (List.all_eq_true.mp hdigits.2.1 d hd)).1
    · rw [List.forall_mem_singleton]
      exact hcur
  | op t =>
    unfold Current.endAt
    rw [List.forall_mem_singleton]
    trivial

theorem Current.Good.endOp (cur : Current) : ∀ t ∈ cur.endOp, t.Good := by
  cases cur with
  | op t =>
    unfold Current.endOp
    rw [List.forall_mem_singleton]
    trivial
  | none =>
    intro t ht
    cases ht
  | word w =>
    intro t ht
    cases ht

/-- An ordinary byte more leaves a word one. -/
theorem Current.Good.append (hcur : cur.Good) (hb : Sh.ordinary b = true)
    (hhash : b = 0x23 → cur.isWord = true) : (Current.word (cur.begun ++ [(b, false)])).Good := by
  have hfirst : cur.isWord = false → IsWord [b] := by
    intro hword
    refine ⟨List.cons_ne_nil b [], List.forall_mem_singleton.mpr hb, fun h => ?_⟩
    rw [hhash (Option.some.inj h)] at hword
    cases hword
  cases cur with
  | none => exact ⟨[b], rfl, hfirst rfl⟩
  | op t => exact ⟨[b], rfl, hfirst rfl⟩
  | word w =>
    obtain ⟨v, rfl, hv⟩ := hcur
    refine ⟨v ++ [b], ?_, ?_, ?_, ?_⟩
    · simp [unquoted, Current.begun]
    · simp
    · rw [List.forall_mem_append, List.forall_mem_singleton]
      exact ⟨hv.ordinary, hb⟩
    · rw [List.head?_append_of_ne_nil v hv.ne_nil]
      exact hv.no_comment

/-- A byte outside of quotes leaves the text outside of them, or is lost. -/
theorem PlainStep.good (h : PlainStep cur b (ts, mode, cur')) (hcur : cur.Good) :
    (mode = .plain ∧ cur'.Good ∧ ∀ t ∈ ts, t.Good) ∨
      tokensSolid ts + cur'.solid + mode.pending < cur.solid + solid [b] := by
  have hend := tokensSolid_endOp cur
  have hnone : ∀ t ∈ ([] : List Token), t.Good := by
    intro t ht
    cases ht
  cases h with
  | more h => exact Or.inl ⟨rfl, trivial, hnone⟩
  | escape hb =>
    right
    have hsolid : solid [b] = 1 := by
      rw [hb]
      rfl
    simp [hsolid, Mode.pending]
  | blank => exact Or.inl ⟨rfl, trivial, hcur.endAt b⟩
  | newline =>
    refine Or.inl ⟨rfl, trivial, ?_⟩
    rw [List.forall_mem_append, List.forall_mem_singleton]
    exact ⟨hcur.endAt b, trivial⟩
  | op => exact Or.inl ⟨rfl, trivial, hcur.endAt b⟩
  | comment hb =>
    right
    have hsolid : solid [b] = 1 := by
      rw [hb]
      rfl
    simp [hsolid, Mode.pending]
  | single hb =>
    right
    have hsolid : solid [b] = 1 := by
      rw [hb]
      rfl
    simp only [solid_word, Mode.pending]
    omega
  | double hb =>
    right
    have hsolid : solid [b] = 1 := by
      rw [hb]
      rfl
    simp only [solid_word, Mode.pending]
    omega
  | ordinary hb hhash =>
    exact Or.inl ⟨rfl, hcur.append hb hhash, Current.Good.endOp cur⟩

theorem lexFrom_good (hcur : cur.Good) (h : lexFrom .plain cur s = some ts)
    (hle : cur.solid + solid s ≤ tokensSolid ts) : ∀ t ∈ ts, t.Good := by
  induction s generalizing cur ts with
  | nil =>
    obtain rfl := Option.some.inj h
    exact hcur.endAt 0x0a
  | cons b s ih =>
    obtain ⟨ended, mode, cur', rest, hstep, hlex, rfl⟩ := exists_of_lexFrom_cons h
    have hplain := plainStep_cases hstep
    have hstepLe := hplain.solid_le
    have hrestLe := lexFrom_solid_le hlex
    rw [tokensSolid_append, solid_cons] at hle
    rcases hplain.good hcur with ⟨rfl, hcur', hended⟩ | hlost
    · have hkept : cur'.solid + solid s ≤ tokensSolid rest := by
        simp only [Mode.pending] at hstepLe
        omega
      exact List.forall_mem_append.mpr ⟨hended, ih hcur' hlex hkept⟩
    · omega

end Steps

section Parts
variable {c : Command} {w : Word} {ts : List Token} {a : List Byte}

def Redirect.solid (r : Redirect) : ℕ := Sh.solid r.io + Sh.solid r.op + Sh.solid r.target

def Command.solid (c : Command) : ℕ :=
  (c.args.map Sh.solid).sum + (c.redirects.map Redirect.solid).sum

theorem solid_intercalate (l : List (List Byte)) :
    solid ([0x20].intercalate l) = (l.map solid).sum := by
  induction l with
  | nil => rfl
  | cons s l ih =>
    cases l with
    | nil => simp
    | cons u l =>
      rw [List.intercalate_cons_cons, solid_append, solid_append, ih, List.map_cons, List.sum_cons]
      rfl

theorem solid_of_ordinary {s : List Byte} (hs : ∀ b ∈ s, ordinary b = true) :
    solid s = s.length := by
  rw [solid, List.countP_eq_length]
  intro b hb
  obtain ⟨_, _, _, hblank, hline, _⟩ := ordinary_iff.mp (hs b hb)
  simp [hblank, hline]

theorem Redirect.solid_text (r : Redirect) : Sh.solid r.text = r.solid := by
  have hspace : Sh.solid (0x20 :: r.target) = Sh.solid r.target :=
    (solid_cons 0x20 r.target).trans (Nat.zero_add _)
  rw [Redirect.text, solid_append, solid_append, hspace]
  rfl

theorem Command.solid_text (c : Command) : Sh.solid c.text = c.solid := by
  rw [Command.text, solid_intercalate, List.map_append, List.sum_append, List.map_map]
  congr 3
  funext r
  exact r.solid_text

theorem argument_eq_some (h : w.argument = some a) : a = w.text :=
  (Option.some.inj (Option.ite_none_right_eq_some.mp h).2).symm

theorem target_eq_some (h : w.target = some a) : a = w.text :=
  (Option.some.inj (Option.ite_none_right_eq_some.mp h).2).symm

theorem isArgument_of_good (hw : (Token.word w).Good) (h : w.argument = some a) : IsArgument a := by
  obtain ⟨v, rfl, hv⟩ := hw
  obtain ⟨rfl, hhome, hliteral⟩ := argument_unquoted.mp h
  exact ⟨hv, hhome, hliteral⟩

theorem exists_of_redirected {io op : List Byte} {rest : Option Command}
    (h : parts.redirected io op w rest = some c) : ∃ c' file, rest = some c' ∧
      w.target = some file ∧ op ∈ redirections ∧
        c = { c' with redirects := ⟨io, op, file⟩ :: c'.redirects } := by
  obtain ⟨c', hc', h⟩ := Option.bind_eq_some_iff.mp h
  obtain ⟨file, hfile, h⟩ := Option.bind_eq_some_iff.mp h
  obtain ⟨hop, hc⟩ := Option.ite_none_right_eq_some.mp h
  exact ⟨c', file, hc', hfile, hop, (Option.some.inj hc).symm⟩

theorem Redirect.plain_of_good {r : Redirect} (hio : ∀ b ∈ r.io, isDigit b = true)
    (hop : r.op ∈ redirections) (hw : (Token.word w).Good) (h : w.target = some r.target) :
    r.Plain := by
  obtain ⟨v, rfl, hv⟩ := hw
  obtain ⟨htarget, hhome⟩ := target_unquoted.mp h
  rw [← htarget] at hv hhome
  exact ⟨hio, hop, hv, hhome⟩

theorem parts_solid (h : parts ts = some c) : c.solid = tokensSolid ts := by
  fun_induction parts ts generalizing c with
  | case1 =>
    obtain rfl := Option.some.inj h
    rfl
  | case2 ts hts =>
    obtain rfl := Option.some.inj h
    have hzero : tokensSolid ts = 0 := by
      apply List.sum_eq_zero
      intro n hn
      obtain ⟨t, ht, rfl⟩ := List.mem_map.mp hn
      rw [of_decide_eq_true (List.all_eq_true.mp hts t ht)]
      rfl
    rw [tokensSolid_cons, hzero]
    rfl
  | case3 ts hts => cases h
  | case4 w ts ih =>
    obtain ⟨c', hc', h⟩ := Option.bind_eq_some_iff.mp h
    obtain ⟨a, ha, h⟩ := Option.bind_eq_some_iff.mp h
    obtain rfl := Option.some.inj h
    obtain rfl := argument_eq_some ha
    have hrest := ih hc'
    unfold Command.solid at hrest ⊢
    rw [tokensSolid_cons, List.map_cons, List.sum_cons, ← hrest]
    simp only [Token.solid]
    omega
  | case5 io op w ts ih =>
    obtain ⟨c', file, hc', hfile, _, rfl⟩ := exists_of_redirected h
    obtain rfl := target_eq_some hfile
    have hrest := ih hc'
    unfold Command.solid at hrest ⊢
    rw [tokensSolid_cons, tokensSolid_cons, tokensSolid_cons, List.map_cons, List.sum_cons,
      ← hrest]
    simp only [Token.solid, Redirect.solid]
    omega
  | case6 op w ts ih =>
    obtain ⟨c', file, hc', hfile, _, rfl⟩ := exists_of_redirected h
    obtain rfl := target_eq_some hfile
    have hrest := ih hc'
    unfold Command.solid at hrest ⊢
    rw [tokensSolid_cons, tokensSolid_cons, List.map_cons, List.sum_cons, ← hrest]
    simp only [Token.solid, Redirect.solid, solid_nil]
    omega
  | case7 ts => cases h

/-- The arguments and redirections are plain where the tokens are read without quotes. -/
theorem parts_plain (h : parts ts = some c) (hts : ∀ t ∈ ts, t.Good) :
    (∀ a ∈ c.args, IsArgument a) ∧ ∀ r ∈ c.redirects, r.Plain := by
  fun_induction parts ts generalizing c with
  | case1 =>
    obtain rfl := Option.some.inj h
    simp
  | case2 ts hall =>
    obtain rfl := Option.some.inj h
    simp
  | case3 ts hall => cases h
  | case4 w ts ih =>
    obtain ⟨c', hc', h⟩ := Option.bind_eq_some_iff.mp h
    obtain ⟨a, ha, h⟩ := Option.bind_eq_some_iff.mp h
    obtain rfl := Option.some.inj h
    obtain ⟨hw, hrest⟩ := List.forall_mem_cons.mp hts
    obtain ⟨hargs, hredirects⟩ := ih hc' hrest
    exact ⟨List.forall_mem_cons.mpr ⟨isArgument_of_good hw ha, hargs⟩, hredirects⟩
  | case5 io op w ts ih =>
    obtain ⟨c', file, hc', hfile, hop, rfl⟩ := exists_of_redirected h
    obtain ⟨hio, hts⟩ := List.forall_mem_cons.mp hts
    obtain ⟨_, hts⟩ := List.forall_mem_cons.mp hts
    obtain ⟨hw, hrest⟩ := List.forall_mem_cons.mp hts
    obtain ⟨hargs, hredirects⟩ := ih hc' hrest
    have hr : (Redirect.mk io op file).Plain := Redirect.plain_of_good hio hop hw hfile
    exact ⟨hargs, List.forall_mem_cons.mpr ⟨hr, hredirects⟩⟩
  | case6 op w ts ih =>
    obtain ⟨c', file, hc', hfile, hop, rfl⟩ := exists_of_redirected h
    obtain ⟨_, hts⟩ := List.forall_mem_cons.mp hts
    obtain ⟨hw, hrest⟩ := List.forall_mem_cons.mp hts
    obtain ⟨hargs, hredirects⟩ := ih hc' hrest
    have hio : ∀ b ∈ ([] : List Byte), isDigit b = true := by simp
    have hr : (Redirect.mk [] op file).Plain := Redirect.plain_of_good hio hop hw hfile
    exact ⟨hargs, List.forall_mem_cons.mpr ⟨hr, hredirects⟩⟩
  | case7 ts => cases h

/-- A text holds what its command has. Where it holds no more, the command is plain. -/
theorem solid_of_command {x : List Byte} (h : command x = some c) :
    c.solid ≤ solid x ∧ (solid x ≤ c.solid → c.Plain) := by
  obtain ⟨c', hc', h⟩ := Option.bind_eq_some_iff.mp h
  obtain ⟨hnamed, h⟩ := Option.ite_none_right_eq_some.mp h
  obtain rfl := Option.some.inj h
  obtain ⟨ts, hlex, hparts⟩ := Option.bind_eq_some_iff.mp hc'
  have hsolid := parts_solid hparts
  constructor
  · rw [hsolid]
    exact (lexFrom_solid_le hlex).trans_eq (Nat.zero_add _)
  · intro hle
    have hbegin : Current.none.Good := trivial
    have hkept : Current.none.solid + solid x ≤ tokensSolid ts := by
      rw [← hsolid, solid_none, Nat.zero_add]
      exact hle
    obtain ⟨hargs, hredirects⟩ := parts_plain hparts (lexFrom_good hbegin hlex hkept)
    exact ⟨hnamed, hargs, hredirects⟩

/-- A command is read back from its text, written without quotes, if and only if each word of it
is plain. -/
theorem command_text_iff : command c.text = some c ↔ c.Plain := by
  constructor
  · intro h
    exact (solid_of_command h).2 c.solid_text.le
  · exact Command.Plain.command_text

end Parts

end OsTasks.Lib.Sh

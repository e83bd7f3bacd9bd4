import OsTasks.Lib.Scan

/-! A scan of a block that other bytes follow: what it finds is the tokens of the block alone, unless
it goes on in the other bytes. -/
namespace OsTasks.Lib

/-- What follows a row of tokens' bytes that ends changes nothing of it. -/
theorem dropWhile_append_of_ne_nil {p : Byte → Bool} {m : List Byte} (h : m.dropWhile p ≠ [])
    (g : List Byte) : (m ++ g).dropWhile p = m.dropWhile p ++ g := by
  rw [List.dropWhile_append, if_neg (by simpa using h)]

theorem takeWhile_append_of_ne_nil {p : Byte → Bool} {m : List Byte} (h : m.dropWhile p ≠ [])
    (g : List Byte) : (m ++ g).takeWhile p = m.takeWhile p := by
  have hlen : (m.takeWhile p).length ≠ m.length := by
    intro he
    have hsum := congrArg List.length (List.takeWhile_append_dropWhile (p := p) (l := m))
    rw [List.length_append] at hsum
    exact h (List.eq_nil_of_length_eq_zero (by omega))
  rw [List.takeWhile_append, if_neg hlen]

/-- A scan that stops within a block does not depend on what is behind it. -/
theorem scan_append {n : ℕ} {m : List Byte} {r : List (List Byte) × List Byte}
    (h : scan n m = some r) (g : List Byte) : scan n (m ++ g) = some (r.1, r.2 ++ g) := by
  induction n generalizing m r with
  | zero =>
    cases h
    rfl
  | succ n ih =>
    unfold scan at h ⊢
    cases hm : m.dropWhile isSpace with
    | nil =>
      rw [hm] at h
      cases h
    | cons b bs =>
      rw [hm] at h
      rw [dropWhile_append_of_ne_nil (by rw [hm]; exact List.cons_ne_nil b bs), hm,
        List.cons_append]
      dsimp only at h ⊢
      by_cases hb : b = 0
      · rw [if_pos hb] at h ⊢
        cases h
        rfl
      · rw [if_neg hb] at h ⊢
        cases hd : (b :: bs).dropWhile isToken with
        | nil =>
          rw [hd] at h
          cases h
        | cons c cs =>
          have hne : (b :: bs).dropWhile isToken ≠ [] := by
            rw [hd]
            exact List.cons_ne_nil c cs
          rw [hd] at h
          obtain ⟨r', hr', rfl⟩ := Option.map_eq_some_iff.mp h
          rw [← List.cons_append, dropWhile_append_of_ne_nil hne, takeWhile_append_of_ne_nil hne,
            hd]
          have hrest := ih hr'
          rw [List.cons_append] at hrest ⊢
          dsimp only
          rw [hrest]
          rfl

/-- A scan that leaves a block goes on through bytes of tokens behind it. -/
theorem scan_append_eq_none {n : ℕ} {m g : List Byte} (h : scan n m = none)
    (hg : ∀ b ∈ g, isToken b = true) : scan n (m ++ g) = none := by
  have hdrop : g.dropWhile isToken = [] := List.dropWhile_eq_nil_iff.mpr hg
  induction n generalizing m with
  | zero => cases h
  | succ n ih =>
    unfold scan at h ⊢
    cases hm : m.dropWhile isSpace with
    | nil =>
      rw [List.dropWhile_append, hm, if_pos List.isEmpty_nil]
      cases g with
      | nil => rfl
      | cons b bs =>
        obtain ⟨hb0, hbs⟩ := isToken_iff.mp (hg b List.mem_cons_self)
        rw [List.dropWhile_cons_of_neg (by simp [hbs])]
        dsimp only
        rw [if_neg hb0, hdrop]
    | cons b bs =>
      rw [hm] at h
      rw [dropWhile_append_of_ne_nil (by rw [hm]; exact List.cons_ne_nil b bs), hm,
        List.cons_append]
      dsimp only at h ⊢
      by_cases hb : b = 0
      · rw [if_pos hb] at h
        cases h
      · rw [if_neg hb] at h ⊢
        rw [← List.cons_append]
        cases hd : (b :: bs).dropWhile isToken with
        | nil =>
          rw [List.dropWhile_append, hd, if_pos List.isEmpty_nil, hdrop]
        | cons c cs =>
          have hne : (b :: bs).dropWhile isToken ≠ [] := by
            rw [hd]
            exact List.cons_ne_nil c cs
          rw [hd] at h
          rw [dropWhile_append_of_ne_nil hne, hd, List.cons_append]
          dsimp only at h ⊢
          rw [← List.cons_append, ih (Option.map_eq_none_iff.mp h)]
          rfl

theorem dropWhile_append_zero {p : Byte → Bool} (hp : p 0 = false) (m : List Byte) :
    (m ++ [0]).dropWhile p = m.dropWhile p ++ [0] := by
  rw [List.dropWhile_append]
  cases hd : m.dropWhile p with
  | nil => simp [hp]
  | cons b bs => rfl

theorem takeWhile_append_zero {p : Byte → Bool} (hp : p 0 = false) (m : List Byte) :
    (m ++ [0]).takeWhile p = m.takeWhile p := by
  rw [List.takeWhile_append]
  split_ifs with hall
  · have hself := (List.takeWhile_prefix p).eq_of_length hall
    simp [hp, hself]
  · rfl

theorem length_le_of_scan {n : ℕ} {m : List Byte} {r : List (List Byte) × List Byte}
    (h : scan n m = some r) : r.1.length ≤ n := by
  induction n generalizing m r with
  | zero =>
    cases h
    exact le_rfl
  | succ n ih =>
    unfold scan at h
    cases hm : m.dropWhile isSpace with
    | nil =>
      rw [hm] at h
      cases h
    | cons b bs =>
      rw [hm] at h
      dsimp only at h
      by_cases hb : b = 0
      · rw [if_pos hb] at h
        cases h
        exact Nat.zero_le _
      · rw [if_neg hb] at h
        cases hd : (b :: bs).dropWhile isToken with
        | nil =>
          rw [hd] at h
          cases h
        | cons c cs =>
          rw [hd] at h
          obtain ⟨r', hr', rfl⟩ := Option.map_eq_some_iff.mp h
          exact Nat.succ_le_succ (ih hr')

/-- The tokens that `n` directives find in `m` if a NUL follows it. -/
def tokensOf (n : ℕ) (m : List Byte) : List (List Byte) :=
  ((scan n (m ++ [0])).map Prod.fst).getD []

theorem scan_append_zero (n : ℕ) (m : List Byte) :
    ∃ rest, scan n (m ++ [0]) = some (tokensOf n m, rest) := by
  obtain ⟨r, hr, _⟩ := scan_of_zero_mem n (List.mem_append_right m (List.mem_singleton_self 0))
  refine ⟨r.2, ?_⟩
  unfold tokensOf
  rw [hr]
  rfl

theorem length_tokensOf_le (n : ℕ) (m : List Byte) : (tokensOf n m).length ≤ n := by
  obtain ⟨rest, hscan⟩ := scan_append_zero n m
  exact length_le_of_scan hscan

/-- The token `a` is the first one of `m`, and `d` is what is behind it. -/
structure Peeled (n : ℕ) (m a d : List Byte) : Prop where
  inside : d ≠ [] → ∀ g, scan (n + 1) (m ++ g) = (scan n (d ++ g)).map fun r => (a :: r.1, r.2)
  atEnd : d = [] → ∀ g, scan (n + 1) (m ++ g) =
    if g.dropWhile isToken = [] then none
    else (scan n (g.dropWhile isToken)).map fun r => ((a ++ g.takeWhile isToken) :: r.1, r.2)

theorem scan_succ_of_dropWhile {b : Byte} {m bs : List Byte} (hm : m.dropWhile isSpace = b :: bs)
    (hb : b ≠ 0) (n : ℕ) (g : List Byte) : scan (n + 1) (m ++ g) =
      if (b :: bs ++ g).dropWhile isToken = [] then none
      else (scan n ((b :: bs ++ g).dropWhile isToken)).map fun r =>
        ((b :: bs ++ g).takeWhile isToken :: r.1, r.2) := by
  have hne : m.dropWhile isSpace ≠ [] := by
    rw [hm]
    exact List.cons_ne_nil b bs
  rw [scan, dropWhile_append_of_ne_nil hne, hm, List.cons_append]
  dsimp only
  rw [if_neg hb]
  cases (b :: (bs ++ g)).dropWhile isToken <;> rfl

theorem exists_peeled {n : ℕ} {m a : List Byte} {ws : List (List Byte)}
    (h : tokensOf (n + 1) m = a :: ws) : ∃ d, Peeled n m a d ∧ tokensOf n d = ws := by
  obtain ⟨rest, hscan⟩ := scan_append_zero (n + 1) m
  rw [h] at hscan
  obtain ⟨b, bs, hm, hb⟩ : ∃ b bs, m.dropWhile isSpace = b :: bs ∧ b ≠ 0 := by
    unfold scan at hscan
    rw [dropWhile_append_zero (by decide)] at hscan
    cases hm : m.dropWhile isSpace with
    | nil =>
      rw [hm] at hscan
      cases hscan
    | cons b bs =>
      refine ⟨b, bs, rfl, ?_⟩
      rintro rfl
      rw [hm] at hscan
      cases hscan
  have hdrop : (b :: bs ++ [0]).dropWhile isToken = (b :: bs).dropWhile isToken ++ [0] :=
    dropWhile_append_zero (by decide) (b :: bs)
  have hend : (b :: bs).dropWhile isToken ++ [0] ≠ [] :=
    List.append_ne_nil_of_right_ne_nil _ (List.cons_ne_nil 0 [])
  rw [scan_succ_of_dropWhile hm hb, hdrop, if_neg hend, takeWhile_append_zero (by decide)] at hscan
  obtain ⟨r, hr, hpair⟩ := Option.map_eq_some_iff.mp hscan
  cases hpair
  refine ⟨(b :: bs).dropWhile isToken, ⟨?_, ?_⟩, ?_⟩
  · intro hd g
    rw [scan_succ_of_dropWhile hm hb, dropWhile_append_of_ne_nil hd, takeWhile_append_of_ne_nil hd,
      if_neg (List.append_ne_nil_of_left_ne_nil hd g)]
  · intro hd g
    have hall : ∀ c ∈ b :: bs, isToken c = true := List.dropWhile_eq_nil_iff.mp hd
    have hself : (b :: bs).takeWhile isToken = b :: bs := List.takeWhile_eq_self_iff.mpr hall
    rw [scan_succ_of_dropWhile hm hb, List.dropWhile_append_of_pos hall,
      List.takeWhile_append_of_pos hall, hself]
  · unfold tokensOf
    rw [hr]
    rfl

/-- Bytes behind a block lengthen its last token or add others. -/
theorem head_of_scan_append {n : ℕ} {m a g : List Byte} {ws ws' : List (List Byte)} {rest : List Byte}
    (h0 : tokensOf (n + 1) m = a :: ws) (h : scan (n + 1) (m ++ g) = some (ws', rest)) :
    ∃ x, ws'.head? = some (a ++ x) := by
  obtain ⟨d, hpeel, _⟩ := exists_peeled h0
  by_cases hd : d = []
  · rw [hpeel.atEnd hd] at h
    obtain ⟨_, h⟩ := Option.ite_none_left_eq_some.mp h
    obtain ⟨r, _, hpair⟩ := Option.map_eq_some_iff.mp h
    cases hpair
    exact ⟨_, rfl⟩
  · rw [hpeel.inside hd] at h
    obtain ⟨r, _, hpair⟩ := Option.map_eq_some_iff.mp h
    cases hpair
    exact ⟨[], by rw [List.append_nil]; rfl⟩

/-- Behind as many tokens as are scanned, only the last one may go on. -/
theorem scan_append_of_length {n : ℕ} {m g : List Byte} {ws : List (List Byte)} {rest : List Byte}
    (hlen : (tokensOf (n + 1) m).length = n + 1) (h : scan (n + 1) (m ++ g) = some (ws, rest)) :
    ∃ front last x, tokensOf (n + 1) m = front ++ [last] ∧ ws = front ++ [last ++ x] ∧
      (x = [] ↔ (scan (n + 1) m = none → g.takeWhile isToken = [])) := by
  induction n generalizing m ws with
  | zero =>
    obtain ⟨a, ha⟩ := List.length_eq_one_iff.mp hlen
    obtain ⟨d, hpeel, _⟩ := exists_peeled ha
    by_cases hd : d = []
    · have hself : scan 1 m = none := by
        rw [← List.append_nil m, hpeel.atEnd hd]
        rfl
      rw [hpeel.atEnd hd] at h
      obtain ⟨_, h⟩ := Option.ite_none_left_eq_some.mp h
      cases h
      exact ⟨[], a, g.takeWhile isToken, ha, rfl, (imp_iff_right hself).symm⟩
    · have hself : scan 1 m ≠ none := by
        rw [← List.append_nil m, hpeel.inside hd]
        exact Option.some_ne_none _
      rw [hpeel.inside hd] at h
      cases h
      refine ⟨[], a, [], ha, ?_, iff_of_true rfl fun hnone => absurd hnone hself⟩
      rw [List.append_nil]
      rfl
  | succ n ih =>
    obtain ⟨a, ws0, ha⟩ := List.exists_cons_of_length_eq_add_one hlen
    obtain ⟨d, hpeel, hd0⟩ := exists_peeled ha
    have hlen' : (tokensOf (n + 1) d).length = n + 1 := by
      rw [hd0]
      rw [ha] at hlen
      exact Nat.succ.inj hlen
    have hd : d ≠ [] := by
      rintro rfl
      have hnone : tokensOf (n + 1) [] = [] := rfl
      rw [hnone] at hlen'
      cases hlen'
    have hself : scan (n + 2) m = none ↔ scan (n + 1) d = none := by
      rw [← List.append_nil m, hpeel.inside hd, List.append_nil]
      exact Option.map_eq_none_iff
    rw [hpeel.inside hd] at h
    obtain ⟨r, hr, hpair⟩ := Option.map_eq_some_iff.mp h
    cases hpair
    obtain ⟨front, last, x, hfront, hws, hx⟩ := ih hlen' hr
    refine ⟨a :: front, last, x, ?_, ?_, ?_⟩
    · rw [ha, ← hd0, hfront]
      rfl
    · rw [hws]
      rfl
    · rw [hself]
      exact hx

end OsTasks.Lib

import OsTasks.Lib.Decimal

/-! File names, and the patterns of `fnmatch` in the POSIX locale, where a character is a byte. -/
namespace OsTasks.Lib

/-- What a directory can name an entry. -/
structure FileName where
  bytes : List Byte
  ne_nil : bytes ≠ []
  no_slash : 0x2f ∉ bytes
  no_nul : 0 ∉ bytes

/-- Where the scan of a bracket expression stands. -/
inductive BracketScan where
  | start
  /-- before the first item, which may be a `]` -/
  | first
  | items
  /-- behind a `[` in the list -/
  | opened
  /-- in a class, a collating symbol or an equivalence class, up to the delimiter and a `]` -/
  | inClass (delimiter : Byte)
  | classEnd (delimiter : Byte)
  | escaped

/-- How many bytes a bracket expression has behind its `[`, the `]` that ends it included. -/
def bracketLength : BracketScan → List Byte → Option ℕ
  | _, [] => none
  | .start, b :: s => (bracketLength (if b ∈ ascii "!^" then .first else item b) s).map (· + 1)
  | .first, b :: s => (bracketLength (item b) s).map (· + 1)
  | .items, b :: s => if b = 0x5d then some 1 else (bracketLength (item b) s).map (· + 1)
  | .opened, b :: s =>
    if b = 0x5d then some 1
    else if b ∈ ascii ":.=" ∧ [b, 0x5d] <:+: s then (bracketLength (.inClass b) s).map (· + 1)
    else (bracketLength (item b) s).map (· + 1)
  | .inClass d, b :: s =>
    (bracketLength (if b = d then .classEnd d else .inClass d) s).map (· + 1)
  | .classEnd d, b :: s =>
    (bracketLength (if b = 0x5d then .items else if b = d then .classEnd d else .inClass d) s).map
      (· + 1)
  | .escaped, _ :: s => (bracketLength .items s).map (· + 1)
where
  /-- behind the byte `b` of the list -/
  item (b : Byte) : BracketScan :=
    if b = 0x5b then .opened else if b = 0x5c then .escaped else .items

inductive Element where
  | literal (b : Byte)
  | any
  | star
  | bracket (text : List Byte)
  /-- a backslash with nothing behind it -/
  | never
  deriving DecidableEq

def Element.isLiteral : Element → Bool
  | .literal _ => true
  | _ => false

/-- The element that begins with the byte `b`, and how many of the bytes behind `b` it has. -/
def firstElement (b : Byte) (s : List Byte) : Element × ℕ :=
  if b = 0x2a then (.star, 0)
  else if b = 0x3f then (.any, 0)
  else if b = 0x5b then
    match bracketLength .start s with
    | some k => (.bracket (s.take k), k)
    | none => (.literal b, 0)
  else if b = 0x5c then
    match s.head? with
    | some c => (.literal c, 1)
    | none => (.never, 0)
  else (.literal b, 0)

/-- The elements behind the next `skip` bytes. -/
def elementsFrom : ℕ → List Byte → List Element
  | _, [] => []
  | skip + 1, _ :: s => elementsFrom skip s
  | 0, b :: s => (firstElement b s).1 :: elementsFrom (firstElement b s).2 s

def elements (pattern : List Byte) : List Element := elementsFrom 0 pattern

/-- No byte of the pattern stands for others. -/
def allLiteral (pattern : List Byte) : Bool := (elements pattern).all Element.isLiteral

section Fnmatch
/- The bytes that a bracket expression lists, which its ranges and classes decide. -/
variable (lists : List Byte → Byte → Bool)

def Element.accepts : Element → Byte → Bool
  | .literal c, b => c = b
  | .any, _ => true
  | .bracket text, b => lists text b
  | .star, _ => false
  | .never, _ => false

def fnmatch : List Element → List Byte → Bool
  | [], s => s.isEmpty
  | .star :: es, s => s.tails.any (fnmatch es)
  | e :: es, b :: s => e.accepts lists b && fnmatch es s
  | _ :: _, [] => false

variable {lists} {es es' : List Element} {e : Element} {b : Byte} {s t : List Byte}

theorem fnmatch_nil : fnmatch lists [] s = true ↔ s = [] := by
  unfold fnmatch
  exact List.isEmpty_iff

theorem fnmatch_star : fnmatch lists (.star :: es) s = true ↔
    ∃ u v, s = u ++ v ∧ fnmatch lists es v = true := by
  rw [fnmatch, List.any_eq_true]
  constructor
  · rintro ⟨v, hv, h⟩
    obtain ⟨u, rfl⟩ := (List.mem_tails v s).mp hv
    exact ⟨u, v, rfl, h⟩
  · rintro ⟨u, v, rfl, h⟩
    exact ⟨v, (List.mem_tails v _).mpr (List.suffix_append u v), h⟩

theorem fnmatch_cons (he : e ≠ .star) : fnmatch lists (e :: es) s = true ↔
    ∃ b t, s = b :: t ∧ e.accepts lists b = true ∧ fnmatch lists es t = true := by
  cases s with
  | nil => cases e <;> simp_all [fnmatch]
  | cons b t => cases e <;> simp_all [fnmatch]

theorem fnmatch_append : fnmatch lists (es ++ es') s = true ↔
    ∃ u v, s = u ++ v ∧ fnmatch lists es u = true ∧ fnmatch lists es' v = true := by
  induction es generalizing s with
  | nil =>
    constructor
    · intro h
      exact ⟨[], s, rfl, rfl, h⟩
    · rintro ⟨u, v, rfl, hu, hv⟩
      rw [fnmatch_nil.mp hu]
      exact hv
  | cons e es ih =>
    by_cases he : e = .star
    · rw [he, List.cons_append, fnmatch_star]
      constructor
      · rintro ⟨u, v, rfl, h⟩
        obtain ⟨v, w, rfl, hv, hw⟩ := ih.mp h
        exact ⟨u ++ v, w, (List.append_assoc u v w).symm, fnmatch_star.mpr ⟨u, v, rfl, hv⟩, hw⟩
      · rintro ⟨u, w, rfl, hu, hw⟩
        obtain ⟨u, v, rfl, hv⟩ := fnmatch_star.mp hu
        exact ⟨u, v ++ w, List.append_assoc u v w, ih.mpr ⟨v, w, rfl, hv, hw⟩⟩
    · rw [List.cons_append, fnmatch_cons he]
      constructor
      · rintro ⟨b, t, rfl, hb, h⟩
        obtain ⟨v, w, rfl, hv, hw⟩ := ih.mp h
        exact ⟨b :: v, w, rfl, (fnmatch_cons he).mpr ⟨b, v, rfl, hb, hv⟩, hw⟩
      · rintro ⟨u, w, rfl, hu, hw⟩
        obtain ⟨b, v, rfl, hb, hv⟩ := (fnmatch_cons he).mp hu
        exact ⟨b, v ++ w, rfl, hb, ih.mpr ⟨v, w, rfl, hv, hw⟩⟩

theorem length_of_fnmatch (hstar : .star ∉ es) (h : fnmatch lists es s = true) :
    s.length = es.length := by
  induction es generalizing s with
  | nil =>
    rw [fnmatch_nil.mp h]
    rfl
  | cons e es ih =>
    obtain ⟨he, hes⟩ := not_or.mp (List.mem_cons.not.mp hstar)
    obtain ⟨b, t, rfl, _, ht⟩ := (fnmatch_cons (Ne.symm he)).mp h
    rw [List.length_cons, List.length_cons, ih hes ht]

theorem fnmatch_literals (n : List Byte) : fnmatch lists (n.map .literal) s = true ↔ s = n := by
  induction n generalizing s with
  | nil => exact fnmatch_nil
  | cons c n ih =>
    rw [List.map_cons, fnmatch_cons (by simp)]
    constructor
    · rintro ⟨b, t, rfl, hb, ht⟩
      rw [ih.mp ht, of_decide_eq_true hb]
    · rintro rfl
      exact ⟨c, n, rfl, decide_eq_true rfl, ih.mpr rfl⟩

end Fnmatch

section Elements
variable {s : List Byte}

theorem bracketLength_pos {scan : BracketScan} {k : ℕ} (h : bracketLength scan s = some k) :
    0 < k := by
  unfold bracketLength at h
  split at h <;> try split_ifs at h
  all_goals simp_all only [Option.map_eq_some_iff, Option.some.injEq, reduceCtorEq]
  all_goals omega

theorem length_elementsFrom_le (skip : ℕ) (s : List Byte) :
    (elementsFrom skip s).length ≤ s.length - skip := by
  induction s generalizing skip with
  | nil => cases skip <;> exact Nat.zero_le _
  | cons b s ih =>
    cases skip with
    | zero =>
      have hrest := ih (firstElement b s).2
      rw [elementsFrom, List.length_cons, List.length_cons]
      omega
    | succ skip =>
      have hrest := ih skip
      rw [elementsFrom, List.length_cons]
      omega

theorem length_firstElement {b : Byte} {text : List Byte}
    (h : (firstElement b s).1 = .bracket text) :
    0 < (firstElement b s).2 ∧ 0 < s.length := by
  unfold firstElement at h ⊢
  split_ifs at h ⊢
  · cases hk : bracketLength .start s with
    | some k =>
      refine ⟨bracketLength_pos hk, ?_⟩
      cases s with
      | nil => cases hk
      | cons c s => exact Nat.succ_pos _
    | none =>
      rw [hk] at h
      cases h
  · cases hc : s.head? with
    | some c =>
      rw [hc] at h
      cases h
    | none =>
      rw [hc] at h
      cases h

/-- Where one of the elements is a bracket expression, they are fewer than the bytes. -/
theorem length_elementsFrom_lt {skip : ℕ} {text : List Byte}
    (h : .bracket text ∈ elementsFrom skip s) : (elementsFrom skip s).length < s.length - skip := by
  induction s generalizing skip with
  | nil => cases skip <;> cases h
  | cons b s ih =>
    cases skip with
    | zero =>
      rw [elementsFrom] at h ⊢
      rw [List.length_cons, List.length_cons]
      rcases List.mem_cons.mp h with hfirst | hrest
      · obtain ⟨hskip, hs⟩ := length_firstElement hfirst.symm
        have hle := length_elementsFrom_le (firstElement b s).2 s
        omega
      · have hlt := ih hrest
        omega
    | succ skip =>
      rw [elementsFrom] at h ⊢
      have hlt := ih h
      rw [List.length_cons]
      omega

theorem firstElement_of_isLiteral {b : Byte} (hb : b ≠ 0x5c)
    (h : (firstElement b s).1.isLiteral = true) : firstElement b s = (.literal b, 0) := by
  unfold firstElement at h ⊢
  rw [if_neg hb] at h ⊢
  split_ifs at h ⊢
  · cases h
  · cases h
  · cases hk : bracketLength .start s with
    | some k =>
      rw [hk] at h
      cases h
    | none => rfl
  · rfl

theorem elementsFrom_of_isLiteral (hback : 0x5c ∉ s)
    (h : ∀ e ∈ elementsFrom 0 s, e.isLiteral = true) : elementsFrom 0 s = s.map .literal := by
  induction s with
  | nil => rfl
  | cons b s ih =>
    obtain ⟨hb, hs⟩ := not_or.mp (List.mem_cons.not.mp hback)
    rw [elementsFrom] at h ⊢
    obtain ⟨hfirst, hrest⟩ := List.forall_mem_cons.mp h
    have hliteral := firstElement_of_isLiteral (Ne.symm hb) hfirst
    rw [hliteral] at hrest ⊢
    rw [ih hs hrest, List.map_cons]

/-- The bytes without which a pattern has no element of its own. -/
theorem allLiteral_of_plain (h : ∀ b ∈ s, b ∉ ascii "*?[\\") : allLiteral s = true := by
  have hall : ∀ skip, (elementsFrom skip s).all Element.isLiteral = true := by
    induction s with
    | nil =>
      intro skip
      cases skip <;> rfl
    | cons b s ih =>
      obtain ⟨hb, hs⟩ := List.forall_mem_cons.mp h
      intro skip
      cases skip with
      | zero =>
        have hfirst : firstElement b s = (.literal b, 0) := by
          have hne : b ≠ 0x2a ∧ b ≠ 0x3f ∧ b ≠ 0x5b ∧ b ≠ 0x5c := by simpa [ascii] using hb
          obtain ⟨hstar, hany, hbracket, hback⟩ := hne
          rw [firstElement, if_neg hstar, if_neg hany, if_neg hbracket, if_neg hback]
        rw [elementsFrom, hfirst, List.all_cons, ih hs]
        rfl
      | succ skip => exact ih hs skip
  exact hall 0

end Elements

/-- A byte that a file name can have and that is not `b`. -/
def otherByte (b : Byte) : Byte := if b = 0x61 then 0x62 else 0x61

theorem otherByte_spec (b : Byte) : otherByte b ≠ b ∧ otherByte b ≠ 0x2f ∧ otherByte b ≠ 0 := by
  unfold otherByte
  split_ifs with hb
  · rw [hb]
    decide
  · exact ⟨Ne.symm hb, by decide, by decide⟩

/-- A name with the bytes `b` put in place of others. -/
def FileName.replace {n : FileName} {u v w : List Byte} (b : Byte) (h : n.bytes = u ++ v ++ w) :
    FileName where
  bytes := u ++ otherByte b :: w
  ne_nil := by simp
  no_slash := by
    have hn := n.no_slash
    have hb := (otherByte_spec b).2.1
    rw [h] at hn
    simp_all [Ne.symm hb]
  no_nul := by
    have hn := n.no_nul
    have hb := (otherByte_spec b).2.2
    rw [h] at hn
    simp_all [Ne.symm hb]

section MatchesOnly
variable {lists : List Byte → Byte → Bool} {n : FileName} {es : List Element} {e : Element}

/-- The elements that take any byte take another as well. -/
theorem not_mem_of_matchesOnly
    (h : ∀ m : FileName, fnmatch lists es m.bytes = true ↔ m = n) : .star ∉ es ∧ .any ∉ es := by
  have hself := (h n).mpr rfl
  constructor
  · intro hmem
    obtain ⟨es₁, es₂, rfl⟩ := List.append_of_mem hmem
    obtain ⟨u, v, hn, hu, hv⟩ := fnmatch_append.mp hself
    obtain ⟨v, w, rfl, hw⟩ := fnmatch_star.mp hv
    have hsplit : n.bytes = u ++ [] ++ (v ++ w) := by simpa using hn
    have hmatch := (h (FileName.replace 0 hsplit)).mp <| fnmatch_append.mpr
      ⟨u, _, rfl, hu, fnmatch_star.mpr ⟨otherByte 0 :: v, w, rfl, hw⟩⟩
    have hlen := congrArg (fun m : FileName => m.bytes.length) hmatch
    simp only [FileName.replace, hn, List.length_append, List.length_cons] at hlen
    omega
  · intro hmem
    obtain ⟨es₁, es₂, rfl⟩ := List.append_of_mem hmem
    obtain ⟨u, v, hn, hu, hv⟩ := fnmatch_append.mp hself
    obtain ⟨b, w, rfl, _, hw⟩ := (fnmatch_cons (by decide)).mp hv
    have hsplit : n.bytes = u ++ [b] ++ w := by simpa using hn
    have hmatch := (h (FileName.replace b hsplit)).mp <| fnmatch_append.mpr
      ⟨u, _, rfl, hu, (fnmatch_cons (by decide)).mpr ⟨otherByte b, w, rfl, rfl, hw⟩⟩
    have hbytes : u ++ otherByte b :: w = u ++ b :: w :=
      (congrArg FileName.bytes hmatch).trans hn
    exact (otherByte_spec b).1 (List.cons.inj (List.append_cancel_left hbytes)).1

/-- As a pattern, a name without backslashes matches itself alone where no byte of it stands for
others. -/
theorem matchesOnly_iff (lists : List Byte → Byte → Bool) (hback : 0x5c ∉ n.bytes) :
    (∀ m : FileName, fnmatch lists (elements n.bytes) m.bytes = true ↔ m = n) ↔
      allLiteral n.bytes = true := by
  constructor
  · intro h
    obtain ⟨hstar, hany⟩ := not_mem_of_matchesOnly h
    have hself := (h n).mpr rfl
    have hlen := length_of_fnmatch hstar hself
    refine List.all_eq_true.mpr fun e he => ?_
    cases e with
    | literal b => rfl
    | any => exact absurd he hany
    | star => exact absurd he hstar
    | bracket text =>
      have hlt := length_elementsFrom_lt he
      unfold elements at hlen
      omega
    | never =>
      obtain ⟨es₁, es₂, hes⟩ := List.append_of_mem he
      rw [hes] at hself
      obtain ⟨u, v, _, _, hv⟩ := fnmatch_append.mp hself
      obtain ⟨b, w, _, hb, _⟩ := (fnmatch_cons (by decide)).mp hv
      cases hb
  · intro h m
    have hliterals := elementsFrom_of_isLiteral hback (List.all_eq_true.mp h)
    unfold elements
    rw [hliterals, fnmatch_literals]
    constructor
    · intro hm
      cases m
      cases n
      congr
    · rintro rfl
      rfl

end MatchesOnly

end OsTasks.Lib

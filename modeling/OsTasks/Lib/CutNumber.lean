import OsTasks.Lib.ScanNumber

/-! How much of a number's text is needed to read the number back. -/
namespace OsTasks.Lib

section Lf
variable {q : ℚ} {p : List Byte}

/-- How many characters of its text are needed to read the number back. -/
def significantLf (q : ℚ) : ℕ :=
  if millionths q = 0 then 0
  else
    (sign (q < 0)).length + (decimal (millionths q / 10 ^ 6)).length +
      if millionths q % 10 ^ 6 = 0 then 0 else 1 + trimmedLength (padded 6 (millionths q % 10 ^ 6))

/-- What a `%lf` leaves in a field that was zero. -/
def valueLf (m : List Byte) : ℚ := (scanLf m).elim 0 Prod.fst

theorem rounded_eq_zero_iff : rounded q = 0 ↔ millionths q = 0 := by
  have hzero : rounded q = 0 ↔ (millionths q / 10 ^ 6 : ℚ) = 0 := by
    unfold rounded
    cases decide (q < 0)
    · exact Iff.rfl
    · exact neg_eq_zero
  rw [hzero, div_eq_zero_iff]
  simp

/-- Where a `%lf` text can be cut off: within the sign, within the digits before the point, or
after it. -/
theorem scanLf_cut (h : p <+: fixed6 q) :
    (p <+: sign (q < 0) ∧ scanLf p = none) ∨
    (∃ i, i ≠ [] ∧ i <+: decimal (millionths q / 10 ^ 6) ∧ p = sign (q < 0) ++ i ∧
      scanLf p = some (withSign (decide (q < 0)) (digitsVal i : ℚ), [])) ∨
    ∃ f, f <+: padded 6 (millionths q % 10 ^ 6) ∧
      p = sign (q < 0) ++ (decimal (millionths q / 10 ^ 6) ++ point :: f) ∧
      scanLf p = some (withSign (decide (q < 0))
        ((millionths q / 10 ^ 6 : ℕ) + digitsVal f / 10 ^ f.length : ℚ), []) := by
  unfold fixed6 at h
  rw [List.append_assoc] at h
  rcases isPrefix_append_cases h with hp | ⟨c, hc, hcp, rfl⟩
  · left
    refine ⟨hp, ?_⟩
    rcases hneg : decide (q < 0) with _ | _ <;> rw [hneg] at hp
    · rw [List.prefix_nil.mp hp]
      exact scanLf_sign false
    · rcases List.prefix_cons_iff.mp hp with rfl | ⟨t, rfl, ht⟩
      · exact scanLf_sign false
      · rw [List.prefix_nil.mp ht]
        exact scanLf_sign true
  right
  rcases isPrefix_append_cases hcp with hi | ⟨d, hd, hdp, rfl⟩
  · left
    refine ⟨c, hc, hi, rfl, ?_⟩
    have hdigits : ∀ b ∈ c, isDigit b = true := fun b hb => isDigit_of_mem_decimal (hi.subset hb)
    have hscan := scanLf_int (decide (q < 0)) hc hdigits stops_nil
      (Option.some_ne_none point).symm
    rwa [List.append_nil] at hscan
  · right
    rcases List.prefix_cons_iff.mp hdp with rfl | ⟨f, rfl, hf⟩
    · exact absurd rfl hd
    refine ⟨f, hf, rfl, ?_⟩
    have hint : ∀ b ∈ decimal (millionths q / 10 ^ 6), isDigit b = true :=
      fun b hb => isDigit_of_mem_decimal hb
    have hfrac : ∀ b ∈ f, isDigit b = true := fun b hb => isDigit_of_mem_padded (hf.subset hb)
    have hscan := scanLf_frac (decide (q < 0)) (decimal_ne_nil _) hint hfrac stops_nil
    rwa [List.append_nil, digitsVal_decimal] at hscan

theorem scanLf_cut_rest (h : p <+: fixed6 q) :
    scanLf p = none ∨ ∃ v, scanLf p = some (v, []) := by
  rcases scanLf_cut h with ⟨_, hs⟩ | ⟨_, _, _, _, hs⟩ | ⟨_, _, _, hs⟩
  · exact Or.inl hs
  · exact Or.inr ⟨_, hs⟩
  · exact Or.inr ⟨_, hs⟩

theorem millionths_ne_zero (h : millionths q % 10 ^ 6 ≠ 0) : millionths q ≠ 0 := by
  intro h0
  rw [h0] at h
  exact h rfl

theorem int_eq_rounded_iff {i : List Byte} (hi : i <+: decimal (millionths q / 10 ^ 6)) :
    withSign (decide (q < 0)) (digitsVal i : ℚ) = rounded q ↔
      significantLf q ≤ (sign (q < 0)).length + i.length := by
  obtain ⟨hle, hiff⟩ := digitsVal_cut_decimal hi
  have hsplit := Nat.div_add_mod (millionths q) (10 ^ 6)
  have hilen := hi.length_le
  unfold significantLf
  rw [rounded_eq, withSign_inj]
  by_cases hF : millionths q % 10 ^ 6 = 0
  · have hwhole : (i = decimal (millionths q / 10 ^ 6)) ↔
        (decimal (millionths q / 10 ^ 6)).length ≤ i.length := by
      constructor
      · intro he
        rw [← he]
      · exact hi.eq_of_length_le
    have hzero : millionths q = 0 ↔ millionths q / 10 ^ 6 = 0 := by omega
    rw [hF, Nat.cast_zero, zero_div, add_zero, Nat.cast_inj, hiff, hwhole]
    simp only [hzero, if_true, add_zero]
    split_ifs with h0
    · exact iff_of_true (Or.inl h0) (Nat.zero_le _)
    · omega
  · have hcast : (digitsVal i : ℚ) ≤ (millionths q / 10 ^ 6 : ℕ) := by exact_mod_cast hle
    have hpos : (0 : ℚ) < (millionths q % 10 ^ 6 : ℕ) / 10 ^ 6 := by
      apply div_pos _ (by positivity)
      exact_mod_cast Nat.pos_of_ne_zero hF
    have hlt : (digitsVal i : ℚ) < (millionths q / 10 ^ 6 : ℕ) +
        (millionths q % 10 ^ 6 : ℕ) / 10 ^ 6 := by linarith
    rw [if_neg (millionths_ne_zero hF), if_neg hF]
    exact iff_of_false hlt.ne (by omega)

theorem frac_eq_rounded_iff {f : List Byte} (hf : f <+: padded 6 (millionths q % 10 ^ 6)) :
    withSign (decide (q < 0))
        ((millionths q / 10 ^ 6 : ℕ) + digitsVal f / 10 ^ f.length : ℚ) = rounded q ↔
      significantLf q ≤ (sign (q < 0)).length +
        ((decimal (millionths q / 10 ^ 6)).length + (f.length + 1)) := by
  have hfrac : millionths q % 10 ^ 6 < 10 ^ 6 := Nat.mod_lt _ (by norm_num)
  unfold significantLf
  rw [rounded_eq, withSign_inj, add_right_inj, digitsVal_cut_padded (by norm_num) hfrac hf]
  by_cases hF : millionths q % 10 ^ 6 = 0
  · have htrim : trimmedLength (padded 6 (millionths q % 10 ^ 6)) ≤ f.length := by
      rw [hF] at hf ⊢
      obtain ⟨r, hr⟩ := hf
      have hzero : digitsVal (padded 6 0) = 0 := digitsVal_padded 6 0
      rw [← hr] at hzero ⊢
      rw [trimmedLength_le_iff]
      intro b hb
      have hdigits : ∀ b ∈ f ++ r, isDigit b = true := by
        rw [hr]
        exact fun b hb => isDigit_of_mem_padded hb
      exact (digitsVal_eq_zero_iff hdigits).mp hzero b (List.mem_append_right _ hb)
    refine iff_of_true htrim ?_
    split_ifs <;> omega
  · rw [if_neg (millionths_ne_zero hF), if_neg hF]
    omega

/-- The beginning of a `%lf` text is read as the number exactly when the rest is not needed. -/
theorem valueLf_cut_iff (h : p <+: fixed6 q) :
    valueLf p = rounded q ↔ significantLf q ≤ p.length := by
  unfold valueLf
  rcases scanLf_cut h with ⟨hp, hs⟩ | ⟨i, _, hi, rfl, hs⟩ | ⟨f, hf, rfl, hs⟩
  · have hle := hp.length_le
    have hint : 0 < (decimal (millionths q / 10 ^ 6)).length :=
      List.length_pos_of_ne_nil (decimal_ne_nil _)
    unfold significantLf
    rw [hs, Option.elim_none, eq_comm, rounded_eq_zero_iff]
    split_ifs <;> omega
  · rw [hs, Option.elim_some, int_eq_rounded_iff hi, List.length_append]
  · rw [hs, Option.elim_some, frac_eq_rounded_iff hf]
    simp only [List.length_append, List.length_cons]

end Lf

section Lld
variable {z : ℤ} {p : List Byte}

/-- How many characters of its text are needed to read the integer back. -/
def significantLld (z : ℤ) : ℕ := if z = 0 then 0 else (signedDecimal z).length

/-- What a `%lld` leaves in a field that was zero. -/
def valueLld (m : List Byte) : ℤ := (scanLld m).elim 0 Prod.fst

/-- The beginning of a `%lld` text is read as a number between zero and the whole one, and as the
whole one exactly when the rest is not needed. -/
theorem valueLld_cut (h : p <+: signedDecimal z) :
    (min 0 z ≤ valueLld p ∧ valueLld p ≤ max 0 z) ∧
      (valueLld p = z ↔ significantLld z ≤ p.length) := by
  have hlen : 0 < (decimal z.natAbs).length := List.length_pos_of_ne_nil (decimal_ne_nil _)
  unfold significantLld valueLld
  unfold signedDecimal at h ⊢
  rw [List.length_append]
  rcases isPrefix_append_cases h with hp | ⟨i, hi, hcut, rfl⟩
  · have hs : scanLld p = none := by
      rcases hneg : decide (z < 0) with _ | _ <;> rw [hneg] at hp
      · rw [List.prefix_nil.mp hp]
        exact scanLld_sign false
      · rcases List.prefix_cons_iff.mp hp with rfl | ⟨t, rfl, ht⟩
        · exact scanLld_sign false
        · rw [List.prefix_nil.mp ht]
          exact scanLld_sign true
    have hle := hp.length_le
    rw [hs, Option.elim_none]
    refine ⟨⟨min_le_left _ _, le_max_left _ _⟩, ?_⟩
    split_ifs <;> omega
  · have hdigits : ∀ b ∈ i, isDigit b = true := fun b hb => isDigit_of_mem_decimal (hcut.subset hb)
    have hs := scanLld_int (decide (z < 0)) hi hdigits stops_nil
    obtain ⟨hle, hiff⟩ := digitsVal_cut_decimal hcut
    have hwhole : i = decimal z.natAbs ↔ (decimal z.natAbs).length ≤ i.length := by
      constructor
      · intro he
        rw [← he]
      · exact hcut.eq_of_length_le
    have hval : withSign (decide (z < 0)) (digitsVal i : ℤ) = z ↔ digitsVal i = z.natAbs := by
      constructor
      · intro he
        have hsame := he.trans (withSign_natAbs z).symm
        exact_mod_cast withSign_inj.mp hsame
      · intro he
        rw [he]
        exact withSign_natAbs z
    have hbound : min 0 z ≤ withSign (decide (z < 0)) (digitsVal i : ℤ) ∧
        withSign (decide (z < 0)) (digitsVal i : ℤ) ≤ max 0 z := by
      unfold withSign
      by_cases hneg : z < 0
      · rw [decide_eq_true hneg, if_pos rfl]
        omega
      · rw [decide_eq_false hneg]
        change min 0 z ≤ (digitsVal i : ℤ) ∧ (digitsVal i : ℤ) ≤ max 0 z
        omega
    rw [List.append_nil] at hs
    rw [hs, Option.elim_some, hval, hiff, hwhole, Int.natAbs_eq_zero, List.length_append]
    refine ⟨hbound, ?_⟩
    split_ifs with h0
    · exact iff_of_true (Or.inl h0) (Nat.zero_le _)
    · omega

end Lld

end OsTasks.Lib

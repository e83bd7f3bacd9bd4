import OsTasks.Integral.Distributed
import OsTasks.Integral.Mean

/-! What the master of task_8 and its workers compute together: the mean of all their results over
all values of `rand_r`, and how far it is from the integral that `main` asks for. -/
namespace OsTasks.Integral
open OsTasks.Lib
open scoped BigOperators

/-- The squares of the workers' shares of all cores. -/
def squaredShares (workers : List Worker) : ℚ :=
  (workers.map fun w => ((w.numOfCores.val : ℚ) / coreSum workers) ^ 2).sum

section Shares
variable {workers : List Worker}

theorem numOfCores_lt_coreSum (hc : ∀ w ∈ workers, 1 ≤ w.numOfCores.val)
    (h2 : 2 ≤ workers.length) {w : Worker} (hw : w ∈ workers) :
    w.numOfCores.val + 1 ≤ coreSum workers := by
  obtain ⟨before, after, rfl⟩ := List.append_of_mem hw
  have hothers : before ++ after ≠ [] := by
    intro hnil
    have hlength := congrArg List.length hnil
    rw [List.length_append, List.length_cons] at h2
    rw [List.length_append, List.length_nil] at hlength
    omega
  have hpos : 0 < coreSum (before ++ after) := by
    apply coreSum_pos hothers
    intro w' hw'
    rcases List.mem_append.mp hw' with h | h
    · exact hc w' (List.mem_append_left _ h)
    · exact hc w' (List.mem_append_right _ (List.mem_cons_of_mem _ h))
  have hsum : coreSum (before ++ w :: after) =
      coreSum (before ++ after) + w.numOfCores.val := by
    unfold coreSum
    rw [List.map_append, List.sum_append, List.map_append, List.sum_append, List.map_cons,
      List.sum_cons]
    ring
  omega

theorem squaredShares_of_one (hc : ∀ w ∈ workers, 1 ≤ w.numOfCores.val)
    (h1 : workers.length = 1) : squaredShares workers = 1 := by
  obtain ⟨w, rfl⟩ := List.length_eq_one_iff.mp h1
  have hcores := hc w List.mem_cons_self
  have hne : (w.numOfCores.val : ℚ) ≠ 0 := by
    have hint : w.numOfCores.val ≠ 0 := by omega
    exact_mod_cast hint
  have hsum : coreSum [w] = w.numOfCores.val := List.sum_singleton
  unfold squaredShares
  rw [List.map_singleton, List.sum_singleton, hsum, div_self hne, one_pow]

theorem squaredShares_le (hc : ∀ w ∈ workers, 1 ≤ w.numOfCores.val) (h2 : 2 ≤ workers.length) :
    squaredShares workers ≤ 1 - 1 / coreSum workers := by
  have hn : workers ≠ [] := by
    rintro rfl
    cases h2
  have hpos : (0 : ℚ) < coreSum workers := by exact_mod_cast coreSum_pos hn hc
  have hterm : ∀ w ∈ workers, ((w.numOfCores.val : ℚ) / coreSum workers) ^ 2 ≤
      (1 - 1 / coreSum workers) * w.numOfCores.val / coreSum workers := by
    intro w hw
    have hcore : (0 : ℚ) ≤ w.numOfCores.val := by exact_mod_cast zero_le_one.trans (hc w hw)
    have hlt : (w.numOfCores.val : ℚ) + 1 ≤ coreSum workers := by
      exact_mod_cast numOfCores_lt_coreSum hc h2 hw
    have hshare : (w.numOfCores.val : ℚ) / coreSum workers ≤ 1 - 1 / coreSum workers := by
      rw [div_le_iff₀ hpos, sub_mul, one_mul, one_div_mul_cancel hpos.ne']
      linarith
    rw [sq, mul_div_assoc]
    exact mul_le_mul_of_nonneg_right hshare (div_nonneg hcore hpos.le)
  calc squaredShares workers
      ≤ (workers.map fun w =>
          (1 - 1 / coreSum workers : ℚ) * w.numOfCores.val / coreSum workers).sum :=
        List.sum_le_sum hterm
    _ = 1 - 1 / coreSum workers := sum_widths (coreSum_pos hn hc) _

end Shares

theorem nine_div_randMax_le : (9 : ℚ) / (randMax + 1) ≤ 1 / 2000000 := by
  have hcast : ((randMax : ℕ) : ℚ) + 1 = 2 ^ 31 := by
    have hnat : randMax + 1 = 2 ^ 31 := rfl
    exact_mod_cast hnat
  rw [hcast]
  norm_num

section Slab
variable {total cores : ℤ} {t : Task} {as : List McAction} {s : McState} {samples : List Sample}

/-- What a worker's result is on the mean: half the square of the right end it is sent. -/
theorem abs_expect_slab_sub_le (hslab : SlabOf mainTask total cores t) (htotal : 0 < total)
    (hcores : 1 ≤ cores) (hle : cores ≤ total) {p : ℕ}
    (hp : truncate (t.decoded.numOfPoints.val / (maxCores : ℕ)) = p) (h1 : 1 ≤ p)
    (hrun : (monteCarlo t.decoded maxCores).run as = some (s, samples))
    (hret : s.Returned maxCores) :
    |𝔼 d : Fin (drawers as).length → Draw,
        estimateOf t.decoded maxCores (redraw as (List.ofFn d)) - t.x2 ^ 2 / 2| ≤ 1 / 500000 := by
  obtain ⟨hx1, hy1, hy2⟩ := hslab.main_rounded
  obtain ⟨hright, _⟩ := hslab.main_nonneg htotal hcores
  have hden : (0 : ℚ) < total := by exact_mod_cast htotal
  have hnum : (0 : ℚ) ≤ cores := by exact_mod_cast zero_le_one.trans hcores
  have hfrac : (cores : ℚ) ≤ total := by exact_mod_cast hle
  have hx0 : 0 ≤ t.x2 := by
    rw [hslab.main_right]
    positivity
  have hx3 : t.x2 ≤ 3 := by
    rw [hslab.main_right, div_le_iff₀ hden]
    linarith
  have hr3 : rounded t.x2 ≤ 3 := by
    have hmillion : (3 : ℚ) = (3000000 : ℤ) / 10 ^ 6 := by norm_num
    rw [hmillion] at hx3 ⊢
    exact rounded_le hx0 hx3
  have hinside : GraphInside t.decoded := by
    constructor
    · change rounded t.x1 ≤ rounded t.x2
      rw [hx1]
      exact hright
    · change rounded t.y1 ≤ rounded t.x1
      rw [hy1, hx1]
    · change rounded t.x2 ≤ rounded t.y2
      rw [hy2]
      exact hr3
  have hnear := abs_expect_estimateOf_sub_le (by decide) hinside hp h1 hrun hret
  change |_ - ((rounded t.x1 + rounded t.x2) / 2 - rounded t.y1) * (rounded t.x2 - rounded t.x1)| ≤
    (rounded t.x2 - rounded t.x1) * (rounded t.y2 - rounded t.y1) / (randMax + 1) at hnear
  rw [hx1, hy1, hy2] at hnear
  have hcoarse : (rounded t.x2 - 0) * (3 - 0) / ((randMax : ℚ) + 1) ≤ 1 / 2000000 := by
    refine le_trans ?_ nine_div_randMax_le
    apply div_le_div_of_nonneg_right _ (by positivity)
    linarith
  have hround : |((0 + rounded t.x2) / 2 - 0) * (rounded t.x2 - 0) - t.x2 ^ 2 / 2| ≤
      3 / 2000000 := by
    have hdiff : ((0 + rounded t.x2) / 2 - 0) * (rounded t.x2 - 0) - t.x2 ^ 2 / 2 =
        (rounded t.x2 - t.x2) * ((rounded t.x2 + t.x2) / 2) := by ring
    have hmiddle : |(rounded t.x2 + t.x2) / 2| ≤ 3 := by
      rw [abs_of_nonneg (by linarith)]
      linarith
    rw [hdiff, abs_mul]
    calc |rounded t.x2 - t.x2| * |(rounded t.x2 + t.x2) / 2|
        ≤ 1 / 2000000 * 3 :=
          mul_le_mul (abs_rounded_sub_le t.x2) hmiddle (abs_nonneg _) (by norm_num)
      _ = 3 / 2000000 := by norm_num
  calc |𝔼 d : Fin (drawers as).length → Draw,
        estimateOf t.decoded maxCores (redraw as (List.ofFn d)) - t.x2 ^ 2 / 2|
      ≤ _ := abs_sub_le _ (((0 + rounded t.x2) / 2 - 0) * (rounded t.x2 - 0)) _
    _ ≤ 1 / 2000000 + 3 / 2000000 := add_le_add (hnear.trans hcoarse) hround
    _ = 1 / 500000 := by norm_num

end Slab

section Master
variable {b : Behaviour} {ds : List Datagram} {memory : ℕ → Unset} {server : Server}
  {sent : List (ℕ × Task)}

theorem areaUnder_mainTask : areaUnder mainTask.decoded = ((9 / 2 : ℚ) : ℝ) := by
  have hzero : rounded 0 = 0 := @rounded_eq_self 0 0 (by norm_num)
  have hthree : rounded 3 = 3 := @rounded_eq_self 3 3000000 (by norm_num)
  rw [areaUnder_eq]
  change ((((rounded 0 + rounded 3) / 2 - rounded 0) * (rounded 3 - rounded 0) : ℚ) : ℝ) = _
  rw [hzero, hthree]
  norm_num

theorem Assigned.sum_squares {workers : List Worker} (h : Assigned workers sent) :
    (sent.map fun p => p.2.x2 ^ 2 / 2).sum = 9 / 2 * squaredShares workers := by
  have hsquares : (sent.map fun p => p.2.x2 ^ 2 / 2) =
      workers.map fun w => 9 / 2 * ((w.numOfCores.val : ℚ) / coreSum workers) ^ 2 := by
    refine map_of_forall₂ (h.slabs.imp fun w p hp => ?_)
    rw [hp.2.main_right]
    ring
  rw [hsquares, List.sum_map_mul_left]
  rfl

/-- With any other values of `rand_r` the runs of the workers are runs again and return, and the
mean of the sum of all results is the integral that `main` asks for times the squares of the
workers' shares of the cores. With one worker this is the integral, with several it is less. -/
theorem distributed_mean (hserver : master b.connect b.fds memory ds = some server)
    (hsent : sendTask server = some sent) (hn : server.workers ≠ [])
    (hpoints : ∀ p ∈ sent, (maxCores : ℤ) ≤ p.2.numOrPoints.val)
    (runs : Fin sent.length → List McAction)
    (hruns : ∀ i, ∃ s samples, (monteCarlo (sent.get i).2.decoded maxCores).run (runs i) =
      some (s, samples) ∧ s.Returned maxCores) :
    (∀ (d : (i : Fin sent.length) → Fin (drawers (runs i)).length → Draw) (i : Fin sent.length),
      ∃ s samples, (monteCarlo (sent.get i).2.decoded maxCores).run
          (redraw (runs i) (List.ofFn (d i))) = some (s, samples) ∧ s.Returned maxCores ∧
        s.shared.resSquare = some (estimateOf (sent.get i).2.decoded maxCores
          (redraw (runs i) (List.ofFn (d i)))) ∧
        WorkerEstimates (sent.get i).2 samples
          (estimateOf (sent.get i).2.decoded maxCores (redraw (runs i) (List.ofFn (d i))))) ∧
      |((𝔼 d : (i : Fin sent.length) → Fin (drawers (runs i)).length → Draw,
          ∑ i, estimateOf (sent.get i).2.decoded maxCores
            (redraw (runs i) (List.ofFn (d i))) : ℚ) : ℝ) -
          areaUnder mainTask.decoded * squaredShares server.workers| ≤ sent.length / 500000 ∧
      (server.workers.length = 1 → squaredShares server.workers = 1) ∧
      (2 ≤ server.workers.length →
        squaredShares server.workers ≤ 1 - 1 / coreSum server.workers) := by
  obtain ⟨hc, hslabs⟩ := master_sent hserver hsent hn
  have hassigned : Assigned server.workers sent := ⟨hn, hc, hslabs⟩
  have hshare : ∀ i : Fin sent.length, ∃ p : ℕ, 1 ≤ p ∧
      truncate ((sent.get i).2.decoded.numOfPoints.val / (maxCores : ℕ)) = p := by
    intro i
    have hmany := hpoints _ (List.get_mem sent i)
    have hnonneg : 0 ≤ (sent.get i).2.numOrPoints.val := by omega
    have hdiv : 1 ≤ (sent.get i).2.numOrPoints.val / (maxCores : ℕ) := by
      rw [Int.le_ediv_iff_mul_le (by decide), one_mul]
      exact hmany
    refine ⟨((sent.get i).2.numOrPoints.val / (maxCores : ℕ)).toNat, by omega, ?_⟩
    rw [truncate_intCast_div (z := (sent.get i).2.decoded.numOfPoints.val) hnonneg]
    exact (Int.toNat_of_nonneg (zero_le_one.trans hdiv)).symm
  refine ⟨?_, ?_, squaredShares_of_one hc, squaredShares_le hc⟩
  · intro d i
    obtain ⟨p, h1, hp⟩ := hshare i
    obtain ⟨s, samples, hrun, hret⟩ := hruns i
    obtain ⟨s', samples', hrun', hret', hvalue⟩ :=
      redraw_estimateOf (by decide) hp h1 hrun hret (d i)
    have hest : WorkerEstimates (sent.get i).2 samples' _ :=
      ⟨_, _, s', sscanfTask_printOneTask _ [], hrun', hret', hvalue⟩
    exact ⟨s', samples', hrun', hret', hvalue, hest⟩
  · have hworker : ∀ i : Fin sent.length,
        |𝔼 d : Fin (drawers (runs i)).length → Draw,
          estimateOf (sent.get i).2.decoded maxCores (redraw (runs i) (List.ofFn d)) -
            (sent.get i).2.x2 ^ 2 / 2| ≤ 1 / 500000 := by
      intro i
      obtain ⟨p, h1, hp⟩ := hshare i
      obtain ⟨s, samples, hrun, hret⟩ := hruns i
      obtain ⟨w, hw, -, hslab⟩ := exists_of_forall₂ hslabs (List.get_mem sent i)
      exact abs_expect_slab_sub_le hslab hassigned.pos (hc w hw) (le_coreSum hc hw) hp h1 hrun hret
    have hsquares : ∑ i : Fin sent.length, (sent.get i).2.x2 ^ 2 / 2 =
        9 / 2 * squaredShares server.workers := by
      rw [← hassigned.sum_squares, ← Fin.sum_univ_fun_getElem]
      rfl
    have hmean : |𝔼 d : (i : Fin sent.length) → Fin (drawers (runs i)).length → Draw,
          ∑ i, estimateOf (sent.get i).2.decoded maxCores (redraw (runs i) (List.ofFn (d i))) -
        9 / 2 * squaredShares server.workers| ≤ sent.length / 500000 := by
      rw [expect_sum_values fun i d =>
          estimateOf (sent.get i).2.decoded maxCores (redraw (runs i) (List.ofFn d)),
        ← hsquares, ← Finset.sum_sub_distrib]
      calc _ ≤ ∑ i : Fin sent.length, |_| := Finset.abs_sum_le_sum_abs _ _
        _ ≤ ∑ _i : Fin sent.length, (1 / 500000 : ℚ) := Finset.sum_le_sum fun i _ => hworker i
        _ = sent.length / 500000 := by
          rw [Finset.sum_const, Finset.card_univ, Fintype.card_fin, nsmul_eq_mul]
          ring
    have hcast : ((sent.length / 500000 : ℚ) : ℝ) = sent.length / 500000 := by push_cast; rfl
    rw [areaUnder_mainTask, ← Rat.cast_mul, ← Rat.cast_sub, ← Rat.cast_abs, ← hcast]
    exact Rat.cast_le.mpr hmean

end Master

/-- Two workers of eight cores each: on the mean half the integral. -/
theorem two_workers_half_mean : ∃ server sent, ∃ runs : Fin sent.length → List McAction,
    master twoAnswers.connect twoAnswers.fds (fun _ => zeroed) [eightCores, eightCores] =
      some server ∧ sendTask server = some sent ∧ sent.length = 2 ∧
    (∀ (d : (i : Fin sent.length) → Fin (drawers (runs i)).length → Draw) (i : Fin sent.length),
      ∃ s samples, (monteCarlo (sent.get i).2.decoded maxCores).run
        (redraw (runs i) (List.ofFn (d i))) = some (s, samples) ∧ s.Returned maxCores) ∧
    |((𝔼 d : (i : Fin sent.length) → Fin (drawers (runs i)).length → Draw,
        ∑ i, estimateOf (sent.get i).2.decoded maxCores
          (redraw (runs i) (List.ofFn (d i))) : ℚ) : ℝ) - areaUnder mainTask.decoded * (1 / 2 : ℚ)| ≤
      sent.length / 500000 := by
  have hsafe : ∃ numOfCores, IndexSafe
      ((rcvIpFromWorkers (fun _ => zeroed) [eightCores, eightCores]).server []).workers
        numOfCores := by
    rw [indexSafe_iff_cores, map_numOfCores]
    decide +kernel
  have hconnect : ∀ d ∈ [eightCores, eightCores], (∃ o ∈ d.source.octets, o.toNat < 100) ∧
      ∀ fd, twoAnswers.connect fd d.source = true := by
    intro d hd
    have hsame : d = eightCores := by simpa using hd
    rw [hsame]
    exact ⟨by decide, fun _ => rfl⟩
  obtain ⟨server, hserver⟩ := exists_master_of_short hsafe hconnect twoAnswers.fds
  have hcores : server.workers.map Worker.numOfCores =
      [atoi eightCores.buffer, atoi eightCores.buffer] := master_cores (b := twoAnswers) hserver
  have height : (atoi eightCores.buffer).val = 8 := by decide +kernel
  have hvalues : (server.workers.map fun w => w.numOfCores.val) = [8, 8] := by
    have hmap := congrArg (List.map fun c : CInt => c.val) hcores
    rw [List.map_map, List.map_cons, List.map_singleton, height] at hmap
    exact hmap
  have htotal : coreSum server.workers = 16 := by
    unfold coreSum
    rw [hvalues]
    rfl
  have hshares : squaredShares server.workers = 1 / 2 := by
    have hmap : (server.workers.map fun w =>
        ((w.numOfCores.val : ℚ) / coreSum server.workers) ^ 2) =
        (server.workers.map fun w => w.numOfCores.val).map
          fun c : ℤ => ((c : ℚ) / coreSum server.workers) ^ 2 := by
      rw [List.map_map]
      rfl
    unfold squaredShares
    rw [hmap, hvalues, htotal]
    norm_num
  have hlength : server.workers.length = 2 := by
    have hlen := congrArg List.length hcores
    rw [List.length_map] at hlen
    exact hlen
  have hn : server.workers ≠ [] := by
    intro hnil
    rw [hnil] at hlength
    cases hlength
  obtain ⟨sent, hsent⟩ := master_sends (b := twoAnswers) hserver
  obtain ⟨hc, hslabs⟩ := master_sent (b := twoAnswers) hserver hsent hn
  have hpoints : ∀ p ∈ sent, p.2.numOrPoints.val = 50000 := by
    intro p hp
    obtain ⟨w, hw, -, hslab⟩ := exists_of_forall₂ hslabs hp
    have hcore : w.numOfCores.val = 8 := by
      have hmem : w.numOfCores.val ∈ server.workers.map fun w => w.numOfCores.val :=
        List.mem_map_of_mem hw
      rw [hvalues] at hmem
      simpa using hmem
    rw [hslab.points (by decide), htotal, hcore]
    rfl
  have hruns : ∀ i : Fin sent.length, ∃ as s samples,
      (monteCarlo (sent.get i).2.decoded maxCores).run as = some (s, samples) ∧
        s.Returned maxCores := by
    intro i
    have hmany := hpoints _ (List.get_mem sent i)
    have hshare : (sent.get i).2.decoded.numOfPoints.val / (maxCores : ℕ) = (6250 : ℕ) := by
      change (sent.get i).2.numOrPoints.val / (maxCores : ℕ) = _
      rw [hmany]
      rfl
    have hnonneg : 0 ≤ (sent.get i).2.decoded.numOfPoints.val := by
      change 0 ≤ (sent.get i).2.numOrPoints.val
      omega
    exact exists_returned_run hnonneg hshare (by decide)
  choose runs hruns using hruns
  obtain ⟨hredrawn, hmean, -⟩ := distributed_mean (b := twoAnswers) hserver hsent hn
    (fun p hp => by rw [hpoints p hp]; decide) runs hruns
  rw [hshares] at hmean
  refine ⟨server, sent, runs, hserver, hsent, hslabs.length_eq.symm.trans hlength, ?_, hmean⟩
  intro d i
  obtain ⟨s, samples, hrun, hret, -⟩ := hredrawn d i
  exact ⟨s, samples, hrun, hret⟩

end OsTasks.Integral

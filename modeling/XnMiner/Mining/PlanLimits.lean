import XnMiner.Mining.VramBatch

/-! # What the planner promises

A draft with attempts stays below the caps and is returned as it is. The loop that gives up
lanes is entered only where the caps leave no budget at all, so a budget too small for every
lane's share gives an empty plan.
-/
namespace XnMiner

variable {q : PlanRequest} {budget : ℕ} {difficulty explicitMax : ℤ}

theorem selectBatchSize_filled (hd : 0 < difficulty) (hmax : explicitMax ≤ 0) :
    selectBatchSize budget difficulty explicitMax true =
      ⌊(budget : ℚ) / bytesPerAttempt difficulty⌋ := by
  have hper : 0 < bytesPerAttempt difficulty := zero_lt_one.trans (bytesPerAttempt_pos hd)
  have hnonneg : 0 ≤ ⌊(budget : ℚ) / bytesPerAttempt difficulty⌋ := by positivity
  have hlimit : memoryLimitedBatchSize (budget + CUDA_ENGINE_RESERVE_BYTES) difficulty
      CUDA_ENGINE_RESERVE_BYTES = ⌊(budget : ℚ) / bytesPerAttempt difficulty⌋ := by
    unfold memoryLimitedBatchSize
    rw [Nat.add_sub_cancel]
    split_ifs with hnone
    · have hempty : budget = 0 := by omega
      simp [hempty]
    · rfl
  unfold selectBatchSize
  dsimp only
  rw [hlimit, if_neg (by omega : ¬0 < explicitMax)]
  split_ifs with hzero htuned
  · omega
  · exact absurd htuned.1 (by simp)
  · rfl

theorem perLaneBatch_pos_iff {lanes : ℤ} (hd : 0 < difficulty) (hmax : explicitMax ≤ 0) :
    0 < perLaneBatch budget lanes difficulty explicitMax ↔
      bytesPerAttempt difficulty ≤ (budget / lanes.toNat : ℕ) := by
  have hper := bytesPerAttempt_pos hd
  rw [perLaneBatch, selectBatchSize_filled hd hmax, Int.floor_pos,
    one_le_div (zero_lt_one.trans hper)]
  constructor
  · intro hfits
    rcases le_total (budget / lanes.toNat) 1 with hsmall | hlarge
    · rw [max_eq_left hsmall, Nat.cast_one] at hfits
      exact absurd hper (not_lt.mpr hfits)
    · rwa [max_eq_right hlarge] at hfits
  · intro hfits
    refine hfits.trans ?_
    exact_mod_cast le_max_right 1 (budget / lanes.toNat)

/-- One more attempt would be too much for the share of a lane. -/
theorem perLaneBatch_maximal {lanes : ℤ} (hd : 0 < difficulty) (hmax : explicitMax ≤ 0) :
    ((budget / lanes.toNat : ℕ) : ℚ) <
      (perLaneBatch budget lanes difficulty explicitMax + 1) * bytesPerAttempt difficulty := by
  have hper : 0 < bytesPerAttempt difficulty := zero_lt_one.trans (bytesPerAttempt_pos hd)
  have hfloor := Int.lt_floor_add_one
    (((max 1 (budget / lanes.toNat) : ℕ) : ℚ) / bytesPerAttempt difficulty)
  rw [perLaneBatch, selectBatchSize_filled hd hmax]
  calc ((budget / lanes.toNat : ℕ) : ℚ)
      ≤ (max 1 (budget / lanes.toNat) : ℕ) := by exact_mod_cast le_max_right _ _
    _ < _ := (div_lt_iff₀ hper).mp hfloor

theorem cudaLaneCount_le (difficulty referenceDifficulty maxLanes : ℤ) :
    cudaLaneCount difficulty referenceDifficulty maxLanes ≤ max 1 maxLanes := by
  unfold cudaLaneCount
  split_ifs <;> omega

theorem PlanRequest.draft_batch (q : PlanRequest) :
    q.draft.batchPerLane =
      let most := perLaneBatch q.budgetBytes q.draft.lanes q.difficulty q.explicitMaxBatch
      if 0 < most then if 0 < q.explicitBatch then min q.explicitBatch most else most else 0 := by
  have hlanes := cudaLaneCount_pos q.difficulty q.referenceDifficulty (max 1 q.maxLanes)
  simp only [PlanRequest.draft, CudaVramPlan.project, max_eq_right hlanes]

/-- Without an explicit batch the draft takes all that the share of a lane holds. -/
theorem PlanRequest.draft_filled (hbatch : q.explicitBatch ≤ 0) :
    q.draft.batchPerLane =
      max 0 (perLaneBatch q.budgetBytes q.draft.lanes q.difficulty q.explicitMaxBatch) := by
  rw [q.draft_batch]
  dsimp only
  split_ifs <;> omega

theorem PlanRequest.allowedMib_nonneg (q : PlanRequest) : 0 ≤ q.allowedMib := by
  unfold PlanRequest.allowedMib
  omega

/-- All lanes together take no more bytes than the budget has. -/
theorem PlanRequest.draft_bytes (hbatch : 0 < q.draft.batchPerLane) :
    q.draft.batchVramBytes ≤ q.budgetBytes := by
  obtain ⟨hlanes, hfits⟩ := q.draft_fits
  obtain ⟨hd, hbudget⟩ := hfits hbatch
  have hbytes : q.draft.batchVramBytes =
      ⌊q.draft.batchPerLane * bytesPerAttempt q.difficulty⌋.toNat * q.draft.lanes.toNat := by
    have hd' : 0 < q.difficulty := hd
    have hestimate : q.draft.batchVramBytes =
        estimateBatchVramBytes q.draft.batchPerLane q.difficulty * q.draft.lanes.toNat := rfl
    rw [hestimate, estimateBatchVramBytes, if_neg (by omega)]
  have hper : 0 < bytesPerAttempt q.difficulty := zero_lt_one.trans (bytesPerAttempt_pos hd)
  have hcount : (0 : ℚ) ≤ q.draft.batchPerLane := by exact_mod_cast hbatch.le
  have hcast : ((q.draft.lanes.toNat : ℕ) : ℚ) = q.draft.lanes := by
    exact_mod_cast Int.toNat_of_nonneg (zero_le_one.trans hlanes)
  have hfloor : ((⌊q.draft.batchPerLane * bytesPerAttempt q.difficulty⌋.toNat : ℕ) : ℚ) ≤
      q.draft.batchPerLane * bytesPerAttempt q.difficulty :=
    Nat.floor_le (mul_nonneg hcount hper.le)
  have hsum : (q.draft.batchVramBytes : ℚ) ≤ q.budgetBytes := by
    rw [hbytes]
    push_cast
    calc _ ≤ q.draft.batchPerLane * bytesPerAttempt q.difficulty * q.draft.lanes.toNat := by
          gcongr
      _ = q.draft.lanes * q.draft.batchPerLane * bytesPerAttempt q.difficulty := by
          rw [hcast]
          ring
      _ ≤ q.budgetBytes := hbudget
  exact_mod_cast hsum

theorem mibOf_budget {bytes : ℕ} (h : bytes ≤ q.budgetBytes) : mibOf bytes ≤ q.allowedMib := by
  have hdiv : bytes / (1024 * 1024) ≤ q.allowedMib.toNat := by
    have hscale : q.budgetBytes = 1024 * 1024 * q.allowedMib.toNat := by
      rw [PlanRequest.budgetBytes]
      ring
    exact Nat.div_le_of_le_mul (hscale ▸ h)
  have hnonneg := q.allowedMib_nonneg
  unfold mibOf
  omega

theorem PlanRequest.draft_limits (q : PlanRequest) : q.draft.withinLimits = true ↔
    mibOf q.draft.batchVramBytes + q.runtimeOverheadMib ≤ q.targetMib ∧
      q.desktopHeadroomMib ≤
        max 0 (mibOf q.totalBytes - (mibOf q.draft.batchVramBytes + q.runtimeOverheadMib)) := by
  have hused : q.draft.projectedUsedMib =
      mibOf q.draft.batchVramBytes + q.runtimeOverheadMib := rfl
  have hfree : q.draft.projectedHeadroomMib =
      max 0 (mibOf q.totalBytes - q.draft.projectedUsedMib) := rfl
  have htarget : q.draft.targetMib = q.targetMib := rfl
  have hdesktop : q.draft.desktopHeadroomMib = q.desktopHeadroomMib := rfl
  rw [CudaVramPlan.withinLimits, Bool.and_eq_true, decide_eq_true_eq, decide_eq_true_eq, hfree,
    hused, htarget, hdesktop]

theorem PlanRequest.draft_within (hbatch : 0 < q.draft.batchPerLane) :
    q.draft.withinLimits = true := by
  have hmib := mibOf_budget (PlanRequest.draft_bytes hbatch)
  have hallowed : 0 < q.allowedMib := by
    obtain ⟨hlanes, hfits⟩ := q.draft_fits
    obtain ⟨hd, hbudget⟩ := hfits hbatch
    have hper := bytesPerAttempt_pos hd
    have hlanes' : (1 : ℚ) ≤ q.draft.lanes := by exact_mod_cast hlanes
    have hcount : (1 : ℚ) ≤ q.draft.batchPerLane := by exact_mod_cast hbatch
    have hattempts : (1 : ℚ) ≤ q.draft.lanes * q.draft.batchPerLane := by nlinarith
    have hpositive : (0 : ℚ) < q.budgetBytes :=
      calc (0 : ℚ) < 1 * bytesPerAttempt q.draft.difficulty := by linarith
        _ ≤ q.draft.lanes * q.draft.batchPerLane * bytesPerAttempt q.draft.difficulty := by gcongr
        _ ≤ q.budgetBytes := hbudget
    by_contra hnone
    have hzero : q.budgetBytes = 0 := by
      rw [PlanRequest.budgetBytes, Int.toNat_of_nonpos (by omega)]
    rw [hzero] at hpositive
    exact absurd hpositive (by simp)
  have hcap : q.allowedMib ≤ max 0 (q.targetMib - q.runtimeOverheadMib) := min_le_left _ _
  have hroom : q.allowedMib ≤
      max 0 (mibOf q.totalBytes - q.desktopHeadroomMib - q.runtimeOverheadMib) := min_le_right _ _
  rw [PlanRequest.draft_limits]
  omega

theorem estimateBatchVramBytes_empty {batch : ℤ} (hbatch : batch ≤ 0) (difficulty : ℤ) :
    estimateBatchVramBytes batch difficulty = 0 := if_pos (.inl hbatch)

/-- Where an empty draft is not within the limits, there is no budget. -/
theorem PlanRequest.draft_empty (hbatch : q.draft.batchPerLane ≤ 0)
    (hout : q.draft.withinLimits = false) : q.budgetBytes = 0 := by
  have hbytes : q.draft.batchVramBytes = 0 := by
    have hestimate : q.draft.batchVramBytes =
        estimateBatchVramBytes q.draft.batchPerLane q.difficulty * q.draft.lanes.toNat := rfl
    rw [hestimate, estimateBatchVramBytes_empty hbatch, zero_mul]
  have hused : mibOf q.draft.batchVramBytes = 0 := by
    rw [hbytes]
    simp [mibOf]
  rw [← Bool.not_eq_true, PlanRequest.draft_limits, hused] at hout
  have hnone : q.allowedMib = 0 := by
    unfold PlanRequest.allowedMib
    omega
  rw [PlanRequest.budgetBytes, hnone]
  rfl

theorem CudaVramPlan.shrink_budget (plan : CudaVramPlan) (totalMib : ℤ) (rounds : ℕ)
    (lanes batch : ℤ) :
    (plan.shrink totalMib rounds lanes batch).budgetBytes = plan.budgetBytes := by
  induction rounds generalizing lanes batch with
  | zero => rfl
  | succ rounds ih =>
    unfold CudaVramPlan.shrink
    split_ifs
    · rfl
    · exact ih _ _
    · exact ih _ _
    · rfl

theorem planCudaBatch_budget (q : PlanRequest) : (planCudaBatch q).budgetBytes = q.budgetBytes := by
  unfold planCudaBatch clampPlanToCaps
  split_ifs
  · rfl
  · exact q.draft.shrink_budget _ _ _ _

theorem CudaVramPlan.fits.empty {plan : CudaVramPlan} (h : plan.fits)
    (hbudget : plan.budgetBytes = 0) : plan.batchPerLane ≤ 0 := by
  by_contra hbatch
  obtain ⟨hlanes, hfits⟩ := h
  obtain ⟨hd, hbytes⟩ := hfits (by omega)
  have hper := zero_lt_one.trans (bytesPerAttempt_pos hd)
  have hlanes' : (0 : ℚ) < plan.lanes := by exact_mod_cast zero_lt_one.trans_le hlanes
  have hcount : (0 : ℚ) < plan.batchPerLane := by exact_mod_cast not_le.mp hbatch
  have hpositive : 0 < plan.lanes * plan.batchPerLane * bytesPerAttempt plan.difficulty := by
    positivity
  rw [hbudget, Nat.cast_zero] at hbytes
  exact absurd hbytes (not_le.mpr hpositive)

/-- The planner returns attempts only where the draft has them, and then the draft itself. -/
theorem planCudaBatch_draft (q : PlanRequest) :
    (0 < (planCudaBatch q).batchPerLane ↔ 0 < q.draft.batchPerLane) ∧
      (0 < q.draft.batchPerLane → planCudaBatch q = q.draft) := by
  have hkept : 0 < q.draft.batchPerLane → planCudaBatch q = q.draft := fun hbatch =>
    if_pos (PlanRequest.draft_within hbatch)
  refine ⟨⟨fun hplan => ?_, fun hbatch => (hkept hbatch).symm ▸ hbatch⟩, hkept⟩
  by_contra hbatch
  cases hwithin : q.draft.withinLimits with
  | true =>
    have hsame : planCudaBatch q = q.draft := if_pos hwithin
    rw [hsame] at hplan
    exact hbatch hplan
  | false =>
    have hbudget := PlanRequest.draft_empty (not_lt.mp hbatch) hwithin
    have hempty := (planCudaBatch_fits q).2.empty ((planCudaBatch_budget q).trans hbudget)
    omega

/-- A plan with attempts keeps within lanes, budget and limits, and without an explicit batch no
lane could take one attempt more. -/
theorem planCudaBatch_sound (q : PlanRequest) (hbatch : 0 < (planCudaBatch q).batchPerLane) :
    let plan := planCudaBatch q
    (1 ≤ plan.lanes ∧ plan.lanes ≤ max 1 q.maxLanes) ∧
      plan.lanes * plan.batchPerLane * bytesPerAttempt q.difficulty ≤ plan.budgetBytes ∧
      plan.withinLimits = true ∧
      (q.explicitBatch ≤ 0 → q.explicitMaxBatch ≤ 0 →
        ((plan.budgetBytes / plan.lanes.toNat : ℕ) : ℚ) <
          (plan.batchPerLane + 1) * bytesPerAttempt q.difficulty) := by
  intro plan
  obtain ⟨hdraft, hkept⟩ := planCudaBatch_draft q
  have hpositive := hdraft.mp hbatch
  have hplan : plan = q.draft := hkept hpositive
  obtain ⟨hlanes, hfits⟩ := q.draft_fits
  obtain ⟨hd, hbytes⟩ := hfits hpositive
  rw [hplan]
  refine ⟨⟨hlanes, ?_⟩, hbytes, PlanRequest.draft_within hpositive, fun hexplicit hmax => ?_⟩
  · have hle := cudaLaneCount_le q.difficulty q.referenceDifficulty (max 1 q.maxLanes)
    exact hle.trans_eq (by omega)
  · have hmost := PlanRequest.draft_filled hexplicit
    have hshare : ((q.budgetBytes / q.draft.lanes.toNat : ℕ) : ℚ) <
        (perLaneBatch q.budgetBytes q.draft.lanes q.difficulty q.explicitMaxBatch + 1) *
          bytesPerAttempt q.difficulty := perLaneBatch_maximal hd hmax
    rw [max_eq_right (by omega)] at hmost
    rw [hmost]
    exact hshare

/-- Four lanes on a card of 12 GiB. -/
theorem planCudaBatch_sound_lanes :
    let q : PlanRequest :=
      { totalBytes := 12 * 1024 * 1024 * 1024, freeBytes := 11 * 1024 * 1024 * 1024
        targetMib := 9700, desktopHeadroomMib := 1966, difficulty := 1000
        referenceDifficulty := 8000 }
    (planCudaBatch q).withinLimits = true ∧ (planCudaBatch q).lanes = 4 := by
  intro q
  have hpositive : 0 < (planCudaBatch q).batchPerLane := by decide +kernel
  exact ⟨(planCudaBatch_sound q hpositive).2.2.1, by decide +kernel⟩

/-- An empty plan is returned exactly where one attempt is too much for the share of a lane,
also if it fits the whole budget. -/
theorem planCudaBatch_complete_iff (q : PlanRequest) (hexplicit : q.explicitBatch ≤ 0)
    (hmax : q.explicitMaxBatch ≤ 0) :
    (bytesPerAttempt q.difficulty ≤ q.budgetBytes →
        1 ≤ (planCudaBatch q).lanes ∧ 1 ≤ (planCudaBatch q).batchPerLane) ↔
      (bytesPerAttempt q.difficulty ≤ q.budgetBytes → 1 ≤ q.difficulty ∧
        bytesPerAttempt q.difficulty ≤ (q.budgetBytes / (cudaLaneCount q.difficulty
          q.referenceDifficulty (max 1 q.maxLanes)).toNat : ℕ)) := by
  refine imp_congr_right fun _ => ?_
  have hlanes : 1 ≤ (planCudaBatch q).lanes := (planCudaBatch_fits q).2.1
  have hdraft := (planCudaBatch_draft q).1
  have hmost := PlanRequest.draft_filled hexplicit
  have hcount : q.draft.lanes =
      cudaLaneCount q.difficulty q.referenceDifficulty (max 1 q.maxLanes) := rfl
  rw [hcount] at hmost
  constructor
  · rintro ⟨-, hbatch⟩
    have hpositive := hdraft.mp hbatch
    have hd : 0 < q.difficulty := (q.draft_fits.2 hpositive).1
    exact ⟨hd, (perLaneBatch_pos_iff hd hmax).mp (by omega)⟩
  · rintro ⟨hd, hshare⟩
    have hpositive := (perLaneBatch_pos_iff hd hmax).mpr hshare
    exact ⟨hlanes, hdraft.mpr (by omega)⟩

def fourWays : PlanRequest where
  totalBytes := 12 * 1024 * 1024 * 1024
  freeBytes := 11 * 1024 * 1024 * 1024
  targetMib := 3048
  desktopHeadroomMib := 1966
  difficulty := 400000
  referenceDifficulty := 2000000

theorem planCudaBatch_complete_two :
    let q : PlanRequest := { fourWays with maxLanes := 2 }
    1 ≤ (planCudaBatch q).lanes ∧ 1 ≤ (planCudaBatch q).batchPerLane :=
  (planCudaBatch_complete_iff { fourWays with maxLanes := 2 } le_rfl le_rfl).mpr
    (fun _ => by decide +kernel) (by decide +kernel)

/-- With four lanes nobody gets an attempt, where two would. -/
theorem planCudaBatch_incomplete :
    bytesPerAttempt fourWays.difficulty ≤ fourWays.budgetBytes ∧
      (planCudaBatch fourWays).lanes = 4 ∧ (planCudaBatch fourWays).batchPerLane = 0 := by
  decide +kernel

end XnMiner

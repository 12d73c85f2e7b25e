import XnMiner.Efficiency.ThermalPolicy
import Mathlib.Tactic.Positivity
import Mathlib.Tactic.GCongr

/-! # Sizing a batch for the memory of the GPU

The caps on the memory, and the plan of lanes and attempts that stays below them. The factor
1.001 and the doubles computed with it are exact; nothing overflows.
-/
namespace XnMiner

structure VramCaps where
  totalMib : ℤ := 0
  targetMib : ℤ := 0
  headroomMib : ℤ := 0
  emergencyMib : ℤ := 0
  minHeadroomMib : ℤ := 0
  runtimeOverheadMib : ℤ := 0
  targetPct : ℚ := 0
  headroomPct : ℚ := 0
  emergencyPct : ℚ := 0
  minHeadroomPct : ℚ := 0
  overheadPct : ℚ := 0

structure VramPolicy where
  targetVramPct : ℚ := 79
  desktopHeadroomPct : ℚ := 16
  emergencyVramPct : ℚ := 93
  minHeadroomPct : ℚ := 4
  runtimeOverheadPct : ℚ := 5
  minHeadroomFloorMib : ℤ := 512
  runtimeOverheadFloorMib : ℤ := 256
  targetVramMib : ℤ := 0
  headroomMib : ℤ := 0
  emergencyVramMib : ℤ := 0
  minHeadroomMib : ℤ := 0
  cudaRuntimeOverheadMib : ℤ := 0

def clampPct (v : ℚ) : ℚ := max 0 (min 100 v)

/-- `std::clamp` where the bounds are in order. -/
def clampInt (v lo hi : ℤ) : ℤ := if v < lo then lo else if hi < v then hi else v

def shareMib (total : ℤ) (pct : ℚ) (floor overrideMib : ℤ) : ℤ :=
  if 0 < overrideMib then overrideMib else max floor (llround (total * pct / 100))

def resolveVramCaps (totalMib : ℤ) (s : VramPolicy) : VramCaps :=
  let total := max 1 totalMib
  let share := fun (pct : ℚ) (overrideMib : ℤ) =>
    if 0 < overrideMib then overrideMib else llround (total * pct / 100)
  let tPct := clampPct s.targetVramPct
  let hPct := clampPct s.desktopHeadroomPct
  let ePct := clampPct s.emergencyVramPct
  let mPct := clampPct s.minHeadroomPct
  let oPct := clampPct s.runtimeOverheadPct
  let target := clampInt (share tPct s.targetVramMib) 1 total
  { totalMib := total
    targetMib := target
    headroomMib := clampInt (share hPct s.headroomMib) 0 total
    emergencyMib := clampInt (share ePct s.emergencyVramMib) target total
    minHeadroomMib :=
      clampInt (shareMib total mPct s.minHeadroomFloorMib s.minHeadroomMib) 0 total
    runtimeOverheadMib :=
      clampInt (shareMib total oPct s.runtimeOverheadFloorMib s.cudaRuntimeOverheadMib) 0 total
    targetPct := tPct
    headroomPct := hPct
    emergencyPct := ePct
    minHeadroomPct := mPct
    overheadPct := oPct }

def CUDA_ENGINE_RESERVE_BYTES : ℕ := 100 * 1024 * 1024

def BYTES_PER_ATTEMPT_FACTOR : ℚ := 1001 / 1000

def HARVEST_DIFFICULTY : ℤ := 100

def bytesPerAttempt (difficulty : ℤ) : ℚ := difficulty * 1024 * BYTES_PER_ATTEMPT_FACTOR

def cudaLaneCount (difficulty referenceDifficulty maxLanes : ℤ) : ℤ :=
  if maxLanes ≤ 1 ∨ difficulty ≤ 0 then 1
  else if difficulty = HARVEST_DIFFICULTY then max 1 maxLanes
  else if referenceDifficulty ≤ 0 ∨ referenceDifficulty ≤ difficulty then 1
  else max 1 (min maxLanes (referenceDifficulty / difficulty))

def estimateBatchVramBytes (batchSize difficulty : ℤ) : ℕ :=
  if batchSize ≤ 0 ∨ difficulty ≤ 0 then 0 else ⌊batchSize * bytesPerAttempt difficulty⌋.toNat

def memoryLimitedBatchSize (freeVramBytes : ℕ) (difficulty : ℤ) (reserveBytes : ℕ) : ℤ :=
  if difficulty ≤ 0 ∨ freeVramBytes ≤ reserveBytes then 0
  else ⌊((freeVramBytes - reserveBytes : ℕ) : ℚ) / bytesPerAttempt difficulty⌋

/-- The batch that a small difficulty is tuned to. -/
def tunedBatchSize (difficulty : ℤ) : ℤ :=
  if difficulty ≤ 1 then 2048 else if difficulty ≤ 8 then 4096 else if difficulty ≤ 64 then 3072
  else 0

def selectBatchSize (budgetBytes : ℕ) (difficulty explicitMaxBatch : ℤ) (fillVramCap : Bool) : ℤ :=
  let memoryLimit := memoryLimitedBatchSize (budgetBytes + CUDA_ENGINE_RESERVE_BYTES) difficulty
    CUDA_ENGINE_RESERVE_BYTES
  if memoryLimit ≤ 0 then 0
  else if 0 < explicitMaxBatch then min memoryLimit explicitMaxBatch
  else if fillVramCap = false ∧ 0 < tunedBatchSize difficulty then
    min memoryLimit (tunedBatchSize difficulty)
  else memoryLimit

structure CudaVramPlan where
  batchSize : ℤ := 0
  lanes : ℤ := 1
  batchPerLane : ℤ := 0
  laneReserve : ℤ := 0
  budgetBytes : ℕ := 0
  budgetMib : ℤ := 0
  batchVramBytes : ℕ := 0
  batchVramMib : ℤ := 0
  usedBeforeMib : ℤ := 0
  projectedUsedMib : ℤ := 0
  projectedHeadroomMib : ℤ := 0
  runtimeOverheadMib : ℤ := 0
  targetMib : ℤ := 0
  effectiveTargetMib : ℤ := 0
  desktopHeadroomMib : ℤ := 0
  difficulty : ℤ := 0

def mibOf (bytes : ℕ) : ℤ := (bytes / (1024 * 1024) : ℕ)

def CudaVramPlan.withinLimits (plan : CudaVramPlan) : Bool :=
  decide (plan.projectedUsedMib ≤ plan.targetMib) &&
    decide (plan.desktopHeadroomMib ≤ plan.projectedHeadroomMib)

/-- `project`: the plan with lanes and batch of this size. -/
def CudaVramPlan.project (plan : CudaVramPlan) (totalMib lanes batchPerLane : ℤ) : CudaVramPlan :=
  let batchVramBytes := estimateBatchVramBytes batchPerLane plan.difficulty * lanes.toNat
  let projectedUsedMib := mibOf batchVramBytes + plan.runtimeOverheadMib
  { plan with
    batchSize := batchPerLane
    lanes := lanes
    batchPerLane := batchPerLane
    batchVramBytes := batchVramBytes
    batchVramMib := mibOf batchVramBytes
    projectedUsedMib := projectedUsedMib
    projectedHeadroomMib := max 0 (totalMib - projectedUsedMib) }

def perLaneBatch (budgetBytes : ℕ) (lanes difficulty explicitMaxBatch : ℤ) : ℤ :=
  selectBatchSize (max 1 (budgetBytes / lanes.toNat)) difficulty explicitMaxBatch true

/-- The loop of `clamp_plan_to_caps`, which gives up attempts first and then lanes. -/
def CudaVramPlan.shrink (plan : CudaVramPlan) (totalMib : ℤ) (rounds : ℕ)
    (lanes batchPerLane : ℤ) : CudaVramPlan :=
  match rounds with
  | 0 => plan
  | rounds + 1 =>
    if (plan.project totalMib lanes batchPerLane).withinLimits then
      plan.project totalMib lanes batchPerLane
    else if 1 < batchPerLane then
      plan.shrink totalMib rounds lanes (max 1 (batchPerLane * 98 / 100))
    else if 1 < lanes then
      plan.shrink totalMib rounds (lanes - 1)
        (perLaneBatch plan.budgetBytes (lanes - 1) plan.difficulty 0)
    else plan

def clampPlanToCaps (plan : CudaVramPlan) : CudaVramPlan :=
  if plan.withinLimits then plan
  else plan.shrink (plan.projectedUsedMib + plan.projectedHeadroomMib) 10000 plan.lanes
    plan.batchPerLane

structure PlanRequest where
  totalBytes : ℕ
  freeBytes : ℕ
  targetMib : ℤ
  desktopHeadroomMib : ℤ
  difficulty : ℤ
  referenceDifficulty : ℤ
  maxLanes : ℤ := 4
  laneReserve : ℤ := 1
  explicitBatch : ℤ := 0
  explicitMaxBatch : ℤ := 0
  runtimeOverheadMib : ℤ := 2048

def PlanRequest.allowedMib (q : PlanRequest) : ℤ :=
  min (max 0 (q.targetMib - q.runtimeOverheadMib))
    (max 0 (mibOf q.totalBytes - q.desktopHeadroomMib - q.runtimeOverheadMib))

def PlanRequest.budgetBytes (q : PlanRequest) : ℕ := q.allowedMib.toNat * 1024 * 1024

def PlanRequest.draft (q : PlanRequest) : CudaVramPlan :=
  let lanes := cudaLaneCount q.difficulty q.referenceDifficulty (max 1 q.maxLanes)
  let maxBatchPerLane := perLaneBatch q.budgetBytes (max 1 lanes) q.difficulty q.explicitMaxBatch
  let batchPerLane := if 0 < maxBatchPerLane then
      (if 0 < q.explicitBatch then min q.explicitBatch maxBatchPerLane else maxBatchPerLane)
    else 0
  let plan : CudaVramPlan :=
    { laneReserve := max 0 q.laneReserve
      budgetBytes := q.budgetBytes
      budgetMib := q.allowedMib
      usedBeforeMib := mibOf (q.totalBytes - q.freeBytes)
      runtimeOverheadMib := q.runtimeOverheadMib
      targetMib := q.targetMib
      effectiveTargetMib := q.targetMib
      desktopHeadroomMib := q.desktopHeadroomMib
      difficulty := q.difficulty }
  plan.project (mibOf q.totalBytes) lanes batchPerLane

def planCudaBatch (q : PlanRequest) : CudaVramPlan := clampPlanToCaps q.draft

theorem bytesPerAttempt_pos {difficulty : ℤ} (h : 0 < difficulty) :
    1 < bytesPerAttempt difficulty := by
  have hone : (1 : ℚ) ≤ difficulty := by exact_mod_cast h
  unfold bytesPerAttempt BYTES_PER_ATTEMPT_FACTOR
  linarith

/-- No attempt is selected for a difficulty that is not positive. -/
theorem selectBatchSize_fits {budget : ℕ} {difficulty explicitMax n : ℤ} {fill : Bool} (hn : 0 < n)
    (h : n ≤ selectBatchSize budget difficulty explicitMax fill) :
    0 < difficulty ∧ n * bytesPerAttempt difficulty ≤ budget := by
  have hlimit : n ≤ memoryLimitedBatchSize (budget + CUDA_ENGINE_RESERVE_BYTES) difficulty
      CUDA_ENGINE_RESERVE_BYTES := by
    unfold selectBatchSize at h
    dsimp only at h
    split_ifs at h <;> omega
  unfold memoryLimitedBatchSize at hlimit
  split_ifs at hlimit with hnone
  · omega
  · have hdifficulty : 0 < difficulty := by
      by_contra hd
      exact hnone (.inl (by omega))
    have hper : 0 < bytesPerAttempt difficulty := zero_lt_one.trans (bytesPerAttempt_pos hdifficulty)
    rw [Nat.add_sub_cancel] at hlimit
    exact ⟨hdifficulty, (le_div_iff₀ hper).mp (Int.le_floor.mp hlimit)⟩

theorem perLaneBatch_fits {budget : ℕ} {lanes difficulty explicitMax n : ℤ} (hlanes : 1 ≤ lanes)
    (hn : 0 < n) (h : n ≤ perLaneBatch budget lanes difficulty explicitMax) :
    0 < difficulty ∧ lanes * n * bytesPerAttempt difficulty ≤ budget := by
  obtain ⟨hdifficulty, hfits⟩ := selectBatchSize_fits hn h
  have hper := bytesPerAttempt_pos hdifficulty
  have hone : (1 : ℚ) ≤ n := by exact_mod_cast hn
  have hlarge : 1 < budget / lanes.toNat := by
    by_contra hsmall
    rw [max_eq_left (by omega), Nat.cast_one] at hfits
    nlinarith
  rw [max_eq_right (by omega)] at hfits
  have hcast : ((lanes.toNat : ℕ) : ℚ) = lanes := by
    exact_mod_cast Int.toNat_of_nonneg (zero_le_one.trans hlanes)
  have hpositive : (0 : ℚ) ≤ lanes := by exact_mod_cast zero_le_one.trans hlanes
  have hdiv : ((budget / lanes.toNat : ℕ) : ℚ) * lanes ≤ budget := by
    rw [← hcast]
    exact_mod_cast Nat.div_mul_le_self budget lanes.toNat
  refine ⟨hdifficulty, ?_⟩
  calc lanes * n * bytesPerAttempt difficulty
      = n * bytesPerAttempt difficulty * lanes := by ring
    _ ≤ ((budget / lanes.toNat : ℕ) : ℚ) * lanes := by gcongr
    _ ≤ budget := hdiv

def CudaVramPlan.affords (plan : CudaVramPlan) (lanes batch : ℤ) : Prop :=
  1 ≤ lanes ∧ (0 < batch →
    0 < plan.difficulty ∧ lanes * batch * bytesPerAttempt plan.difficulty ≤ plan.budgetBytes)

theorem CudaVramPlan.affords.smaller {plan : CudaVramPlan} {lanes batch smaller : ℤ}
    (h : plan.affords lanes batch) (hle : smaller ≤ batch) : plan.affords lanes smaller := by
  refine ⟨h.1, fun hpositive => ?_⟩
  obtain ⟨hdifficulty, hbudget⟩ := h.2 (hpositive.trans_le hle)
  have hlanes : (0 : ℚ) ≤ lanes := by exact_mod_cast zero_le_one.trans h.1
  have hbatch : (smaller : ℚ) ≤ batch := by exact_mod_cast hle
  have hper := zero_lt_one.trans (bytesPerAttempt_pos hdifficulty)
  refine ⟨hdifficulty, ?_⟩
  calc lanes * smaller * bytesPerAttempt plan.difficulty
      ≤ lanes * batch * bytesPerAttempt plan.difficulty := by gcongr
    _ ≤ plan.budgetBytes := hbudget

def CudaVramPlan.fits (plan : CudaVramPlan) : Prop := plan.affords plan.lanes plan.batchPerLane

/-- Giving up attempts or lanes keeps a plan within its budget. -/
theorem CudaVramPlan.fits.shrink {plan : CudaVramPlan} (hplan : plan.fits) (totalMib : ℤ)
    (rounds : ℕ) {lanes batch : ℤ} (h : plan.affords lanes batch) :
    (plan.shrink totalMib rounds lanes batch).fits := by
  induction rounds generalizing lanes batch with
  | zero => exact hplan
  | succ rounds ih =>
    unfold CudaVramPlan.shrink
    split_ifs with hwithin hbatch hlanes
    · exact h
    · exact ih (h.smaller (by omega))
    · refine ih ⟨by omega, fun hpositive => ?_⟩
      exact perLaneBatch_fits (by omega) hpositive le_rfl
    · exact hplan

theorem CudaVramPlan.shrink_difficulty (plan : CudaVramPlan) (totalMib : ℤ) (rounds : ℕ)
    (lanes batch : ℤ) : (plan.shrink totalMib rounds lanes batch).difficulty = plan.difficulty := by
  induction rounds generalizing lanes batch with
  | zero => rfl
  | succ rounds ih =>
    unfold CudaVramPlan.shrink
    split_ifs
    · rfl
    · exact ih _ _
    · exact ih _ _
    · rfl

theorem cudaLaneCount_pos (difficulty referenceDifficulty maxLanes : ℤ) :
    1 ≤ cudaLaneCount difficulty referenceDifficulty maxLanes := by
  unfold cudaLaneCount
  split_ifs <;> omega

theorem PlanRequest.draft_fits (q : PlanRequest) : q.draft.fits := by
  have hlanes := cudaLaneCount_pos q.difficulty q.referenceDifficulty (max 1 q.maxLanes)
  refine ⟨hlanes, fun hpositive => ?_⟩
  have hbatch : q.draft.batchPerLane ≤
      perLaneBatch q.budgetBytes q.draft.lanes q.difficulty q.explicitMaxBatch := by
    simp only [PlanRequest.draft, CudaVramPlan.project] at hpositive ⊢
    rw [max_eq_right hlanes] at hpositive ⊢
    split_ifs at hpositive ⊢ <;> omega
  exact perLaneBatch_fits hlanes hpositive hbatch

/-- What the planner returns is for the difficulty asked for and within the budget. -/
theorem planCudaBatch_fits (q : PlanRequest) :
    (planCudaBatch q).difficulty = q.difficulty ∧ (planCudaBatch q).fits := by
  unfold planCudaBatch clampPlanToCaps
  split_ifs
  · exact ⟨rfl, q.draft_fits⟩
  · exact ⟨q.draft.shrink_difficulty _ _ _ _, q.draft_fits.shrink _ _ q.draft_fits⟩

end XnMiner

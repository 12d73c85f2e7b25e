import Mathlib.Data.Rat.Floor
import Mathlib.Tactic.Linarith

/-! # The thermal policy

A `double` is an exact rational. The hunt keeps the batch between a minimum and the
planned batch; it moves it only when the settle window is over.
-/
namespace XnMiner

/-- `std::llround`: to the nearest integer, and half away from zero. -/
def llround (x : ℚ) : ℤ := if 0 ≤ x then ⌊x + 1 / 2⌋ else ⌈x - 1 / 2⌉

def clampFloat (v lo hi : ℚ) : ℚ := max lo (min hi v)

def applyBatchScale (batch : ℤ) (scale : ℚ) : ℤ :=
  if batch ≤ 0 then 0 else max 1 (llround (batch * clampFloat scale 0 1))

/-- A scaled batch is neither empty nor larger than the batch. -/
theorem applyBatchScale_range {batch : ℤ} (hb : 0 < batch) (scale : ℚ) :
    1 ≤ applyBatchScale batch scale ∧ applyBatchScale batch scale ≤ batch := by
  have hscale : clampFloat scale 0 1 ≤ 1 := max_le (by norm_num) (min_le_left _ _)
  have hnonneg : 0 ≤ clampFloat scale 0 1 := le_max_left _ _
  have hcast : (0 : ℚ) < batch := by exact_mod_cast hb
  have hproduct : (batch : ℚ) * clampFloat scale 0 1 ≤ batch := by nlinarith
  have hround : llround (batch * clampFloat scale 0 1) ≤ batch := by
    unfold llround
    rw [if_pos (mul_nonneg hcast.le hnonneg)]
    refine Int.lt_add_one_iff.mp (Int.floor_lt.mpr ?_)
    push_cast
    linarith
  rw [applyBatchScale, if_neg hb.not_ge]
  exact ⟨le_max_left _ _, max_le hb hround⟩

structure ThermalHuntState where
  batch : ℤ := 0
  lastAdjustS : ℚ := 0
  lastTempC : ℤ := 0
  consecutiveCool : ℤ := 0
  idleMs : ℤ := 0
  /-- Rising low watermark. -/
  floor : ℤ := 0
  /-- Last job count while junction was at or under the hold. -/
  lastOk : ℤ := 0

inductive HuntAction where
  | hold
  | cut
  | raise
  deriving DecidableEq

inductive HuntSensor where
  | mem
  | gpu
  deriving DecidableEq

structure ThermalHuntResult where
  batch : ℤ := 0
  scale : ℚ := 1
  action : HuntAction := .hold
  controlC : ℤ := 0
  sensor : HuntSensor := .gpu
  idleMs : ℤ := 0
  laneDelta : ℤ := 0

structure HuntParams where
  useMem : Bool
  targetC : ℤ
  capC : ℤ
  gpuCapC : ℤ
  plannedBatch : ℤ
  step : ℤ
  minBatch : ℤ
  cutSettleS : ℚ := 60
  raiseSettleS : ℚ := 75

structure HuntReading where
  gpuC : ℤ
  memC : ℤ
  nowS : ℚ

def HuntParams.normalized (p : HuntParams) : HuntParams :=
  let cutSettleS := max 5 p.cutSettleS
  let step := if p.step < 1 then 1000 else p.step
  let plannedBatch := if p.plannedBatch < 1 then 1 else p.plannedBatch
  let minBatch := if p.minBatch < step then step else p.minBatch
  let targetC := if p.targetC < 40 then 40 else p.targetC
  { useMem := p.useMem
    targetC := targetC
    capC := if p.capC ≤ targetC then targetC + 3 else p.capC
    gpuCapC := p.gpuCapC
    plannedBatch := plannedBatch
    step := step
    minBatch := if plannedBatch < minBatch then plannedBatch else minBatch
    cutSettleS := cutSettleS
    raiseSettleS := max (cutSettleS + 5) p.raiseSettleS }

def HuntParams.intoRange (p : HuntParams) (batch : ℤ) : ℤ :=
  let batch := if batch ≤ 0 then p.plannedBatch else batch
  let batch := if p.plannedBatch < batch then p.plannedBatch else batch
  if batch < p.minBatch then p.minBatch else batch

def HuntParams.control (p : HuntParams) (x : HuntReading) : ℤ × HuntSensor :=
  let junction := p.useMem && decide (0 < x.memC)
  let controlC := if junction then x.memC else x.gpuC
  if 0 < p.gpuCapC ∧ p.gpuCapC ≤ x.gpuC ∧ controlC < x.gpuC then (x.gpuC, .gpu)
  else (controlC, if junction then .mem else .gpu)

/-- A drop of 12C or more in one sample is taken for a glitch. -/
def ThermalHuntState.filtered (st : ThermalHuntState) (p : HuntParams) (temp : ℤ) : ℤ :=
  if p.targetC ≤ st.lastTempC ∧ 0 < temp ∧ 12 ≤ st.lastTempC - temp then st.lastTempC else temp

/-- The closure `apply`: inside the settle window the batch stays. -/
def ThermalHuntState.apply (st : ThermalHuntState) (p : HuntParams) (now : ℚ) (next : ℤ)
    (action : HuntAction) : ThermalHuntState × HuntAction :=
  if now - st.lastAdjustS < p.cutSettleS then (st, .hold)
  else
    let next := if p.plannedBatch < next then p.plannedBatch else next
    let next := if next < p.minBatch then p.minBatch else next
    if next = st.batch then (st, .hold)
    else ({ st with batch := next, lastAdjustS := now }, action)

/-- The batch a hot reading asks for: the last good one, but above the previous low. -/
def ThermalHuntState.drop (st : ThermalHuntState) (p : HuntParams) : ℤ :=
  let drop := if st.lastOk ≤ st.floor then st.floor + p.step else st.lastOk
  let drop := if st.batch ≤ drop then st.batch - p.step else drop
  let drop := if drop ≤ st.floor then st.floor + p.step else drop
  let drop := if drop < p.minBatch then p.minBatch else drop
  if st.batch < drop then st.batch else drop

def ThermalHuntState.cut (st : ThermalHuntState) (p : HuntParams) (now : ℚ) :
    ThermalHuntState × HuntAction :=
  if st.drop p = st.batch then (st, .hold)
  else
    let (st, action) := st.apply p now (st.drop p) .cut
    ({ st with floor := if st.floor < st.batch then st.batch else st.floor }, action)

def ThermalHuntState.marked (st : ThermalHuntState) : ThermalHuntState :=
  { st with
    floor := if st.floor ≤ 0 then st.batch else st.floor
    lastOk := if st.lastOk ≤ 0 then st.batch else st.lastOk }

def ThermalHuntState.dT (st : ThermalHuntState) (temp : ℤ) : ℤ :=
  if 0 < st.lastTempC then temp - st.lastTempC else 0

def ThermalHuntState.react (st : ThermalHuntState) (p : HuntParams) (temp : ℤ) (now : ℚ) :
    ThermalHuntState × HuntAction :=
  if temp ≤ p.targetC ∧ st.dT temp ≤ 0 then
    { st with lastOk := st.batch, consecutiveCool := st.consecutiveCool + 1 }.apply p now
      (st.batch + p.step) .raise
  else if p.capC ≤ temp ∨ p.targetC + 2 ≤ temp ∨ (p.targetC ≤ temp ∧ 0 < st.dT temp) then
    { st with consecutiveCool := 0 }.cut p now
  else ({ st with consecutiveCool := 0 }, .hold)

/-- The low watermark is at least the minimum, and the GPU idles more the hotter it is. -/
def ThermalHuntState.observed (st : ThermalHuntState) (p : HuntParams) (temp : ℤ) :
    ThermalHuntState :=
  { st.marked with
    floor := if st.marked.floor < p.minBatch then p.minBatch else st.marked.floor
    idleMs := if p.targetC ≤ temp then min 80 (12 * (temp - p.targetC + 1)) else 0 }

def huntThermalScale (st : ThermalHuntState) (p : HuntParams) (x : HuntReading) :
    ThermalHuntState × ThermalHuntResult :=
  let p := p.normalized
  let st := { st with batch := p.intoRange st.batch }
  let control := p.control x
  let temp := st.filtered p control.1
  if st.lastAdjustS ≤ 0 then
    let st := { st.marked with lastAdjustS := x.nowS, lastTempC := temp }
    (st, { batch := st.batch, scale := st.batch / p.plannedBatch, controlC := temp
           sensor := control.2 })
  else
    let (st, action) := (st.observed p temp).react p temp x.nowS
    let st := { st with lastTempC := temp }
    (st, { batch := st.batch, scale := st.batch / p.plannedBatch, action, controlC := temp
           sensor := control.2, idleMs := st.idleMs })

theorem HuntParams.normalized_range (p : HuntParams) :
    1 ≤ p.normalized.minBatch ∧ p.normalized.minBatch ≤ p.normalized.plannedBatch := by
  unfold HuntParams.normalized
  dsimp only
  split_ifs <;> omega

def HuntParams.holds (p : HuntParams) (st : ThermalHuntState) : Prop :=
  p.minBatch ≤ st.batch ∧ st.batch ≤ p.plannedBatch

variable {p : HuntParams} {st : ThermalHuntState}

theorem HuntParams.intoRange_range (hp : p.minBatch ≤ p.plannedBatch) (batch : ℤ) :
    p.minBatch ≤ p.intoRange batch ∧ p.intoRange batch ≤ p.plannedBatch := by
  unfold HuntParams.intoRange
  dsimp only
  split_ifs <;> omega

theorem HuntParams.holds.apply (hst : p.holds st) (hp : p.minBatch ≤ p.plannedBatch) (now : ℚ)
    (next : ℤ) (action : HuntAction) : p.holds (st.apply p now next action).1 := by
  obtain ⟨hmin, hmax⟩ := hst
  unfold ThermalHuntState.apply HuntParams.holds
  dsimp only
  split_ifs <;> constructor <;> dsimp only <;> omega

theorem HuntParams.holds.cut (hst : p.holds st) (hp : p.minBatch ≤ p.plannedBatch) (now : ℚ) :
    p.holds (st.cut p now).1 := by
  unfold ThermalHuntState.cut
  split_ifs
  · exact hst
  · exact hst.apply hp now (st.drop p) .cut

theorem HuntParams.holds.react (hst : p.holds st) (hp : p.minBatch ≤ p.plannedBatch) (temp : ℤ)
    (now : ℚ) : p.holds (st.react p temp now).1 := by
  unfold ThermalHuntState.react
  split_ifs
  · refine HuntParams.holds.apply ?_ hp now _ _
    exact hst
  · refine HuntParams.holds.cut ?_ hp now
    exact hst
  · exact hst

theorem huntThermalScale_range (st : ThermalHuntState) (p : HuntParams) (x : HuntReading) :
    p.normalized.holds (huntThermalScale st p x).1 ∧
      (huntThermalScale st p x).2.batch = (huntThermalScale st p x).1.batch := by
  have hp := p.normalized_range.2
  have hst := HuntParams.intoRange_range hp st.batch
  unfold huntThermalScale
  dsimp only
  split_ifs
  · exact ⟨hst, rfl⟩
  · refine ⟨HuntParams.holds.react ?_ hp _ _, rfl⟩
    exact hst

/-- Where a batch is planned, the batch of a hunt is neither empty nor larger than planned. -/
theorem huntThermalScale_batch {p : HuntParams} (hp : 1 ≤ p.plannedBatch) (st : ThermalHuntState)
    (x : HuntReading) : 1 ≤ (huntThermalScale st p x).2.batch ∧
      (huntThermalScale st p x).2.batch ≤ p.plannedBatch := by
  obtain ⟨⟨hmin, hmax⟩, hbatch⟩ := huntThermalScale_range st p x
  have hplanned : p.normalized.plannedBatch = p.plannedBatch := if_neg (by omega)
  have hleast := p.normalized_range.1
  omega

end XnMiner

import XnMiner.Mining.CudaEngine
import XnMiner.Mining.VramBatch

/-! # The size of a wave

Difficulty, lanes and batch of the engine, and the calls that change them. A call may throw
after it has written some of them. Groups, worker threads and the hashing itself are not part
of the state; whether lanes and workers can be made is an answer of the device.
-/
namespace XnMiner
open Transitions

structure EngineSettings extends Settings, VramPolicy where
  cudaMaxLanes : ℤ := 8
  cudaLaneReserve : ℤ := 1
  cudaBatchSize : ℤ := 0
  cudaMaxBatchSize : ℤ := 0
  vramReferenceDifficulty : ℤ := 1100
  workPatches : ℤ := 2
  warnGpuTempC : ℤ := 78
  maxGpuTempC : ℤ := 84
  warnMemTempC : ℤ := 76
  maxMemTempC : ℤ := 80
  thermalUseMemoryJunction : Bool := true
  gpuThermalBatchEnabled : Bool := true
  gpuThermalBatchMinScale : ℚ := 3 / 10
  gpuThermalStartScale : ℚ := 7 / 10
  thermalBatchStep : ℤ := 1
  thermalSettleS : ℤ := 15

structure Device where
  totalBytes : ℕ
  freeBytes : ℕ
  /-- `cudaSetDevice` succeeds. -/
  selected : Bool := true
  /-- `sync_lanes` returns. -/
  lanesMade : Bool := true
  /-- `ensure_lane_workers` returns. -/
  workersMade : Bool := true

structure EngineSizing where
  started : Bool := false
  difficulty : ℤ := 1100
  lanes : ℤ := 1
  batchPerLane : ℤ := 0
  plannedBatchPerLane : ℤ := 0
  workPatches : ℤ := 2
  maxLanesCap : ℤ := 8
  configMaxLanes : ℤ := 8
  thermalBatchScale : ℚ := 1
  thermalIdleMs : ℤ := 0
  thermalHunt : ThermalHuntState := {}
  vramCaps : Option VramCaps := none
  vramPlan : Option CudaVramPlan := none
  totalVramBytes : ℕ := 0

/-- The engine after a call, and what the call returned if it did not throw. -/
structure EngineCall (α : Type) where
  engine : EngineSizing
  result : Option α

def EngineCall.andThen {α β : Type} (c : EngineCall α) (f : EngineSizing → EngineCall β) :
    EngineCall β :=
  match c.result with
  | none => ⟨c.engine, none⟩
  | some _ => f c.engine

def EngineCall.void {α : Type} (c : EngineCall α) : EngineCall Unit :=
  ⟨c.engine, c.result.map fun _ => ()⟩

section Sizing
variable (cfg : EngineSettings)

def newEngine : EngineSizing :=
  { difficulty := cfg.memoryCost
    maxLanesCap := max 1 cfg.cudaMaxLanes
    configMaxLanes := max 1 cfg.cudaMaxLanes }

def EngineSizing.resolvedCaps (s : EngineSizing) : VramCaps :=
  resolveVramCaps (mibOf s.totalVramBytes) cfg.toVramPolicy

def EngineSizing.planFor (s : EngineSizing) (difficulty : ℤ) (dev : Device) : CudaVramPlan :=
  let caps := s.vramCaps.getD (s.resolvedCaps cfg)
  planCudaBatch
    { totalBytes := s.totalVramBytes
      freeBytes := dev.freeBytes
      targetMib := caps.targetMib
      desktopHeadroomMib := caps.headroomMib
      difficulty := difficulty
      referenceDifficulty := cfg.vramReferenceDifficulty
      maxLanes := s.maxLanesCap
      laneReserve := cfg.cudaLaneReserve
      explicitBatch := cfg.cudaBatchSize
      explicitMaxBatch := cfg.cudaMaxBatchSize
      runtimeOverheadMib := caps.runtimeOverheadMib }

def EngineSizing.adopt (s : EngineSizing) (plan : CudaVramPlan) : EngineSizing :=
  { s with
    vramPlan := some plan
    lanes := plan.lanes
    workPatches := clampInt cfg.workPatches 2 3
    plannedBatchPerLane := plan.batchPerLane
    batchPerLane := applyBatchScale plan.batchPerLane s.thermalBatchScale
    thermalHunt := {}
    thermalIdleMs := 0 }

/-- The difficulty and the caps are stored before the plan is made. -/
def EngineSizing.replan (s : EngineSizing) (difficulty : ℤ) (dev : Device) : EngineCall Unit :=
  let plan := s.planFor cfg difficulty dev
  let s := { s with
    difficulty := difficulty
    vramCaps := some (s.vramCaps.getD (s.resolvedCaps cfg)) }
  if plan.batchPerLane ≤ 0 then ⟨s, none⟩
  else ⟨s.adopt cfg plan, if s.started = true ∧ dev.lanesMade = false then none else some ()⟩

def EngineSizing.withWorkers {α : Type} (s : EngineSizing) (dev : Device) (a : α) : EngineCall α :=
  ⟨s, if s.started = true ∧ dev.workersMade = false then none else some a⟩

def EngineSizing.selected (s : EngineSizing) (dev : Device) : EngineSizing :=
  let s := { s with totalVramBytes := dev.totalBytes }
  { s with vramCaps := some (s.resolvedCaps cfg) }

def EngineSizing.start (s : EngineSizing) (dev : Device) : EngineCall Unit :=
  if s.started then ⟨s, some ()⟩
  else if dev.selected = false then ⟨s, none⟩
  else
    ((s.selected cfg dev).replan cfg s.difficulty dev).andThen fun s =>
      if dev.lanesMade && dev.workersMade then ⟨{ s with started := true }, some ()⟩ else ⟨s, none⟩

def EngineSizing.stop (s : EngineSizing) : EngineSizing :=
  { s with started := false, vramPlan := none }

def EngineSizing.setDifficulty (s : EngineSizing) (difficulty : ℤ) (dev : Device) :
    EngineCall Unit :=
  if difficulty = s.difficulty ∧ s.started = true then ⟨s, some ()⟩
  else
    let s := { s with difficulty := difficulty }
    if s.started then (s.replan cfg difficulty dev).andThen fun s => s.withWorkers dev ()
    else ⟨s, some ()⟩

def EngineSizing.reduceLaneCap (s : EngineSizing) (dev : Device) : EngineCall ℤ :=
  let cap := max 1 (s.maxLanesCap - 1)
  { s with maxLanesCap := cap, lanes := min s.lanes cap }.withWorkers dev cap

def EngineSizing.addLaneCap (s : EngineSizing) (dev : Device) : EngineCall ℤ :=
  if s.configMaxLanes ≤ s.maxLanesCap then ⟨s, some s.maxLanesCap⟩
  else
    let cap := s.maxLanesCap + 1
    let lanes := min (max s.lanes cap) s.configMaxLanes
    let lanes := match s.vramPlan with
      | some plan => if 0 < plan.lanes then min lanes plan.lanes else lanes
      | none => lanes
    { s with maxLanesCap := cap, lanes := min lanes cap }.withWorkers dev cap

def EngineSizing.restoreLaneCapIfCool (s : EngineSizing) (temperatureC memoryJunctionC : ℤ)
    (dev : Device) : EngineCall Bool :=
  if s.configMaxLanes ≤ s.maxLanesCap then ⟨s, some false⟩
  else if cfg.warnGpuTempC ≤ temperatureC then ⟨s, some false⟩
  else if cfg.thermalUseMemoryJunction = true ∧ 0 < memoryJunctionC ∧
      cfg.warnMemTempC ≤ memoryJunctionC then ⟨s, some false⟩
  else
    let s := { s with maxLanesCap := s.configMaxLanes }
    if s.started then (s.replan cfg s.difficulty dev).andThen fun s => s.withWorkers dev true
    else ⟨s, some true⟩

def EngineSizing.setThermalBatchScale (s : EngineSizing) (scale : ℚ) : EngineSizing × ℚ :=
  let newScale := clampFloat scale (clampFloat cfg.gpuThermalBatchMinScale (1 / 5) 1) 1
  if |newScale - s.thermalBatchScale| < 5 / 1000 then (s, s.thermalBatchScale)
  else
    let s := { s with thermalBatchScale := newScale }
    if 0 < s.plannedBatchPerLane then
      let batch := applyBatchScale s.plannedBatchPerLane newScale
      ({ s with batchPerLane := batch, thermalHunt := { s.thermalHunt with batch } }, newScale)
    else (s, newScale)

/-- A hunt that has no batch yet starts below the full pack. -/
def EngineSizing.startHunt (s : EngineSizing) : EngineSizing :=
  if 0 < s.thermalHunt.batch then s
  else
    let startSc := clampFloat cfg.gpuThermalStartScale (1 / 2) 1
    let batch := applyBatchScale s.plannedBatchPerLane startSc
    { s with
      thermalHunt := { s.thermalHunt with batch, floor := batch, lastOk := batch }
      batchPerLane := batch
      thermalBatchScale := startSc }

def EngineSizing.huntParams (s : EngineSizing) : HuntParams :=
  { useMem := cfg.thermalUseMemoryJunction
    targetC := cfg.warnMemTempC
    capC := cfg.maxMemTempC
    gpuCapC := cfg.maxGpuTempC
    plannedBatch := s.plannedBatchPerLane
    step := cfg.thermalBatchStep
    minBatch := applyBatchScale s.plannedBatchPerLane cfg.gpuThermalBatchMinScale
    cutSettleS := cfg.thermalSettleS
    raiseSettleS := cfg.thermalSettleS + 30 }

def EngineSizing.updateThermalBatchFromTemp (s : EngineSizing) (x : HuntReading) :
    EngineSizing × ThermalHuntResult :=
  if cfg.gpuThermalBatchEnabled = false ∨ s.plannedBatchPerLane ≤ 0 then
    (s, { batch := s.batchPerLane
          scale := s.thermalBatchScale
          controlC := if 0 < x.memC then x.memC else x.gpuC
          sensor := if 0 < x.memC then .mem else .gpu })
  else
    let s := s.startHunt cfg
    let (hunt, r) := huntThermalScale s.thermalHunt (s.huntParams cfg) x
    let s := { s with thermalHunt := hunt, thermalIdleMs := r.idleMs }
    let s := if 0 < r.batch ∧ r.batch ≠ s.batchPerLane then
        { s with
          batchPerLane := r.batch
          thermalBatchScale := r.batch / s.plannedBatchPerLane }
      else s
    (s, { r with scale := s.thermalBatchScale, batch := s.batchPerLane })

inductive SizingAction where
  | start (dev : Device)
  | stop
  | setVramCaps (caps : VramCaps)
  | setDifficulty (difficulty : ℤ) (dev : Device)
  | reduceLaneCap (dev : Device)
  | addLaneCap (dev : Device)
  | restoreLaneCapIfCool (temperatureC memoryJunctionC : ℤ) (dev : Device)
  | setThermalBatchScale (scale : ℚ)
  | updateThermalBatchFromTemp (x : HuntReading)

/-- The caller catches what a call throws. -/
def EngineSizing.call (s : EngineSizing) (a : SizingAction) : EngineCall Unit :=
  match a with
  | .start dev => s.start cfg dev
  | .stop => ⟨s.stop, some ()⟩
  | .setVramCaps caps => ⟨{ s with vramCaps := some caps }, some ()⟩
  | .setDifficulty difficulty dev => s.setDifficulty cfg difficulty dev
  | .reduceLaneCap dev => (s.reduceLaneCap dev).void
  | .addLaneCap dev => (s.addLaneCap dev).void
  | .restoreLaneCapIfCool temperatureC memoryJunctionC dev =>
    (s.restoreLaneCapIfCool cfg temperatureC memoryJunctionC dev).void
  | .setThermalBatchScale scale => ⟨(s.setThermalBatchScale cfg scale).1, some ()⟩
  | .updateThermalBatchFromTemp x => ⟨(s.updateThermalBatchFromTemp cfg x).1, some ()⟩

def sizingMachine : Machine EngineSizing SizingAction where
  init s := s = newEngine cfg
  step s a t := (s.call cfg a).engine = t

end Sizing

structure EngineSizing.sizedBy (s : EngineSizing) (plan : CudaVramPlan) : Prop where
  stored : s.vramPlan = some plan
  difficulty : plan.difficulty = s.difficulty
  lanes : s.lanes ≤ plan.lanes
  nonempty : 1 ≤ s.batchPerLane
  batch : s.batchPerLane ≤ plan.batchPerLane
  budget : s.lanes * s.batchPerLane * bytesPerAttempt s.difficulty ≤ plan.budgetBytes

def EngineSizing.sized (s : EngineSizing) : Prop := s.started = true → ∃ plan, s.sizedBy plan

structure EngineSizing.follows (s : EngineSizing) (plan : CudaVramPlan) : Prop where
  stored : s.vramPlan = some plan
  difficulty : plan.difficulty = s.difficulty
  lanes : s.lanes ≤ plan.lanes
  planned : s.plannedBatchPerLane = plan.batchPerLane
  nonempty : 1 ≤ s.batchPerLane
  batch : s.batchPerLane ≤ plan.batchPerLane
  fits : plan.fits

def SizingInv (s : EngineSizing) : Prop := s.started = true → ∃ plan, s.follows plan

variable {cfg : EngineSettings} {s : EngineSizing} {plan : CudaVramPlan}

theorem EngineSizing.follows.sizedBy (h : s.follows plan) : s.sizedBy plan := by
  refine ⟨h.stored, h.difficulty, h.lanes, h.nonempty, h.batch, ?_⟩
  obtain ⟨hdifficulty, hbudget⟩ := (h.fits.smaller h.batch).2 h.nonempty
  have hle : (s.lanes : ℚ) ≤ plan.lanes := by exact_mod_cast h.lanes
  have hpos : (0 : ℚ) ≤ s.batchPerLane := by exact_mod_cast zero_le_one.trans h.nonempty
  have hper := zero_lt_one.trans (bytesPerAttempt_pos hdifficulty)
  rw [← h.difficulty]
  calc (s.lanes : ℚ) * s.batchPerLane * bytesPerAttempt plan.difficulty
      ≤ plan.lanes * s.batchPerLane * bytesPerAttempt plan.difficulty := by gcongr
    _ ≤ plan.budgetBytes := hbudget

theorem SizingInv.sized (hi : SizingInv s) : s.sized := by
  intro hstarted
  obtain ⟨plan, h⟩ := hi hstarted
  exact ⟨plan, h.sizedBy⟩

theorem planFor_fits (cfg : EngineSettings) (s : EngineSizing) (difficulty : ℤ) (dev : Device) :
    (s.planFor cfg difficulty dev).difficulty = difficulty ∧ (s.planFor cfg difficulty dev).fits :=
  planCudaBatch_fits _

/-- A plan with attempts is adopted, whatever the thermal scale is. -/
theorem EngineSizing.adopt_follows (hbatch : 0 < plan.batchPerLane)
    (hdifficulty : plan.difficulty = s.difficulty) (hfits : plan.fits) :
    (s.adopt cfg plan).follows plan := by
  obtain ⟨hone, hle⟩ := applyBatchScale_range hbatch s.thermalBatchScale
  exact ⟨rfl, hdifficulty, le_rfl, rfl, hone, hle, hfits⟩

theorem EngineSizing.replan_cases (cfg : EngineSettings) (s : EngineSizing) (difficulty : ℤ)
    (dev : Device) :
    ((s.planFor cfg difficulty dev).batchPerLane ≤ 0 ∧
      (s.replan cfg difficulty dev).result = none ∧
      (s.replan cfg difficulty dev).engine = { s with
        difficulty := difficulty
        vramCaps := some (s.vramCaps.getD (s.resolvedCaps cfg)) }) ∨
    (0 < (s.planFor cfg difficulty dev).batchPerLane ∧
      (s.replan cfg difficulty dev).engine.follows (s.planFor cfg difficulty dev) ∧
      (s.replan cfg difficulty dev).engine.started = s.started ∧
      ((s.replan cfg difficulty dev).result = none ↔ s.started = true ∧ dev.lanesMade = false)) := by
  obtain ⟨hdifficulty, hfits⟩ := planFor_fits cfg s difficulty dev
  unfold EngineSizing.replan
  dsimp only
  by_cases hempty : (s.planFor cfg difficulty dev).batchPerLane ≤ 0
  · rw [if_pos hempty]
    exact .inl ⟨hempty, rfl, rfl⟩
  · rw [if_neg hempty]
    have hbatch := lt_of_not_ge hempty
    refine .inr ⟨hbatch, adopt_follows hbatch hdifficulty hfits, rfl, ?_⟩
    dsimp only
    split_ifs with hmade <;> simp [hmade]

theorem SizingInv.stopped (h : s.started = false) : SizingInv s := by
  intro hstarted
  simp [h] at hstarted

/-- Replanning a running engine for its own difficulty keeps the old plan where it throws. -/
theorem SizingInv.replan (hi : SizingInv s) (dev : Device) :
    SizingInv (s.replan cfg s.difficulty dev).engine := by
  rcases s.replan_cases cfg s.difficulty dev with ⟨-, -, hengine⟩ | ⟨-, hfollows, -, -⟩
  · rw [hengine]
    intro hstarted
    obtain ⟨plan, h⟩ := hi hstarted
    exact ⟨plan, ⟨h.stored, h.difficulty, h.lanes, h.planned, h.nonempty, h.batch, h.fits⟩⟩
  · exact fun _ => ⟨_, hfollows⟩

theorem SizingInv.andThen {α β : Type} {c : EngineCall α} (hi : SizingInv c.engine)
    {f : EngineSizing → EngineCall β} (hf : SizingInv (f c.engine).engine) :
    SizingInv (c.andThen f).engine := by
  unfold EngineCall.andThen
  split
  · exact hi
  · exact hf

theorem SizingInv.start (hi : SizingInv s) (dev : Device) : SizingInv (s.start cfg dev).engine := by
  unfold EngineSizing.start
  split
  · exact hi
  split
  · exact hi
  next hstarted _ =>
    have hstopped : (s.selected cfg dev).started = false := by
      simpa [EngineSizing.selected] using hstarted
    unfold EngineCall.andThen
    rcases (s.selected cfg dev).replan_cases cfg s.difficulty dev with
      ⟨-, hnone, hengine⟩ | ⟨-, hfollows, hsame, -⟩
    · rw [hnone]
      refine SizingInv.stopped ?_
      dsimp only
      rw [hengine]
      exact hstopped
    · have hbefore := SizingInv.stopped (hsame.trans hstopped)
      split
      · exact hbefore
      · dsimp only
        split
        · exact fun _ => ⟨_, ⟨hfollows.stored, hfollows.difficulty, hfollows.lanes,
            hfollows.planned, hfollows.nonempty, hfollows.batch, hfollows.fits⟩⟩
        · exact hbefore

theorem SizingInv.lanes (hi : SizingInv s) {cap lanes : ℤ}
    (hlanes : ∀ plan, s.vramPlan = some plan → 1 ≤ plan.lanes → s.lanes ≤ plan.lanes →
      lanes ≤ plan.lanes) :
    SizingInv { s with maxLanesCap := cap, lanes := lanes } := by
  intro hstarted
  obtain ⟨plan, h⟩ := hi hstarted
  have hle := hlanes plan h.stored h.fits.1 h.lanes
  exact ⟨plan, ⟨h.stored, h.difficulty, hle, h.planned, h.nonempty, h.batch, h.fits⟩⟩

theorem SizingInv.addLaneCap (hi : SizingInv s) (dev : Device) :
    SizingInv (s.addLaneCap dev).engine := by
  unfold EngineSizing.addLaneCap
  split_ifs
  · exact hi
  · refine hi.lanes fun plan hstored hone _ => ?_
    simp only [hstored]
    split_ifs <;> omega

/-- A thermal call gives the batch a value between one and the planned batch. -/
theorem SizingInv.rescaled (hi : SizingInv s) {batch idleMs : ℤ} {scale : ℚ}
    {hunt : ThermalHuntState}
    (hbatch : 1 ≤ s.plannedBatchPerLane → 1 ≤ s.batchPerLane → s.batchPerLane ≤ s.plannedBatchPerLane →
      1 ≤ batch ∧ batch ≤ s.plannedBatchPerLane) :
    SizingInv { s with
      batchPerLane := batch
      thermalBatchScale := scale
      thermalHunt := hunt
      thermalIdleMs := idleMs } := by
  intro hstarted
  obtain ⟨plan, h⟩ := hi hstarted
  have hle : s.batchPerLane ≤ s.plannedBatchPerLane := h.planned ▸ h.batch
  obtain ⟨hone, hplanned⟩ := hbatch (h.nonempty.trans hle) h.nonempty hle
  exact ⟨plan, ⟨h.stored, h.difficulty, h.lanes, h.planned, hone, h.planned ▸ hplanned, h.fits⟩⟩

theorem SizingInv.setThermalBatchScale (hi : SizingInv s) (scale : ℚ) :
    SizingInv (s.setThermalBatchScale cfg scale).1 := by
  unfold EngineSizing.setThermalBatchScale
  dsimp only
  split_ifs with hsame hplanned
  · exact hi
  · exact hi.rescaled fun hone _ _ => applyBatchScale_range hone _
  · exact hi.rescaled fun _ hone hle => ⟨hone, hle⟩

theorem SizingInv.updateThermalBatchFromTemp (hi : SizingInv s) (x : HuntReading) :
    SizingInv (s.updateThermalBatchFromTemp cfg x).1 := by
  unfold EngineSizing.updateThermalBatchFromTemp
  split
  · exact hi
  next henabled =>
    have hplanned : 1 ≤ s.plannedBatchPerLane := by
      by_contra hnone
      exact henabled (.inr (by omega))
    have hstart : SizingInv (s.startHunt cfg) := by
      unfold EngineSizing.startHunt
      split_ifs
      · exact hi
      · exact hi.rescaled fun hone _ _ => applyBatchScale_range hone _
    have hsame : (s.startHunt cfg).plannedBatchPerLane = s.plannedBatchPerLane := by
      unfold EngineSizing.startHunt
      split_ifs <;> rfl
    obtain ⟨hone, hle⟩ := huntThermalScale_batch (p := (s.startHunt cfg).huntParams cfg)
      (hplanned.trans_eq hsame.symm) (s.startHunt cfg).thermalHunt x
    dsimp only
    split_ifs
    · exact hstart.rescaled fun _ _ _ => ⟨hone, hle⟩
    · exact hstart.rescaled fun _ hone hle => ⟨hone, hle⟩

theorem SizingInv.restoreLaneCapIfCool (hi : SizingInv s) (temperatureC memoryJunctionC : ℤ)
    (dev : Device) :
    SizingInv (s.restoreLaneCapIfCool cfg temperatureC memoryJunctionC dev).engine := by
  have hcap : SizingInv { s with maxLanesCap := s.configMaxLanes } :=
    hi.lanes fun _ _ _ hle => hle
  unfold EngineSizing.restoreLaneCapIfCool
  dsimp only
  split_ifs
  · exact hi
  · exact hi
  · exact hi
  · exact (hcap.replan dev).andThen (hcap.replan dev)
  · exact hcap

/-- A running engine is set to a new difficulty only if the plan for it has attempts, and its
lanes and workers can be made. -/
def settable (cfg : EngineSettings) (s : EngineSizing) (a : SizingAction) : Prop :=
  match a with
  | .setDifficulty difficulty dev => s.started = true → difficulty ≠ s.difficulty →
    0 < (s.planFor cfg difficulty dev).batchPerLane ∧ dev.lanesMade = true ∧ dev.workersMade = true
  | _ => True

/-- After the call the size fits, and a `set_difficulty` that throws has changed nothing. -/
def keepsSize (cfg : EngineSettings) (s : EngineSizing) (a : SizingAction) : Prop :=
  (s.call cfg a).engine.sized ∧ ∀ difficulty dev, a = .setDifficulty difficulty dev →
    (s.call cfg a).result = none →
    (s.call cfg a).engine.difficulty = s.difficulty ∧ (s.call cfg a).engine.lanes = s.lanes ∧
      (s.call cfg a).engine.batchPerLane = s.batchPerLane

theorem EngineSizing.setDifficulty_started (hstarted : s.started = true) {difficulty : ℤ}
    (hnew : difficulty ≠ s.difficulty) (dev : Device) :
    s.setDifficulty cfg difficulty dev =
      ({ s with difficulty := difficulty }.replan cfg difficulty dev).andThen fun s =>
        s.withWorkers dev () := by
  simp [EngineSizing.setDifficulty, hstarted, hnew]

/-- Setting a difficulty stores it, also where it throws. -/
theorem EngineSizing.setDifficulty_difficulty (s : EngineSizing) (difficulty : ℤ) (dev : Device) :
    (s.setDifficulty cfg difficulty dev).engine.difficulty = difficulty := by
  unfold EngineSizing.setDifficulty
  split
  next hsame => exact hsame.1.symm
  dsimp only
  split
  · have hreplan : ({ s with difficulty := difficulty }.replan cfg difficulty dev).engine.difficulty =
        difficulty := by
      unfold EngineSizing.replan
      dsimp only
      split_ifs <;> rfl
    unfold EngineCall.andThen
    split <;> exact hreplan
  · rfl

/-- A difficulty that is not settable makes the call throw. -/
theorem setDifficulty_throws {difficulty : ℤ} {dev : Device}
    (h : ¬ settable cfg s (.setDifficulty difficulty dev)) :
    difficulty ≠ s.difficulty ∧ (s.setDifficulty cfg difficulty dev).result = none := by
  simp only [settable, Classical.not_imp] at h
  obtain ⟨hstarted, hnew, hfails⟩ := h
  refine ⟨hnew, ?_⟩
  rw [EngineSizing.setDifficulty_started hstarted hnew]
  unfold EngineCall.andThen
  split
  · rfl
  next hreturns =>
    rcases EngineSizing.replan_cases cfg { s with difficulty := difficulty } difficulty dev with
      ⟨-, hnone, -⟩ | ⟨hbatch, -, hsame, hthrows⟩
    · rw [hnone] at hreturns
      cases hreturns
    · have hmade : dev.lanesMade = true := by
        by_contra hlanes
        rw [hthrows.mpr ⟨hstarted, by simpa using hlanes⟩] at hreturns
        cases hreturns
      have hworkers : dev.workersMade = false := by
        by_contra hworkers
        exact hfails ⟨hbatch, hmade, by simpa using hworkers⟩
      exact if_pos ⟨hsame.trans hstarted, hworkers⟩

/-- A settable difficulty leaves an engine that is not running or that has its plan. -/
theorem SizingInv.setDifficulty (hi : SizingInv s) {difficulty : ℤ} {dev : Device}
    (hset : settable cfg s (.setDifficulty difficulty dev)) :
    SizingInv (s.setDifficulty cfg difficulty dev).engine ∧
      (s.setDifficulty cfg difficulty dev).result = some () := by
  cases hstarted : s.started with
  | false =>
    simp only [EngineSizing.setDifficulty, hstarted, Bool.false_eq_true, and_false, if_false]
    exact ⟨SizingInv.stopped rfl, trivial⟩
  | true =>
    by_cases hsame : difficulty = s.difficulty
    · simp only [EngineSizing.setDifficulty, hsame, hstarted, and_self, if_true]
      exact ⟨hi, trivial⟩
    · obtain ⟨hbatch, hlanes, hworkers⟩ := hset hstarted hsame
      rw [EngineSizing.setDifficulty_started hstarted hsame]
      rcases EngineSizing.replan_cases cfg { s with difficulty := difficulty } difficulty dev with
        ⟨hempty, -, -⟩ | ⟨-, hfollows, -, hthrows⟩
      · exact absurd hbatch (not_lt_of_ge hempty)
      · unfold EngineCall.andThen
        split
        next hnone =>
          have hfailed := (hthrows.mp hnone).2
          simp [hlanes] at hfailed
        · refine ⟨fun _ => ⟨_, hfollows⟩, ?_⟩
          simp [EngineSizing.withWorkers, hworkers]

theorem SizingInv.call (hi : SizingInv s) {a : SizingAction} (hset : settable cfg s a) :
    SizingInv (s.call cfg a).engine := by
  cases a with
  | start dev => exact hi.start dev
  | stop => exact SizingInv.stopped rfl
  | setVramCaps caps =>
    intro hstarted
    obtain ⟨plan, h⟩ := hi hstarted
    exact ⟨plan, ⟨h.stored, h.difficulty, h.lanes, h.planned, h.nonempty, h.batch, h.fits⟩⟩
  | setDifficulty difficulty dev => exact (hi.setDifficulty hset).1
  | reduceLaneCap dev => exact hi.lanes fun _ _ _ hle => (min_le_left _ _).trans hle
  | addLaneCap dev => exact hi.addLaneCap dev
  | restoreLaneCapIfCool temperatureC memoryJunctionC dev =>
    exact hi.restoreLaneCapIfCool temperatureC memoryJunctionC dev
  | setThermalBatchScale scale => exact hi.setThermalBatchScale scale
  | updateThermalBatchFromTemp x => exact hi.updateThermalBatchFromTemp x

theorem SizingInv.keepsSize (hi : SizingInv s) {a : SizingAction} (hset : settable cfg s a) :
    keepsSize cfg s a := by
  refine ⟨(hi.call hset).sized, ?_⟩
  rintro difficulty dev rfl hnone
  have hreturns : (s.call cfg (.setDifficulty difficulty dev)).result = some () :=
    (hi.setDifficulty hset).2
  rw [hreturns] at hnone
  cases hnone

theorem settable_of_keepsSize {a : SizingAction} (h : keepsSize cfg s a) : settable cfg s a := by
  cases a with
  | setDifficulty difficulty dev =>
    by_contra hset
    obtain ⟨hnew, hthrows⟩ := setDifficulty_throws hset
    have hkept := (h.2 difficulty dev rfl hthrows).1
    exact hnew ((s.setDifficulty_difficulty difficulty dev).symm.trans hkept)
  | _ => trivial

/-- The runs in which every call keeps the size are those that set a running engine only to
difficulties that can be planned. -/
theorem engine_sized_iff (cfg : EngineSettings) (as : List SizingAction) (s : EngineSizing) :
    ((sizingMachine cfg).restrict (keepsSize cfg)).Run as s ↔
      ((sizingMachine cfg).restrict (settable cfg)).Run as s := by
  constructor
  · intro hrun
    have hset := hrun.restrict_of (C := settable cfg) (I := fun _ => True) (fun _ _ => trivial)
      fun _ _ _ _ hkeeps _ => ⟨settable_of_keepsSize hkeeps, trivial⟩
    exact hset.1
  · intro hrun
    have hnew : ∀ s, (sizingMachine cfg).init s → SizingInv s := by
      rintro s rfl
      exact SizingInv.stopped rfl
    have hkeeps := hrun.restrict_of (C := keepsSize cfg) hnew ?_
    · exact hkeeps.1
    rintro s a t hi hset rfl
    exact ⟨hi.keepsSize hset, hi.call hset⟩

def EngineSizing.lanesFor (cfg : EngineSettings) (s : EngineSizing) (difficulty : ℤ) (dev : Device) :
    Option ℕ :=
  let plan := s.planFor cfg difficulty dev
  if plan.batchPerLane ≤ 0 then none else some plan.lanes.toNat

def EngineSizing.sizes (s : EngineSizing) (e : CudaEngine) : Prop :=
  e.started = s.started ∧ e.difficulty = s.difficulty ∧ (e.lanes : ℤ) = s.lanes

theorem CudaEngine.ensureLaneWorkers_size {e e' : CudaEngine} (h : e.ensureLaneWorkers = some e') :
    e'.started = e.started ∧ e'.difficulty = e.difficulty ∧ e'.lanes = e.lanes := by
  unfold CudaEngine.ensureLaneWorkers CudaEngine.stopLaneWorkers at h
  split_ifs at h
  · obtain rfl := Option.some.inj h
    exact ⟨rfl, rfl, rfl⟩
  · obtain rfl := Option.some.inj h
    exact ⟨rfl, rfl, rfl⟩
  · obtain rfl := Option.some.inj h
    exact ⟨rfl, rfl, rfl⟩
  · cases h

/-- Whether or not the workers can be made, the size is the one that was planned. -/
theorem EngineCall.andWorkers_engine {α β : Type} (c : EngineCall α) (dev : Device) (b : β) :
    (c.andThen fun s => s.withWorkers dev b).engine = c.engine := by
  unfold EngineCall.andThen
  split <;> rfl

/-- With the planner's answer, a difficulty changes the hashing engine as it changes the sizes. -/
theorem EngineSizing.sizes.setDifficulty {e e' : CudaEngine} (hsizes : s.sizes e) {difficulty : ℤ}
    {dev : Device} (h : e.setDifficulty difficulty (s.lanesFor cfg difficulty dev) = some e') :
    (s.setDifficulty cfg difficulty dev).engine.sizes e' := by
  obtain ⟨hstarted, hdifficulty, hlanes⟩ := hsizes
  unfold CudaEngine.setDifficulty at h
  split_ifs at h with hsame hstopped
  · obtain rfl := Option.some.inj h
    rw [hdifficulty, hstarted] at hsame
    rw [EngineSizing.setDifficulty, if_pos hsame]
    exact ⟨hstarted, hdifficulty, hlanes⟩
  · obtain rfl := Option.some.inj h
    rw [hstarted] at hstopped
    simp only [EngineSizing.setDifficulty, hstopped, Bool.false_eq_true, and_false, if_false]
    exact ⟨hstarted.trans hstopped, rfl, hlanes⟩
  · have hrunning : s.started = true := by simpa [hstarted] using hstopped
    have hnew : difficulty ≠ s.difficulty := by
      rintro rfl
      exact hsame ⟨hdifficulty.symm, hstarted.trans hrunning⟩
    have hpositive := (planFor_fits cfg s difficulty dev).2.1
    rw [EngineSizing.setDifficulty_started hrunning hnew, EngineCall.andWorkers_engine]
    have hplan : ({ s with difficulty := difficulty } : EngineSizing).planFor cfg difficulty dev =
        s.planFor cfg difficulty dev := rfl
    unfold EngineSizing.lanesFor at h
    unfold EngineSizing.replan
    dsimp only at h ⊢
    rw [hplan]
    by_cases hempty : (s.planFor cfg difficulty dev).batchPerLane ≤ 0
    · rw [if_pos hempty] at h ⊢
      obtain rfl := Option.some.inj h
      exact ⟨hstarted, rfl, hlanes⟩
    · rw [if_neg hempty] at h ⊢
      obtain ⟨hstarted', hdifficulty', hlanes'⟩ := CudaEngine.ensureLaneWorkers_size h
      refine ⟨hstarted'.trans hstarted, hdifficulty', ?_⟩
      rw [hlanes']
      exact Int.toNat_of_nonneg (zero_le_one.trans hpositive)

def smallDevice : Device := { totalBytes := 8 * 1024 ^ 3, freeBytes := 7 * 1024 ^ 3 }

def hugeDifficulty : EngineSizing :=
  let s := ((newEngine {}).call {} (.start smallDevice)).engine
  (s.call {} (.setDifficulty 10000000 smallDevice)).engine

theorem hugeDifficulty_run :
    (sizingMachine {}).Run [.start smallDevice, .setDifficulty 10000000 smallDevice]
      hugeDifficulty :=
  ((Machine.Run.start rfl).next rfl).next rfl

/-- The engine runs at the new difficulty with the plan of the old one. -/
theorem size_outgrows_plan : ¬ ∀ (cfg : EngineSettings) (as : List SizingAction) (s : EngineSizing),
    (sizingMachine cfg).Run as s → s.sized := by
  intro hall
  have hvalues : (hugeDifficulty.started, hugeDifficulty.difficulty,
      hugeDifficulty.vramPlan.map CudaVramPlan.difficulty) = (true, 10000000, some 1100) := by
    decide +kernel
  simp only [Prod.mk.injEq] at hvalues
  obtain ⟨hstarted, hdifficulty, hplan⟩ := hvalues
  obtain ⟨plan, h⟩ := hall {} _ _ hugeDifficulty_run hstarted
  rw [h.stored, Option.map_some, h.difficulty, hdifficulty] at hplan
  exact absurd hplan (by decide)

end XnMiner

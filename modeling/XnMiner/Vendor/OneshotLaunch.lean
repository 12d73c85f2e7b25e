import XnMiner.System.Grid
import XnMiner.Vendor.OneshotKernel

/-! # A launch of the kernel for a batch of jobs

Each warp of the grid fills the memory of one job. The warps run in any order and in each other's
way: a step of a warp is cut where it has read and has not yet written.
-/
namespace XnMiner
open Warp Regions

/-- A warp reads a block and computes, and then it writes what it has computed. -/
inductive WarpStep
  | load (op : KernelOp)
  | store

def WarpStep.exec (segmentBlocks : Word32) (step : WarpStep) (w : JobWarp)
    (memory : ℕ → Argon2.Block) : JobWarp × (ℕ → Argon2.Block) :=
  match step with
  | load op => ((op.exec segmentBlocks w memory).1, memory)
  | store => (w, Function.update memory (w.jobMem + (w.memCurr - 1)) (storeBlock w.prev))

def KernelOp.steps (op : KernelOp) : List WarpStep :=
  match op with
  | start => [.load start]
  | indexed slice offset => [.load (indexed slice offset), .store]
  | secondSlice => [.load secondSlice]
  | dependent slice offset => [.load (dependent slice offset), .store]

def warpProgram (segmentBlocks : ℕ) : List WarpStep :=
  (oneshotProgram segmentBlocks).flatMap KernelOp.steps

structure OneshotLaunch where
  segmentBlocks : Word32
  batchSize : ℕ
  jobsPerBlock : ℕ

namespace OneshotLaunch
variable (k : OneshotLaunch)

def grid : ℕ := (k.batchSize + k.jobsPerBlock - 1) / k.jobsPerBlock % 2 ^ 32

def jobId (blockIdx localJob : ℕ) : ℕ := (blockIdx * k.jobsPerBlock + localJob) % 2 ^ 32

def laneBlocks : ℕ := (4 * k.segmentBlocks).toNat

/-- The warps by their block and their place in it; those behind the last job return at once.
`registers` is what their registers and the shared memory hold at the start. -/
def programs (registers : ℕ → JobWarp) :
    Programs (Fin k.grid × Fin k.jobsPerBlock) JobWarp ℕ Argon2.Block WarpStep where
  exec := WarpStep.exec k.segmentBlocks
  program w :=
    if k.batchSize % 2 ^ 32 ≤ k.jobId w.1 w.2 then [] else warpProgram k.segmentBlocks.toNat
  start w :=
    { registers (k.jobId w.1 w.2) with jobMem := k.jobId w.1 w.2 * k.laneBlocks }

end OneshotLaunch

variable {segmentBlocks : Word32}

theorem exec_steps (op : KernelOp) (s : JobWarp × (ℕ → Argon2.Block)) :
    op.steps.foldl (fun s step => step.exec segmentBlocks s.1 s.2) s =
      op.exec segmentBlocks s.1 s.2 := by
  cases op with
  | start => rfl
  | secondSlice => rfl
  | indexed slice offset =>
    simp only [KernelOp.steps, List.foldl_cons, List.foldl_nil, WarpStep.exec, KernelOp.exec,
      argon2StepIndexed, Nat.add_sub_cancel]
    rw [argon2Core_memory, argon2Core_jobMem, argon2Core_memCurr]
  | dependent slice offset =>
    simp only [KernelOp.steps, List.foldl_cons, List.foldl_nil, WarpStep.exec, KernelOp.exec,
      argon2StepDependent, Nat.add_sub_cancel]
    rw [argon2Core_memory, argon2Core_jobMem, argon2Core_memCurr]

theorem run_flatMap_steps (segmentBlocks : Word32) (ops : List KernelOp) (s : JobWarp × (ℕ → Argon2.Block)) :
    (ops.flatMap KernelOp.steps).foldl (fun s step => step.exec segmentBlocks s.1 s.2) s =
      runKernel segmentBlocks ops s := by
  induction ops generalizing s with
  | nil => rfl
  | cons op ops ih => rw [List.flatMap_cons, List.foldl_append, exec_steps, ih, runKernel_cons]

def KernelOp.inRange (segmentBlocks : ℕ) (op : KernelOp) : Prop :=
  match op with
  | start => True
  | secondSlice => True
  | indexed slice offset =>
    2 ≤ slice * segmentBlocks + offset ∧ slice * segmentBlocks + offset < 4 * segmentBlocks
  | dependent slice offset =>
    2 ≤ slice * segmentBlocks + offset ∧ slice * segmentBlocks + offset < 4 * segmentBlocks

theorem inRange_of_mem {n : ℕ} (hn : 2 ≤ n) {op : KernelOp} (h : op ∈ oneshotProgram n) :
    op.inRange n := by
  simp only [oneshotProgram, List.mem_append, List.mem_map, List.mem_singleton, List.mem_range'_1,
    List.mem_range] at h
  obtain ((((rfl | ⟨o, ho, rfl⟩) | rfl) | ⟨o, ho, rfl⟩) | ⟨o, ho, rfl⟩) | ⟨o, ho, rfl⟩ := h <;>
    simp only [KernelOp.inRange] <;> omega

theorem exec_memCurr (op : KernelOp) (w : JobWarp) (memory : ℕ → Argon2.Block) :
    (op.exec segmentBlocks w memory).1.memCurr = match op with
      | .start => 2
      | .secondSlice => w.memCurr
      | .indexed _ _ => w.memCurr + 1
      | .dependent _ _ => w.memCurr + 1 := by
  have hrenew : ∀ n, (renewAddresses n w).memCurr = w.memCurr := by
    intro n
    unfold renewAddresses
    split <;> rfl
  cases op with
  | start => rfl
  | secondSlice => rfl
  | indexed slice offset =>
    simp only [KernelOp.exec, argon2StepIndexed, argon2Core_memCurr, hrenew]
  | dependent slice offset => simp only [KernelOp.exec, argon2StepDependent, argon2Core_memCurr]

/-- Whatever the addresses are, the reference is in the memory of the job. -/
theorem computeRefPos_lt {slice offset : ℕ}
    (hpos : 2 ≤ slice * segmentBlocks.toNat + offset)
    (hlt : slice * segmentBlocks.toNat + offset < 4 * segmentBlocks.toNat)
    (hsize : 4 * segmentBlocks.toNat < 2 ^ 32) (refIndex : Word32) :
    (computeRefPos segmentBlocks (BitVec.ofNat 32 slice) (BitVec.ofNat 32 offset)
      refIndex).toNat < 4 * segmentBlocks.toNat := by
  rw [computeRefPos_eq hpos (by omega)]
  omega

/-- The registers after a step depend on blocks of the job only. -/
theorem exec_congr {op : KernelOp} (hsize : 4 * segmentBlocks.toNat < 2 ^ 32)
    (hsegment : 2 ≤ segmentBlocks.toNat) (hop : op.inRange segmentBlocks.toNat) {w : JobWarp}
    {memory memory' : ℕ → Argon2.Block}
    (h : ∀ j < 4 * segmentBlocks.toNat, memory' (w.jobMem + j) = memory (w.jobMem + j)) :
    (op.exec segmentBlocks w memory').1 = (op.exec segmentBlocks w memory).1 := by
  have hcore : ∀ (w' : JobWarp) (refIndex : Reg Word32), w'.jobMem = w.jobMem →
      (∀ t, (refIndex.get t).toNat < 4 * segmentBlocks.toNat) →
      (argon2Core w' memory' refIndex).1 = (argon2Core w' memory refIndex).1 := by
    intro w' refIndex hjob hlt
    have hread : (fun t => memory' (w'.jobMem + (refIndex.get t).toNat)) =
        fun t => memory (w'.jobMem + (refIndex.get t).toNat) := by
      funext t
      rw [hjob, h _ (hlt t)]
    simp only [argon2Core, hread]
  cases op with
  | start =>
    simp only [KernelOp.exec, h 1 (by omega)]
  | secondSlice => rfl
  | indexed slice offset =>
    have hrenew : (renewAddresses (offset % 128) w).jobMem = w.jobMem := by
      unfold renewAddresses
      split <;> rfl
    simp only [KernelOp.exec, argon2StepIndexed]
    rw [hcore _ _ hrenew fun t => by rw [get_map]; exact computeRefPos_lt hop.1 hop.2 hsize _]
  | dependent slice offset =>
    simp only [KernelOp.exec, argon2StepDependent]
    rw [hcore _ _ rfl fun t => by rw [get_map]; exact computeRefPos_lt hop.1 hop.2 hsize _]

theorem load_keepsTo {op : KernelOp} {job : ℕ} (hsize : 4 * segmentBlocks.toNat < 2 ^ 32)
    (hsegment : 2 ≤ segmentBlocks.toNat) (hop : op.inRange segmentBlocks.toNat) {w : JobWarp}
    (hjob : w.jobMem = job * (4 * segmentBlocks.toNat)) (memory : ℕ → Argon2.Block) :
    KeepsTo (WarpStep.exec segmentBlocks) (slice (4 * segmentBlocks.toNat) job) (.load op) w
      memory where
  state _ hm := exec_congr hsize hsegment hop fun _ hj => hm _ (hjob ▸ mem_slice hj)
  inside _ hm := hm
  outside _ _ _ _ := rfl

theorem store_keepsTo {w : JobWarp} {job : ℕ} (h : w.memCurr - 1 < 4 * segmentBlocks.toNat)
    (hjob : w.jobMem = job * (4 * segmentBlocks.toNat)) (memory : ℕ → Argon2.Block) :
    KeepsTo (WarpStep.exec segmentBlocks) (slice (4 * segmentBlocks.toNat) job) .store w
      memory where
  state m hm := rfl
  inside m hm a ha := by
    simp only [WarpStep.exec, Function.update_apply, hm a ha]
  outside m hm a ha := by
    refine Function.update_of_ne ?_ _ _
    rintro rfl
    exact ha (hjob ▸ mem_slice h)

theorem step_jobMem (step : WarpStep) (w : JobWarp) (memory : ℕ → Argon2.Block) :
    (step.exec segmentBlocks w memory).1.jobMem = w.jobMem := by
  cases step with
  | load op => exact exec_jobMem op w memory
  | store => rfl

def WarpStep.fills : WarpStep → Bool
  | load (.indexed _ _) => true
  | load (.dependent _ _) => true
  | load .start => false
  | load .secondSlice => false
  | store => false

theorem step_memCurr_le (segmentBlocks : Word32) (step : WarpStep) (w : JobWarp)
    (memory : ℕ → Argon2.Block) :
    max 2 (step.exec segmentBlocks w memory).1.memCurr ≤
      max 2 w.memCurr + if step.fills then 1 else 0 := by
  cases step with
  | load op =>
    simp only [WarpStep.exec, exec_memCurr]
    cases op <;> simp only [WarpStep.fills, if_true, if_false, Bool.false_eq_true] <;> omega
  | store =>
    simp only [WarpStep.exec, WarpStep.fills, if_false, Bool.false_eq_true, add_zero, le_refl]

theorem foldl_steps_jobMem (segmentBlocks : Word32) (steps : List WarpStep)
    (s : JobWarp × (ℕ → Argon2.Block)) :
    (steps.foldl (fun s step => step.exec segmentBlocks s.1 s.2) s).1.jobMem = s.1.jobMem := by
  induction steps generalizing s with
  | nil => rfl
  | cons step steps ih => exact (ih _).trans (step_jobMem step s.1 s.2)

theorem foldl_steps_memCurr (segmentBlocks : Word32) (steps : List WarpStep)
    (s : JobWarp × (ℕ → Argon2.Block)) :
    max 2 (steps.foldl (fun s step => step.exec segmentBlocks s.1 s.2) s).1.memCurr ≤
      max 2 s.1.memCurr + steps.countP WarpStep.fills := by
  induction steps generalizing s with
  | nil => exact le_refl _
  | cons step steps ih =>
    have hstep := step_memCurr_le segmentBlocks step s.1 s.2
    have hrest := ih (step.exec segmentBlocks s.1 s.2)
    rw [List.foldl_cons, List.countP_cons]
    omega

theorem countP_fills (f : ℕ → KernelOp) (hf : ∀ o, (f o).steps.countP WarpStep.fills = 1)
    (offsets : List ℕ) :
    ((offsets.map f).flatMap KernelOp.steps).countP WarpStep.fills = offsets.length := by
  induction offsets with
  | nil => rfl
  | cons o offsets ih =>
    rw [List.map_cons, List.flatMap_cons, List.countP_append, hf, ih, List.length_cons, Nat.add_comm]

theorem countP_warpProgram {n : ℕ} (hn : 2 ≤ n) :
    (warpProgram n).countP WarpStep.fills = 4 * n - 2 := by
  have hindexed := fun slice => countP_fills (.indexed slice) fun _ => rfl
  have hdependent := fun slice => countP_fills (.dependent slice) fun _ => rfl
  simp only [warpProgram, oneshotProgram, List.flatMap_append, List.countP_append, hindexed,
    hdependent, List.length_range', List.length_range]
  have hsingle : ([KernelOp.start].flatMap KernelOp.steps).countP WarpStep.fills = 0 := rfl
  have hsecond : ([KernelOp.secondSlice].flatMap KernelOp.steps).countP WarpStep.fills = 0 := rfl
  rw [hsingle, hsecond]
  omega

/-- Each step of the program keeps to the memory of the job. -/
theorem warpProgram_keepsTo (hsize : 4 * segmentBlocks.toNat < 2 ^ 32)
    (hsegment : 2 ≤ segmentBlocks.toNat) {steps rest : List WarpStep} {step : WarpStep}
    (h : warpProgram segmentBlocks.toNat = steps ++ step :: rest) {job : ℕ}
    {s : JobWarp × (ℕ → Argon2.Block)} (hjob : s.1.jobMem = job * (4 * segmentBlocks.toNat)) :
    let t := steps.foldl (fun s step => step.exec segmentBlocks s.1 s.2) s
    KeepsTo (WarpStep.exec segmentBlocks) (slice (4 * segmentBlocks.toNat) job) step t.1 t.2 := by
  have hmem := (foldl_steps_jobMem segmentBlocks steps s).trans hjob
  cases step with
  | load op =>
    have hload : WarpStep.load op ∈ warpProgram segmentBlocks.toNat := by
      rw [h]
      exact List.mem_append_right _ List.mem_cons_self
    obtain ⟨op', hop, hload⟩ := List.mem_flatMap.mp hload
    have hsame : op' = op := by
      cases op' <;> simp [KernelOp.steps] at hload <;> exact hload.symm
    exact load_keepsTo hsize hsegment (inRange_of_mem hsegment (hsame ▸ hop)) hmem _
  | store =>
    refine store_keepsTo ?_ hmem _
    -- the program begins with the first instructions, which set the pointer
    cases steps with
    | nil => exact absurd (List.cons.inj h).1 (by simp)
    | cons first steps =>
      obtain ⟨hfirst, hrest⟩ := List.cons.inj h
      have hcurr := foldl_steps_memCurr segmentBlocks steps
        (first.exec segmentBlocks s.1 s.2)
      have hcount := countP_warpProgram hsegment
      rw [h, List.cons_append, ← hfirst, List.countP_cons, List.countP_append] at hcount
      rw [List.foldl_cons]
      have htwo : (first.exec segmentBlocks s.1 s.2).1.memCurr = 2 := by
        rw [← hfirst]
        rfl
      omega

namespace OneshotLaunch
variable {k : OneshotLaunch} {c : Argon2.Params}

/-- The sizes for which no index wraps around. -/
structure Fits (k : OneshotLaunch) : Prop where
  jobsPerBlock_pos : 0 < k.jobsPerBlock
  batch_lt : k.batchSize + k.jobsPerBlock ≤ 2 ^ 32
  segment : 2 ≤ k.segmentBlocks.toNat
  lane_lt : 4 * k.segmentBlocks.toNat < 2 ^ 32

theorem Fits.laneBlocks (h : k.Fits) : k.laneBlocks = 4 * k.segmentBlocks.toNat := by
  rw [OneshotLaunch.laneBlocks, BitVec.toNat_mul]
  exact Nat.mod_eq_of_lt h.lane_lt

theorem Fits.grid (h : k.Fits) : k.grid = (k.batchSize + k.jobsPerBlock - 1) / k.jobsPerBlock := by
  have hbatch := h.batch_lt
  have hpos := h.jobsPerBlock_pos
  have hle := Nat.div_le_self (k.batchSize + k.jobsPerBlock - 1) k.jobsPerBlock
  rw [OneshotLaunch.grid, Nat.mod_eq_of_lt (by omega)]

theorem Fits.covers (h : k.Fits) : k.batchSize ≤ k.grid * k.jobsPerBlock := by
  rw [h.grid]
  exact le_ceil_mul _ h.jobsPerBlock_pos

theorem Fits.jobId (h : k.Fits) (w : Fin k.grid × Fin k.jobsPerBlock) :
    k.jobId w.1 w.2 = number w := by
  have hbatch := h.batch_lt
  have hpos := h.jobsPerBlock_pos
  have hle : k.grid * k.jobsPerBlock ≤ k.batchSize + k.jobsPerBlock - 1 := by
    rw [h.grid]
    exact Nat.div_mul_le_self _ _
  have hlt := number_lt w
  exact Nat.mod_eq_of_lt (by rw [← number]; omega)

theorem Fits.programs (h : k.Fits) (registers : ℕ → JobWarp) : k.programs registers =
    Regions.grid k.grid k.jobsPerBlock k.batchSize (WarpStep.exec k.segmentBlocks)
      (fun _ => warpProgram k.segmentBlocks.toNat)
      (fun job => { registers job with jobMem := job * k.laneBlocks }) := by
  have hbatch := h.batch_lt
  have hpos := h.jobsPerBlock_pos
  have hsize : k.batchSize % 2 ^ 32 = k.batchSize := Nat.mod_eq_of_lt (by omega)
  simp only [OneshotLaunch.programs, Regions.grid, h.jobId, hsize]

/-- However the warps of the grid run, each job of the batch ends with its memory filled as
Argon2id fills it from the first two blocks, and no other memory is written. -/
theorem fills_jobs (h : k.Fits) (hc : FilledBy c k.segmentBlocks) {registers : ℕ → JobWarp}
    {memory memory' : ℕ → Argon2.Block} (hend : (k.programs registers).Ends memory memory') :
    (∀ job < k.batchSize, ∀ B : Argon2.Memory, (∀ j < 2, memory (job * k.laneBlocks + j) = B 0 j) →
      ∀ j < k.laneBlocks, memory' (job * k.laneBlocks + j) =
        (c.positions.foldl c.fillStep B) 0 j) ∧
      ∀ a, k.batchSize * k.laneBlocks ≤ a → memory' a = memory a := by
  rw [h.programs] at hend
  have hlane := h.laneBlocks
  have hkeeps : KeepsToSlices k.laneBlocks k.batchSize (WarpStep.exec k.segmentBlocks)
      (fun _ => warpProgram k.segmentBlocks.toNat)
      (fun job => { registers job with jobMem := job * k.laneBlocks }) memory := by
    intro job _ steps step rest hprogram
    rw [hlane]
    exact warpProgram_keepsTo h.lane_lt h.segment hprogram rfl
  obtain ⟨hslices, hbehind⟩ := grid_ends h.covers hkeeps hend
  refine ⟨fun job hjob B hfirst j hj => ?_, hbehind⟩
  rw [hslices job hjob _ (mem_slice hj)]
  have halone := run_flatMap_steps k.segmentBlocks
    (oneshotProgram k.segmentBlocks.toNat)
    ({ registers job with jobMem := job * k.laneBlocks }, memory)
  have hfilled := oneshot_eq
    (s := ({ registers job with jobMem := job * k.laneBlocks }, memory)) hc h.segment hfirst j
    (hlane ▸ hj)
  rw [warpProgram, halone]
  exact hfilled

end OneshotLaunch

end XnMiner

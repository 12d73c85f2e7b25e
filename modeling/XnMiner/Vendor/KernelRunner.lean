import XnMiner.System.Choice
import XnMiner.Vendor.Stream

/-! # The runner of the kernels

The runner allocates memory for a batch, queues the work of a wave, and keeps the memory for later
requests that fit in it. Every call of the driver may fail.
-/
namespace XnMiner
open LittleEndian Choices TextCodec

structure DeviceProp where
  maxThreadsPerBlock : ℕ
  sharedMemPerBlockOptin : ℕ

def selectJobsPerBlock : ℕ := 4

def jobsPerBlockMax : ℕ := 4

inductive Event
  | start
  | end_
  | copyStart
  | copyEnd
  | firstBlockStart
  | firstBlockEnd
  | kernelStart
  | kernelEnd
  | finalizeStart
  | finalizeEnd

def Event.index : Event → ℕ
  | start => 0
  | end_ => 1
  | copyStart => 2
  | copyEnd => 3
  | firstBlockStart => 4
  | firstBlockEnd => 5
  | kernelStart => 6
  | kernelEnd => 7
  | finalizeStart => 8
  | finalizeEnd => 9

/-- A pointer that may be null, and the capacity that goes with it. -/
structure Allocation where
  present : Bool := false
  capacity : ℕ := 0

structure KernelRunner where
  type : Word32
  version : Word32
  passes : Word32
  lanes : Word32
  segmentBlocks : Word32
  allocatedSegmentBlocks : Word32
  batchSize : ℕ
  jobsPerBlock : ℕ := 4
  /-- How many events have been created; the memory of the batch comes before them. -/
  events : ℕ := 0
  allocation : ByteBuffer → Allocation := fun _ => {}
  deviceFirstBlocksReady : Bool := false
  deviceFirstBlockKeyLength : ℕ := 0
  deviceFirstBlockSaltLength : Word32 := 0
  deviceFirstBlockOutputLength : Word32 := 0
  deviceFirstBlockMemoryCost : Word32 := 0
  deviceFirstBlockTimeCost : Word32 := 0
  deviceFirstBlockVersion : Word32 := 0
  deviceFirstBlockType : Word32 := 0
  deviceFirstBlockLanes : Word32 := 0
  lastUsedDeviceFirstBlocks : Bool := false
  lastUsedDeviceFinalHashes : Bool := false

def KernelRunner.make (type version passes lanes segmentBlocks : Word32) (batchSize : ℕ) :
    KernelRunner :=
  { type, version, passes, lanes, segmentBlocks, allocatedSegmentBlocks := segmentBlocks, batchSize }

namespace KernelRunner
variable (r : KernelRunner)

def setAllocation (name : ByteBuffer) (a : Allocation) : KernelRunner :=
  { r with allocation := Function.update r.allocation name a }

/-- Nothing is known of a device that cannot be asked. -/
def chooseJobsPerBlock (prop : Option DeviceProp) : ℕ :=
  match prop with
  | none => r.jobsPerBlock
  | some prop =>
    let maxByThreads := prop.maxThreadsPerBlock / 32
    let maxByShared := max 1 (prop.sharedMemPerBlockOptin / 1024)
    max 1 (min selectJobsPerBlock (min maxByThreads (min maxByShared jobsPerBlockMax)))

def canReuse (type version passes lanes segmentBlocks : Word32) (batchSize : ℕ) : Bool :=
  r.type = type ∧ r.version = version ∧ r.passes = passes ∧ r.lanes = lanes ∧
    r.batchSize = batchSize ∧ segmentBlocks.toNat ≤ r.allocatedSegmentBlocks.toNat

def reconfigure (type version passes lanes segmentBlocks : Word32) (batchSize : ℕ) :
    KernelRunner :=
  { r with type, version, passes, lanes, segmentBlocks, batchSize,
           deviceFirstBlocksReady := false, lastUsedDeviceFirstBlocks := false }

def firstBlocksLaunch : FirstBlocksLaunch where
  keyLength := BitVec.ofNat 32 r.deviceFirstBlockKeyLength
  saltLength := r.deviceFirstBlockSaltLength
  outputLength := r.deviceFirstBlockOutputLength
  memoryCost := r.deviceFirstBlockMemoryCost
  timeCost := r.deviceFirstBlockTimeCost
  version := r.deviceFirstBlockVersion
  type := r.deviceFirstBlockType
  lanes := r.deviceFirstBlockLanes
  segmentBlocks := r.segmentBlocks
  batchSize := r.batchSize

def oneshotLaunch : OneshotLaunch where
  segmentBlocks := r.segmentBlocks
  batchSize := r.batchSize
  jobsPerBlock := max 1 r.jobsPerBlock

def finalizeLaunch : FinalizeLaunch where
  segmentBlocks := r.segmentBlocks
  batchSize := r.batchSize

def jobSize : ℕ := r.lanes.toNat * r.segmentBlocks.toNat * 4

end KernelRunner

structure Gpu where
  runner : KernelRunner
  buffers : Buffers
  queue : List StreamOp := []

abbrev GpuProgram := Program Str Gpu

namespace Gpu
variable (g g' : Gpu)

def setRunner (f : KernelRunner → KernelRunner) : Gpu := { g with runner := f g.runner }

def setBytes (name : ByteBuffer) (bytes : ℕ → Byte) : Gpu :=
  { g with buffers := g.buffers.setBytes name bytes }

def enqueue (ops : List StreamOp) : Gpu := { g with queue := g.queue ++ ops }

/-- The device has worked off a first part of the queue. -/
def Advances : Prop :=
  g'.runner = g.runner ∧ ∃ done, g.queue = done ++ g'.queue ∧ ExecutesAll done g.buffers g'.buffers

def Drains : Prop :=
  g'.runner = g.runner ∧ g'.queue = [] ∧ ExecutesAll g.queue g.buffers g'.buffers

end Gpu

/-- An event that is not there is not recorded. -/
def recordEvent (e : Event) : GpuProgram Unit := do
  if e.index < (← look).runner.events then check else fails

def copyAsync (op : StreamOp) : GpuProgram Unit := do
  check
  update fun g => g.enqueue [op]

def launch (op : StreamOp) : GpuProgram Unit := do
  check
  update fun g => g.enqueue [op]
  check

/-- To free memory waits for the device. -/
def freeMemory : GpuProgram Unit := do
  check
  alter Gpu.Drains

/-- The memory, the events and the stream of a new runner. `streamsFail` tells whether the driver
can refuse a stream, after everything else. -/
def initRunner (streamsFail : Bool) (batchSize : ℕ) : GpuProgram Unit := do
  update fun g => g.setRunner fun r =>
    { r with batchSize := batchSize, allocatedSegmentBlocks := r.segmentBlocks }
  let prop ← choose fun _ => True
  update fun g => g.setRunner fun r => { r with jobsPerBlock := r.chooseJobsPerBlock prop }
  check
  let events ← choose (· ≤ 10)
  update fun g => g.setRunner fun r => { r with events := events }
  if events < 10 then fails
  if streamsFail then check

/-- A buffer that has to grow is a new one. -/
def growBuffer (name : ByteBuffer) (bytes : ℕ) : GpuProgram Unit := do
  let a := (← look).runner.allocation name
  if a.capacity < bytes then
    if a.present then
      freeMemory
      update fun g => g.setRunner fun r => r.setAllocation name ⟨false, a.capacity⟩
    check
    let new ← choose fun _ => True
    update fun g => g.setBytes name new
    update fun g => g.setRunner fun r => r.setAllocation name ⟨true, bytes⟩

def ensureHostKeyBuffer (bytes : ℕ) : GpuProgram Bool := do
  if bytes ≠ 0 then growBuffer .hostKeysPinned bytes
  return ((← look).runner.allocation .hostKeysPinned).present

/-- The device may have read what stood there before. -/
def writeHostKeys (bytes : List Byte) : GpuProgram Unit := do
  alter Gpu.Advances
  let written := fun b : Buffers =>
    overwrite bytes.length (bytes.getD · 0) (b.bytes .hostKeysPinned)
  update fun g => g.setBytes .hostKeysPinned (written g.buffers)

/-- A copy to a null pointer is refused. -/
def copyToBuffer (name : ByteBuffer) (op : StreamOp) : GpuProgram Unit := do
  if ((← look).runner.allocation name).present then copyAsync op else fails

def prepareInputBlocksOnDeviceFlat (keyLength : ℕ) (saltBytes : List Byte)
    (outputLength memoryCost timeCost version type lanes : Word32) : GpuProgram Bool := do
  update fun g => g.setRunner fun r => { r with deviceFirstBlocksReady := false }
  let r := (← look).runner
  let hostKeys := r.allocation .hostKeysPinned
  if keyLength = 0 ∨ r.batchSize = 0 ∨ hostKeys.present = false ∨
      hostKeys.capacity < keyLength * r.batchSize ∨ outputLength ≠ 64 ∨ timeCost ≠ 1 ∨
        lanes ≠ 1 ∨ saltBytes = [] ∨ 2 ^ 32 - 1 < saltBytes.length then return false
  let keyBytes := keyLength * r.batchSize
  growBuffer .deviceKeys keyBytes
  growBuffer .deviceSalt saltBytes.length
  copyToBuffer .deviceKeys (.copyKeys keyBytes)
  copyToBuffer .deviceSalt (.copySalt saltBytes)
  update fun g => g.setRunner fun r =>
    { r with
      deviceFirstBlocksReady := true
      deviceFirstBlockKeyLength := keyLength
      deviceFirstBlockSaltLength := BitVec.ofNat 32 saltBytes.length
      deviceFirstBlockOutputLength := outputLength
      deviceFirstBlockMemoryCost := memoryCost
      deviceFirstBlockTimeCost := timeCost
      deviceFirstBlockVersion := version
      deviceFirstBlockType := type
      deviceFirstBlockLanes := lanes }
  return true

def runRunner : GpuProgram Unit := do
  recordEvent .start
  recordEvent .copyStart
  let r := (← look).runner
  let useDeviceFirstBlocks := r.deviceFirstBlocksReady
  update fun g => g.setRunner fun r =>
    { r with lastUsedDeviceFirstBlocks := useDeviceFirstBlocks }
  if useDeviceFirstBlocks then
    recordEvent .copyEnd
    recordEvent .firstBlockStart
    launch (.firstBlocks r.firstBlocksLaunch)
    recordEvent .firstBlockEnd
  else
    copyAsync (.copyInputBlocks r.batchSize r.jobSize)
    recordEvent .copyEnd
    recordEvent .firstBlockStart
    recordEvent .firstBlockEnd
  update fun g => g.setRunner fun r => { r with deviceFirstBlocksReady := false }
  recordEvent .kernelStart
  launch (.oneshot r.oneshotLaunch)
  recordEvent .kernelEnd
  update fun g => g.setRunner fun s =>
    { s with lastUsedDeviceFinalHashes := decide (r.lanes = 1) }
  if r.lanes = 1 then
    recordEvent .finalizeStart
    launch (.finalize r.finalizeLaunch)
    recordEvent .finalizeEnd
    copyAsync (.copyFinalHashes r.batchSize)
  else
    recordEvent .finalizeStart
    recordEvent .finalizeEnd
    copyAsync (.copyOutputBlocks r.batchSize r.jobSize r.lanes.toNat)
  recordEvent .end_

def newRunner (streamsFail : Bool) (type version passes lanes segmentBlocks : Word32)
    (batchSize : ℕ) :
    Program Str (Option Gpu) Unit := do
  let buffers ← choose fun _ => True
  update fun _ => some ⟨.make type version passes lanes segmentBlocks batchSize, buffers, []⟩
  onSome (initRunner streamsFail batchSize)

def CudaBackend.init (streamsFail : Bool) (batchSize : ℕ)
    (type version passes lanes segmentBlocks : Word32) :
    Program Str (Option Gpu) Unit := do
  match ← look with
  | none => newRunner streamsFail type version passes lanes segmentBlocks batchSize
  | some g =>
    if g.runner.canReuse type version passes lanes segmentBlocks batchSize then
      update fun _ => some (g.setRunner fun r =>
        r.reconfigure type version passes lanes segmentBlocks batchSize)
    else newRunner streamsFail type version passes lanes segmentBlocks batchSize

def finish : GpuProgram Unit := do
  check
  alter Gpu.Drains
  check

structure Setup where
  type : Word32
  version : Word32
  passes : Word32
  lanes : Word32
  segmentBlocks : Word32
  allocatedSegmentBlocks : Word32
  batchSize : ℕ
  jobsPerBlock : ℕ
  events : ℕ

def KernelRunner.setup (r : KernelRunner) : Setup :=
  ⟨r.type, r.version, r.passes, r.lanes, r.segmentBlocks, r.allocatedSegmentBlocks, r.batchSize,
    r.jobsPerBlock, r.events⟩

section Operations
variable {g : Gpu}

@[simp] theorem wp_recordEvent {e : Event} {Q : Unit → Gpu → Prop} {E : Str → Gpu → Prop} :
    wp (recordEvent e) Q E g ↔ (e.index < g.runner.events → Q () g) ∧ ∀ e, E e g := by
  simp only [recordEvent, wp_bind, wp_look, wp_ite, wp_check, wp_fails]
  tauto

@[simp] theorem wp_copyAsync {op : StreamOp} {Q : Unit → Gpu → Prop} {E : Str → Gpu → Prop} :
    wp (copyAsync op) Q E g ↔ Q () (g.enqueue [op]) ∧ ∀ e, E e g := by
  simp only [copyAsync, wp_bind, wp_check, wp_update]

@[simp] theorem wp_launch {op : StreamOp} {Q : Unit → Gpu → Prop} {E : Str → Gpu → Prop} :
    wp (launch op) Q E g ↔
      (Q () (g.enqueue [op]) ∧ ∀ e, E e (g.enqueue [op])) ∧ ∀ e, E e g := by
  simp only [launch, wp_bind, wp_check, wp_update]

def KernelRunner.waveOps (r : KernelRunner) : List StreamOp :=
  (if r.deviceFirstBlocksReady then [.firstBlocks r.firstBlocksLaunch]
    else [.copyInputBlocks r.batchSize r.jobSize]) ++ [.oneshot r.oneshotLaunch] ++
    if r.lanes = 1 then [.finalize r.finalizeLaunch, .copyFinalHashes r.batchSize]
    else [.copyOutputBlocks r.batchSize r.jobSize r.lanes.toNat]

attribute [local simp] Gpu.setRunner Gpu.enqueue KernelRunner.setup KernelRunner.setAllocation wp_ite

theorem runRunner_setup (g : Gpu) : wp runRunner
    (fun _ g' => g'.runner.setup = g.runner.setup) (fun _ g' => g'.runner.setup = g.runner.setup) g := by
  simp [runRunner]

theorem runRunner_queue (g : Gpu) : wp runRunner
    (fun _ g' => 9 < g.runner.events ∧ g'.buffers = g.buffers ∧
      g'.queue = g.queue ++ g.runner.waveOps ∧
        g'.runner.lastUsedDeviceFinalHashes = decide (g.runner.lanes = 1)) (fun _ _ => True) g := by
  simp only [runRunner, wp_bind, wp_look, wp_update, wp_ite, wp_recordEvent, wp_launch,
    wp_copyAsync, implies_true, and_true, Gpu.setRunner, Gpu.enqueue, Event.index]
  intro _ _
  refine ⟨fun hready => ?_, fun hhost => ?_⟩
  · intro _ _ _ _ _
    refine ⟨fun hone _ hlast _ => ?_, fun hmore _ hlast _ => ?_⟩
    · simp [KernelRunner.waveOps, hlast, hready, hone]
    · simpa [KernelRunner.waveOps, hlast, hready] using hmore
  · intro _ _ _ _ _
    refine ⟨fun hone _ hlast _ => ?_, fun hmore _ hlast _ => ?_⟩
    · simp [KernelRunner.waveOps, hlast, hhost, hone]
    · simpa [KernelRunner.waveOps, hlast, hhost] using hmore

theorem finish_wp (g : Gpu) : wp finish (fun _ g' => g.Drains g')
    (fun _ g' => g'.runner.setup = g.runner.setup) g := by
  simp only [finish, wp_bind, wp_check, wp_alter, implies_true, and_true]
  exact fun g' h => ⟨h, fun _ => congrArg KernelRunner.setup h.1⟩

structure Gpu.Keeps (g g' : Gpu) (name : ByteBuffer) : Prop where
  setup : g'.runner.setup = g.runner.setup
  hostKeys : name ≠ .hostKeysPinned →
    g'.buffers.bytes .hostKeysPinned = g.buffers.bytes .hostKeysPinned

theorem Gpu.Drains.keeps {g g' : Gpu} (h : g.Drains g') (name : ByteBuffer) : g.Keeps g' name where
  setup := congrArg KernelRunner.setup h.1
  hostKeys _ := h.2.2.host

theorem growBuffer_wp (g : Gpu) (name : ByteBuffer) (bytes : ℕ) : wp (growBuffer name bytes)
    (fun _ g' => g.Keeps g' name) (fun _ g' => g'.runner.setup = g.runner.setup) g := by
  have hnew : ∀ (g₁ : Gpu) (new : ℕ → Byte) (a : Allocation), g.Keeps g₁ name →
      g.Keeps ((g₁.setBytes name new).setRunner fun r => r.setAllocation name a) name :=
    fun g₁ new a h => ⟨h.setup, fun hne => by
      simp only [Gpu.setRunner, Gpu.setBytes, Buffers.bytes_setBytes, if_neg hne.symm]
      exact h.hostKeys hne⟩
  simp only [growBuffer, freeMemory, wp_bind, wp_look, wp_ite, wp_check, wp_alter, wp_update,
    wp_choose, wp_pure]
  refine ⟨fun _ => ⟨fun _ => ⟨fun g₁ hdrain => ?_, fun _ => trivial⟩, fun _ => ?_⟩, fun _ => ?_⟩
  · have h := hdrain.keeps name
    exact ⟨fun new _ => hnew _ new _ ⟨h.setup, h.hostKeys⟩, fun _ => h.setup⟩
  · exact ⟨fun new _ => hnew g new _ ⟨rfl, fun _ => rfl⟩, fun _ => trivial⟩
  · exact ⟨rfl, fun _ => rfl⟩

theorem ensureHostKeyBuffer_wp (g : Gpu) (bytes : ℕ) : wp (ensureHostKeyBuffer bytes)
    (fun _ g' => g.Keeps g' .hostKeysPinned) (fun _ g' => g'.runner.setup = g.runner.setup) g := by
  simp only [ensureHostKeyBuffer, wp_bind, wp_ite, wp_look, wp_pure]
  exact ⟨fun _ => growBuffer_wp g _ bytes, fun _ => ⟨rfl, fun _ => rfl⟩⟩

theorem writeHostKeys_wp (g : Gpu) (bytes : List Byte) : wp (writeHostKeys bytes)
    (fun _ g' => g.Keeps g' .hostKeysPinned ∧
      readBytes (g'.buffers.bytes .hostKeysPinned) bytes.length = bytes) (fun _ _ => False) g := by
  simp only [writeHostKeys, wp_bind, wp_alter, wp_update]
  rintro g₁ ⟨hrunner, done, -, hdone⟩
  refine ⟨⟨congrArg KernelRunner.setup hrunner, fun h => absurd rfl h⟩, ?_⟩
  apply List.ext_getElem
  · rw [readBytes, List.length_map, List.length_range]
  · intro i hi hi'
    simp only [readBytes, Gpu.setBytes, Buffers.bytes_setBytes, if_true, List.getElem_map,
      List.getElem_range, overwrite_lt hi', List.getD_eq_getElem _ _ hi']

@[simp] theorem wp_copyToBuffer {g : Gpu} {name : ByteBuffer} {op : StreamOp}
    {Q : Unit → Gpu → Prop} {E : Str → Gpu → Prop} : wp (copyToBuffer name op) Q E g ↔
      ((g.runner.allocation name).present = true → Q () (g.enqueue [op])) ∧ ∀ e, E e g := by
  simp only [copyToBuffer, wp_bind, wp_look, wp_ite, wp_copyAsync, wp_fails]
  tauto

structure Prepared (g g' : Gpu) (keyLength : ℕ) (saltBytes : List Byte)
    (outputLength memoryCost timeCost version type lanes : Word32) : Prop where
  setup : g'.runner.setup = g.runner.setup
  hostKeys : g'.buffers.bytes .hostKeysPinned = g.buffers.bytes .hostKeysPinned
  ready : g'.runner.deviceFirstBlocksReady = true
  launch : g'.runner.firstBlocksLaunch = ⟨BitVec.ofNat 32 keyLength,
    BitVec.ofNat 32 saltBytes.length, outputLength, memoryCost, timeCost, version, type, lanes,
    g.runner.segmentBlocks, g.runner.batchSize⟩
  queue : ∃ before, g'.queue =
    before ++ [.copyKeys (keyLength * g.runner.batchSize), .copySalt saltBytes]

theorem prepareInputBlocksOnDeviceFlat_wp (g : Gpu) (keyLength : ℕ) (saltBytes : List Byte)
    (outputLength memoryCost timeCost version type lanes : Word32) :
    wp (prepareInputBlocksOnDeviceFlat keyLength saltBytes outputLength memoryCost timeCost version
      type lanes)
    (fun ok g' => g'.runner.setup = g.runner.setup ∧ (ok = true →
      Prepared g g' keyLength saltBytes outputLength memoryCost timeCost version type lanes))
    (fun _ g' => g'.runner.setup = g.runner.setup) g := by
  simp only [prepareInputBlocksOnDeviceFlat, wp_bind, wp_look, wp_update, wp_ite, wp_pure,
    wp_copyToBuffer]
  refine ⟨fun _ => ⟨rfl, fun h => absurd h Bool.false_ne_true⟩, fun _ => ?_⟩
  refine wp_mono (growBuffer_wp _ _ _) (fun _ g₁ h₁ => ?_) (fun _ g₁ h₁ => h₁)
  refine wp_mono (growBuffer_wp _ _ _) (fun _ g₂ h₂ => ?_) (fun _ g₂ h₂ => h₂.trans h₁.setup)
  have hsetup : g₂.runner.setup = g.runner.setup := h₂.setup.trans h₁.setup
  refine ⟨fun _ => ⟨fun _ => ⟨hsetup, fun _ => ?_⟩, fun _ => hsetup⟩, fun _ => hsetup⟩
  have hsegment := congrArg Setup.segmentBlocks hsetup
  have hbatch := congrArg Setup.batchSize hsetup
  refine ⟨hsetup, (h₂.hostKeys (by decide)).trans (h₁.hostKeys (by decide)), rfl, ?_, g₂.queue, ?_⟩
  · simp only [KernelRunner.firstBlocksLaunch, Gpu.setRunner, Gpu.enqueue]
    rw [show g₂.runner.segmentBlocks = g.runner.segmentBlocks from hsegment,
      show g₂.runner.batchSize = g.runner.batchSize from hbatch]
  · simp only [Gpu.setRunner, Gpu.enqueue, List.append_assoc, List.singleton_append]

/-- A runner is configured for requests of a size, its memory has room for them, and its blocks
are small. -/
structure Setup.Serves (s : Setup) (batchSize : ℕ)
    (type version passes lanes segmentBlocks : Word32) : Prop where
  type : s.type = type
  version : s.version = version
  passes : s.passes = passes
  lanes : s.lanes = lanes
  segmentBlocks : s.segmentBlocks = segmentBlocks
  batchSize : s.batchSize = batchSize
  allocated : s.segmentBlocks.toNat ≤ s.allocatedSegmentBlocks.toNat
  jobsPerBlock : s.jobsPerBlock ≤ 4

theorem chooseJobsPerBlock_le {r : KernelRunner} (h : r.jobsPerBlock ≤ 4)
    (prop : Option DeviceProp) : r.chooseJobsPerBlock prop ≤ 4 := by
  cases prop with
  | none => exact h
  | some prop =>
    simp only [KernelRunner.chooseJobsPerBlock, selectJobsPerBlock]
    omega

/-- An initialization that throws leaves an event out, unless a stream is refused. -/
theorem initRunner_wp {g : Gpu} (hjobs : g.runner.jobsPerBlock ≤ 4) (streamsFail : Bool)
    (batchSize : ℕ) : wp (initRunner streamsFail batchSize)
      (fun _ g' => g'.runner.setup.Serves batchSize g.runner.type g.runner.version g.runner.passes
        g.runner.lanes g.runner.segmentBlocks)
      (fun _ g' => (g'.runner.events < 10 ∨ g'.runner.events = g.runner.events) ∨
        (streamsFail = true ∧ g'.runner.setup.Serves batchSize g.runner.type g.runner.version
          g.runner.passes g.runner.lanes g.runner.segmentBlocks)) g := by
  simp only [initRunner, wp_bind, wp_choose, wp_update, wp_check, wp_ite, wp_fails, wp_pure]
  refine fun prop _ => ⟨fun events _ => ⟨fun hfew _ => .inl (.inl hfew), fun _ => ?_⟩,
    fun _ => .inl (.inr rfl)⟩
  refine ⟨fun hstreams => ⟨?_, fun _ => .inr ⟨hstreams, ?_⟩⟩, fun _ => ?_⟩
  all_goals exact ⟨rfl, rfl, rfl, rfl, rfl, rfl, le_refl _, chooseJobsPerBlock_le (r := _) hjobs prop⟩

theorem newRunner_wp (p : Option Gpu) (streamsFail : Bool)
    (type version passes lanes segmentBlocks : Word32) (batchSize : ℕ) :
    wp (newRunner streamsFail type version passes lanes segmentBlocks batchSize)
      (fun _ q => ∃ g, q = some g ∧
        g.runner.setup.Serves batchSize type version passes lanes segmentBlocks)
      (fun _ q => ∃ g, q = some g ∧ (g.runner.events < 10 ∨ (streamsFail = true ∧
        g.runner.setup.Serves batchSize type version passes lanes segmentBlocks))) p := by
  simp only [newRunner, wp_bind, wp_choose, wp_update, wp_onSome]
  intro buffers _
  refine wp_mono (initRunner_wp (le_refl 4) streamsFail batchSize) (fun _ g h => ⟨g, rfl, h⟩) ?_
  rintro _ g ((h | h) | h)
  · exact ⟨g, rfl, .inl h⟩
  · exact ⟨g, rfl, .inl (h ▸ (by decide : 0 < 10))⟩
  · exact ⟨g, rfl, .inr h⟩

/-- A runner with all events serves requests of these sizes. -/
def ServesOnceReady (p : Option Gpu) (batchSize : ℕ)
    (type version passes lanes segmentBlocks : Word32) : Prop :=
  ∃ g, p = some g ∧ (9 < g.runner.events →
    g.runner.setup.Serves batchSize type version passes lanes segmentBlocks)

structure Gpu.Sound (g : Gpu) : Prop where
  jobsPerBlock : 9 < g.runner.events → g.runner.jobsPerBlock ≤ 4
  allocated : 9 < g.runner.events →
    g.runner.segmentBlocks.toNat ≤ g.runner.allocatedSegmentBlocks.toNat

theorem CudaBackend.init_wp {p : Option Gpu} (hsound : ∀ g, p = some g → g.Sound)
    (streamsFail : Bool) (batchSize : ℕ) (type version passes lanes segmentBlocks : Word32) :
    wp (CudaBackend.init streamsFail batchSize type version passes lanes segmentBlocks)
      (fun _ q => ServesOnceReady q batchSize type version passes lanes segmentBlocks)
      (fun _ q => ∃ g, q = some g ∧ (g.runner.events < 10 ∨ (streamsFail = true ∧
        g.runner.setup.Serves batchSize type version passes lanes segmentBlocks))) p := by
  have hnew := newRunner_wp p streamsFail type version passes lanes segmentBlocks batchSize
  have hnew : wp (newRunner streamsFail type version passes lanes segmentBlocks batchSize)
      (fun _ q => ServesOnceReady q batchSize type version passes lanes segmentBlocks)
      (fun _ q => ∃ g, q = some g ∧ (g.runner.events < 10 ∨ (streamsFail = true ∧
        g.runner.setup.Serves batchSize type version passes lanes segmentBlocks))) p :=
    wp_mono hnew (fun _ q ⟨g, hq, h⟩ => ⟨g, hq, fun _ => h⟩) fun _ _ h => h
  simp only [CudaBackend.init, wp_bind, wp_look]
  cases p with
  | none => exact hnew
  | some g =>
    simp only [wp_ite, wp_update]
    refine ⟨fun hreuse => ⟨_, rfl, fun hevents => ?_⟩, fun _ => hnew⟩
    simp only [KernelRunner.canReuse, Bool.decide_and, Bool.and_eq_true, decide_eq_true_eq] at hreuse
    exact ⟨rfl, rfl, rfl, rfl, rfl, rfl, hreuse.2.2.2.2.2, (hsound g rfl).jobsPerBlock hevents⟩

def Setup.ServesMiner (s : Setup) (batchSize : ℕ) (segmentBlocks : Word32) : Prop :=
  s.Serves batchSize 2 0x13 1 1 segmentBlocks

/-- From the first blocks, the host gets the tags of all jobs. -/
theorem digests_of_waveOps {r : KernelRunner} {difficulty batchSize : ℕ} {segmentBlocks : Word32}
    (hserves : r.setup.ServesMiner batchSize segmentBlocks)
    (hsizes : WaveSizes difficulty segmentBlocks batchSize) {inputs : ℕ → Argon2.Inputs}
    {b b' : Buffers} (hblocks : HasFirstBlocks difficulty batchSize inputs b.memory)
    (hops : ExecutesAll [.oneshot r.oneshotLaunch, .finalize r.finalizeLaunch,
      .copyFinalHashes r.batchSize] b b') :
    ∀ job < batchSize, b'.hostFinalHashes job = (minerParams difficulty).hash (inputs job) := by
  have hsegment : r.segmentBlocks = segmentBlocks := hserves.segmentBlocks
  have hbatch : r.batchSize = batchSize := hserves.batchSize
  have hjobs : r.jobsPerBlock ≤ 4 := hserves.jobsPerBlock
  rw [KernelRunner.oneshotLaunch, KernelRunner.finalizeLaunch, hsegment, hbatch] at hops
  exact digests_of_firstBlocks hsizes (by omega) (by omega) hblocks hops

theorem waveOps_oneLane {r : KernelRunner} (hlanes : r.lanes = 1) : r.waveOps =
    (if r.deviceFirstBlocksReady then .firstBlocks r.firstBlocksLaunch
      else .copyInputBlocks r.batchSize r.jobSize) ::
    [.oneshot r.oneshotLaunch, .finalize r.finalizeLaunch, .copyFinalHashes r.batchSize] := by
  rw [KernelRunner.waveOps, if_pos hlanes]
  split <;> rfl

/-- The device computes the first blocks: each job has the tag of its key. -/
theorem Prepared.digests {g g₁ g₂ g₃ : Gpu} {difficulty batchSize : ℕ} {segmentBlocks : Word32}
    {salt : List Byte} (hserves : g.runner.setup.ServesMiner batchSize segmentBlocks)
    (hsizes : WaveSizes difficulty segmentBlocks batchSize) (hsalt : salt.length + 128 < 2 ^ 32)
    (hprepared : Prepared g g₁ 64 salt 64 (BitVec.ofNat 32 difficulty) 1 0x13 2 1)
    (hbuffers : g₂.buffers = g₁.buffers) (hqueue : g₂.queue = g₁.queue ++ g₁.runner.waveOps)
    (hdrains : g₂.Drains g₃) :
    ∀ job < batchSize, g₃.buffers.hostFinalHashes job = (minerParams difficulty).hash
      ⟨readBytes (fun i => g.buffers.bytes .hostKeysPinned (job * 64 + i)) 64, salt, [], []⟩ := by
  have hserves₁ : g₁.runner.setup.ServesMiner batchSize segmentBlocks :=
    hprepared.setup.symm ▸ hserves
  obtain ⟨before, hbefore⟩ := hprepared.queue
  have hexec := hdrains.2.2
  rw [hqueue, hbefore, waveOps_oneLane hserves₁.lanes, hprepared.ready, if_pos rfl,
    List.append_assoc, executesAll_append, hbuffers] at hexec
  obtain ⟨b, hold, hnew⟩ := hexec
  have hsplit : ExecutesAll ([.copyKeys (64 * g.runner.batchSize), .copySalt salt,
      .firstBlocks g₁.runner.firstBlocksLaunch] ++ [.oneshot g₁.runner.oneshotLaunch,
        .finalize g₁.runner.finalizeLaunch, .copyFinalHashes g₁.runner.batchSize])
      b g₃.buffers := hnew
  obtain ⟨b₁, hfirst, hrest⟩ := executesAll_append.mp hsplit
  have hbatch : g.runner.batchSize = batchSize := hserves.batchSize
  have hsegment : g.runner.segmentBlocks = segmentBlocks := hserves.segmentBlocks
  rw [hprepared.launch, hbatch, hsegment] at hfirst
  have hlt := hsizes.difficulty_lt
  have hparams : FirstBlocksLaunch.Hashes ⟨64, BitVec.ofNat 32 salt.length, 64,
      BitVec.ofNat 32 difficulty, 1, 0x13, 2, 1, segmentBlocks, batchSize⟩
      (minerParams difficulty) :=
    ⟨rfl, by rw [BitVec.toNat_ofNat]; exact Nat.mod_eq_of_lt hlt, rfl, rfl, rfl, rfl⟩
  have hkeyLength : (64 : Word32).toNat + 128 < 2 ^ 32 := by decide
  have hblocks := firstBlocks_device hsizes rfl rfl hparams hkeyLength
    (by rw [BitVec.toNat_ofNat, Nat.mod_eq_of_lt (by omega)]) hsalt hfirst
  have hkeys : b.bytes .hostKeysPinned = g.buffers.bytes .hostKeysPinned := by
    rw [hold.host, hprepared.hostKeys]
  rw [hkeys] at hblocks
  exact digests_of_waveOps hserves₁ hsizes hblocks hrest

end Operations

section Answers
variable {g : Gpu} {Q : Unit → Gpu → Prop}

theorem Gpu.exists_drains (g : Gpu) : ∃ g', g.Drains g' :=
  (exists_executesAll g.queue g.buffers).imp' (fun b' => ⟨g.runner, b', []⟩)
    fun _ h => ⟨rfl, rfl, h⟩

@[simp] theorem may_recordEvent {e : Event} :
    may (recordEvent e) Q g ↔ e.index < g.runner.events ∧ Q () g := by
  simp only [recordEvent, may_bind, may_look]
  split
  next h => simp [h]
  next h =>
    simp only [h, false_and, iff_false]
    rintro ⟨_, _, ⟨_, _, he⟩, _⟩
    cases he

@[simp] theorem may_copyAsync {op : StreamOp} :
    may (copyAsync op) Q g ↔ Q () (g.enqueue [op]) := by
  simp [copyAsync]

@[simp] theorem may_launch {op : StreamOp} : may (launch op) Q g ↔ Q () (g.enqueue [op]) := by
  simp [launch]

theorem may_runRunner (hevents : 9 < g.runner.events) : may runRunner (fun _ _ => True) g := by
  have hlt : ∀ e : Event, e.index < g.runner.events := fun e => by
    cases e <;> simp only [Event.index] <;> omega
  simp only [runRunner, may_bind, may_look, may_update, may_recordEvent, may_ite, may_launch,
    may_copyAsync, Gpu.setRunner, Gpu.enqueue, hlt, and_true, implies_true]

theorem may_finish (g : Gpu) : may finish (fun _ _ => True) g := by
  obtain ⟨g', h⟩ := g.exists_drains
  simp only [finish, may_bind, may_check, may_alter]
  exact ⟨g', h, trivial⟩

theorem may_growBuffer {name : ByteBuffer} {bytes : ℕ} (hnew : g.runner.allocation name = {})
    (hbytes : 0 < bytes) : may (growBuffer name bytes) (fun _ g' =>
      g' = (g.setBytes name fun _ => 0).setRunner fun r => r.setAllocation name ⟨true, bytes⟩) g := by
  simp only [growBuffer, may_bind, may_look, hnew, may_ite, may_check, may_choose, may_update,
    may_pure]
  refine ⟨fun _ => ⟨fun h => absurd h Bool.false_ne_true, fun _ => ⟨fun _ => 0, trivial, rfl⟩⟩,
    fun h => absurd hbytes h⟩

theorem may_writeHostKeys (bytes : List Byte) (g : Gpu) :
    may (writeHostKeys bytes) (fun _ g' => g'.runner = g.runner) g := by
  simp only [writeHostKeys, may_bind, may_alter, may_update]
  exact ⟨g, ⟨rfl, [], rfl, rfl⟩, rfl⟩

theorem may_ensureHostKeyBuffer {bytes : ℕ} (hnew : g.runner.allocation .hostKeysPinned = {})
    (hbytes : 0 < bytes) : may (ensureHostKeyBuffer bytes) (fun ok g' => ok = true ∧
      g'.runner = g.runner.setAllocation .hostKeysPinned ⟨true, bytes⟩) g := by
  rw [ensureHostKeyBuffer, if_pos (Nat.ne_of_gt hbytes), may_bind]
  refine may_mono (may_growBuffer hnew hbytes) ?_
  rintro _ _ rfl
  simp [KernelRunner.setAllocation, Gpu.setRunner, Gpu.setBytes]

theorem may_prepareInputBlocksOnDeviceFlat {keyBytes : ℕ} {saltBytes : List Byte}
    {memoryCost version type : Word32} (hbatch : 0 < g.runner.batchSize)
    (hkeys : g.runner.allocation .hostKeysPinned = ⟨true, keyBytes⟩)
    (hroom : 64 * g.runner.batchSize ≤ keyBytes)
    (hdevice : g.runner.allocation .deviceKeys = {}) (hsalt : g.runner.allocation .deviceSalt = {})
    (hsome : saltBytes ≠ []) (hshort : saltBytes.length + 128 < 2 ^ 32) :
    may (prepareInputBlocksOnDeviceFlat 64 saltBytes 64 memoryCost 1 version type 1)
      (fun ok g' => ok = true ∧ g'.runner.events = g.runner.events) g := by
  have hlength : 0 < saltBytes.length := List.length_pos_of_ne_nil hsome
  simp only [prepareInputBlocksOnDeviceFlat, may_bind, may_update, may_look, may_ite]
  refine ⟨fun hbad => ?_, fun _ => ?_⟩
  · simp only [Gpu.setRunner, hkeys] at hbad
    rcases hbad with h | h | h | h | h | h | h | h | h
    all_goals first | exact absurd h (by decide) | exact absurd h hsome | omega
  · refine may_mono (may_growBuffer hdevice (by simp only [Gpu.setRunner]; omega)) ?_
    rintro _ _ rfl
    refine may_mono (may_growBuffer (by simpa [Gpu.setRunner, KernelRunner.setAllocation,
      Gpu.setBytes] using hsalt) hlength) ?_
    rintro _ _ rfl
    simp [copyToBuffer, Gpu.setRunner, KernelRunner.setAllocation, Gpu.setBytes, Gpu.enqueue,
      may_ite]

end Answers

end XnMiner

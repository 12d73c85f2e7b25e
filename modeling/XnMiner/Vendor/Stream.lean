import XnMiner.Vendor.DeviceKernels
import XnMiner.Vendor.OneshotLaunch

/-! # The queue of the device

The host queues copies and kernels on a stream, and the device works the queue off in order.
-/
namespace XnMiner
open LittleEndian Regions Warp

inductive ByteBuffer
  | hostKeysPinned
  | deviceKeys
  | deviceSalt
  deriving DecidableEq

structure Buffers where
  memory : ℕ → Argon2.Block
  bytes : ByteBuffer → ℕ → Byte
  deviceFinalHashes : ℕ → List Byte
  /-- `inputBase()` -/
  blocksIn : ℕ → Argon2.Block
  /-- `outputBase()` -/
  blocksOut : ℕ → Argon2.Block
  hostFinalHashes : ℕ → List Byte

/-- What the host queues, with the sizes at that time. Sizes of blocks are counted in blocks. -/
inductive StreamOp
  | copyKeys (bytes : ℕ)
  | copySalt (saltBytes : List Byte)
  | copyInputBlocks (batchSize jobSize : ℕ)
  | firstBlocks (k : FirstBlocksLaunch)
  | oneshot (k : OneshotLaunch)
  | finalize (k : FinalizeLaunch)
  | copyFinalHashes (batchSize : ℕ)
  | copyOutputBlocks (batchSize jobSize lanes : ℕ)

def overwrite {α : Type} (n : ℕ) (new old : ℕ → α) (i : ℕ) : α := if i < n then new i else old i

theorem overwrite_lt {α : Type} {n i : ℕ} (hi : i < n) (new old : ℕ → α) :
    overwrite n new old i = new i := if_pos hi

def Buffers.setBytes (b : Buffers) (name : ByteBuffer) (bytes : ℕ → Byte) : Buffers :=
  { b with bytes := Function.update b.bytes name bytes }

@[simp] theorem Buffers.bytes_setBytes (b : Buffers) (name other : ByteBuffer) (bytes : ℕ → Byte) :
    (b.setBytes name bytes).bytes other = if other = name then bytes else b.bytes other :=
  Function.update_apply _ _ _ _

/-- Registers and stacks hold anything when a kernel starts. -/
def StreamOp.Executes (op : StreamOp) (b b' : Buffers) : Prop :=
  match op with
  | copyKeys bytes =>
    b' = b.setBytes .deviceKeys (overwrite bytes (b.bytes .hostKeysPinned) (b.bytes .deviceKeys))
  | copySalt saltBytes =>
    b' = b.setBytes .deviceSalt
      (overwrite saltBytes.length (saltBytes.getD · 0) (b.bytes .deviceSalt))
  | copyInputBlocks batchSize jobSize =>
    b' = { b with memory := fun a =>
      if a / jobSize < batchSize ∧ a % jobSize < 2 then b.blocksIn (a / jobSize * 2 + a % jobSize)
      else b.memory a }
  | firstBlocks k => ∃ stack memory',
    (k.programs (b.bytes .deviceKeys) (b.bytes .deviceSalt) stack).Ends b.memory memory' ∧
      b' = { b with memory := memory' }
  | oneshot k => ∃ registers memory',
    (k.programs registers).Ends b.memory memory' ∧ b' = { b with memory := memory' }
  | finalize k => ∃ stack hashes',
    (k.programs stack b.memory).Ends b.deviceFinalHashes hashes' ∧
      b' = { b with deviceFinalHashes := hashes' }
  | copyFinalHashes batchSize =>
    b' = { b with hostFinalHashes := overwrite batchSize b.deviceFinalHashes b.hostFinalHashes }
  | copyOutputBlocks batchSize jobSize lanes =>
    let last := fun i => b.memory (i / lanes * jobSize + (jobSize - lanes) + i % lanes)
    b' = { b with blocksOut := overwrite (batchSize * lanes) last b.blocksOut }

def ExecutesAll (ops : List StreamOp) (b b' : Buffers) : Prop :=
  match ops with
  | [] => b' = b
  | op :: ops => ∃ b₁, op.Executes b b₁ ∧ ExecutesAll ops b₁ b'

theorem executesAll_append {ops ops' : List StreamOp} {b b' : Buffers} :
    ExecutesAll (ops ++ ops') b b' ↔ ∃ b₁, ExecutesAll ops b b₁ ∧ ExecutesAll ops' b₁ b' := by
  induction ops generalizing b with
  | nil =>
    refine ⟨fun h => ⟨b, rfl, h⟩, ?_⟩
    rintro ⟨b₁, rfl, h⟩
    exact h
  | cons op ops ih =>
    constructor
    · rintro ⟨b₁, hop, h⟩
      obtain ⟨b₂, h, h'⟩ := ih.mp h
      exact ⟨b₂, ⟨b₁, hop, h⟩, h'⟩
    · rintro ⟨b₂, ⟨b₁, hop, h⟩, h'⟩
      exact ⟨b₁, hop, ih.mpr ⟨b₂, h, h'⟩⟩

/-- The device does not write what the host hands over. -/
theorem StreamOp.Executes.host {op : StreamOp} {b b' : Buffers} (h : op.Executes b b') :
    b'.bytes .hostKeysPinned = b.bytes .hostKeysPinned := by
  cases op with
  | firstBlocks k | oneshot k | finalize k =>
    obtain ⟨_, _, _, rfl⟩ := h
    rfl
  | copyKeys bytes | copySalt saltBytes =>
    rw [h]
    rfl
  | copyInputBlocks batchSize jobSize | copyFinalHashes batchSize
  | copyOutputBlocks batchSize jobSize lanes => rw [h]

theorem ExecutesAll.host {ops : List StreamOp} {b b' : Buffers} (h : ExecutesAll ops b b') :
    b'.bytes .hostKeysPinned = b.bytes .hostKeysPinned := by
  induction ops generalizing b with
  | nil => rw [h]
  | cons op ops ih =>
    obtain ⟨b₁, hop, hops⟩ := h
    rw [ih hops]
    exact hop.host

theorem StreamOp.exists_executes (op : StreamOp) (b : Buffers) : ∃ b', op.Executes b b' := by
  cases op with
  | firstBlocks k =>
    obtain ⟨memory', h⟩ := Programs.exists_end (P := k.programs (b.bytes .deviceKeys)
      (b.bytes .deviceSalt) fun _ _ => Blake2b.zero) b.memory (.start rfl)
    exact ⟨_, _, memory', h, rfl⟩
  | oneshot k =>
    let zeros : Reg BlockTh := Vector.replicate 32 ⟨0, 0, 0, 0⟩
    let shared : BlockL := ⟨Vector.replicate 128 0, Vector.replicate 128 0⟩
    obtain ⟨memory', h⟩ := Programs.exists_end
      (P := k.programs fun _ => ⟨0, 0, zeros, zeros, shared, Vector.replicate 32 0⟩) b.memory
      (.start rfl)
    exact ⟨_, _, memory', h, rfl⟩
  | finalize k =>
    obtain ⟨hashes', h⟩ := Programs.exists_end (P := k.programs (fun _ => Blake2b.zero) b.memory)
      b.deviceFinalHashes (.start rfl)
    exact ⟨_, _, hashes', h, rfl⟩
  | copyKeys bytes | copySalt saltBytes | copyInputBlocks batchSize jobSize
  | copyFinalHashes batchSize | copyOutputBlocks batchSize jobSize lanes => exact ⟨_, rfl⟩

theorem exists_executesAll (ops : List StreamOp) (b : Buffers) : ∃ b', ExecutesAll ops b b' := by
  induction ops generalizing b with
  | nil => exact ⟨b, rfl⟩
  | cons op ops ih =>
    obtain ⟨b₁, hop⟩ := op.exists_executes b
    obtain ⟨b', hops⟩ := ih b₁
    exact ⟨b', b₁, hop, hops⟩

def minerParams (difficulty : ℕ) : Argon2.Params := ⟨.id, 1, difficulty, 1, 64, 0x13⟩

structure WaveSizes (difficulty : ℕ) (segmentBlocks : Word32) (batchSize : ℕ) : Prop where
  difficulty_ge : 8 ≤ difficulty
  difficulty_lt : difficulty < 2 ^ 32
  segment : segmentBlocks.toNat = difficulty / 4
  batch_le : batchSize + 256 ≤ 2 ^ 32

section Wave
variable {difficulty batchSize : ℕ} {segmentBlocks : Word32} {b b' : Buffers}

theorem WaveSizes.filledBy (h : WaveSizes difficulty segmentBlocks batchSize) :
    FilledBy (minerParams difficulty) segmentBlocks where
  kind := rfl
  p := rfl
  t := rfl
  segment := h.segment.symm
  laneBlocks_lt := by
    have hlt := h.difficulty_lt
    rw [h.segment]
    omega

/-- The first two blocks of each job are in its memory. -/
def HasFirstBlocks (difficulty batchSize : ℕ) (inputs : ℕ → Argon2.Inputs)
    (memory : ℕ → Argon2.Block) : Prop :=
  ∀ job < batchSize, ∀ j < 2, memory (job * (4 * (difficulty / 4)) + j) =
    Argon2.firstBlock ((minerParams difficulty).H0 (inputs job)) 0 j

/-- From the first blocks on: the digests of all jobs are the tags of their inputs. -/
theorem digests_of_firstBlocks (h : WaveSizes difficulty segmentBlocks batchSize)
    {inputs : ℕ → Argon2.Inputs} {jobsPerBlock : ℕ} (hpos : 0 < jobsPerBlock)
    (hle : jobsPerBlock ≤ 256) (hfirst : HasFirstBlocks difficulty batchSize inputs b.memory)
    (hexec : ExecutesAll [.oneshot ⟨segmentBlocks, batchSize, jobsPerBlock⟩,
      .finalize ⟨segmentBlocks, batchSize⟩, .copyFinalHashes batchSize] b b') :
    ∀ job < batchSize, b'.hostFinalHashes job = (minerParams difficulty).hash (inputs job) := by
  obtain ⟨b₁, ⟨registers, memory₁, hfill, rfl⟩, b₂, ⟨stack, hashes, hfinal, rfl⟩, b₃, rfl, rfl⟩ :=
    hexec
  have hge := h.difficulty_ge
  have hlt := h.difficulty_lt
  have hle' := h.batch_le
  have hsegment := h.segment
  have hfits : OneshotLaunch.Fits ⟨segmentBlocks, batchSize, jobsPerBlock⟩ :=
    ⟨hpos, by simp only; omega, by simp only; omega, by simp only; omega⟩
  have hblocks : OneshotLaunch.laneBlocks ⟨segmentBlocks, batchSize, jobsPerBlock⟩ =
      4 * (difficulty / 4) := by rw [hfits.laneBlocks, hsegment]
  have hq : (minerParams difficulty).q = 4 * (difficulty / 4) := by
    simp only [Argon2.Params.q, Argon2.Params.segment, minerParams, Nat.mul_one]
  obtain ⟨hfilled, -⟩ := OneshotLaunch.fills_jobs hfits h.filledBy hfill
  obtain ⟨hdigests, -⟩ := FinalizeLaunch.fills_digests (by simp only; omega) hfinal
  simp only [hblocks] at hfilled
  intro job hjob
  have hlast := hfilled job hjob ((minerParams difficulty).start (inputs job))
    (fun j hj => by rw [hfirst job hjob j hj, Argon2.Params.start, if_pos hj])
    (4 * (difficulty / 4) - 1) (by omega)
  rw [Argon2.hash_oneLane rfl, hq]
  simp only [overwrite_lt hjob, hdigests job hjob, FinalizeLaunch.blocksPerJob, hsegment, hlast]
  rfl

/-- The device computes the first blocks from the keys and the salt that it is given. -/
theorem firstBlocks_device (h : WaveSizes difficulty segmentBlocks batchSize) {k : FirstBlocksLaunch}
    (hbatch : k.batchSize = batchSize) (hsegment : k.segmentBlocks = segmentBlocks)
    (hparams : k.Hashes (minerParams difficulty)) (hkey : k.keyLength.toNat + 128 < 2 ^ 32)
    {salt : List Byte} (hsalt : k.saltLength.toNat = salt.length) (hsalt' : salt.length + 128 < 2 ^ 32)
    (hexec : ExecutesAll [.copyKeys (k.keyLength.toNat * batchSize), .copySalt salt, .firstBlocks k]
      b b') :
    HasFirstBlocks difficulty batchSize
      (fun job => ⟨k.key (b.bytes .hostKeysPinned) job, salt, [], []⟩) b'.memory := by
  obtain ⟨b₁, rfl, b₂, rfl, b₃, ⟨stack, memory, hends, rfl⟩, rfl⟩ := hexec
  simp only [Buffers.bytes_setBytes, reduceCtorEq, if_true, if_false] at hends
  have hge := h.difficulty_ge
  have hlt := h.difficulty_lt
  have hle := h.batch_le
  have hquarter := h.segment
  have hfits : k.Fits :=
    ⟨by rw [hbatch]; exact hle, by rw [hsegment]; omega, by rw [hsegment]; omega, hkey,
      by rw [hsalt]; exact hsalt'⟩
  obtain ⟨hfirst, -⟩ := FirstBlocksLaunch.fills_firstBlocks hfits hparams hends
  have hblocks : k.laneBlocks = 4 * (difficulty / 4) := by
    rw [hfits.laneBlocks, hsegment, hquarter]
  have hread : readBytes (overwrite salt.length (salt.getD · 0) (b.bytes .deviceSalt)) k.saltLength.toNat =
      salt := by
    rw [hsalt, readBytes]
    apply List.ext_getElem
    · rw [List.length_map, List.length_range]
    · intro i hi hi'
      rw [List.getElem_map, List.getElem_range, overwrite_lt hi', List.getD_eq_getElem _ _ hi']
  intro job hjob j hj
  have hkeys : k.key (overwrite (k.keyLength.toNat * batchSize) (b.bytes .hostKeysPinned)
      (b.bytes .deviceKeys)) job =
      k.key (b.bytes .hostKeysPinned) job := by
    rw [FirstBlocksLaunch.key, FirstBlocksLaunch.key, readBytes, readBytes]
    refine List.map_congr_left fun i hi => ?_
    refine overwrite_lt ?_ _ _
    have hroom := Nat.mul_le_mul_right k.keyLength.toNat (Nat.succ_le_of_lt hjob)
    rw [List.mem_range] at hi
    rw [Nat.succ_mul, Nat.mul_comm batchSize] at hroom
    omega
  have hblock := hfirst job (hbatch ▸ hjob) j hj
  rw [hread, hkeys, hblocks] at hblock
  exact hblock

end Wave

end XnMiner

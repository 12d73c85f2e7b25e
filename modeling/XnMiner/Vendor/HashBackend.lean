import XnMiner.System.Machine
import XnMiner.Vendor.KernelRunner
import XnMiner.Vendor.KeyGenerator
import XnMiner.Vendor.Matching

/-! # The hash backend of a lane

`runBatch` hashes a wave and returns the matches of the wave before, which a thread searches
meanwhile. Whatever fails on the way ends in a result with an error, and drops the wave before.
-/
namespace XnMiner
open TextCodec LittleEndian Choices Transitions HashApi

/-- Requests as the miner makes them, for a whole wave with its first blocks computed on the device.
Argon2 has no meaning for less than eight blocks. -/
structure WaveRequest extends HashApi.Request where
  onDevice : gpuFirstBlocks = true
  difficulty_ge : 8 ≤ difficulty
  difficulty_lt : difficulty < 2 ^ 32
  batch_le : batchSize + 256 ≤ 2 ^ 32
  salt_lt : saltHex.length < 2 ^ 32

namespace WaveRequest
variable (r : WaveRequest)

def singleKey : Bool := decide (normalizeHex r.key ≠ [])

def attempts : ℕ := if r.singleKey then 1 else r.batchSize

def keyBytes : ℕ := r.attempts * kHashApiKeyLength

def params : Argon2Params :=
  .make .id .v13 64 (normalizeHex r.saltHex) [] [] 1 r.difficulty 1 (Nat.two_pow_pos 32)
    (Nat.two_pow_pos 32)

end WaveRequest

structure CudaHashBackend where
  gpu : Option Gpu := none
  initialized : Bool := false
  initializedBatchSize : ℕ := 0
  initializedSegmentBlocks : Word32 := 0
  /-- The slot that is ready. -/
  pending : Option PipelinedBatch := none
  cachedSaltHex : Str := []
  cachedSaltBytes : List Byte := []
  /-- What a thread has generated during the last wave. -/
  nextKeys : List Byte := []

abbrev BackendProgram := Program Str CudaHashBackend

def onGpu {α : Type} (x : GpuProgram α) : BackendProgram α :=
  focus (·.gpu) (fun g b => { b with gpu := g }) (onSome x)

def joinErrors (errors : List Str) : Str := List.intercalate "; ".toList errors

def textBytes (s : Str) : List Byte := s.map fun c => BitVec.ofNat 8 c.toNat

/-- Where the pool fails, anything can stand in the keys. -/
def keygenFillFlat (r : WaveRequest) : GpuProgram Unit := do
  let leftover ← choose fun bytes : List Byte => bytes.length = r.keyBytes
  writeHostKeys leftover
  check
  let keys ← choose fun keys : List Str => keys.length = r.attempts ∧
    ∀ key ∈ keys, IsKey (lower (normalizeHex r.keyPrefix)) kHashApiKeyLength key
  writeHostKeys (textBytes keys.flatten)

def stageKeys (r : WaveRequest) (nextKeys : List Byte) : GpuProgram Unit := do
  if r.singleKey then
    if (normalizeHex r.key).length ≠ kHashApiKeyLength then fails
    writeHostKeys (textBytes (normalizeHex r.key))
  else if nextKeys.length = r.keyBytes then writeHostKeys nextKeys
  else keygenFillFlat r

/-- What a snapshot of the outputs holds. One whose first key is none is not ready. -/
def snapshotOutputs (r : WaveRequest) : GpuProgram (Option PipelinedBatch) := do
  let g ← look
  let keys := readBytes (g.buffers.bytes .hostKeysPinned) r.keyBytes
  let gpuFinalized := g.runner.lastUsedDeviceFinalHashes
  let digests :=
    if gpuFinalized then (List.range r.attempts).flatMap g.buffers.hostFinalHashes
    else (List.range r.attempts).flatMap fun i =>
      (g.buffers.blocksOut (i * g.runner.lanes.toNat)).toBytes
  if r.keyBytes = 0 ∨ isHexString (bytesText (keys.take kHashApiKeyLength)) = false then return none
  return some
    { gpuFinalized, keys, digests
      keyLength := kHashApiKeyLength
      params := r.params
      targetPattern := r.targetPattern
      allowXuni := r.allowXuni
      singleKey := r.singleKey
      requestId := r.requestId
      attempts := r.attempts
      difficulty := r.difficulty }

def ensureInitialized (streamsFail : Bool) (r : WaveRequest) : BackendProgram Unit := do
  let b ← look
  if b.initialized = true ∧ b.initializedBatchSize = r.attempts ∧
      b.initializedSegmentBlocks = r.params.segmentBlocks then return ()
  focus (·.gpu) (fun g b => { b with gpu := g })
    (CudaBackend.init streamsFail r.attempts 2 0x13 1 1 r.params.segmentBlocks)
  update fun b => { b with
    initialized := true
    initializedBatchSize := r.attempts
    initializedSegmentBlocks := r.params.segmentBlocks }

def cacheSalt (r : WaveRequest) : BackendProgram Unit := do
  let salt := normalizeHex r.saltHex
  if (← look).cachedSaltHex ≠ salt then
    update fun b => { b with cachedSaltHex := salt }
    match decodeHexBytes salt with
    | none => fails
    | some bytes => update fun b => { b with cachedSaltBytes := bytes }

/-- A thread generates the keys of the next wave; nobody looks whether it could. -/
def generateNext (r : WaveRequest) : BackendProgram Unit := do
  if r.singleKey = false ∧ 1 < r.attempts then
    check
    let bytes ← choose fun bytes : List Byte => bytes.length = r.keyBytes
    update fun b => { b with nextKeys := bytes }

section Waves
variable (streamsFail : Bool) (hardwareThreads : ℕ) (r : WaveRequest)

def prepareWave : BackendProgram Unit := do
  if ← onGpu (ensureHostKeyBuffer r.keyBytes) then
    onGpu (stageKeys r (← look).nextKeys)
    cacheSalt r
    let p := r.params
    if ← onGpu (prepareInputBlocksOnDeviceFlat kHashApiKeyLength (← look).cachedSaltBytes p.outLen
        p.mCost p.tCost (BitVec.ofNat 32 p.version.code) (BitVec.ofNat 32 p.type.code) p.lanes) then
      return ()
    else fails
  else fails

def fullWave : BackendProgram HashApiResult := do
  let previous := (← look).pending
  update fun b => { b with pending := none }
  check
  prepareWave r
  onGpu runRunner
  generateNext r
  onGpu finish
  let current ← onGpu (snapshotOutputs r)
  check
  update fun b => { b with pending := current }
  let prev := previous.elim {} fun slot => slot.finalizeSlot hardwareThreads
  return {
    requestId := r.requestId
    ok := true
    algorithm := r.algorithm
    backend := "cuda".toList
    batchSize := r.attempts
    attempts := r.attempts
    gpuFirstBlocks := r.gpuFirstBlocks
    hash := prev.hash
    found := prev.found }

def CudaHashBackend.runBatch : BackendProgram HashApiResult := do
  let rejected (error : Str) : HashApiResult :=
    { requestId := r.requestId
      error
      algorithm := r.algorithm
      backend := "cuda".toList
      batchSize := r.batchSize
      gpuFirstBlocks := r.gpuFirstBlocks }
  let errors := validateRequest r.toRequest
  if errors ≠ [] then return rejected (joinErrors errors)
  if r.backend ≠ "cuda".toList then
    return rejected "CudaHashBackend requires backend=cuda".toList
  catching (do
      check
      ensureInitialized streamsFail r
      fullWave hardwareThreads r)
    fun e => do
      update fun b => { b with pending := none }
      return rejected e

def CudaHashBackend.drainPipeline : BackendProgram HashApiResult := do
  match (← look).pending with
  | none => return { backend := "cuda".toList, ok := true }
  | some slot =>
    update fun b => { b with pending := none }
    return slot.finalizeSlot hardwareThreads

end Waves

/-- The slot is one of a request, and each digest is the tag of the key next to it. -/
def PipelinedBatch.Genuine (slot : PipelinedBatch) (r : WaveRequest) : Prop :=
  slot.attempts = r.attempts ∧ slot.targetPattern = r.targetPattern ∧
    ∃ salt, decodeHexBytes (normalizeHex r.saltHex) = some salt ∧ ∀ i < r.attempts,
      slot.digest i = (minerParams r.difficulty).hash ⟨slot.key i, salt, [], []⟩

theorem bytesAt_flatMap {α : Type} {f : α → List Byte} {width : ℕ} {l : List α} {i : ℕ}
    (hf : ∀ a ∈ l, (f a).length = width) (hi : i < l.length) :
    bytesAt (l.flatMap f) (i * width) width = f l[i] := by
  induction l generalizing i with
  | nil => cases hi
  | cons a l ih =>
    have ha := hf a List.mem_cons_self
    rw [bytesAt, List.flatMap_cons]
    cases i with
    | zero =>
      rw [Nat.zero_mul, List.drop_zero]
      exact List.take_left' ha
    | succ i =>
      rw [Nat.succ_mul, Nat.add_comm, ← List.drop_drop, List.drop_left' ha]
      exact ih (fun b hb => hf b (List.mem_cons_of_mem _ hb)) (Nat.lt_of_succ_lt_succ hi)

theorem bytesAt_readBytes {pointer : ℕ → Byte} {start n length : ℕ} (h : start + n ≤ length) :
    bytesAt (readBytes pointer length) start n = readBytes (fun i => pointer (start + i)) n := by
  apply List.ext_getElem
  · simp only [bytesAt, readBytes, List.length_take, List.length_drop, List.length_map,
      List.length_range]
    omega
  · intro i hi hi'
    simp [bytesAt, readBytes]

section Snapshot
variable {r : WaveRequest} {g : Gpu} {salt : List Byte}

theorem snapshotOutputs_wp (hsalt : decodeHexBytes (normalizeHex r.saltHex) = some salt)
    (hlast : g.runner.lastUsedDeviceFinalHashes = true)
    (hdigests : ∀ job < r.attempts, g.buffers.hostFinalHashes job =
      (minerParams r.difficulty).hash
        ⟨readBytes (fun i => g.buffers.bytes .hostKeysPinned (job * 64 + i)) 64, salt, [], []⟩) :
    wp (snapshotOutputs r)
      (fun current g' => g' = g ∧ ∀ slot, current = some slot → slot.Genuine r)
      (fun _ _ => False) g := by
  simp only [snapshotOutputs, wp_bind, wp_look, wp_ite, wp_pure]
  refine ⟨fun _ => ⟨trivial, fun slot h => absurd h.symm (Option.some_ne_none slot)⟩,
    fun _ => ⟨trivial, ?_⟩⟩
  rintro _ ⟨⟩
  refine ⟨rfl, rfl, salt, hsalt, fun i hi => ?_⟩
  have hlength : ∀ job ∈ List.range r.attempts, (g.buffers.hostFinalHashes job).length = 64 :=
    fun job hjob => by
      rw [hdigests job (List.mem_range.mp hjob)]
      exact Argon2.length_hashLong _ _
  have hroom : i * 64 + 64 ≤ r.keyBytes := by
    have := Nat.mul_le_mul_right 64 (Nat.succ_le_of_lt hi)
    rw [Nat.succ_mul] at this
    exact this
  have hdigest := bytesAt_flatMap hlength (by simpa using hi)
  rw [List.getElem_range, hdigests i hi] at hdigest
  simp only [PipelinedBatch.digest, hlast, if_true]
  rw [hdigest, PipelinedBatch.key]
  exact congrArg (fun key => (minerParams r.difficulty).hash ⟨key, salt, [], []⟩)
    (bytesAt_readBytes hroom).symm

end Snapshot

/-- The runner keeps its setup, and the salt that is kept stays with its bytes. -/
structure CudaHashBackend.Keeps (b b' : CudaHashBackend) : Prop where
  gpu : ∃ g g', b.gpu = some g ∧ b'.gpu = some g' ∧ g'.runner.setup = g.runner.setup
  initialized : b'.initialized = b.initialized
  batchSize : b'.initializedBatchSize = b.initializedBatchSize
  segmentBlocks : b'.initializedSegmentBlocks = b.initializedSegmentBlocks
  cached : decodeHexBytes b.cachedSaltHex = some b.cachedSaltBytes →
    decodeHexBytes b'.cachedSaltHex = some b'.cachedSaltBytes
  pending : b'.pending = b.pending

section Calls
variable {b b' b'' : CudaHashBackend} {g g' : Gpu} {r : WaveRequest}

theorem CudaHashBackend.Keeps.trans (h : b.Keeps b') (h' : b'.Keeps b'') : b.Keeps b'' where
  gpu := by
    obtain ⟨g, g₁, hg, hg₁, hsetup⟩ := h.gpu
    obtain ⟨g₂, g', hg₂, hg', hsetup'⟩ := h'.gpu
    obtain rfl := Option.some.inj (hg₁.symm.trans hg₂)
    exact ⟨g, g', hg, hg', hsetup'.trans hsetup⟩
  initialized := h'.initialized.trans h.initialized
  batchSize := h'.batchSize.trans h.batchSize
  segmentBlocks := h'.segmentBlocks.trans h.segmentBlocks
  cached := h'.cached ∘ h.cached
  pending := h'.pending.trans h.pending

theorem CudaHashBackend.keeps_gpu (hg : b.gpu = some g)
    (hsetup : g'.runner.setup = g.runner.setup) : b.Keeps { b with gpu := some g' } :=
  ⟨⟨g, g', hg, rfl, hsetup⟩, rfl, rfl, rfl, id, rfl⟩

theorem CudaHashBackend.Keeps.refl (hg : b.gpu = some g) : b.Keeps b :=
  ⟨⟨g, g, hg, hg, rfl⟩, rfl, rfl, rfl, id, rfl⟩

/-- A program of the runner, as a part of the backend's. -/
theorem onGpu_wp {α : Type} {x : GpuProgram α} {Q : α → Gpu → Prop} (hg : b.gpu = some g)
    (h : wp x Q (fun _ g' => g'.runner.setup = g.runner.setup) g) :
    wp (onGpu x) (fun a b' => ∃ g', Q a g' ∧ b' = { b with gpu := some g' })
      (fun _ b' => b.Keeps b') b := by
  rw [onGpu, wp_focus, hg, wp_onSome]
  exact wp_mono h (fun a g' hq => ⟨g', hq, rfl⟩) fun _ g' hsetup =>
    CudaHashBackend.keeps_gpu hg hsetup

theorem stageKeys_wp (nextKeys : List Byte) (g : Gpu) : wp (stageKeys r nextKeys)
    (fun _ g' => g'.runner.setup = g.runner.setup) (fun _ g' => g'.runner.setup = g.runner.setup)
    g := by
  have hwrite : ∀ (bytes : List Byte) (g₁ : Gpu), g₁.runner.setup = g.runner.setup →
      wp (writeHostKeys bytes) (fun _ g' => g'.runner.setup = g.runner.setup)
        (fun _ g' => g'.runner.setup = g.runner.setup) g₁ := fun bytes g₁ h =>
    wp_mono (writeHostKeys_wp g₁ bytes) (fun _ g' hkeeps => hkeeps.1.setup.trans h)
      fun _ _ h => h.elim
  simp only [stageKeys, keygenFillFlat, wp_ite, wp_bind, wp_fails, wp_choose, wp_check]
  refine ⟨fun _ => ⟨fun _ _ => trivial, fun _ => hwrite _ g rfl⟩, fun _ => ⟨fun _ => hwrite _ g rfl,
    fun _ leftover _ => ?_⟩⟩
  exact wp_mono (hwrite leftover g rfl) (fun _ g₁ h => ⟨fun keys _ => hwrite _ g₁ h, fun _ => h⟩)
    fun _ _ h => h

theorem cacheSalt_wp (hvalid : isValidRequest r.toRequest = true)
    (hcached : decodeHexBytes b.cachedSaltHex = some b.cachedSaltBytes) : wp (cacheSalt r)
    (fun _ b' => ∃ salt, decodeHexBytes (normalizeHex r.saltHex) = some salt ∧
      b' = { b with cachedSaltHex := normalizeHex r.saltHex, cachedSaltBytes := salt })
    (fun _ _ => False) b := by
  obtain ⟨salt, hsalt, -, -, -⟩ := salt_bytes hvalid
  simp only [cacheSalt, wp_bind, wp_look, wp_ite, wp_update, wp_pure, hsalt]
  refine ⟨fun _ => ⟨salt, rfl, rfl⟩, fun hsame => ?_⟩
  have heq : b.cachedSaltHex = normalizeHex r.saltHex := by simpa using hsame
  rw [heq, hsalt] at hcached
  obtain rfl := Option.some.inj hcached
  exact ⟨_, rfl, by rw [← heq]⟩

theorem generateNext_wp : wp (generateNext r)
    (fun _ b' => ∃ keys, b' = { b with nextKeys := keys }) (fun _ b' => b' = b) b := by
  simp only [generateNext, wp_ite, wp_bind, wp_check, wp_choose, wp_update, wp_pure]
  exact ⟨fun _ => ⟨fun keys _ => ⟨keys, rfl⟩, fun _ => trivial⟩, fun _ => ⟨b.nextKeys, rfl⟩⟩

theorem prepareWave_wp (hvalid : isValidRequest r.toRequest = true) (hg : b.gpu = some g)
    (hcached : decodeHexBytes b.cachedSaltHex = some b.cachedSaltBytes) : wp (prepareWave r)
    (fun _ b' => b.Keeps b' ∧ ∃ g₁ g₂ salt, decodeHexBytes (normalizeHex r.saltHex) = some salt ∧
      g₁.runner.setup = g.runner.setup ∧ b'.gpu = some g₂ ∧
        Prepared g₁ g₂ 64 salt 64 (BitVec.ofNat 32 r.difficulty) 1 0x13 2 1)
    (fun _ b' => b.Keeps b') b := by
  rw [prepareWave, wp_bind]
  refine wp_mono (onGpu_wp hg (wp_mono (ensureHostKeyBuffer_wp g r.keyBytes)
    (fun _ _ h => h.setup) fun _ _ h => h)) ?_ fun _ _ h => h
  rintro present b₁ ⟨g₁, hsetup₁, rfl⟩
  have hkeeps₁ : b.Keeps { b with gpu := some g₁ } := CudaHashBackend.keeps_gpu hg hsetup₁
  rw [wp_ite]
  refine ⟨fun _ => ?_, fun _ => wp_fails.mpr fun _ => hkeeps₁⟩
  rw [wp_bind, wp_look, wp_bind]
  refine wp_mono (onGpu_wp rfl (stageKeys_wp _ g₁)) ?_ fun _ _ h => hkeeps₁.trans h
  rintro _ b₂ ⟨g₂, hsetup₂, rfl⟩
  rw [wp_bind]
  refine wp_mono (cacheSalt_wp hvalid hcached) ?_ fun _ _ h => h.elim
  rintro _ b₃ ⟨salt, hsalt, rfl⟩
  have hkeeps₂ : b.Keeps { b with
      gpu := some g₂, cachedSaltHex := normalizeHex r.saltHex, cachedSaltBytes := salt } :=
    ⟨⟨g, g₂, hg, rfl, hsetup₂.trans hsetup₁⟩, rfl, rfl, rfl, fun _ => hsalt, rfl⟩
  rw [wp_bind, wp_look, wp_bind]
  refine wp_mono (onGpu_wp rfl (prepareInputBlocksOnDeviceFlat_wp g₂ _ _ _ _ _ _ _ _)) ?_
    fun _ _ h => hkeeps₂.trans h
  rintro ready b₄ ⟨g₃, ⟨hsetup₃, hprepared⟩, rfl⟩
  have hkeeps₃ := hkeeps₂.trans (CudaHashBackend.keeps_gpu rfl hsetup₃)
  rw [wp_ite]
  refine ⟨fun hready => wp_pure.mpr ⟨hkeeps₃, g₂, g₃, salt, hsalt, hsetup₂.trans hsetup₁, rfl,
    hprepared hready⟩, fun _ => wp_fails.mpr fun _ => hkeeps₃⟩

theorem WaveRequest.sizes (r : WaveRequest) :
    WaveSizes r.difficulty r.params.segmentBlocks r.attempts where
  difficulty_ge := r.difficulty_ge
  difficulty_lt := r.difficulty_lt
  segment := by
    have hge := r.difficulty_ge
    have hlt := r.difficulty_lt
    show (BitVec.ofNat 32
        (max r.difficulty (2 * (1 * 4 % 2 ^ 64) % 2 ^ 64) / (1 * 4 % 2 ^ 64))).toNat =
      r.difficulty / 4
    rw [BitVec.toNat_ofNat, show 2 * (1 * 4 % 2 ^ 64) % 2 ^ 64 = 8 from rfl,
      show 1 * 4 % 2 ^ 64 = 4 from rfl, Nat.max_eq_left hge, Nat.mod_eq_of_lt (by omega)]
  batch_le := by
    have hbatch := r.batch_le
    rw [WaveRequest.attempts]
    split
    next => decide
    next => exact hbatch

theorem salt_length_lt {salt : List Byte} (hvalid : isValidRequest r.toRequest = true)
    (hsalt : decodeHexBytes (normalizeHex r.saltHex) = some salt) : salt.length + 128 < 2 ^ 32 := by
  obtain ⟨heven, -, hhex⟩ := (accepted_of_valid hvalid).salt
  rw [normalizeHex, lower, List.length_map] at heven
  obtain ⟨bytes, hdevice, -, -, hlength⟩ := decoders_agree heven hhex
  obtain rfl := Option.some.inj (hdevice.symm.trans hsalt)
  have hprefix : (withoutPrefix r.saltHex).length ≤ r.saltHex.length := by
    unfold withoutPrefix
    split
    next h =>
      rw [h, List.length_cons, List.length_cons]
      omega
    next h =>
      rw [h, List.length_cons, List.length_cons]
      omega
    next => exact le_refl _
  have hlt := r.salt_lt
  omega

theorem fullWave_wp (hardwareThreads : ℕ) (hvalid : isValidRequest r.toRequest = true)
    (hg : b.gpu = some g) (hcached : decodeHexBytes b.cachedSaltHex = some b.cachedSaltBytes)
    (hserves : 9 < g.runner.events →
      g.runner.setup.ServesMiner r.attempts r.params.segmentBlocks) :
    wp (fullWave hardwareThreads r)
      (fun result b' => (∃ current, CudaHashBackend.Keeps { b with pending := current } b' ∧
          ∀ slot, current = some slot → slot.Genuine r) ∧
        result.ok = true ∧
          result.found = (b.pending.elim {} fun slot => slot.finalizeSlot hardwareThreads).found)
      (fun _ b' => CudaHashBackend.Keeps { b with pending := none } b') b := by
  rw [fullWave, wp_bind, wp_look, wp_bind, wp_update, wp_bind, wp_check]
  refine ⟨?_, fun _ => .refl (g := g) hg⟩
  rw [wp_bind]
  refine wp_mono (prepareWave_wp hvalid hg hcached) ?_ fun _ _ h => h
  rintro _ b₁ ⟨hkeeps₁, g₁, g₂, salt, hsalt, hsetup₁, hg₂, hprepared⟩
  rw [wp_bind]
  have hrun := wp_and (runRunner_queue g₂) (runRunner_setup g₂)
  refine wp_mono (onGpu_wp hg₂ (wp_mono hrun (fun _ _ h => h) fun _ _ h => h.2)) ?_
    fun _ _ h => hkeeps₁.trans h
  rintro _ b₂ ⟨g₃, ⟨⟨hevents, hbuffers, hqueue, hlast⟩, hsetup₃⟩, rfl⟩
  have hkeeps₂ := hkeeps₁.trans (CudaHashBackend.keeps_gpu hg₂ hsetup₃)
  rw [wp_bind]
  refine wp_mono generateNext_wp ?_ fun _ _ h => h ▸ hkeeps₂
  rintro _ b₃ ⟨keys, rfl⟩
  have hkeeps₃ : CudaHashBackend.Keeps { b with pending := none }
      { b₁ with gpu := some g₃, nextKeys := keys } :=
    ⟨hkeeps₂.gpu, hkeeps₂.initialized, hkeeps₂.batchSize, hkeeps₂.segmentBlocks, hkeeps₂.cached,
      hkeeps₂.pending⟩
  rw [wp_bind]
  refine wp_mono (onGpu_wp rfl (finish_wp g₃)) ?_ fun _ _ h => hkeeps₃.trans h
  rintro _ b₄ ⟨g₄, hdrains, rfl⟩
  have hkeeps₄ := hkeeps₃.trans
    (CudaHashBackend.keeps_gpu rfl (congrArg KernelRunner.setup hdrains.1))
  -- the events that the run has recorded are those of the runner that was served
  have hsetup₂ : g₂.runner.setup = g.runner.setup := hprepared.setup.trans hsetup₁
  have hserved : g.runner.setup.ServesMiner r.attempts r.params.segmentBlocks :=
    hserves (hevents.trans_eq (congrArg Setup.events hsetup₂))
  have hlanes : g₂.runner.lanes = 1 := (congrArg Setup.lanes hsetup₂).trans hserved.lanes
  have hkeys : g₄.buffers.bytes .hostKeysPinned = g₁.buffers.bytes .hostKeysPinned := by
    rw [hdrains.2.2.host, hbuffers, hprepared.hostKeys]
  have hdigests := hprepared.digests (hsetup₁ ▸ hserved) (r.sizes) (salt_length_lt hvalid hsalt)
    hbuffers hqueue hdrains
  rw [← hkeys] at hdigests
  have hfinal : g₄.runner.lastUsedDeviceFinalHashes = true := by
    rw [hdrains.1, hlast, hlanes]
    rfl
  rw [wp_bind]
  refine wp_mono (onGpu_wp rfl (wp_mono (snapshotOutputs_wp hsalt hfinal hdigests)
    (fun _ _ h => h) fun _ _ h => h.elim)) ?_ fun _ _ h => hkeeps₄.trans h
  rintro current b₅ ⟨_, ⟨rfl, hgenuine⟩, rfl⟩
  rw [wp_bind, wp_check]
  refine ⟨?_, fun _ => hkeeps₄⟩
  rw [wp_bind, wp_update, wp_pure]
  exact ⟨⟨current, ⟨hkeeps₄.gpu, hkeeps₄.initialized, hkeeps₄.batchSize, hkeeps₄.segmentBlocks,
    hkeeps₄.cached, rfl⟩, hgenuine⟩, rfl, rfl⟩

end Calls

/-- The setup that is remembered is that of the runner, once it is ready. -/
structure CudaHashBackend.Inv (b : CudaHashBackend) : Prop where
  serves : b.initialized = true → ServesOnceReady b.gpu b.initializedBatchSize 2 0x13 1 1
    b.initializedSegmentBlocks
  sound : ∀ g, b.gpu = some g → g.Sound
  cached : decodeHexBytes b.cachedSaltHex = some b.cachedSaltBytes

def CudaHashBackend.resized (b : CudaHashBackend) (r : WaveRequest) : Prop :=
  b.initialized = true ∧ ¬(b.initializedBatchSize = r.attempts ∧
    b.initializedSegmentBlocks = r.params.segmentBlocks)

def CudaHashBackend.found (b : CudaHashBackend) (hardwareThreads : ℕ) : List HashApi.Match :=
  (b.pending.elim {} fun slot => slot.finalizeSlot hardwareThreads).found

inductive CudaHashBackend.Outcome (hardwareThreads : ℕ) (r : WaveRequest) (b b' : CudaHashBackend)
    (result : HashApiResult) : Prop
  | rejected (hsame : b' = b) (hok : result.ok = false) (hfound : result.found = [])
  | failed (hpending : b'.pending = none) (hok : result.ok = false) (hfound : result.found = [])
  | wave (hok : result.ok = true) (hfound : result.found = b.found hardwareThreads)
      (hgenuine : ∀ slot, b'.pending = some slot → slot.Genuine r)

theorem CudaHashBackend.Outcome.genuine {hardwareThreads : ℕ} {r : WaveRequest}
    {b b' : CudaHashBackend} {result : HashApiResult} (h : b.Outcome hardwareThreads r b' result)
    (hok : result.ok = true) : ∀ slot, b'.pending = some slot → slot.Genuine r := by
  cases h with
  | rejected _ hnot | failed _ hnot => exact absurd (hok.symm.trans hnot) (by decide)
  | wave _ _ hgenuine => exact hgenuine

section Invariant
variable {b b' : CudaHashBackend} {r : WaveRequest}

theorem CudaHashBackend.Inv.empty : CudaHashBackend.Inv {} :=
  ⟨fun hinit => absurd hinit Bool.false_ne_true,
    fun g hg => absurd hg.symm (Option.some_ne_none g), rfl⟩

theorem CudaHashBackend.Inv.setPending (h : b.Inv) (current : Option PipelinedBatch) :
    CudaHashBackend.Inv { b with pending := current } := ⟨h.serves, h.sound, h.cached⟩

theorem CudaHashBackend.Inv.of_keeps (h : b.Inv) (hkeeps : b.Keeps b') : b'.Inv := by
  obtain ⟨g, g', hg, hg', hsetup⟩ := hkeeps.gpu
  have hevents : g'.runner.events = g.runner.events := congrArg Setup.events hsetup
  refine ⟨fun hinit => ?_, fun g₁ hg₁ => ?_, hkeeps.cached h.cached⟩
  · obtain ⟨g₁, hg₁, hserves⟩ := h.serves (hkeeps.initialized ▸ hinit)
    obtain rfl := Option.some.inj (hg₁.symm.trans hg)
    rw [hkeeps.batchSize, hkeeps.segmentBlocks]
    exact ⟨g', hg', fun hready => hsetup ▸ hserves (hready.trans_eq hevents)⟩
  · obtain rfl := Option.some.inj (hg₁.symm.trans hg')
    have hsound := h.sound g hg
    refine ⟨fun hready => (congrArg Setup.jobsPerBlock hsetup).trans_le
      (hsound.jobsPerBlock (hready.trans_eq hevents)), fun hready => ?_⟩
    have hallocated := hsound.allocated (hready.trans_eq hevents)
    rwa [show g.runner.segmentBlocks = g₁.runner.segmentBlocks from
        (congrArg Setup.segmentBlocks hsetup).symm,
      show g.runner.allocatedSegmentBlocks = g₁.runner.allocatedSegmentBlocks from
        (congrArg Setup.allocatedSegmentBlocks hsetup).symm] at hallocated

/-- A runner that fails to start is none that is ready, or none that is remembered. -/
theorem ensureInitialized_wp {streamsFail : Bool} (h : b.Inv)
    (hgranted : streamsFail = true → ¬b.resized r) : wp (ensureInitialized streamsFail r)
    (fun _ b' => b'.Inv ∧ b'.pending = b.pending ∧
      ServesOnceReady b'.gpu r.attempts 2 0x13 1 1 r.params.segmentBlocks)
    (fun _ b' => b'.Inv) b := by
  rw [ensureInitialized, wp_bind, wp_look, wp_ite]
  refine ⟨fun hsame => wp_pure.mpr ⟨h, rfl, ?_⟩, fun hnew => ?_⟩
  · obtain ⟨hinit, hbatch, hsegment⟩ := hsame
    have hserves := h.serves hinit
    rwa [hbatch, hsegment] at hserves
  · rw [wp_bind, wp_focus]
    refine wp_mono (CudaBackend.init_wp h.sound _ _ _ _ _ _ _) (fun _ q hq => ?_) fun _ q hq => ?_
    · rw [wp_update]
      refine ⟨⟨fun _ => hq, ?_, h.cached⟩, rfl, hq⟩
      obtain ⟨g, rfl, hserves⟩ := hq
      rintro _ ⟨⟩
      exact ⟨fun hready => (hserves hready).jobsPerBlock, fun hready => (hserves hready).allocated⟩
    · obtain ⟨g, rfl, hfew | ⟨hfail, hserves⟩⟩ := hq
      · have hnever : ¬9 < g.runner.events := by omega
        refine ⟨fun _ => ⟨g, rfl, fun hready => absurd hready hnever⟩, ?_, h.cached⟩
        rintro _ ⟨⟩
        exact ⟨fun hready => absurd hready hnever, fun hready => absurd hready hnever⟩
      · -- the runner stays behind without its streams, but no sizes are remembered for it
        refine ⟨fun hinit => absurd ⟨hinit, fun hsame => hnew ⟨hinit, hsame⟩⟩ (hgranted hfail), ?_,
          h.cached⟩
        rintro _ ⟨⟩
        exact ⟨fun _ => hserves.jobsPerBlock, fun _ => hserves.allocated⟩

theorem runBatch_wp {streamsFail : Bool} (hardwareThreads : ℕ) (h : b.Inv)
    (hgranted : streamsFail = true → ¬b.resized r) :
    wp (CudaHashBackend.runBatch streamsFail hardwareThreads r)
      (fun result b' => b'.Inv ∧ b.Outcome hardwareThreads r b' result) (fun _ _ => False) b := by
  rw [CudaHashBackend.runBatch]
  simp only [wp_ite, wp_pure, wp_catching, wp_bind, wp_check, wp_update]
  refine ⟨fun _ => ⟨h, .rejected rfl rfl rfl⟩, fun herrors => ⟨fun _ => ⟨h, .rejected rfl rfl rfl⟩,
    fun _ => ⟨?_, fun e => ⟨h.setPending none, .failed rfl rfl rfl⟩⟩⟩⟩
  have hvalid : isValidRequest r.toRequest = true := by
    rw [isValidRequest, not_not.mp herrors]
    rfl
  refine wp_mono (ensureInitialized_wp h hgranted) ?_ fun e b' h' =>
    ⟨h'.setPending none, .failed rfl rfl rfl⟩
  rintro _ b₁ ⟨h₁, hpending, g, hg, hserves⟩
  refine wp_mono (fullWave_wp hardwareThreads hvalid hg h₁.cached hserves) ?_ fun e b' hkeeps =>
    ⟨((h₁.setPending none).of_keeps hkeeps).setPending none, .failed rfl rfl rfl⟩
  rintro result b₂ ⟨⟨current, hkeeps, hgenuine⟩, hok, hfound⟩
  refine ⟨(h₁.setPending current).of_keeps hkeeps, .wave hok ?_ fun slot hslot =>
    hgenuine slot (hkeeps.pending.symm.trans hslot)⟩
  rw [hfound, hpending]
  rfl

theorem drainPipeline_wp (hardwareThreads : ℕ) (h : b.Inv) :
    wp (CudaHashBackend.drainPipeline hardwareThreads)
      (fun result b' => b'.Inv ∧ b'.pending = none ∧ result.found = b.found hardwareThreads)
      (fun _ _ => False) b := by
  rw [CudaHashBackend.drainPipeline, wp_bind, wp_look]
  cases hslot : b.pending with
  | none =>
    rw [wp_pure, CudaHashBackend.found, hslot]
    exact ⟨h, rfl, rfl⟩
  | some slot =>
    rw [wp_bind, wp_update, wp_pure, CudaHashBackend.found, hslot]
    exact ⟨h.setPending none, rfl, rfl⟩

end Invariant

theorem bytesText_textBytes {s : Str} (h : isHexString s = true) : bytesText (textBytes s) = s := by
  have hall : ("0123456789abcdefABCDEF".toList.all fun c =>
      decide (Char.ofNat (BitVec.ofNat 8 c.toNat).toNat = c)) = true := by decide
  rw [bytesText, textBytes, List.map_map]
  refine (List.map_congr_left fun c hc => ?_).trans (List.map_id s)
  exact of_decide_eq_true
    (List.all_eq_true.mp hall c (mem_of_isXDigit (List.all_eq_true.mp h c hc)))

theorem isHexString_lower {s : Str} (h : isHexString s = true) : isHexString (lower s) = true := by
  have hall : ("0123456789abcdefABCDEF".toList.all fun c => isXDigit c.toLower) = true := by decide
  rw [isHexString, lower, List.all_map]
  exact List.all_eq_true.mpr fun c hc =>
    List.all_eq_true.mp hall c (mem_of_isXDigit (List.all_eq_true.mp h c hc))

theorem textBytes_bytesText (bytes : List Byte) : textBytes (bytesText bytes) = bytes := by
  have hbyte : ∀ b : Byte, BitVec.ofNat 8 (Char.ofNat b.toNat).toNat = b := by decide
  rw [textBytes, bytesText, List.map_map]
  exact List.map_id'' hbyte bytes

def HashApi.Match.Verifies (m : HashApi.Match) (r : WaveRequest) : Prop :=
  isHex64Key m.key = true ∧ (contains m.hash r.targetPattern = true ∨ containsXuni m.hash = true) ∧
    ∃ salt, decodeHexBytes (normalizeHex r.saltHex) = some salt ∧
      m.hash = base64Encode (((minerParams r.difficulty).hash
        ⟨textBytes m.key, salt, [], []⟩).map BitVec.toNat)

namespace PipelinedBatch
variable {slot : PipelinedBatch} {r : WaveRequest} {i : ℕ} {m : HashApi.Match}

theorem of_mem_matchesAt (hm : m ∈ slot.matchesAt i) : isHex64Key m.key = true ∧
    m.key = bytesText (slot.key i) ∧ m.hash = slot.b64 i ∧
      (contains m.hash slot.targetPattern = true ∨ containsXuni m.hash = true) := by
  rw [matchesAt] at hm
  split at hm
  next => cases hm
  next =>
    obtain ⟨hkey, ⟨hxen, rfl⟩ | ⟨hxuni, rfl⟩⟩ := of_mem_appendMatchesRaw hm
    · exact ⟨hkey, rfl, rfl, Or.inl hxen⟩
    · exact ⟨hkey, rfl, rfl, Or.inr hxuni⟩

theorem mem_matchesAt (hkey : isHex64Key (bytesText (slot.key i)) = true)
    (hpattern : slot.targetPattern ≠ [])
    (hhash : contains (slot.b64 i) slot.targetPattern = true) :
    ⟨bytesText (slot.key i), slot.b64 i, slot.targetPattern, i,
      HashApi.isSuperblockHash (slot.b64 i)⟩ ∈ slot.matchesAt i := by
  have hsome : slot.b64 i ≠ [] := List.length_pos_iff.mp
    (Nat.lt_of_lt_of_le (List.length_pos_iff.mpr hpattern) (HashApi.length_le_of_contains hhash))
  rw [matchesAt, if_neg hsome, HashApi.appendMatchesRaw, hkey, if_neg (by decide)]
  rw [← HashApi.containsPatternRaw_eq hpattern] at hhash
  simp only [hhash, if_true]
  exact List.mem_append_left _ (List.mem_singleton.mpr rfl)

theorem Genuine.b64 (h : slot.Genuine r) (hi : i < slot.attempts) :
    slot.b64 i = base64Encode ((slot.digest i).map BitVec.toNat) := by
  obtain ⟨hattempts, -, salt, -, hdigest⟩ := h
  refine (base64EncodeTo_digest ?_).1
  rw [hdigest i (hattempts ▸ hi)]
  exact Argon2.length_hashLong _ _

theorem Genuine.verifies {hardwareThreads : ℕ} (h : slot.Genuine r)
    (hm : m ∈ (slot.finalizeSlot hardwareThreads).found) : m.Verifies r := by
  rw [finalizeSlot_found] at hm
  obtain ⟨i, hi, hm⟩ := List.mem_flatMap.mp hm
  rw [List.mem_range] at hi
  obtain ⟨hkey, hbytes, hhash, hpattern⟩ := of_mem_matchesAt hm
  have hb64 := h.b64 hi
  obtain ⟨hattempts, htarget, salt, hsalt, hdigest⟩ := h
  refine ⟨hkey, htarget ▸ hpattern, salt, hsalt, ?_⟩
  rw [hhash, hb64, hdigest i (hattempts ▸ hi), hbytes, textBytes_bytesText]

end PipelinedBatch

theorem singleKey_hex {r : WaveRequest} (hvalid : isValidRequest r.toRequest = true)
    (hsingle : r.singleKey = true) : (normalizeHex r.key).length = kHashApiKeyLength ∧
      isHexString (normalizeHex r.key) = true ∧
        (textBytes (normalizeHex r.key)).length = kHashApiKeyLength := by
  have hkey : normalizeHex r.key ≠ [] := by simpa [WaveRequest.singleKey] using hsingle
  obtain ⟨hlength, hhex, -⟩ := (accepted_of_valid hvalid).key.resolve_left hkey
  refine ⟨hlength, hhex, ?_⟩
  rw [textBytes, List.length_map, hlength]

def HasKeys (r : WaveRequest) (b : Buffers) : Prop :=
  let keys := readBytes (b.bytes .hostKeysPinned) r.keyBytes
  isHexString (bytesText (keys.take kHashApiKeyLength)) = true ∧
    (r.singleKey = true → keys = textBytes (normalizeHex r.key))

theorem HasKeys.congr {r : WaveRequest} {b b' : Buffers} (h : HasKeys r b)
    (hb : b'.bytes .hostKeysPinned = b.bytes .hostKeysPinned) : HasKeys r b' := by
  rw [HasKeys, hb]
  exact h

theorem may_writeHostKeys_keys {r : WaveRequest} {bytes : List Byte} (g : Gpu)
    (hlength : bytes.length = r.keyBytes)
    (hhex : isHexString (bytesText (bytes.take kHashApiKeyLength)) = true)
    (hsingle : r.singleKey = true → bytes = textBytes (normalizeHex r.key)) :
    may (writeHostKeys bytes) (fun _ g' => g'.runner = g.runner ∧ HasKeys r g'.buffers) g := by
  refine may_mono (may_and_wp (may_writeHostKeys bytes g) (writeHostKeys_wp g bytes)) ?_
  rintro _ g' ⟨hrunner, -, hread⟩
  rw [hlength] at hread
  refine ⟨hrunner, ?_⟩
  rw [HasKeys, hread]
  exact ⟨hhex, hsingle⟩

theorem may_stageKeys {r : WaveRequest} (hvalid : isValidRequest r.toRequest = true)
    (hattempts : 0 < r.attempts) {nextKeys : List Byte} (hnext : nextKeys.length ≠ r.keyBytes)
    (g : Gpu) : may (stageKeys r nextKeys)
      (fun _ g' => g'.runner = g.runner ∧ HasKeys r g'.buffers) g := by
  simp only [stageKeys, keygenFillFlat, may_ite, may_bind, may_choose, may_check]
  refine ⟨fun hsingle => ?_, fun hmany => ⟨fun h => absurd h hnext, fun _ =>
    ⟨List.replicate r.keyBytes 0, by simp, ?_⟩⟩⟩
  · obtain ⟨hlength, hhex, hbytes⟩ := singleKey_hex hvalid hsingle
    refine ⟨fun h => absurd hlength h, fun _ => may_writeHostKeys_keys g ?_ ?_ fun _ => rfl⟩
    · rw [hbytes, WaveRequest.keyBytes, WaveRequest.attempts, if_pos hsingle, Nat.one_mul]
    · rw [List.take_of_length_le (Nat.le_of_eq hbytes), bytesText_textBytes hhex]
      exact hhex
  · let gen : RandomHexKeyGenerator (BitVec 32) :=
      ⟨lower (normalizeHex r.keyPrefix), kHashApiKeyLength, 0⟩
    obtain ⟨keys, hlength, hkeys⟩ : ∃ keys : List Str, keys.length = r.attempts ∧
        ∀ key ∈ keys, IsKey (lower (normalizeHex r.keyPrefix)) kHashApiKeyLength key :=
      ⟨_, gen.length_fillMany (fun g => (g, g)) r.attempts,
        fun _ hkey => RandomHexKeyGenerator.fillMany_isKey hkey⟩
    refine may_mono (may_writeHostKeys _ g) fun _ g₁ h₁ => ⟨keys, ⟨hlength, hkeys⟩, ?_⟩
    refine may_mono (may_writeHostKeys_keys (r := r) g₁ ?_ ?_ fun h => absurd h hmany) fun _ _ h =>
      ⟨h.1.trans h₁, h.2⟩
    · rw [textBytes, List.length_map, List.length_flatten, List.map_congr_left
        (fun key hkey => (hkeys key hkey).1), List.map_const', List.sum_replicate, hlength]
      rfl
    · obtain ⟨key, rest, rfl⟩ := List.exists_cons_of_length_pos (hlength ▸ hattempts)
      have hkey := hkeys key List.mem_cons_self
      have hhex := hkey.isHex64Key (isHexString_lower (accepted_of_valid hvalid).keyPrefix.2)
      rw [isHex64Key, Bool.and_eq_true] at hhex
      have htake : (textBytes (key :: rest).flatten).take kHashApiKeyLength = textBytes key := by
        rw [List.flatten_cons, textBytes, List.map_append]
        exact List.take_left' (by rw [List.length_map, hkey.1])
      rw [htake, bytesText_textBytes hhex.2]
      exact hhex.2

theorem may_onGpu {α : Type} {x : GpuProgram α} {b : CudaHashBackend} {g : Gpu}
    {R : α → CudaHashBackend → Prop} (hg : b.gpu = some g)
    (h : may x (fun a g' => R a { b with gpu := some g' }) g) : may (onGpu x) R b := by
  rw [onGpu, may_focus, hg, may_onSome]
  exact h

theorem may_ensureInitialized (r : WaveRequest) : may (ensureInitialized false r)
    (fun _ b' => ∃ g, b' = ⟨some g, true, r.attempts, r.params.segmentBlocks, none, [], [], []⟩ ∧
      g.runner.events = 10 ∧ g.runner.batchSize = r.attempts ∧
        ∀ name, g.runner.allocation name = {}) {} := by
  simp only [ensureInitialized, may_bind, may_look, may_ite]
  refine ⟨fun h => absurd h.1 Bool.false_ne_true, fun _ => ?_⟩
  simp only [may_focus, CudaBackend.init, newRunner, initRunner, may_bind, may_look, may_choose,
    may_update, may_onSome, may_check, may_ite, may_pure]
  refine ⟨⟨fun _ => .zero, fun _ _ => 0, fun _ => [], fun _ => .zero, fun _ => .zero, fun _ => []⟩,
    trivial, none, trivial, 10, le_refl 10, ?_⟩
  exact ⟨fun h => absurd h (by decide), fun _ => ⟨fun h => absurd h Bool.false_ne_true, fun _ =>
    ⟨_, rfl, rfl, rfl, fun _ => rfl⟩⟩⟩

theorem may_cacheSalt {r : WaveRequest} {b : CudaHashBackend} {salt : List Byte}
    (hsalt : decodeHexBytes (normalizeHex r.saltHex) = some salt)
    (hnew : b.cachedSaltHex ≠ normalizeHex r.saltHex) : may (cacheSalt r) (fun _ b' =>
      b' = { b with cachedSaltHex := normalizeHex r.saltHex, cachedSaltBytes := salt }) b := by
  rw [cacheSalt, may_bind, may_look, if_pos hnew, may_bind, may_update, hsalt, may_update]

theorem may_generateNext (r : WaveRequest) (b : CudaHashBackend) :
    may (generateNext r) (fun _ b' => b'.gpu = b.gpu) b := by
  simp only [generateNext, may_ite, may_bind, may_check, may_choose, may_update, may_pure,
    implies_true, and_true]
  exact fun _ => ⟨List.replicate r.keyBytes 0, List.length_replicate⟩

theorem may_snapshotOutputs {r : WaveRequest} {g : Gpu} (hbytes : 0 < r.keyBytes)
    (hkeys : HasKeys r g.buffers) : may (snapshotOutputs r) (fun current _ => ∃ slot,
      current = some slot ∧ slot.keyLength = kHashApiKeyLength ∧
        (r.singleKey = true → slot.keys = textBytes (normalizeHex r.key))) g := by
  simp only [snapshotOutputs, may_bind, may_look, may_ite, may_pure]
  refine ⟨fun h => ?_, fun _ => ⟨_, rfl, rfl, hkeys.2⟩⟩
  rcases h with h | h
  · exact absurd h (Nat.ne_of_gt hbytes)
  · exact absurd (hkeys.1.symm.trans h) (by decide)

/-- The first request is answered, and its slot has the keys. -/
theorem may_wave {r : WaveRequest} (hardwareThreads : ℕ)
    (hvalid : isValidRequest r.toRequest = true) (hbackend : r.backend = "cuda".toList) :
    may (CudaHashBackend.runBatch false hardwareThreads r) (fun result b => result.ok = true ∧
      ∃ slot, b.pending = some slot ∧ slot.keyLength = kHashApiKeyLength ∧
        (r.singleKey = true → slot.keys = textBytes (normalizeHex r.key))) {} := by
  have haccepted := accepted_of_valid hvalid
  have hattempts : 0 < r.attempts := by
    rw [WaveRequest.attempts]
    split
    next => exact Nat.one_pos
    next => exact haccepted.batchSize
  obtain ⟨salt, hsalt, -, -, hlong⟩ := salt_bytes hvalid
  have hnone : validateRequest r.toRequest = [] := List.isEmpty_iff.mp hvalid
  rw [CudaHashBackend.runBatch]
  simp only [hnone, hbackend, ne_eq, not_true, if_false]
  refine may_catching ?_
  rw [may_bind, may_check, may_bind]
  refine may_mono (may_ensureInitialized r) ?_
  rintro _ b ⟨g, rfl, hevents, hbatch, hfresh⟩
  have hbytes : 0 < r.keyBytes := Nat.mul_pos hattempts (by decide)
  have hnext : ([] : List Byte).length ≠ r.keyBytes := Nat.ne_of_lt hbytes
  have hsome : salt ≠ [] := List.length_pos_iff.mp (by omega)
  have hsaltHex : [] ≠ normalizeHex r.saltHex := fun h => by
    rw [← h] at hsalt
    exact hsome (Option.some.inj hsalt).symm
  rw [fullWave, may_bind, may_look, may_bind, may_update, may_bind, may_check, may_bind]
  rw [prepareWave, may_bind]
  refine may_onGpu rfl (may_mono (may_ensureHostKeyBuffer (hfresh _) hbytes) ?_)
  rintro _ g₁ ⟨rfl, hg₁⟩
  rw [if_pos rfl, may_bind, may_look, may_bind]
  refine may_onGpu rfl (may_mono (may_stageKeys hvalid hattempts hnext g₁) ?_)
  rintro _ g₂ ⟨hg₂, hkeys₂⟩
  rw [may_bind]
  refine may_mono (may_cacheSalt hsalt hsaltHex) ?_
  rintro _ _ rfl
  rw [may_bind, may_look, may_bind]
  have hrunner : g₂.runner = g.runner.setAllocation .hostKeysPinned ⟨true, r.keyBytes⟩ :=
    hg₂.trans hg₁
  have hprepare : may (prepareInputBlocksOnDeviceFlat kHashApiKeyLength salt r.params.outLen
      r.params.mCost r.params.tCost (BitVec.ofNat 32 r.params.version.code)
      (BitVec.ofNat 32 r.params.type.code) r.params.lanes)
      (fun ok g' => ok = true ∧ g'.runner.events = g₂.runner.events) g₂ := by
    have hkeys : g₂.runner.allocation .hostKeysPinned = ⟨true, r.keyBytes⟩ := by
      rw [hrunner]
      simp [KernelRunner.setAllocation]
    refine may_prepareInputBlocksOnDeviceFlat ?_ hkeys ?_ ?_ ?_ hsome (salt_length_lt hvalid hsalt)
    all_goals rw [hrunner]
    · exact hbatch ▸ hattempts
    · show 64 * g.runner.batchSize ≤ r.attempts * 64
      rw [hbatch, Nat.mul_comm]
    · simp [KernelRunner.setAllocation, hfresh]
    · simp [KernelRunner.setAllocation, hfresh]
  refine may_onGpu rfl (may_mono (may_and_wp hprepare
    (prepareInputBlocksOnDeviceFlat_wp g₂ _ _ _ _ _ _ _ _)) ?_)
  rintro _ g₃ ⟨⟨rfl, hg₃⟩, -, hprepared⟩
  have hkeys₃ := hkeys₂.congr (hprepared rfl).hostKeys
  have hready : 9 < g₃.runner.events := by
    rw [hg₃, hrunner]
    exact hevents ▸ Nat.lt_succ_self 9
  rw [if_pos rfl, may_pure, may_bind]
  refine may_onGpu rfl (may_mono (may_and_wp (may_runRunner hready) (runRunner_queue g₃))
    fun _ g₄ h₄ => ?_)
  rw [may_bind]
  refine may_mono (may_generateNext r _) fun _ b₁ hb₁ => ?_
  rw [may_bind]
  refine may_onGpu hb₁ (may_mono (may_and_wp (may_finish g₄) (finish_wp g₄)) fun _ g₅ h₅ => ?_)
  have hkeys₅ : HasKeys r g₅.buffers :=
    hkeys₃.congr (by rw [h₅.2.2.2.host, h₄.2.2.1])
  rw [may_bind]
  refine may_onGpu rfl (may_mono (may_snapshotOutputs hbytes hkeys₅) ?_)
  rintro current g₆ ⟨slot, rfl, hslot⟩
  rw [may_bind, may_check, may_bind, may_update, may_pure]
  exact ⟨rfl, slot, rfl, hslot⟩

def smallWave : WaveRequest where
  backend := "cuda".toList
  saltHex := "0123456789abcdef".toList
  difficulty := 8
  gpuFirstBlocks := true
  onDevice := rfl
  difficulty_ge := le_refl 8
  difficulty_lt := by decide
  batch_le := by decide
  salt_lt := by decide

theorem may_drainPipeline {b : CudaHashBackend} {slot : PipelinedBatch} (hardwareThreads : ℕ)
    (hslot : b.pending = some slot) : may (CudaHashBackend.drainPipeline hardwareThreads)
      (fun result _ => result = slot.finalizeSlot hardwareThreads) b := by
  rw [CudaHashBackend.drainPipeline, may_bind, may_look, hslot]
  rw [may_bind, may_update, may_pure]

inductive BackendAction
  | batch (r : WaveRequest) (streamsFail : Bool) (result : HashApiResult)
  | drain (result : HashApiResult)

def BackendAction.found (a : BackendAction) : List HashApi.Match :=
  match a with
  | .batch _ _ result | .drain result => result.found

def backendMachine (hardwareThreads : ℕ) : Machine CudaHashBackend BackendAction where
  init b := b = {}
  step b a b' := match a with
    | .batch r streamsFail result =>
      CudaHashBackend.runBatch streamsFail hardwareThreads r b b' (.ok result)
    | .drain result => CudaHashBackend.drainPipeline hardwareThreads b b' (.ok result)

/-- The driver refuses no stream when another runner takes the place of one in use. Where it does,
the new runner stays, with the sizes of the old one remembered for it. -/
def streamsGranted (b : CudaHashBackend) (a : BackendAction) : Prop :=
  ∀ r result, a = .batch r true result → ¬b.resized r

section Runs
variable {hardwareThreads : ℕ} {b b' : CudaHashBackend} {as : List BackendAction}
  {a : BackendAction}

theorem batch_step {r : WaveRequest} {streamsFail : Bool} {result : HashApiResult} (hinv : b.Inv)
    (hstep : ((backendMachine hardwareThreads).restrict streamsGranted).step b
      (.batch r streamsFail result) b') :
    b'.Inv ∧ b.Outcome hardwareThreads r b' result := by
  obtain ⟨hgranted, hstep⟩ := hstep
  dsimp only [backendMachine] at hstep
  have hend := wp_returns (runBatch_wp hardwareThreads hinv fun hfail =>
    hgranted r result (by rw [hfail])) hstep
  exact hend

theorem drain_step {result : HashApiResult} (hinv : b.Inv)
    (hstep : (backendMachine hardwareThreads).step b (.drain result) b') :
    b'.Inv ∧ b'.pending = none ∧ result.found = b.found hardwareThreads := by
  dsimp only [backendMachine] at hstep
  have hend := wp_returns (drainPipeline_wp hardwareThreads hinv) hstep
  exact hend

theorem backend_inv (h : ((backendMachine hardwareThreads).restrict streamsGranted).Reachable b) :
    b.Inv := by
  refine Machine.Reachable.invariant ?_ ?_ h
  · rintro _ rfl
    exact .empty
  · intro b a b' _ hb hstep
    cases a with
    | batch r streamsFail result => exact (batch_step hb hstep).1
    | drain result => exact (drain_step hb hstep.2).1

/-- A slot that waits is one of an earlier request. -/
theorem pending_genuine
    (h : ((backendMachine hardwareThreads).restrict streamsGranted).Run as b) :
    ∀ slot, b.pending = some slot →
      ∃ r streamsFail result, BackendAction.batch r streamsFail result ∈ as ∧ slot.Genuine r := by
  induction h with
  | start h =>
    rw [h]
    exact fun slot hslot => absurd hslot.symm (Option.some_ne_none slot)
  | @next as b b' a hr hs ih =>
    have hearlier : ∀ slot, b.pending = some slot →
        ∃ r streamsFail result,
          BackendAction.batch r streamsFail result ∈ as ++ [a] ∧ slot.Genuine r := by
      intro slot hslot
      obtain ⟨r, streamsFail, result, hmem, hgenuine⟩ := ih slot hslot
      exact ⟨r, streamsFail, result, List.mem_append_left _ hmem, hgenuine⟩
    have hnone : b'.pending = none → ∀ slot, b'.pending = some slot →
        ∃ r streamsFail result,
          BackendAction.batch r streamsFail result ∈ as ++ [a] ∧ slot.Genuine r :=
      fun hnone slot hslot => absurd (hnone.symm.trans hslot).symm (Option.some_ne_none slot)
    have hinv := backend_inv ⟨as, hr⟩
    cases a with
    | batch r streamsFail result =>
      cases (batch_step hinv hs).2 with
      | rejected hsame => exact hsame ▸ hearlier
      | failed hpending => exact hnone hpending
      | wave _ _ hgenuine =>
        exact fun slot hslot => ⟨r, streamsFail, result,
          List.mem_append_right _ (List.mem_singleton.mpr rfl), hgenuine slot hslot⟩
    | drain result => exact hnone (drain_step hinv hs.2).2.1

theorem found_subset (hinv : b.Inv)
    (hstep : ((backendMachine hardwareThreads).restrict streamsGranted).step b a b') :
    a.found ⊆ b.found hardwareThreads := by
  cases a with
  | batch r streamsFail result =>
    have hfound : ∀ {ms : List HashApi.Match}, result.found = [] → result.found ⊆ ms := fun h =>
      h ▸ List.nil_subset _
    cases (batch_step hinv hstep).2 with
    | rejected _ _ h | failed _ _ h => exact hfound h
    | wave _ h => exact fun _ hm => h ▸ hm
  | drain result =>
    exact fun _ hm => (drain_step hinv hstep.2).2.2 ▸ hm

/-- However requests follow on each other, whatever the driver refuses in between but the streams of
a runner that replaces another, and however many threads search: each match that a call returns is
the tag of its key under an earlier request. -/
theorem found_verifies (h : ((backendMachine hardwareThreads).restrict streamsGranted).Run as b)
    (hstep : ((backendMachine hardwareThreads).restrict streamsGranted).step b a b') :
    ∀ m ∈ a.found, ∃ r streamsFail result,
      BackendAction.batch r streamsFail result ∈ as ∧ m.Verifies r := by
  intro m hm
  have hm := found_subset (backend_inv ⟨as, h⟩) hstep hm
  rw [CudaHashBackend.found] at hm
  cases hslot : b.pending with
  | none =>
    rw [hslot] at hm
    exact absurd hm List.not_mem_nil
  | some slot =>
    rw [hslot] at hm
    obtain ⟨r, streamsFail, result, hmem, hgenuine⟩ := pending_genuine h slot hslot
    exact ⟨r, streamsFail, result, hmem, hgenuine.verifies hm⟩

theorem streamsGranted_batch {r : WaveRequest} {result : HashApiResult} :
    streamsGranted b (.batch r false result) := by
  rintro _ _ ⟨⟩

/-- Where the driver refuses nothing, a key whose digest has the pattern is found. -/
theorem single_key_kept {r : WaveRequest} (hardwareThreads : ℕ)
    (hvalid : isValidRequest r.toRequest = true) (hbackend : r.backend = "cuda".toList)
    (hsingle : r.singleKey = true)
    (hhash : ∀ salt, decodeHexBytes (normalizeHex r.saltHex) = some salt →
      contains (base64Encode (((minerParams r.difficulty).hash
        ⟨textBytes (normalizeHex r.key), salt, [], []⟩).map BitVec.toNat)) r.targetPattern = true) :
    ∃ as b slot, ((backendMachine hardwareThreads).restrict streamsGranted).Run as b ∧
      b.pending = some slot ∧ slot.Genuine r ∧
        (slot.finalizeSlot hardwareThreads).found ≠ [] := by
  have hstart : ((backendMachine hardwareThreads).restrict streamsGranted).Run [] {} := .start rfl
  obtain ⟨b, result, hrun, hok, slot, hslot, hlen, hkeys⟩ :=
    may_wave hardwareThreads hvalid hbackend
  have hstep : ((backendMachine hardwareThreads).restrict streamsGranted).step {}
      (.batch r false result) b := by
    refine ⟨streamsGranted_batch, ?_⟩
    dsimp only [backendMachine]
    exact hrun
  have hgenuine := (batch_step (backend_inv ⟨[], hstart⟩) hstep).2.genuine hok slot hslot
  refine ⟨_, b, slot, .next hstart hstep, hslot, hgenuine, ?_⟩
  obtain ⟨hlength, hhex, hbytes⟩ := singleKey_hex hvalid hsingle
  have hkey : slot.key 0 = textBytes (normalizeHex r.key) := by
    rw [PipelinedBatch.key, PipelinedBatch.keyLen, hlen, hkeys hsingle, if_pos (by decide), bytesAt,
      Nat.zero_mul, List.drop_zero]
    exact List.take_of_length_le (Nat.le_of_eq hbytes)
  have hattempts : slot.attempts = 1 := by
    rw [hgenuine.1, WaveRequest.attempts, if_pos hsingle]
  have hfound : ∃ m, m ∈ slot.matchesAt 0 := by
    refine ⟨_, PipelinedBatch.mem_matchesAt ?_ ?_ ?_⟩
    · rw [hkey, bytesText_textBytes hhex, isHex64Key, Bool.and_eq_true]
      exact ⟨decide_eq_true hlength, hhex⟩
    · rw [hgenuine.2.1]
      exact (accepted_of_valid hvalid).targetPattern.1
    · rw [hgenuine.b64 (hattempts ▸ Nat.one_pos), hgenuine.2.1]
      obtain ⟨hsame, -, salt, hsalt, hdigest⟩ := hgenuine
      rw [hdigest 0 (hsame ▸ hattempts ▸ Nat.one_pos), hkey]
      exact hhash salt hsalt
  obtain ⟨m, hm⟩ := hfound
  rw [PipelinedBatch.finalizeSlot_found, hattempts]
  exact List.ne_nil_of_mem (List.mem_flatMap.mpr ⟨0, by simp, hm⟩)

def luckyWave (c : Char) : WaveRequest :=
  { smallWave with key := List.replicate 64 'a', targetPattern := [c] }

theorem luckyWave_valid (c : Char) : validateRequest (luckyWave c).toRequest = [] := by
  have hsame : validateRequest (luckyWave c).toRequest =
      validateRequest (luckyWave 'a').toRequest := rfl
  rw [hsame]
  decide

theorem luckyWave_key (c : Char) : normalizeHex (luckyWave c).key = List.replicate 64 'a' := by
  have hkey : (luckyWave c).key = List.replicate 64 'a' := rfl
  rw [hkey]
  decide

theorem base64Encode_digest_ne_nil {bytes : List Byte} (h : bytes.length = 64) :
    base64Encode (bytes.map BitVec.toNat) ≠ [] := by
  obtain ⟨hencode, hlength⟩ := HashApi.base64EncodeTo_digest h
  rw [hencode] at hlength
  exact List.length_pos_iff.mp (hlength ▸ Nat.succ_pos 85)

theorem lucky_kept : ∃ c as b slot,
    ((backendMachine 4).restrict streamsGranted).Run as b ∧ b.pending = some slot ∧
      slot.Genuine (luckyWave c) ∧ (slot.finalizeSlot 4).found ≠ [] := by
  have hsmall : isValidRequest smallWave.toRequest = true := by decide
  obtain ⟨salt, hsalt, -, -, -⟩ := salt_bytes hsmall
  have htag : ((minerParams 8).hash
      ⟨textBytes (List.replicate 64 'a'), salt, [], []⟩).length = 64 := Argon2.length_hashLong _ _
  obtain ⟨c, rest, hhash⟩ := List.exists_cons_of_ne_nil (base64Encode_digest_ne_nil htag)
  have hvalid : isValidRequest (luckyWave c).toRequest = true := by
    rw [isValidRequest, luckyWave_valid]
    rfl
  have hbackend : (luckyWave c).backend = "cuda".toList := rfl
  have hsingle : (luckyWave c).singleKey = true := by
    rw [WaveRequest.singleKey, luckyWave_key]
    decide
  refine ⟨c, single_key_kept 4 hvalid hbackend hsingle fun salt' hsalt' => ?_⟩
  obtain rfl := Option.some.inj (hsalt'.symm.trans hsalt)
  have htarget : (luckyWave c).targetPattern = [c] := rfl
  have hdifficulty : (luckyWave c).difficulty = 8 := rfl
  rw [luckyWave_key, hdifficulty, hhash, htarget, contains]
  simp

theorem found_verifies_lucky : ∃ as b a b' m,
    ((backendMachine 4).restrict streamsGranted).Run as b ∧
      ((backendMachine 4).restrict streamsGranted).step b a b' ∧ m ∈ a.found ∧
        ∃ r streamsFail result, BackendAction.batch r streamsFail result ∈ as ∧ m.Verifies r := by
  obtain ⟨c, as, b, slot, hrun, hslot, -, hfound⟩ := lucky_kept
  obtain ⟨b', _, hdrain, rfl⟩ := may_drainPipeline 4 hslot
  obtain ⟨m, hm⟩ := List.exists_mem_of_ne_nil _ hfound
  have hstep : ((backendMachine 4).restrict streamsGranted).step b
      (.drain (slot.finalizeSlot 4)) b' := by
    refine ⟨by rintro _ _ ⟨⟩, ?_⟩
    dsimp only [backendMachine]
    exact hdrain
  exact ⟨as, b, _, b', m, hrun, hstep, hm, found_verifies hrun hstep m hm⟩

def refusedResult : HashApiResult where
  error := "no device".toList
  algorithm := "argon2id-xen".toList
  backend := "cuda".toList
  batchSize := 1
  gpuFirstBlocks := true

theorem smallWave_refused (b : CudaHashBackend) :
    ((backendMachine hardwareThreads).restrict streamsGranted).step b
      (.batch smallWave false refusedResult) { b with pending := none } := by
  have hvalid : validateRequest smallWave.toRequest = [] := by decide
  refine ⟨streamsGranted_batch, ?_⟩
  dsimp only [backendMachine]
  rw [CudaHashBackend.runBatch]
  simp only [hvalid, ne_eq, not_true, if_false]
  exact Or.inr ⟨b, "no device".toList, Or.inl ⟨_, ⟨rfl, Or.inr ⟨_, rfl⟩⟩, rfl⟩,
    Or.inr ⟨_, (), ⟨rfl, rfl⟩, rfl, rfl⟩⟩

def Shows (found : List HashApi.Match) (ms : List HashApiMatch) : Prop :=
  found.map (fun m => (m.key, m.hash, m.matchedPattern)) =
    ms.map fun m => (m.key, m.hash, m.matchedPattern)

def PipelinedBatch.foundAt (slot : PipelinedBatch) : List Found :=
  (List.range slot.attempts).flatMap fun i => (slot.matchesAt i).map fun m =>
    ⟨m.key, (slot.digest i).map BitVec.toNat, m.matchedPattern⟩

theorem PipelinedBatch.Genuine.shows {slot : PipelinedBatch} {r : WaveRequest}
    (h : slot.Genuine r) (difficulty : ℕ) : Shows (slot.finalizeSlot hardwareThreads).found
      (slot.foundAt.map (Found.under difficulty)) := by
  rw [Shows, finalizeSlot_found, foundAt, List.map_flatMap, List.map_flatMap, List.map_flatMap]
  refine List.flatMap_congr fun i hi => ?_
  rw [List.map_map, List.map_map]
  refine List.map_congr_left fun m hm => ?_
  have hhash : m.hash = base64Encode ((slot.digest i).map BitVec.toNat) :=
    (of_mem_matchesAt hm).2.2.1.trans (h.b64 (List.mem_range.mp hi))
  rw [hhash]
  rfl

end Runs

end XnMiner

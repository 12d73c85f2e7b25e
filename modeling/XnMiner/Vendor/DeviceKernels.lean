import XnMiner.System.Grid
import XnMiner.Vendor.DeviceBlake2b

/-! # The kernels before and after the filling

One kernel computes the first two blocks of each job from its key, and another one the digest of
each job from its last block. Both have one thread for each job.
-/
namespace XnMiner
open LittleEndian Regions

/-- The object on the stack is not initialised. -/
def deviceDigestLong (blake : Blake2b) (outLen : ℕ) (input : List Byte) : List Byte :=
  deviceBlake.digestLong blake outLen input

def readBytes (pointer : ℕ → Byte) (length : ℕ) : List Byte := (List.range length).map pointer

def deviceInitialHash (blake : Blake2b) (password : ℕ → Byte) (passwordLen : Word32)
    (salt : ℕ → Byte) (saltLen outputLen memoryCost timeCost version type lanes : Word32) :
    List Byte :=
  let blake := deviceBlake2bInit blake 64
  let header := deviceStore32 lanes ++ deviceStore32 outputLen ++ deviceStore32 memoryCost ++
    deviceStore32 timeCost ++ deviceStore32 version ++ deviceStore32 type ++
      deviceStore32 passwordLen
  let blake := deviceBlake2bUpdate blake header
  let blake := deviceBlake2bUpdate blake (readBytes password passwordLen.toNat)
  let blake := deviceBlake2bUpdate blake (deviceStore32 saltLen)
  let blake := deviceBlake2bUpdate blake (readBytes salt saltLen.toNat)
  let blake := deviceBlake2bUpdate blake (deviceStore32 0)
  let blake := deviceBlake2bUpdate blake (deviceStore32 0)
  (deviceBlake2bFinal blake 64).1

theorem deviceStore32_eq (v : Word32) : deviceStore32 v = Argon2.LE32 v.toNat := store32_toNat v

theorem fitsDevice_of_short {piece : List Byte} (h : piece.length ≤ 64) : fitsDevice piece := by
  unfold fitsDevice
  omega

theorem deviceDigestLong_eq (blake : Blake2b) (outLen : ℕ) {input : List Byte}
    (h : fitsDevice input) : deviceDigestLong blake outLen input = Argon2.hashLong outLen input :=
  digestLong_eq deviceBlake_hashes (fun _ => fitsDevice_of_short) blake outLen h

/-- Neither a secret nor associated data, and the numbers of the header. -/
theorem deviceInitialHash_eq (blake : Blake2b) {c : Argon2.Params} {password salt : ℕ → Byte}
    {passwordLen saltLen outputLen memoryCost timeCost version type lanes : Word32}
    (hout : outputLen.toNat = c.T) (hmemory : memoryCost.toNat = c.m) (htime : timeCost.toNat = c.t)
    (hversion : version.toNat = c.v) (htype : type.toNat = c.kind.code) (hlanes : lanes.toNat = c.p)
    (hpassword : passwordLen.toNat + 128 < 2 ^ 32) (hsalt : saltLen.toNat + 128 < 2 ^ 32) :
    deviceInitialHash blake password passwordLen salt saltLen outputLen memoryCost timeCost version
      type lanes =
    c.H0 ⟨readBytes password passwordLen.toNat, readBytes salt saltLen.toNat, [], []⟩ := by
  have hzero : (0 : Word32).toNat = 0 := rfl
  have hlength : ∀ (pointer : ℕ → Byte) (n : ℕ), (readBytes pointer n).length = n := by
    intro pointer n
    rw [readBytes, List.length_map, List.length_range]
  have hhash : ∀ header p s : List Byte, header.length = 28 → fitsDevice p → fitsDevice s →
      (deviceBlake2bFinal ([header, p, deviceStore32 saltLen, s, deviceStore32 0,
        deviceStore32 0].foldl deviceBlake2bUpdate (deviceBlake2bInit blake 64)) 64).1 =
      Blake2.blake2b.hash 64 [header, p, deviceStore32 saltLen, s, deviceStore32 0,
        deviceStore32 0].flatten := by
    intro header p s hheader hp hs
    refine deviceBlake_hashes blake 64 _ (by decide) ?_
    intro piece hpiece
    simp only [List.mem_cons, List.not_mem_nil, or_false] at hpiece
    obtain rfl | rfl | rfl | rfl | rfl | rfl := hpiece
    · exact fitsDevice_of_short (by omega)
    · exact hp
    · exact fitsDevice_of_short (by simp [deviceStore32])
    · exact hs
    · exact fitsDevice_of_short (by simp [deviceStore32])
    · exact fitsDevice_of_short (by simp [deviceStore32])
  simp only [List.foldl_cons, List.foldl_nil] at hhash
  rw [deviceInitialHash, hhash _ _ _ (by simp [deviceStore32])
    (by rw [fitsDevice, hlength]; exact hpassword) (by rw [fitsDevice, hlength]; exact hsalt)]
  simp only [deviceStore32_eq, hzero, hout, hmemory, htime, hversion, htype, hlanes, hlength,
    Argon2.Params.H0, List.flatten_cons, List.flatten_nil, List.append_nil, List.append_assoc,
    List.length_nil]

def threadGrid (batchSize threadsPerBlock : ℕ) : ℕ :=
  (batchSize + threadsPerBlock - 1) / threadsPerBlock % 2 ^ 32

def threadJobId (blockIdx blockDim threadIdx : ℕ) : ℕ := (blockIdx * blockDim + threadIdx) % 2 ^ 64

section Threads
variable {σ V O : Type*} {batchSize threadsPerBlock : ℕ}

def threadPrograms (batchSize threadsPerBlock : ℕ) (exec : O → σ → (ℕ → V) → σ × (ℕ → V))
    (program : ℕ → List O) (start : ℕ → σ) :
    Programs (Fin (threadGrid batchSize threadsPerBlock) × Fin threadsPerBlock) σ ℕ V O where
  exec := exec
  program w :=
    let jobId := threadJobId w.1 threadsPerBlock w.2
    if batchSize ≤ jobId then [] else program jobId
  start w := start (threadJobId w.1 threadsPerBlock w.2)

theorem threadGrid_eq (hfits : batchSize + threadsPerBlock ≤ 2 ^ 32) :
    threadGrid batchSize threadsPerBlock =
      (batchSize + threadsPerBlock - 1) / threadsPerBlock := by
  have hle := Nat.div_le_self (batchSize + threadsPerBlock - 1) threadsPerBlock
  rw [threadGrid, Nat.mod_eq_of_lt (by omega)]

theorem le_threadGrid_mul (hpos : 0 < threadsPerBlock)
    (hfits : batchSize + threadsPerBlock ≤ 2 ^ 32) :
    batchSize ≤ threadGrid batchSize threadsPerBlock * threadsPerBlock := by
  rw [threadGrid_eq hfits]
  exact le_ceil_mul _ hpos

theorem threadPrograms_eq (hpos : 0 < threadsPerBlock)
    (hfits : batchSize + threadsPerBlock ≤ 2 ^ 32) (exec : O → σ → (ℕ → V) → σ × (ℕ → V))
    (program : ℕ → List O) (start : ℕ → σ) :
    threadPrograms batchSize threadsPerBlock exec program start =
      grid (threadGrid batchSize threadsPerBlock) threadsPerBlock batchSize exec program start := by
  have hjob : ∀ w : Fin (threadGrid batchSize threadsPerBlock) × Fin threadsPerBlock,
      threadJobId w.1 threadsPerBlock w.2 = number w := by
    intro w
    have hlt := number_lt w
    have hle : threadGrid batchSize threadsPerBlock * threadsPerBlock ≤
        batchSize + threadsPerBlock - 1 := by
      rw [threadGrid_eq hfits]
      exact Nat.div_mul_le_self _ _
    exact Nat.mod_eq_of_lt (by rw [← number]; omega)
  simp only [threadPrograms, grid, hjob]

end Threads

structure FirstBlocksLaunch where
  keyLength : Word32
  saltLength : Word32
  outputLength : Word32
  memoryCost : Word32
  timeCost : Word32
  version : Word32
  type : Word32
  lanes : Word32
  segmentBlocks : Word32
  batchSize : ℕ

/-- A thread after it has computed `init_hash`. -/
structure FirstBlocksThread where
  /-- What the objects on its stack hold. -/
  stack : ℕ → Blake2b
  output : ℕ
  initHash : List Byte

namespace FirstBlocksLaunch
variable (k : FirstBlocksLaunch)

def laneBlocks : ℕ := (4 * k.segmentBlocks).toNat

def exec (j : ℕ) (s : FirstBlocksThread) (memory : ℕ → Argon2.Block) :
    FirstBlocksThread × (ℕ → Argon2.Block) :=
  let initHash := s.initHash ++ deviceStore32 (BitVec.ofNat 32 j) ++ deviceStore32 0
  (s, Function.update memory (s.output + j)
    (Argon2.Block.ofBytes (deviceDigestLong (s.stack j) 1024 initHash)))

variable (keys salt : ℕ → Byte)

def start (stack : ℕ → ℕ → Blake2b) (jobId : ℕ) : FirstBlocksThread where
  stack := stack jobId
  output := jobId * k.laneBlocks
  initHash := deviceInitialHash (stack jobId 2) (fun i => keys (jobId * k.keyLength.toNat + i))
    k.keyLength salt k.saltLength k.outputLength k.memoryCost k.timeCost k.version k.type k.lanes

def programs (stack : ℕ → ℕ → Blake2b) :
    Programs (Fin (threadGrid k.batchSize 256) × Fin 256) FirstBlocksThread ℕ Argon2.Block ℕ :=
  threadPrograms k.batchSize 256 exec (fun _ => [0, 1]) (k.start keys salt stack)

def key (jobId : ℕ) : List Byte :=
  readBytes (fun i => keys (jobId * k.keyLength.toNat + i)) k.keyLength.toNat

/-- The sizes for which no index and no length wraps around. -/
structure Fits (k : FirstBlocksLaunch) : Prop where
  batch_lt : k.batchSize + 256 ≤ 2 ^ 32
  lane_lt : 4 * k.segmentBlocks.toNat < 2 ^ 32
  segment_pos : 0 < k.segmentBlocks.toNat
  key_lt : k.keyLength.toNat + 128 < 2 ^ 32
  salt_lt : k.saltLength.toNat + 128 < 2 ^ 32

structure Hashes (k : FirstBlocksLaunch) (c : Argon2.Params) : Prop where
  outputLength : k.outputLength.toNat = c.T
  memoryCost : k.memoryCost.toNat = c.m
  timeCost : k.timeCost.toNat = c.t
  version : k.version.toNat = c.v
  type : k.type.toNat = c.kind.code
  lanes : k.lanes.toNat = c.p

variable {k} {c : Argon2.Params} {keys salt : ℕ → Byte}

theorem Fits.laneBlocks (h : k.Fits) : k.laneBlocks = 4 * k.segmentBlocks.toNat := by
  rw [FirstBlocksLaunch.laneBlocks, BitVec.toNat_mul]
  exact Nat.mod_eq_of_lt h.lane_lt

theorem Fits.initHash (h : k.Fits) (hc : k.Hashes c) (keys salt : ℕ → Byte)
    (stack : ℕ → ℕ → Blake2b) (job : ℕ) : (k.start keys salt stack job).initHash =
      c.H0 ⟨k.key keys job, readBytes salt k.saltLength.toNat, [], []⟩ := by
  rw [start, key, ← deviceInitialHash_eq (stack job 2) hc.outputLength hc.memoryCost hc.timeCost
    hc.version hc.type hc.lanes h.key_lt h.salt_lt]

theorem fits_seed {h0 : List Byte} (h : h0.length = 64) (j : ℕ) :
    fitsDevice (h0 ++ Argon2.LE32 j ++ Argon2.LE32 0) := by
  simp only [fitsDevice, List.length_append, h, Argon2.LE32, length_bytes]
  decide

/-- What a thread has computed at its start stays on its stack. -/
theorem foldl_exec_fst (ops : List ℕ) (s : FirstBlocksThread × (ℕ → Argon2.Block)) :
    (ops.foldl (fun s op => exec op s.1 s.2) s).1 = s.1 := by
  induction ops generalizing s with
  | nil => rfl
  | cons op ops ih => rw [List.foldl_cons, ih, exec]

theorem exec_keepsTo {job j : ℕ} {s : FirstBlocksThread} (hj : j < k.laneBlocks)
    (houtput : s.output = job * k.laneBlocks) (memory : ℕ → Argon2.Block) :
    KeepsTo exec (slice k.laneBlocks job) j s memory where
  state _ _ := rfl
  inside m hm a ha := by
    simp only [exec, Function.update_apply, hm a ha]
  outside m _ a ha := by
    refine Function.update_of_ne ?_ _ _
    rintro rfl
    exact ha (houtput ▸ mem_slice hj)

/-- However the threads run, each job gets the first two blocks of its key and the salt. -/
theorem fills_firstBlocks (h : k.Fits) (hc : k.Hashes c) {stack : ℕ → ℕ → Blake2b}
    {memory memory' : ℕ → Argon2.Block} (hend : (k.programs keys salt stack).Ends memory memory') :
    (∀ job < k.batchSize, ∀ j < 2, memory' (job * k.laneBlocks + j) =
      Argon2.firstBlock (c.H0 ⟨k.key keys job, readBytes salt k.saltLength.toNat, [], []⟩) 0 j) ∧
    ∀ a, k.batchSize * k.laneBlocks ≤ a → memory' a = memory a := by
  have hlane := h.laneBlocks
  have hpos := h.segment_pos
  rw [programs, threadPrograms_eq (by decide) h.batch_lt] at hend
  have hkeeps : KeepsToSlices k.laneBlocks k.batchSize exec (fun _ => [0, 1])
      (k.start keys salt stack) memory := by
    intro job _ ops j rest hprogram
    have hmem : j ∈ ops ++ j :: rest := List.mem_append_right _ List.mem_cons_self
    rw [← hprogram, List.mem_cons, List.mem_singleton] at hmem
    refine exec_keepsTo (by omega) ?_ _
    rw [foldl_exec_fst]
    rfl
  obtain ⟨hslices, hbehind⟩ := grid_ends (le_threadGrid_mul (by decide) h.batch_lt) hkeeps hend
  refine ⟨fun job hjob j hj => ?_, hbehind⟩
  rw [hslices job hjob _ (mem_slice (by omega))]
  have hseed := h.initHash hc keys salt stack job
  obtain ⟨thread, hthread⟩ : ∃ thread, thread = k.start keys salt stack job := ⟨_, rfl⟩
  have houtput : thread.output = job * k.laneBlocks := by rw [hthread, start]
  rw [← hthread] at hseed
  have hlength : thread.initHash.length = 64 := by
    rw [hseed]
    exact Blake2.blake2b.length_hash (by decide) _
  have hblock : ∀ i < 2, Argon2.Block.ofBytes (deviceDigestLong (thread.stack i) 1024
      (thread.initHash ++ deviceStore32 (BitVec.ofNat 32 i) ++ deviceStore32 0)) =
        Argon2.firstBlock thread.initHash 0 i := by
    intro i hi
    have hi32 : deviceStore32 (BitVec.ofNat 32 i) = Argon2.LE32 i := by
      rw [deviceStore32_eq, BitVec.toNat_ofNat, Nat.mod_eq_of_lt (by omega)]
    have hzero : deviceStore32 0 = Argon2.LE32 0 := deviceStore32_eq 0
    rw [hi32, hzero, deviceDigestLong_eq _ _ (fits_seed hlength i), Argon2.firstBlock]
  have h0 := hblock 0 (by decide)
  have h1 := hblock 1 (by decide)
  simp only [← hseed, ← hthread, List.foldl_cons, List.foldl_nil, exec, h0, h1, houtput]
  interval_cases j
  · rw [Function.update_of_ne (by omega), Function.update_self]
  · rw [Function.update_self]

end FirstBlocksLaunch

structure FinalizeLaunch where
  segmentBlocks : Word32
  batchSize : ℕ

namespace FinalizeLaunch
variable (k : FinalizeLaunch)

def blocksPerJob : ℕ := 4 * k.segmentBlocks.toNat

def exec (memory : ℕ → Argon2.Block) (blake : Blake2b) (jobId : ℕ) (hashes : ℕ → List Byte) :
    ℕ × (ℕ → List Byte) :=
  let finalBlock := memory (jobId * k.blocksPerJob + (k.blocksPerJob - 1))
  (jobId, Function.update hashes jobId (deviceDigestLong blake 64 finalBlock.toBytes))

def programs (stack : ℕ → Blake2b) (memory : ℕ → Argon2.Block) :
    Programs (Fin (threadGrid k.batchSize 128) × Fin 128) ℕ ℕ (List Byte) Blake2b :=
  threadPrograms k.batchSize 128 (k.exec memory) (fun jobId => [stack jobId]) id

variable {k}

/-- However the threads run, each job gets the digest of its last block. -/
theorem fills_digests (hbatch : k.batchSize + 128 ≤ 2 ^ 32) {stack : ℕ → Blake2b}
    {memory : ℕ → Argon2.Block} {hashes hashes' : ℕ → List Byte}
    (hend : (k.programs stack memory).Ends hashes hashes') :
    (∀ job < k.batchSize, hashes' job =
      Argon2.hashLong 64 (memory (job * k.blocksPerJob + (k.blocksPerJob - 1))).toBytes) ∧
    ∀ job, k.batchSize ≤ job → hashes' job = hashes job := by
  rw [programs, threadPrograms_eq (by decide) hbatch] at hend
  have hkeeps : KeepsToSlices 1 k.batchSize (k.exec memory) (fun jobId => [stack jobId]) id
      hashes := by
    intro job _ ops blake rest hprogram
    have hops : ops = [] := by
      rcases List.append_eq_singleton_iff.mp hprogram.symm with ⟨hnil, -⟩ | ⟨-, hnone⟩
      · exact hnil
      · exact absurd hnone (List.cons_ne_nil _ _)
    subst hops
    refine ⟨fun _ _ => rfl, fun m hm a ha => ?_, fun m _ a ha => ?_⟩
    · simp only [exec, List.foldl_nil, Function.update_apply, hm a ha]
    · refine Function.update_of_ne ?_ _ _
      rintro rfl
      exact ha ⟨by simp, by simp⟩
  obtain ⟨hslices, hbehind⟩ := grid_ends (le_threadGrid_mul (by decide) hbatch) hkeeps hend
  refine ⟨fun job hjob => ?_, fun job hjob => hbehind job (by omega)⟩
  rw [hslices job hjob job ⟨by omega, by omega⟩]
  have hblock : fitsDevice
      (memory (job * k.blocksPerJob + (k.blocksPerJob - 1))).toBytes := by
    simp only [fitsDevice, Argon2.Block.toBytes, length_ofWords, Vector.length_toList]
    decide
  rw [← deviceDigestLong_eq (stack job) 64 hblock]
  simp only [List.foldl_cons, List.foldl_nil, exec, id, Function.update_self]

end FinalizeLaunch

end XnMiner

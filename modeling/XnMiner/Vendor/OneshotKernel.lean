import XnMiner.Vendor.WarpBlock

/-! # The kernel that fills the memory of a job

A warp fills the blocks of its job one after the other. In the first two slices the references
come from address blocks that the warp computes too; in the last two slices they come from the
block before.
-/
namespace XnMiner
open Warp

structure BlockL where
  lo : Vector Word32 128
  hi : Vector Word32 128

def blockLStore (_dst : BlockL) (src : Reg BlockTh) : BlockL where
  lo := Vector.ofFn fun i => u64Lo ((src[i.val % 32]).get ⟨i / 32, by omega⟩)
  hi := Vector.ofFn fun i => u64Hi ((src[i.val % 32]).get ⟨i / 32, by omega⟩)

def blockLLoadXor (dst : Reg BlockTh) (src : BlockL) : Reg BlockTh :=
  Vector.ofFn fun t =>
    { a := (dst.get t).a ^^^ u64Build src.hi[0 * 32 + t.val] src.lo[0 * 32 + t.val]
      b := (dst.get t).b ^^^ u64Build src.hi[1 * 32 + t.val] src.lo[1 * 32 + t.val]
      c := (dst.get t).c ^^^ u64Build src.hi[2 * 32 + t.val] src.lo[2 * 32 + t.val]
      d := (dst.get t).d ^^^ u64Build src.hi[3 * 32 + t.val] src.lo[3 * 32 + t.val] }

def loadBlock (src : Argon2.Block) : Reg BlockTh :=
  Vector.ofFn fun t =>
    ⟨src[0 * 32 + t.val], src[1 * 32 + t.val], src[2 * 32 + t.val], src[3 * 32 + t.val]⟩

def loadBlockXor (dst : Reg BlockTh) (src : Fin 32 → Argon2.Block) : Reg BlockTh :=
  Vector.ofFn fun t =>
    { a := (dst.get t).a ^^^ (src t)[0 * 32 + t.val]
      b := (dst.get t).b ^^^ (src t)[1 * 32 + t.val]
      c := (dst.get t).c ^^^ (src t)[2 * 32 + t.val]
      d := (dst.get t).d ^^^ (src t)[3 * 32 + t.val] }

def storeBlock (src : Reg BlockTh) : Argon2.Block :=
  Vector.ofFn fun i => (src[i.val % 32]).get ⟨i / 32, by omega⟩

def blockThGetUniform (b : BlockTh) (idx : ℕ) : Word :=
  match idx with
  | 0 => b.a
  | 1 => b.b
  | 2 => b.c
  | _ => b.d

/-- The registers of a warp, and its slot of the shared memory. Pointers are indices of blocks. -/
structure JobWarp where
  jobMem : ℕ
  memCurr : ℕ
  prev : Reg BlockTh
  addr : Reg BlockTh
  tmp : BlockL
  threadInput : Reg Word32

def nextAddresses1 (tmp : BlockL) (threadInput : Reg Word32) : Reg BlockTh × BlockL :=
  let addr : Reg BlockTh := threadInput.map fun x => ⟨u64Build 0 x, 0, 0, 0⟩
  let addr := shuffleBlock addr
  let addr : Reg BlockTh :=
    Vector.ofFn fun t => { addr.get t with a := (addr.get t).a ^^^ u64Build 0 (threadInput.get t) }
  let tmp := blockLStore tmp addr
  let addr := shuffleBlock addr
  (blockLLoadXor addr tmp, tmp)

def computeRefPos (segmentBlocks slice offset refIndex : Word32) : Word32 :=
  let refAreaSize := slice * segmentBlocks + offset - 1
  let index := mulHi refIndex refIndex
  refAreaSize - 1 - mulHi refAreaSize index

/-- Memory is read by the threads at their references, and written at `mem_curr`. -/
def argon2Core (w : JobWarp) (memory : ℕ → Argon2.Block) (refIndex : Reg Word32) :
    JobWarp × (ℕ → Argon2.Block) :=
  let prev := loadBlockXor w.prev fun t => memory (w.jobMem + (refIndex.get t).toNat)
  let tmp := blockLStore w.tmp prev
  let prev := shuffleBlock prev
  let prev := blockLLoadXor prev tmp
  ({ w with prev := prev, tmp := tmp },
    Function.update memory (w.jobMem + w.memCurr) (storeBlock prev))

/-- Every 128 blocks the sixth input counts on, and the next address block is computed. -/
def renewAddresses (addrIndex : ℕ) (w : JobWarp) : JobWarp :=
  if addrIndex = 0 then
    let threadInput : Reg Word32 := w.threadInput.mapIdx fun t x => if t = 6 then x + 1 else x
    let next := nextAddresses1 w.tmp threadInput
    { w with threadInput := threadInput, addr := next.1, tmp := next.2 }
  else w

def argon2StepIndexed (segmentBlocks : Word32) (slice offset : ℕ) (w : JobWarp)
    (memory : ℕ → Argon2.Block) : JobWarp × (ℕ → Argon2.Block) :=
  let addrIndex := offset % 128
  let w := renewAddresses addrIndex w
  let thr := addrIndex % 32
  let idx := addrIndex / 32
  let v := u64Shuffle (w.addr.map fun b => blockThGetUniform b idx) fun _ => thr
  let refIndex := v.map fun x =>
    computeRefPos segmentBlocks (BitVec.ofNat 32 slice) (BitVec.ofNat 32 offset) (u64Lo x)
  argon2Core w memory refIndex

def argon2StepDependent (segmentBlocks : Word32) (slice offset : ℕ) (w : JobWarp)
    (memory : ℕ → Argon2.Block) : JobWarp × (ℕ → Argon2.Block) :=
  let v := u64Shuffle (w.prev.map Quad.a) fun _ => 0
  let refIndex := v.map fun x =>
    computeRefPos segmentBlocks (BitVec.ofNat 32 slice) (BitVec.ofNat 32 offset) (u64Lo x)
  argon2Core w memory refIndex

inductive KernelOp
  | start
  | indexed (slice offset : ℕ)
  | secondSlice
  | dependent (slice offset : ℕ)

def KernelOp.exec (segmentBlocks : Word32) (op : KernelOp) (w : JobWarp)
    (memory : ℕ → Argon2.Block) : JobWarp × (ℕ → Argon2.Block) :=
  match op with
  | start =>
    let laneBlocks := 4 * segmentBlocks
    let threadInput : Reg Word32 := Vector.ofFn fun t =>
      (if t.val = 3 then laneBlocks else 0) + (if t.val = 4 then 1 else 0) +
        (if t.val = 5 then 2 else 0) + if t.val = 6 then 1 else 0
    let next := nextAddresses1 w.tmp threadInput
    ({ w with
        memCurr := 2
        prev := loadBlock (memory (w.jobMem + 1))
        addr := next.1
        tmp := next.2
        threadInput := threadInput }, memory)
  | indexed slice offset =>
    let next := argon2StepIndexed segmentBlocks slice offset w memory
    ({ next.1 with memCurr := next.1.memCurr + 1 }, next.2)
  | secondSlice =>
    ({ w with threadInput := w.threadInput.mapIdx fun t x =>
        if t = 2 then x + 1 else if t = 6 then 0 else x }, memory)
  | dependent slice offset =>
    let next := argon2StepDependent segmentBlocks slice offset w memory
    ({ next.1 with memCurr := next.1.memCurr + 1 }, next.2)

def oneshotProgram (segmentBlocks : ℕ) : List KernelOp :=
  [.start] ++ (List.range' 2 (segmentBlocks - 2)).map (.indexed 0) ++ [.secondSlice] ++
    (List.range segmentBlocks).map (.indexed 1) ++ (List.range segmentBlocks).map (.dependent 2) ++
      (List.range segmentBlocks).map (.dependent 3)

def runKernel (segmentBlocks : Word32) (ops : List KernelOp) (s : JobWarp × (ℕ → Argon2.Block)) :
    JobWarp × (ℕ → Argon2.Block) :=
  ops.foldl (fun s op => op.exec segmentBlocks s.1 s.2) s

theorem isBlockTh_loadBlock (b : Argon2.Block) : IsBlockTh (loadBlock b) b := by
  intro t k
  simp only [loadBlock, Fin.getElem_fin, Vector.getElem_ofFn]
  match k with
  | 0 | 1 | 2 | 3 => rfl

theorem isBlockTh_loadBlockXor {w : Reg BlockTh} {b c : Argon2.Block} (h : IsBlockTh w b)
    {src : Fin 32 → Argon2.Block} (hsrc : ∀ t, src t = c) :
    IsBlockTh (loadBlockXor w src) (b.xor c) := by
  intro t k
  rw [Argon2.Block.getElem_xor, ← h t k]
  simp only [loadBlockXor, Fin.getElem_fin, Vector.getElem_ofFn, hsrc]
  match k with
  | 0 | 1 | 2 | 3 => rfl

theorem storeBlock_eq {w : Reg BlockTh} {b : Argon2.Block} (h : IsBlockTh w b) :
    storeBlock w = b := by
  apply Vector.ext
  intro i hi
  have hword := h ⟨i % 32, by omega⟩ ⟨i / 32, by omega⟩
  rw [storeBlock, Vector.getElem_ofFn]
  refine hword.trans ?_
  congr 1
  simp only
  omega

/-- Both halves of each word come back from shared memory to the thread that stored them. -/
theorem isBlockTh_blockLLoadXor {v w : Reg BlockTh} {b c : Argon2.Block} (hv : IsBlockTh v b)
    (hw : IsBlockTh w c) (tmp : BlockL) :
    IsBlockTh (blockLLoadXor v (blockLStore tmp w)) (b.xor c) := by
  have hback : ∀ (t : Fin 32) (k : Fin 4) (hi : k.val * 32 + t.val < 128),
      u64Build (blockLStore tmp w).hi[k.val * 32 + t.val] (blockLStore tmp w).lo[k.val * 32 + t.val] =
        (w[t]).get k := by
    intro t k hi
    have hthread : (k.val * 32 + t.val) % 32 = t.val := by omega
    have hword : (k.val * 32 + t.val) / 32 = k.val := by omega
    simp only [blockLStore, Vector.getElem_ofFn, u64Build_eq, hthread, hword, Fin.eta,
      Fin.getElem_fin]
  intro t k
  rw [Argon2.Block.getElem_xor, ← hv t k, ← hw t k, ← hback t k (by omega)]
  simp only [blockLLoadXor, Fin.getElem_fin, Vector.getElem_ofFn]
  match k with
  | 0 | 1 | 2 | 3 => rfl

def inputBlock (threadInput : Reg Word32) : Argon2.Block :=
  Vector.ofFn fun i => if h : i.val < 32 then u64Build 0 threadInput[i.val] else 0

theorem isBlockTh_inputBlock (threadInput : Reg Word32) :
    IsBlockTh (threadInput.map fun x => ⟨u64Build 0 x, 0, 0, 0⟩) (inputBlock threadInput) := by
  intro t k
  simp only [Fin.getElem_fin, Vector.getElem_map, inputBlock, Vector.getElem_ofFn]
  match k with
  | 0 => simp [Quad.get]
  | 1 | 2 | 3 =>
    rw [dif_neg (by simp <;> omega)]
    rfl

theorem isBlockTh_xorInput {w : Reg BlockTh} {b : Argon2.Block} (h : IsBlockTh w b)
    (threadInput : Reg Word32) :
    IsBlockTh (Vector.ofFn fun t => { w.get t with a := (w.get t).a ^^^ u64Build 0 (threadInput.get t) })
      (b.xor (inputBlock threadInput)) := by
  intro t k
  rw [Argon2.Block.getElem_xor, ← h t k, ← isBlockTh_inputBlock threadInput t k]
  simp only [Fin.getElem_fin, Vector.getElem_map, Vector.getElem_ofFn]
  match k with
  | 0 => rfl
  | 1 | 2 | 3 => exact BitVec.xor_zero.symm

theorem nextAddresses1_eq (tmp : BlockL) (threadInput : Reg Word32) :
    IsBlockTh (nextAddresses1 tmp threadInput).1
      (Argon2.G Argon2.Block.zero (Argon2.G Argon2.Block.zero (inputBlock threadInput))) := by
  have hfirst := isBlockTh_xorInput (shuffleBlock_eq (isBlockTh_inputBlock threadInput)) threadInput
  have hsecond := isBlockTh_blockLLoadXor (shuffleBlock_eq hfirst) hfirst tmp
  simp only [Argon2.G, Argon2.Block.zero_xor]
  exact hsecond

/-- The arithmetic in 32 bits does not overflow where a block stands before the current one. -/
theorem computeRefPos_eq {segmentBlocks : Word32} {slice offset : ℕ}
    (hpos : 2 ≤ slice * segmentBlocks.toNat + offset)
    (hlt : slice * segmentBlocks.toNat + offset < 2 ^ 32) (refIndex : Word32) :
    (computeRefPos segmentBlocks (BitVec.ofNat 32 slice) (BitVec.ofNat 32 offset) refIndex).toNat =
      slice * segmentBlocks.toNat + offset - 2 - (slice * segmentBlocks.toNat + offset - 1) *
        (refIndex.toNat ^ 2 / 2 ^ 32) / 2 ^ 32 := by
  obtain ⟨column, hcolumn⟩ : ∃ n, n = slice * segmentBlocks.toNat + offset := ⟨_, rfl⟩
  have hsum : BitVec.ofNat 32 slice * segmentBlocks + BitVec.ofNat 32 offset =
      BitVec.ofNat 32 column := by
    rw [hcolumn, BitVec.ofNat_add, BitVec.ofNat_mul, BitVec.ofNat_toNat, BitVec.setWidth_eq]
  have harea : (BitVec.ofNat 32 column - 1).toNat = column - 1 := by
    rw [BitVec.toNat_sub, BitVec.toNat_ofNat, show (1 : Word32).toNat = 1 from rfl]
    omega
  obtain ⟨index, hindex⟩ : ∃ n, n = refIndex.toNat * refIndex.toNat / 2 ^ 32 := ⟨_, rfl⟩
  have hindexlt : index < 2 ^ 32 := by
    have := Nat.mul_lt_mul'' refIndex.isLt refIndex.isLt
    omega
  have hback : (column - 1) * index / 2 ^ 32 ≤ column - 2 := by
    have hmul : (column - 1) * index ≤ (column - 1) * (2 ^ 32 - 1) :=
      Nat.mul_le_mul_left _ (by omega)
    omega
  simp only [computeRefPos, hsum]
  rw [BitVec.toNat_sub, BitVec.toNat_sub, toNat_mulHi, toNat_mulHi, harea, ← hindex, pow_two,
    ← hindex, ← hcolumn, show (1 : Word32).toNat = 1 from rfl]
  omega

/-- The parameters the kernel is for: one lane, one pass, and sizes that 32 bits hold. -/
structure FilledBy (c : Argon2.Params) (segmentBlocks : Word32) : Prop where
  kind : c.kind = .id
  p : c.p = 1
  t : c.t = 1
  segment : c.segment = segmentBlocks.toNat
  laneBlocks_lt : 4 * segmentBlocks.toNat < 2 ^ 32

/-- The memory of the job agrees with the blocks filled so far, and the last of them is still in
the registers. -/
structure Follows (w : JobWarp) (memory : ℕ → Argon2.Block) (B : Argon2.Memory) (column : ℕ) :
    Prop where
  memCurr : w.memCurr = column
  memory : ∀ j < column, memory (w.jobMem + j) = B 0 j
  prev : IsBlockTh w.prev (B 0 (column - 1))

variable {c : Argon2.Params} {segmentBlocks : Word32} {w : JobWarp} {memory : ℕ → Argon2.Block}
  {B : Argon2.Memory} {column slice offset : ℕ}

theorem argon2Core_jobMem (refIndex : Reg Word32) :
    (argon2Core w memory refIndex).1.jobMem = w.jobMem := by simp only [argon2Core]

theorem argon2Core_memCurr (refIndex : Reg Word32) :
    (argon2Core w memory refIndex).1.memCurr = w.memCurr := by simp only [argon2Core]

theorem argon2Core_memory (refIndex : Reg Word32) :
    (argon2Core w memory refIndex).2 = Function.update memory (w.jobMem + w.memCurr)
      (storeBlock (argon2Core w memory refIndex).1.prev) := by simp only [argon2Core]

/-- All threads refer to one block before the current one. -/
theorem argon2Core_follows (h : Follows w memory B column) {refIndex : Reg Word32} {r : ℕ}
    (hr : ∀ t : Fin 32, (refIndex.get t).toNat = r) (hlt : r < column) :
    Follows { (argon2Core w memory refIndex).1 with
        memCurr := (argon2Core w memory refIndex).1.memCurr + 1 } (argon2Core w memory refIndex).2
      (Function.update B 0 (Function.update (B 0) column (Argon2.G (B 0 (column - 1)) (B 0 r))))
      (column + 1) := by
  have hxor : IsBlockTh (loadBlockXor w.prev fun t => memory (w.jobMem + (refIndex.get t).toNat))
      ((B 0 (column - 1)).xor (B 0 r)) := by
    apply isBlockTh_loadBlockXor h.prev
    intro t
    rw [hr, h.memory r hlt]
  have hprev : IsBlockTh (argon2Core w memory refIndex).1.prev
      (Argon2.G (B 0 (column - 1)) (B 0 r)) := by
    simp only [argon2Core]
    exact isBlockTh_blockLLoadXor (shuffleBlock_eq hxor) hxor w.tmp
  constructor
  case memCurr => rw [argon2Core_memCurr, h.memCurr]
  case memory =>
    intro j hj
    simp only [argon2Core_jobMem, argon2Core_memory, storeBlock_eq hprev, h.memCurr,
      Function.update_self]
    rcases Nat.lt_succ_iff_lt_or_eq.mp hj with hbefore | rfl
    · rw [Function.update_of_ne (by omega), Function.update_of_ne (by omega), h.memory j hbefore]
    · rw [Function.update_self, Function.update_self]
  case prev =>
    rw [Nat.add_sub_cancel, Function.update_self, Function.update_self]
    exact hprev

theorem toNat_u64Lo (x : Word) : (u64Lo x).toNat = x.toNat % 2 ^ 32 := BitVec.toNat_setWidth 32 x

/-- A step whose word of addresses is the RFC's. -/
theorem argon2Core_fillStep (hc : FilledBy c segmentBlocks)
    (hcolumn : slice * segmentBlocks.toNat + offset = column) (hpos : 2 ≤ column)
    (hlt : column < 4 * segmentBlocks.toNat) (h : Follows w memory B column) {v : Reg Word}
    (hv : ∀ t : Fin 32, v.get t = c.J B ⟨0, slice, 0, offset⟩) :
    let next := argon2Core w memory (v.map fun x =>
      computeRefPos segmentBlocks (BitVec.ofNat 32 slice) (BitVec.ofNat 32 offset) (u64Lo x))
    Follows { next.1 with memCurr := next.1.memCurr + 1 } next.2
      (c.fillStep B ⟨0, slice, 0, offset⟩) (column + 1) := by
  have hsmall := hc.laneBlocks_lt
  have hq : c.q = 4 * segmentBlocks.toNat := by rw [Argon2.Params.q, hc.segment]
  rw [Argon2.fillStep_oneLane hc.p B (by rw [hc.segment]; omega) (by rw [hc.segment]; omega),
    hc.segment, hcolumn]
  refine argon2Core_follows h ?_ (by omega)
  intro t
  rw [get_map, hv t,
    computeRefPos_eq (by omega) (by omega), toNat_u64Lo, hcolumn]

theorem dependent_follows (hc : FilledBy c segmentBlocks) (hslice : 2 ≤ slice)
    (hcolumn : slice * segmentBlocks.toNat + offset = column) (hpos : 2 ≤ column)
    (hlt : column < 4 * segmentBlocks.toNat) (h : Follows w memory B column) :
    let next := (KernelOp.dependent slice offset).exec segmentBlocks w memory
    Follows next.1 next.2 (c.fillStep B ⟨0, slice, 0, offset⟩) (column + 1) := by
  refine argon2Core_fillStep hc hcolumn hpos hlt h ?_
  intro t
  have hq : c.q = 4 * segmentBlocks.toNat := by rw [Argon2.Params.q, hc.segment]
  have hprevious : c.previous ⟨0, slice, 0, offset⟩ = column - 1 := by
    rw [Argon2.previous_eq (by rw [hc.segment]; omega) (by rw [hc.segment]; omega), hc.segment,
      hcolumn]
  have hdependent : c.dataIndependent ⟨0, slice, 0, offset⟩ = false := by
    simp [Argon2.Params.dataIndependent, hc.kind]
    omega
  rw [u64Shuffle_eq, Argon2.Params.J, hdependent, if_neg Bool.false_ne_true, hprevious,
    get_shfl, Vector.getElem_map]
  exact h.prev 0 0

def threadInputs (c : Argon2.Params) (slice counter : ℕ) : Reg Word32 :=
  Vector.ofFn fun t => match t.val with
    | 2 => BitVec.ofNat 32 slice
    | 3 => BitVec.ofNat 32 c.q
    | 4 => 1
    | 5 => 2
    | 6 => BitVec.ofNat 32 counter
    | _ => 0

theorem u64Build_ofNat {n : ℕ} (hn : n < 2 ^ 32) :
    u64Build 0 (BitVec.ofNat 32 n) = BitVec.ofNat 64 n := by
  apply BitVec.eq_of_toNat_eq
  rw [show u64Build 0 (BitVec.ofNat 32 n) = pack (BitVec.ofNat 32 n) 0 from rfl, toNat_pack,
    BitVec.toNat_ofNat, BitVec.toNat_ofNat, show (0 : Word32).toNat = 0 from rfl]
  omega

theorem inputBlock_threadInputs (hc : FilledBy c segmentBlocks) {counter : ℕ}
    (hslice : slice < 2 ^ 32) (hcounter : counter < 2 ^ 32) :
    inputBlock (threadInputs c slice counter) = c.addressInput ⟨0, slice, 0, offset⟩ counter := by
  have hq : c.q < 2 ^ 32 := by
    rw [Argon2.Params.q, hc.segment]
    exact hc.laneBlocks_lt
  apply Vector.ext
  intro i hi
  simp only [inputBlock, threadInputs, Argon2.Params.addressInput, Vector.getElem_ofFn]
  rcases Nat.lt_or_ge i 7 with hword | hzero
  · have hconst : u64Build 0#32 0#32 = 0#64 ∧ u64Build 0#32 1#32 = 1#64 ∧
        u64Build 0#32 2#32 = 2#64 := by decide
    have hbuild : ∀ n < 2 ^ 32, u64Build 0#32 (BitVec.ofNat 32 n) = BitVec.ofNat 64 n :=
      fun n hn => u64Build_ofNat hn
    have hm : c.p * c.q = c.q := by rw [hc.p, Nat.one_mul]
    rw [dif_pos (by omega)]
    interval_cases i <;>
      simp [hbuild slice hslice, hbuild counter hcounter, hbuild c.q hq, hconst, hm, hc.t, hc.kind,
        Argon2.Kind.code]
  · -- no case of the inputs but the last one
    split
    · split <;> first | omega | (split <;> first | omega | rfl)
    · split <;> first | omega | rfl

theorem threadInputs_succ (c : Argon2.Params) (slice counter : ℕ) :
    ((threadInputs c slice counter).mapIdx fun t x => if t = 6 then x + 1 else x) =
      threadInputs c slice (counter + 1) := by
  apply Vector.ext
  intro t ht
  simp only [threadInputs, Vector.getElem_mapIdx, Vector.getElem_ofFn]
  by_cases h6 : t = 6
  · subst h6
    exact (BitVec.ofNat_add counter 1).symm
  · rw [if_neg h6]
    split <;> first | rfl | exact absurd rfl h6

structure Addresses (c : Argon2.Params) (w : JobWarp) (slice offset : ℕ) : Prop where
  input : w.threadInput = threadInputs c slice ((offset + 127) / 128)
  addr : offset % 128 ≠ 0 →
    IsBlockTh w.addr (c.addressBlock ⟨0, slice, 0, offset⟩ ((offset + 127) / 128))

theorem nextAddresses1_threadInputs (hc : FilledBy c segmentBlocks) {counter : ℕ}
    (hslice : slice < 2 ^ 32) (hcounter : counter < 2 ^ 32) (tmp : BlockL) :
    IsBlockTh (nextAddresses1 tmp (threadInputs c slice counter)).1
      (c.addressBlock ⟨0, slice, 0, offset⟩ counter) := by
  rw [Argon2.Params.addressBlock, ← inputBlock_threadInputs hc hslice hcounter]
  exact nextAddresses1_eq tmp _

/-- The address block of a step is there when it is read. -/
theorem renewAddresses_addr (hc : FilledBy c segmentBlocks) (hslice : slice < 2 ^ 32)
    (hoffset : offset < 2 ^ 32) (h : Addresses c w slice offset) :
    IsBlockTh (renewAddresses (offset % 128) w).addr
      (c.addressBlock ⟨0, slice, 0, offset⟩ (offset / 128 + 1)) := by
  unfold renewAddresses
  split
  next hnew =>
    have hcounter : (offset + 127) / 128 = offset / 128 := by omega
    have hinput := threadInputs_succ c slice (offset / 128)
    rw [← hcounter, ← h.input, hcounter] at hinput
    simp only [hinput]
    exact nextAddresses1_threadInputs hc hslice (by omega) w.tmp
  next hold =>
    have hcounter : (offset + 127) / 128 = offset / 128 + 1 := by omega
    rw [← hcounter]
    exact h.addr hold

theorem renewAddresses_addresses (hc : FilledBy c segmentBlocks) (hslice : slice < 2 ^ 32)
    (hoffset : offset < 2 ^ 32) (h : Addresses c w slice offset) :
    Addresses c (renewAddresses (offset % 128) w) slice (offset + 1) := by
  have haddr := renewAddresses_addr hc hslice hoffset h
  have hnext : (offset + 1 + 127) / 128 = offset / 128 + 1 := by omega
  rw [← hnext] at haddr
  refine ⟨?_, fun _ => haddr⟩
  rw [hnext]
  unfold renewAddresses
  split
  next hnew =>
    have hcounter : (offset + 127) / 128 = offset / 128 := by omega
    simp only [h.input, hcounter, threadInputs_succ]
  next hold =>
    have hcounter : (offset + 127) / 128 = offset / 128 + 1 := by omega
    rw [h.input, hcounter]

theorem renewAddresses_follows (n : ℕ) (h : Follows w memory B column) :
    Follows (renewAddresses n w) memory B column := by
  unfold renewAddresses
  split
  next => exact ⟨h.memCurr, h.memory, h.prev⟩
  next => exact h

theorem blockThGetUniform_eq (b : BlockTh) (k : Fin 4) : blockThGetUniform b k.val = b.get k := by
  match k with
  | 0 | 1 | 2 | 3 => rfl

theorem indexed_follows (hc : FilledBy c segmentBlocks) (hslice : slice < 2)
    (hcolumn : slice * segmentBlocks.toNat + offset = column) (hpos : 2 ≤ column)
    (hlt : column < 4 * segmentBlocks.toNat) (h : Follows w memory B column)
    (ha : Addresses c w slice offset) :
    let next := (KernelOp.indexed slice offset).exec segmentBlocks w memory
    Follows next.1 next.2 (c.fillStep B ⟨0, slice, 0, offset⟩) (column + 1) ∧
      Addresses c next.1 slice (offset + 1) := by
  have hsmall := hc.laneBlocks_lt
  have hrenewed := renewAddresses_addresses hc (by omega) (by omega) ha
  constructor
  · refine argon2Core_fillStep hc hcolumn hpos hlt (renewAddresses_follows _ h) ?_
    intro t
    have hindependent : c.dataIndependent ⟨0, slice, 0, offset⟩ = true := by
      simp [Argon2.Params.dataIndependent, hc.kind, hslice]
    have haddr := renewAddresses_addr hc (by omega) (by omega) ha
      ⟨offset % 128 % 32, by omega⟩ ⟨offset % 128 / 32, by omega⟩
    have hindex : 32 * (offset % 128 / 32) + offset % 128 % 32 = offset % 128 := by omega
    rw [u64Shuffle_eq, Argon2.Params.J, hindependent, if_pos rfl, get_shfl, Vector.getElem_map]
    simp only [hindex, ← blockThGetUniform_eq, Fin.getElem_fin] at haddr
    simp only [Nat.mod_mod, haddr]
  · have hinput := hrenewed.input
    have haddr := hrenewed.addr
    simp only [KernelOp.exec, argon2StepIndexed, argon2Core]
    exact ⟨hinput, haddr⟩

theorem exec_jobMem (op : KernelOp) (w : JobWarp) (memory : ℕ → Argon2.Block) :
    (op.exec segmentBlocks w memory).1.jobMem = w.jobMem := by
  have hrenew : ∀ n, (renewAddresses n w).jobMem = w.jobMem := by
    intro n
    unfold renewAddresses
    split <;> rfl
  cases op with
  | start => rfl
  | indexed slice offset =>
    simp only [KernelOp.exec, argon2StepIndexed, argon2Core_jobMem, hrenew]
  | secondSlice => rfl
  | dependent slice offset => simp only [KernelOp.exec, argon2StepDependent, argon2Core_jobMem]

theorem runKernel_jobMem (segmentBlocks : Word32) (ops : List KernelOp)
    (s : JobWarp × (ℕ → Argon2.Block)) :
    (runKernel segmentBlocks ops s).1.jobMem = s.1.jobMem := by
  induction ops generalizing s with
  | nil => rfl
  | cons op ops ih => exact (ih _).trans (exec_jobMem op s.1 s.2)

theorem runKernel_append (ops ops' : List KernelOp) (s : JobWarp × (ℕ → Argon2.Block)) :
    runKernel segmentBlocks (ops ++ ops') s =
      runKernel segmentBlocks ops' (runKernel segmentBlocks ops s) :=
  List.foldl_append

theorem runKernel_cons (op : KernelOp) (ops : List KernelOp) (s : JobWarp × (ℕ → Argon2.Block)) :
    runKernel segmentBlocks (op :: ops) s =
      runKernel segmentBlocks ops (op.exec segmentBlocks s.1 s.2) :=
  rfl

theorem runKernel_singleton (op : KernelOp) (s : JobWarp × (ℕ → Argon2.Block)) :
    runKernel segmentBlocks [op] s = op.exec segmentBlocks s.1 s.2 :=
  rfl

/-- The loop over the blocks of one of the first two slices. -/
theorem indexed_run (hc : FilledBy c segmentBlocks) (hslice : slice < 2) {n : ℕ}
    {s : JobWarp × (ℕ → Argon2.Block)}
    (h : Follows s.1 s.2 B (slice * segmentBlocks.toNat + offset))
    (ha : Addresses c s.1 slice offset) (hpos : 2 ≤ slice * segmentBlocks.toNat + offset)
    (hlt : offset + n ≤ segmentBlocks.toNat) :
    let next := runKernel segmentBlocks ((List.range' offset n).map (.indexed slice)) s
    Follows next.1 next.2
        (((List.range' offset n).map (Argon2.Position.mk 0 slice 0)).foldl c.fillStep B)
        (slice * segmentBlocks.toNat + (offset + n)) ∧ Addresses c next.1 slice (offset + n) := by
  induction n generalizing s B offset with
  | zero => exact ⟨h, ha⟩
  | succ n ih =>
    have hbound : slice * segmentBlocks.toNat + offset < 4 * segmentBlocks.toNat := by
      interval_cases slice <;> omega
    obtain ⟨hstep, hnext⟩ := indexed_follows hc hslice rfl hpos hbound h ha
    have hrest := ih hstep hnext (by omega) (by omega)
    rw [show offset + 1 + n = offset + (n + 1) by omega] at hrest
    simpa only [List.range'_succ, List.map_cons, runKernel_cons, List.foldl_cons] using hrest

/-- The loop over the blocks of one of the last two slices. -/
theorem dependent_run (hc : FilledBy c segmentBlocks) (hslice : 2 ≤ slice) (hslice' : slice < 4)
    {n : ℕ} {s : JobWarp × (ℕ → Argon2.Block)}
    (h : Follows s.1 s.2 B (slice * segmentBlocks.toNat + offset))
    (hpos : 2 ≤ slice * segmentBlocks.toNat + offset) (hlt : offset + n ≤ segmentBlocks.toNat) :
    let next := runKernel segmentBlocks ((List.range' offset n).map (.dependent slice)) s
    Follows next.1 next.2
      (((List.range' offset n).map (Argon2.Position.mk 0 slice 0)).foldl c.fillStep B)
      (slice * segmentBlocks.toNat + (offset + n)) := by
  induction n generalizing s B offset with
  | zero => exact h
  | succ n ih =>
    have hbound : slice * segmentBlocks.toNat + offset < 4 * segmentBlocks.toNat := by
      interval_cases slice <;> omega
    have hstep := dependent_follows hc hslice rfl hpos hbound h
    have hrest := @ih _ (offset + 1) _ hstep (by omega) (by omega)
    rw [show offset + 1 + n = offset + (n + 1) by omega] at hrest
    simpa only [List.range'_succ, List.map_cons, runKernel_cons, List.foldl_cons] using hrest

theorem threadInputs_start (hc : FilledBy c segmentBlocks) :
    (Vector.ofFn fun t : Fin 32 => (if t.val = 3 then 4 * segmentBlocks else 0) +
      (if t.val = 4 then 1 else 0) + (if t.val = 5 then 2 else 0) + if t.val = 6 then 1 else 0) =
      threadInputs c 0 1 := by
  have hlane : BitVec.ofNat 32 c.q = 4 * segmentBlocks := by
    rw [Argon2.Params.q, hc.segment, BitVec.ofNat_mul, BitVec.ofNat_toNat, BitVec.setWidth_eq]
    rfl
  apply Vector.ext
  intro t ht
  simp only [threadInputs, Vector.getElem_ofFn, hlane]
  by_cases hinput : 2 ≤ t ∧ t ≤ 6
  · obtain ⟨hge, hle⟩ := hinput
    interval_cases t <;> simp
  · rw [if_neg (by omega), if_neg (by omega), if_neg (by omega), if_neg (by omega)]
    split <;> first | omega | rfl

theorem start_follows (hc : FilledBy c segmentBlocks)
    (h : ∀ j < 2, memory (w.jobMem + j) = B 0 j) :
    let next := KernelOp.start.exec segmentBlocks w memory
    Follows next.1 next.2 B 2 ∧ Addresses c next.1 0 2 := by
  have haddr : IsBlockTh (nextAddresses1 w.tmp (threadInputs c 0 1)).1
      (c.addressBlock ⟨0, 0, 0, 2⟩ 1) :=
    nextAddresses1_threadInputs hc (by decide) (by decide) w.tmp
  have hload := isBlockTh_loadBlock (memory (w.jobMem + 1))
  rw [h 1 (by decide)] at hload
  simp only [KernelOp.exec, threadInputs_start hc, h 1 (by decide)]
  exact ⟨⟨rfl, h, hload⟩, ⟨rfl, fun _ => haddr⟩⟩

theorem secondSlice_follows (segmentBlocks : Word32) (h : Follows w memory B column)
    (ha : Addresses c w 0 offset) :
    let next := KernelOp.secondSlice.exec segmentBlocks w memory
    Follows next.1 next.2 B column ∧ Addresses c next.1 1 0 := by
  refine ⟨⟨h.memCurr, h.memory, h.prev⟩, ?_, fun hne => absurd rfl hne⟩
  simp only [KernelOp.exec, ha.input]
  apply Vector.ext
  intro t ht
  simp only [threadInputs, Vector.getElem_mapIdx, Vector.getElem_ofFn]
  by_cases hinput : 2 ≤ t ∧ t ≤ 6
  · obtain ⟨hge, hle⟩ := hinput
    interval_cases t <;> rfl
  · rw [if_neg (by omega), if_neg (by omega)]
    split <;> first | omega | rfl

/-- From the first two blocks of a job the warp fills the memory of the job as Argon2id does,
whatever the registers and the memory held before. -/
theorem oneshot_eq (hc : FilledBy c segmentBlocks) (hsize : 2 ≤ segmentBlocks.toNat)
    {s : JobWarp × (ℕ → Argon2.Block)} (h : ∀ j < 2, s.2 (s.1.jobMem + j) = B 0 j) :
    ∀ j < 4 * segmentBlocks.toNat,
      (runKernel segmentBlocks (oneshotProgram segmentBlocks.toNat) s).2 (s.1.jobMem + j) =
        (c.positions.foldl c.fillStep B) 0 j := by
  obtain ⟨hfirst, haddr⟩ := start_follows hc h
  have hzero : 0 * segmentBlocks.toNat + 2 = 2 := by omega
  rw [← hzero] at hfirst
  obtain ⟨h0, ha0⟩ := indexed_run (n := segmentBlocks.toNat - 2) hc (by decide) hfirst haddr
    (by omega) (by omega)
  have hboundary : 0 * segmentBlocks.toNat + (2 + (segmentBlocks.toNat - 2)) =
      1 * segmentBlocks.toNat + 0 := by omega
  rw [hboundary] at h0
  obtain ⟨hf1, ha1⟩ := secondSlice_follows segmentBlocks h0 ha0
  obtain ⟨h1, -⟩ := indexed_run (n := segmentBlocks.toNat) hc (by decide) hf1 ha1 (by omega)
    (by omega)
  rw [show 1 * segmentBlocks.toNat + (0 + segmentBlocks.toNat) = 2 * segmentBlocks.toNat + 0 by
    omega] at h1
  have h2 := dependent_run (n := segmentBlocks.toNat) hc (by decide) (by decide) h1 (by omega)
    (by omega)
  rw [show 2 * segmentBlocks.toNat + (0 + segmentBlocks.toNat) = 3 * segmentBlocks.toNat + 0 by
    omega] at h2
  have h3 := dependent_run (n := segmentBlocks.toNat) hc (by decide) (by decide) h2 (by omega)
    (by omega)
  intro j hj
  have hlast := h3.memory j (by omega)
  have hjob := runKernel_jobMem segmentBlocks (oneshotProgram segmentBlocks.toNat) s
  simp only [oneshotProgram, runKernel_append, List.range_eq_range', runKernel_singleton] at hjob ⊢
  rw [← hjob, Argon2.positions_oneLane hc.p hc.t, hc.segment, List.foldl_append, List.foldl_append,
    List.foldl_append, List.range_eq_range']
  exact hlast

end XnMiner

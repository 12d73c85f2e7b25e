import XnMiner.Queue.Store
import XnMiner.Lists.SortedPrefix
import Mathlib.Data.Prod.Lex

/-! # The batch of a flush wave

Blocks are collected in bag order up to a cap, those before the cursor only when the
others do not fill it, and the batch is then sorted by type and id.
-/
namespace XnMiner
open TextCodec SortedPrefix

/-- Reject only strictly lower `m`, and XUNI outside the submit window. -/
def flushable (minute : ℕ) (netM defaultM : ℤ) (pb : PendingBlock) : Bool :=
  decide (netM ≤ hitM pb netM defaultM) && (readyToFlush minute pb.hit.blockType).1

def behindCursor (skipBeforeId : ℤ) (pb : PendingBlock) : Bool :=
  decide (0 < skipBeforeId) && decide (pb.id < skipBeforeId)

/-- The `take` lambda: a full destination and a block that may not be sent are passed over. -/
def takeBlock (ok : PendingBlock → Bool) (cap : ℕ) (dest : List PendingBlock) (pb : PendingBlock) :
    List PendingBlock :=
  if cap ≤ dest.length then dest
  else if ok pb then dest ++ [pb] else dest

/-- The loop over the bag, which stops when the preferred blocks fill the cap. -/
def collect (ok : PendingBlock → Bool) (cap : ℕ) (skipBeforeId : ℤ)
    (preferred wrapped : List PendingBlock) (blocks : List PendingBlock) :
    List PendingBlock × List PendingBlock :=
  match blocks with
  | [] => (preferred, wrapped)
  | pb :: rest =>
    if behindCursor skipBeforeId pb then
      let wrapped := takeBlock ok cap wrapped pb
      if cap ≤ preferred.length then (preferred, wrapped)
      else collect ok cap skipBeforeId preferred wrapped rest
    else
      let preferred := takeBlock ok cap preferred pb
      if cap ≤ preferred.length then (preferred, wrapped)
      else collect ok cap skipBeforeId preferred wrapped rest

/-- The loop over the wrapped blocks; it stops after the push that fills the cap. -/
def fillUp (cap : ℕ) (preferred wrapped : List PendingBlock) : List PendingBlock :=
  match wrapped with
  | [] => preferred
  | pb :: rest =>
    if cap ≤ preferred.length + 1 then preferred ++ [pb]
    else fillUp cap (preferred ++ [pb]) rest

def flushBefore (a b : PendingBlock) : Bool :=
  let pa := flushPriority a.hit.blockType
  let pb := flushPriority b.hit.blockType
  if pa ≠ pb then decide (pa < pb) else decide (a.id < b.id)

def sortBatch (blocks : List PendingBlock) : List PendingBlock :=
  blocks.insertionSort fun a b => flushBefore b a = false

def batchCap (b : BlockStore) (limit : ℤ) : ℕ := if 0 < limit then limit.toNat else b.pending.length

def listFlushBatch (b : BlockStore) (minute : ℕ) (netM defaultM limit skipBeforeId : ℤ) :
    List PendingBlock :=
  let cap := batchCap b limit
  let (preferred, wrapped) :=
    collect (flushable minute netM defaultM) cap skipBeforeId [] [] b.pending
  sortBatch (if preferred.length < cap then fillUp cap preferred wrapped else preferred)

theorem fillUp_eq {cap : ℕ} {preferred : List PendingBlock} (h : preferred.length < cap)
    (wrapped : List PendingBlock) : fillUp cap preferred wrapped =
      (preferred ++ wrapped).take cap := by
  induction wrapped generalizing preferred with
  | nil =>
    rw [fillUp, List.append_nil, List.take_of_length_le (by omega)]
  | cons pb rest ih =>
    rw [fillUp]
    split_ifs with hfull
    · have hlen : (preferred ++ [pb]).length = cap := by
        rw [List.length_append, List.length_singleton]
        omega
      rw [← List.singleton_append (l := rest), ← List.append_assoc, ← hlen, List.take_left]
    · rw [ih (by rw [List.length_append, List.length_singleton]; omega), List.append_assoc,
        List.singleton_append]

/-- More wrapped blocks than the cap make no difference. -/
theorem take_append_full {α : Type} {cap : ℕ} (xs : List α) {ys : List α} (h : cap ≤ ys.length)
    (zs : List α) : (xs ++ (ys ++ zs)).take cap = (xs ++ ys).take cap := by
  rw [← List.append_assoc, List.take_append_of_le_length]
  rw [List.length_append]
  omega

theorem take_full {α : Type} {cap : ℕ} {xs : List α} (hle : xs.length ≤ cap)
    (hge : cap ≤ xs.length) (ys : List α) : (xs ++ ys).take cap = xs := by
  obtain rfl : cap = xs.length := le_antisymm hge hle
  exact List.take_left

theorem length_takeBlock (ok : PendingBlock → Bool) {cap : ℕ} {dest : List PendingBlock}
    (h : dest.length ≤ cap) (pb : PendingBlock) : (takeBlock ok cap dest pb).length ≤ cap := by
  unfold takeBlock
  split_ifs
  · exact h
  · rw [List.length_append, List.length_singleton]
    omega
  · exact h

/-- Passing over a block that a full destination has no room for changes nothing. -/
theorem take_takeBlock (ok : PendingBlock → Bool) (cap : ℕ) (xs dest ys : List PendingBlock)
    (pb : PendingBlock) : (xs ++ (takeBlock ok cap dest pb ++ ys)).take cap =
      (xs ++ (dest ++ ((if ok pb then [pb] else []) ++ ys))).take cap := by
  unfold takeBlock
  split_ifs with hfull hok
  · rw [take_append_full xs hfull, take_append_full xs hfull]
  · rw [take_append_full xs hfull, take_append_full xs hfull]
  · rw [List.append_assoc]
  · rw [List.nil_append]

/-- What the two loops deliver: the blocks past the cursor, then the others, up to the cap. -/
theorem collect_eq (ok : PendingBlock → Bool) {cap : ℕ} (skipBeforeId : ℤ)
    (blocks : List PendingBlock) {preferred : List PendingBlock} (hp : preferred.length ≤ cap)
    (wrapped : List PendingBlock) :
    let r := collect ok cap skipBeforeId preferred wrapped blocks
    r.1.length ≤ cap ∧ (r.1 ++ r.2).take cap =
      ((preferred ++ (blocks.filter ok).filter fun pb => !behindCursor skipBeforeId pb) ++
        (wrapped ++ (blocks.filter ok).filter fun pb => behindCursor skipBeforeId pb)).take cap := by
  induction blocks generalizing preferred wrapped with
  | nil => simpa [collect] using hp
  | cons pb rest ih =>
    have hok : (pb :: rest).filter ok = (if ok pb then [pb] else []) ++ rest.filter ok := by
      rw [List.filter_cons]
      split_ifs <;> rfl
    simp only [collect, hok, List.filter_append]
    by_cases hbehind : behindCursor skipBeforeId pb = true
    · have hnone : (if ok pb then [pb] else []).filter (fun pb => !behindCursor skipBeforeId pb) =
          [] := by split_ifs <;> simp [hbehind]
      have hsome : (if ok pb then [pb] else []).filter (fun pb => behindCursor skipBeforeId pb) =
          if ok pb then [pb] else [] := by split_ifs <;> simp [hbehind]
      rw [if_pos hbehind, hnone, hsome, List.nil_append]
      by_cases hfull : cap ≤ preferred.length
      · rw [if_pos hfull]
        refine ⟨hp, ?_⟩
        rw [take_full hp hfull, List.append_assoc, take_full hp hfull]
      · rw [if_neg hfull]
        obtain ⟨hlen, htake⟩ := ih hp (takeBlock ok cap wrapped pb)
        exact ⟨hlen, htake.trans (take_takeBlock ok cap _ wrapped _ pb)⟩
    · have hnone : (if ok pb then [pb] else []).filter (fun pb => behindCursor skipBeforeId pb) =
          [] := by split_ifs <;> simp [hbehind]
      have hsome : (if ok pb then [pb] else []).filter (fun pb => !behindCursor skipBeforeId pb) =
          if ok pb then [pb] else [] := by split_ifs <;> simp [hbehind]
      have hlen' := length_takeBlock ok hp pb
      have hshift : ∀ ys zs, ((takeBlock ok cap preferred pb ++ ys) ++ zs).take cap =
          ((preferred ++ ((if ok pb then [pb] else []) ++ ys)) ++ zs).take cap := by
        intro ys zs
        simpa only [List.nil_append, List.append_assoc] using
          take_takeBlock ok cap [] preferred (ys ++ zs) pb
      rw [if_neg hbehind, hnone, hsome, List.nil_append, ← hshift]
      by_cases hfull : cap ≤ (takeBlock ok cap preferred pb).length
      · rw [if_pos hfull]
        refine ⟨hlen', ?_⟩
        rw [take_full hlen' hfull, List.append_assoc, take_full hlen' hfull]
      · rw [if_neg hfull]
        exact ih hlen' wrapped

def flushKey (pb : PendingBlock) : ℕ ×ₗ ℤ := toLex (flushPriority pb.hit.blockType, pb.id)

theorem flushBefore_iff {a b : PendingBlock} :
    flushBefore b a = false ↔ flushKey a ≤ flushKey b := by
  rw [← not_lt, flushKey, flushKey, Prod.Lex.toLex_lt_toLex]
  dsimp only [flushBefore]
  split_ifs with h
  · rw [decide_eq_false_iff_not]
    omega
  · rw [decide_eq_false_iff_not]
    omega

theorem sortBatch_perm (blocks : List PendingBlock) : (sortBatch blocks).Perm blocks :=
  List.perm_insertionSort _ _

theorem sortBatch_sorted (blocks : List PendingBlock) :
    (sortBatch blocks).Pairwise fun a b => flushKey a ≤ flushKey b :=
  pairwise_insertionSort_key flushKey _ (fun _ _ => flushBefore_iff) blocks

def eligibleBlocks (b : BlockStore) (minute : ℕ) (netM defaultM : ℤ) : List PendingBlock :=
  b.pending.filter (flushable minute netM defaultM)

def cursorOrder (skipBeforeId : ℤ) (blocks : List PendingBlock) : List PendingBlock :=
  (blocks.filter fun pb => !behindCursor skipBeforeId pb) ++
    blocks.filter fun pb => behindCursor skipBeforeId pb

theorem cursorOrder_perm (skipBeforeId : ℤ) (blocks : List PendingBlock) :
    (cursorOrder skipBeforeId blocks).Perm blocks := by
  have h := List.filter_append_perm (fun pb => !behindCursor skipBeforeId pb) blocks
  simpa only [cursorOrder, Bool.not_not] using h

/-- The batch: the first eligible blocks past the cursor, sorted. -/
theorem listFlushBatch_eq (b : BlockStore) (minute : ℕ) (netM defaultM limit skipBeforeId : ℤ) :
    listFlushBatch b minute netM defaultM limit skipBeforeId =
      sortBatch ((cursorOrder skipBeforeId (eligibleBlocks b minute netM defaultM)).take
        (batchCap b limit)) := by
  have hempty : ([] : List PendingBlock).length ≤ batchCap b limit := Nat.zero_le _
  obtain ⟨hlen, htake⟩ := collect_eq (flushable minute netM defaultM) skipBeforeId b.pending hempty []
  simp only [List.nil_append] at htake
  rw [cursorOrder, eligibleBlocks, ← htake]
  dsimp only [listFlushBatch]
  congr 1
  split_ifs with hroom
  · exact fillUp_eq hroom _
  · rw [take_full hlen (by omega)]

theorem length_listFlushBatch (b : BlockStore) (minute : ℕ) (netM defaultM limit skipBeforeId : ℤ) :
    (listFlushBatch b minute netM defaultM limit skipBeforeId).length =
      min (batchCap b limit) (eligibleBlocks b minute netM defaultM).length := by
  rw [listFlushBatch_eq, (sortBatch_perm _).length_eq, List.length_take,
    (cursorOrder_perm _ _).length_eq]

theorem mem_eligible_of_mem_batch {b : BlockStore} {minute : ℕ}
    {netM defaultM limit skipBeforeId : ℤ} {pb : PendingBlock}
    (h : pb ∈ listFlushBatch b minute netM defaultM limit skipBeforeId) :
    pb ∈ eligibleBlocks b minute netM defaultM := by
  rw [listFlushBatch_eq, (sortBatch_perm _).mem_iff] at h
  exact (cursorOrder_perm _ _).mem_iff.mp (List.mem_of_mem_take h)

theorem mem_pending_of_mem_batch {b : BlockStore} {minute : ℕ}
    {netM defaultM limit skipBeforeId : ℤ} {pb : PendingBlock}
    (h : pb ∈ listFlushBatch b minute netM defaultM limit skipBeforeId) : pb ∈ b.pending :=
  (List.mem_filter.mp (mem_eligible_of_mem_batch h)).1

theorem nodup_listFlushBatch {b : BlockStore} (h : (b.pending.map PendingBlock.id).Nodup)
    (minute : ℕ) (netM defaultM limit skipBeforeId : ℤ) :
    ((listFlushBatch b minute netM defaultM limit skipBeforeId).map PendingBlock.id).Nodup := by
  rw [listFlushBatch_eq, ((sortBatch_perm _).map _).nodup_iff]
  refine ((List.take_sublist _ _).map _).nodup ?_
  rw [((cursorOrder_perm _ _).map _).nodup_iff]
  exact (List.filter_sublist.map _).nodup h

/-- Distinct ids make the batch strictly sorted. -/
theorem listFlushBatch_sorted {b : BlockStore} (h : (b.pending.map PendingBlock.id).Nodup)
    (minute : ℕ) (netM defaultM limit skipBeforeId : ℤ) :
    (listFlushBatch b minute netM defaultM limit skipBeforeId).Pairwise fun x y =>
      flushKey x < flushKey y := by
  have hids := List.pairwise_map.mp (nodup_listFlushBatch h minute netM defaultM limit skipBeforeId)
  have hsorted : (listFlushBatch b minute netM defaultM limit skipBeforeId).Pairwise fun x y =>
      flushKey x ≤ flushKey y := by
    rw [listFlushBatch_eq]
    exact sortBatch_sorted _
  refine (hsorted.and hids).imp fun {x y} hxy => lt_of_le_of_ne hxy.1 fun hkey => hxy.2 ?_
  have hpair : (flushPriority x.hit.blockType, x.id) = (flushPriority y.hit.blockType, y.id) :=
    toLex.injective hkey
  exact (Prod.mk.inj hpair).2

/-- With distinct ids the batch is the only sorted list of the first eligible blocks past the
cursor; without a limit it has every eligible block. -/
theorem listFlushBatch_spec (b : BlockStore) (hids : (b.pending.map PendingBlock.id).Nodup)
    (minute : ℕ) (netM defaultM limit skipBeforeId : ℤ) :
    let eligible := b.pending.filter fun pb =>
      decide (netM ≤ pb.hit.memoryCost.getD (if 0 < defaultM then defaultM else netM)) &&
        (readyToFlush minute pb.hit.blockType).1
    let preferred := eligible.filter fun pb => ¬(0 < skipBeforeId ∧ pb.id < skipBeforeId)
    let wrapped := eligible.filter fun pb => 0 < skipBeforeId ∧ pb.id < skipBeforeId
    let cap := if 0 < limit then limit.toNat else b.pending.length
    let batch := listFlushBatch b minute netM defaultM limit skipBeforeId
    (∀ l : List PendingBlock, l = batch ↔ l.Perm ((preferred ++ wrapped).take cap) ∧
        l.Pairwise fun x y => flushKey x < flushKey y) ∧
      batch.length = min cap eligible.length ∧ batch.Nodup ∧
      (limit ≤ 0 → ∀ pb ∈ eligible, pb ∈ batch) := by
  intro eligible preferred wrapped cap batch
  have horder : cursorOrder skipBeforeId eligible = preferred ++ wrapped := by
    simp only [cursorOrder, behindCursor, preferred, wrapped, Bool.decide_and, decide_not]
  have heq : batch = sortBatch ((preferred ++ wrapped).take cap) := by
    rw [← horder]
    exact listFlushBatch_eq b minute netM defaultM limit skipBeforeId
  have hperm : batch.Perm ((preferred ++ wrapped).take cap) := heq ▸ sortBatch_perm _
  have hsorted := listFlushBatch_sorted hids minute netM defaultM limit skipBeforeId
  refine ⟨fun l => ⟨?_, ?_⟩, length_listFlushBatch b minute netM defaultM limit skipBeforeId, ?_, ?_⟩
  · rintro rfl
    exact ⟨hperm, hsorted⟩
  · rintro ⟨hl, hstrict⟩
    exact eq_of_perm_of_pairwise flushKey (hl.trans hperm.symm) hstrict hsorted
  · exact (nodup_listFlushBatch hids minute netM defaultM limit skipBeforeId).of_map _
  · intro hlimit pb hpb
    rw [hperm.mem_iff, ← horder, List.take_of_length_le]
    · exact (cursorOrder_perm _ _).mem_iff.mpr hpb
    · have hcap : cap = b.pending.length := if_neg (by omega)
      rw [(cursorOrder_perm _ _).length_eq, hcap]
      exact List.length_filter_le _ _

/-- Three blocks, of which the last and the first are taken from a cursor at 3. -/
theorem listFlushBatch_spec_wrapped :
    let block (id : ℤ) : PendingBlock :=
      { id, hit := { hashStr := intText id, blockType := "XNM".toList } }
    listFlushBatch { pending := [block 1, block 2, block 3] } 30 100 100 2 3 =
      [block 1, block 3] := by
  intro block
  have hspec := listFlushBatch_spec { pending := [block 1, block 2, block 3] } (by decide +kernel)
    30 100 100 2 3
  exact ((hspec.1 [block 1, block 3]).mpr ⟨by decide +kernel, by decide +kernel⟩).symm

end XnMiner

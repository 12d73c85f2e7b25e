import XnMiner.Queue.CodecLaws

/-! # When an enqueue throws

The id and the hash are claimed before the record is printed, and the block is in the list before
the bag is saved. An exception at either place keeps what was claimed.
-/
namespace XnMiner
open TextCodec

variable {b : BlockStore} {hit : BlockHit} {reason queuedAt : Str}

def PendingBlock.prints (pb : PendingBlock) : Prop :=
  pb.hit.utf8 = true ∧ validUtf8 pb.queueReason = true

theorem dump_isSome (j : Json) : (dump j).isSome = utf8Ok j := by
  unfold dump
  split_ifs with hok
  · exact hok.symm
  · exact (Bool.not_eq_true _ ▸ hok).symm

theorem saveDbUnlocked_isSome (b : BlockStore) :
    (saveDbUnlocked b).result.isSome = true ↔ ∀ pb ∈ b.pending, pb.prints := by
  have hbag : utf8Ok (dbJson b) = true ↔ ∀ pb ∈ b.pending, pb.prints := by
    rw [utf8Ok_dbJson, List.all_eq_true]
    simp only [Bool.and_eq_true, PendingBlock.prints]
  rw [← hbag, ← dump_isSome, saveDbUnlocked]
  cases dump (dbJson b) <;> simp

theorem saveDbUnlocked_returns {b : BlockStore} (h : ∀ pb ∈ b.pending, pb.prints) :
    (saveDbUnlocked b).result = some () := by
  obtain ⟨_, hreturns⟩ := Option.isSome_iff_exists.mp ((saveDbUnlocked_isSome b).mpr h)
  exact hreturns

theorem maybeSaveUnlocked_isSome (b : BlockStore) :
    (maybeSaveUnlocked b).result.isSome = true ↔
      (kSaveEveryOps ≤ b.dirtyOps → ∀ pb ∈ b.pending, pb.prints) := by
  unfold maybeSaveUnlocked
  split_ifs with hdue
  · rw [saveDbUnlocked_isSome]
    exact ⟨fun h _ => h, fun h => h hdue⟩
  · exact ⟨fun _ h => absurd h hdue, fun _ => rfl⟩

theorem maybeSaveUnlocked_returns {b : BlockStore} (h : ∀ pb ∈ b.pending, pb.prints) :
    (maybeSaveUnlocked b).result = some () := by
  obtain ⟨_, hreturns⟩ := Option.isSome_iff_exists.mp ((maybeSaveUnlocked_isSome b).mpr fun _ => h)
  exact hreturns

/-- The hit's record can be printed, and so can the bag when a save is due. -/
structure BlockStore.canAdd (b : BlockStore) (hit : BlockHit) (reason queuedAt : Str) : Prop where
  hit : hit.utf8 = true
  reason : validUtf8 reason = true
  queuedAt : validUtf8 queuedAt = true
  bag : kSaveEveryOps ≤ b.dirtyOps + 1 → ∀ pb ∈ b.pending, pb.prints

theorem queueRecord_dump (b : BlockStore) (hit : BlockHit) (reason queuedAt : Str) :
    (dump (queueRecord (freshBlock b hit reason) queuedAt)).isSome = true ↔
      hit.utf8 = true ∧ validUtf8 queuedAt = true ∧ validUtf8 reason = true := by
  rw [dump_isSome, utf8Ok_queueRecord, Bool.and_eq_true, Bool.and_eq_true]
  rfl

/-- The save at the end of an enqueue has the new block to print too. -/
theorem addFresh_saves (hprints : hit.utf8 = true ∧ validUtf8 reason = true) :
    (maybeSaveUnlocked (markDirtyUnlocked (addFresh b hit reason))).result.isSome = true ↔
      (kSaveEveryOps ≤ b.dirtyOps + 1 → ∀ pb ∈ b.pending, pb.prints) := by
  have hpending : (markDirtyUnlocked (addFresh b hit reason)).pending =
      b.pending ++ [freshBlock b hit reason] := rfl
  have hnew : (freshBlock b hit reason).prints := hprints
  rw [maybeSaveUnlocked_isSome, hpending]
  refine imp_congr_right fun _ => ?_
  constructor
  · intro hall pb hpb
    exact hall pb (List.mem_append_left _ hpb)
  · intro hall pb hpb
    rcases List.mem_append.mp hpb with hold | hlast
    · exact hall pb hold
    · exact List.mem_singleton.mp hlast ▸ hnew

theorem enqueue_isSome (b : BlockStore) (hit : BlockHit) (reason queuedAt : Str) :
    (enqueue b hit reason queuedAt).result.isSome = true ↔
      isDuplicate b hit ∨ b.canAdd hit reason queuedAt := by
  have hrecord := queueRecord_dump b hit reason queuedAt
  have hcases := enqueue_cases b hit reason queuedAt
  generalize enqueue b hit reason queuedAt = e at hcases
  cases hcases with
  | duplicate hd => exact ⟨fun _ => .inl hd, fun _ => rfl⟩
  | unprinted hd ht =>
    rw [ht] at hrecord
    constructor
    · intro hreturns
      cases hreturns
    · rintro (hdup | hadd)
      · exact absurd hdup hd
      · exact hrecord.mpr ⟨hadd.hit, hadd.queuedAt, hadd.reason⟩
  | added hd ht =>
    rw [ht] at hrecord
    obtain ⟨hhit, hat, hreason⟩ := hrecord.mp rfl
    have hsaves := addFresh_saves (b := b) ⟨hhit, hreason⟩
    rw [Option.isSome_map, hsaves]
    constructor
    · intro hbag
      exact .inr ⟨hhit, hreason, hat, hbag⟩
    · rintro (hdup | hadd)
      · exact absurd hdup hd
      · exact hadd.bag

/-- An enqueue that throws keeps the id and the hash it has claimed. -/
theorem enqueue_claims (hthrows : (enqueue b hit reason queuedAt).result = none) :
    (enqueue b hit reason queuedAt).store.nextId = b.nextId + 1 ∧
      (hit.hashStr ≠ [] → isDuplicate (enqueue b hit reason queuedAt).store hit) := by
  have hclaimed : hit.hashStr ≠ [] → isDuplicate (claimId b hit) hit := by
    intro hhash
    refine ⟨hhash, ?_⟩
    rw [claimId, if_pos hhash]
    exact Finset.mem_insert_self _ _
  have hcases := enqueue_cases b hit reason queuedAt
  generalize enqueue b hit reason queuedAt = e at hcases hthrows
  cases hcases with
  | duplicate => cases hthrows
  | unprinted => exact ⟨rfl, hclaimed⟩
  | added => exact ⟨rfl, hclaimed⟩

/-- A throwing enqueue leaves the members alone, and the hash free, exactly if there is none:
the hit is in the bag or can be added. -/
theorem enqueue_atomic_iff (b : BlockStore) (hit : BlockHit) (reason queuedAt : Str) :
    let e := enqueue b hit reason queuedAt
    (e.result = none → e.store.pending = b.pending ∧ e.store.hashIndex = b.hashIndex ∧
        e.store.nextId = b.nextId ∧
        ∀ later : BlockHit, later.hashStr = hit.hashStr → ¬ isDuplicate e.store later) ↔
      isDuplicate b hit ∨ b.canAdd hit reason queuedAt := by
  intro e
  rw [← enqueue_isSome]
  constructor
  · intro hatomic
    by_contra hthrows
    have hnone : e.result = none := Option.not_isSome_iff_eq_none.mp hthrows
    obtain ⟨-, -, hid, -⟩ := hatomic hnone
    have hnext : e.store.nextId = b.nextId + 1 := (enqueue_claims hnone).1
    exact absurd (hid.symm.trans hnext) (by omega)
  · intro hreturns hnone
    rw [show enqueue b hit reason queuedAt = e from rfl, hnone] at hreturns
    cases hreturns

def brokenHit : BlockHit :=
  { key := [Char.ofNat 0xFF], hashStr := "digest".toList, blockType := "XNM".toList }

/-- A later hit with the same digest and a good key is refused, though the bag is empty. -/
theorem enqueue_not_atomic :
    let e := enqueue {} brokenHit "offline".toList "now".toList
    e.result = none ∧ e.store.nextId = 2 ∧ e.store.pending = [] ∧
      let later : BlockHit := { brokenHit with key := "key".toList }
      (enqueue e.store later "offline".toList "now".toList).result = some 0 ∧
        (enqueue e.store later "offline".toList "now".toList).store.pending = [] := by
  decide +kernel

end XnMiner

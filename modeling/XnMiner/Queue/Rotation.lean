import XnMiner.Queue.FlushBatch

/-! # Rotation of the flush waves under holds

A wave fetches twice its size and sends the first half of the sorted batch. While the
pool holds everything the cursor moves past the last block sent, but the last block in
flush order stays behind the others in every batch.
-/
namespace XnMiner
open TextCodec SortedPrefix

section Waves
variable (b : BlockStore) (minute : ℕ) (netM defaultM : ℤ) (wave : ℕ)

def attempted (skipBeforeId : ℤ) : List PendingBlock :=
  (listFlushBatch b minute netM defaultM (2 * wave) skipBeforeId).take wave

/-- The cursor after a wave that was held; nothing to send leaves it alone. -/
def rotate (skipBeforeId : ℤ) : ℤ :=
  match (attempted b minute netM defaultM wave skipBeforeId).getLast? with
  | some pb => pb.id + 1
  | none => skipBeforeId

def cursorAt (skipBeforeId : ℤ) (k : ℕ) : ℤ :=
  match k with
  | 0 => skipBeforeId
  | k + 1 => rotate b minute netM defaultM wave (cursorAt skipBeforeId k)

def attemptedAt (skipBeforeId : ℤ) (k : ℕ) : List PendingBlock :=
  attempted b minute netM defaultM wave (cursorAt b minute netM defaultM wave skipBeforeId k)

end Waves

theorem length_waveBatch (b : BlockStore) (minute : ℕ) (netM defaultM : ℤ) {wave : ℕ}
    (hwave : 1 ≤ wave) (skipBeforeId : ℤ) :
    (listFlushBatch b minute netM defaultM (2 * wave) skipBeforeId).length =
      min (2 * wave) (eligibleBlocks b minute netM defaultM).length := by
  have hcap : batchCap b (2 * wave) = 2 * wave := by
    rw [batchCap, if_pos (by omega)]
    omega
  rw [length_listFlushBatch, hcap]

variable {b : BlockStore} {minute : ℕ} {netM defaultM : ℤ} {wave : ℕ}

theorem mem_attempted_of_few (hwave : 1 ≤ wave)
    (hfew : (eligibleBlocks b minute netM defaultM).length ≤ wave) (skipBeforeId : ℤ)
    {pb : PendingBlock} (h : pb ∈ eligibleBlocks b minute netM defaultM) :
    pb ∈ attempted b minute netM defaultM wave skipBeforeId := by
  have hlen := length_waveBatch b minute netM defaultM hwave skipBeforeId
  rw [attempted, List.take_of_length_le (by omega), listFlushBatch_eq, (sortBatch_perm _).mem_iff,
    List.take_of_length_le, (cursorOrder_perm _ _).mem_iff]
  · exact h
  · rw [(cursorOrder_perm _ _).length_eq, batchCap, if_pos (by omega)]
    omega

/-- The last eligible block in flush order is sent by no wave of a larger bag. -/
theorem greatest_notMem_attempted (hids : (b.pending.map PendingBlock.id).Nodup)
    (hwave : 1 ≤ wave) (hmany : wave < (eligibleBlocks b minute netM defaultM).length)
    {g : PendingBlock}
    (hg : ∀ pb ∈ eligibleBlocks b minute netM defaultM, flushKey pb ≤ flushKey g)
    (skipBeforeId : ℤ) : g ∉ attempted b minute netM defaultM wave skipBeforeId := by
  have hlen := length_waveBatch b minute netM defaultM hwave skipBeforeId
  refine greatest_notMem_take flushKey ?_ ?_ (fun pb hpb => hg pb (mem_eligible_of_mem_batch hpb))
    (by omega)
  · rw [listFlushBatch_eq]
    exact sortBatch_sorted _
  · have hnodup := nodup_listFlushBatch hids minute netM defaultM (2 * wave) skipBeforeId
    have hsnd : (listFlushBatch b minute netM defaultM (2 * wave) skipBeforeId).map
        PendingBlock.id = ((listFlushBatch b minute netM defaultM (2 * wave) skipBeforeId).map
          flushKey).map fun k => (ofLex k).2 := by
      rw [List.map_map]
      rfl
    rw [hsnd] at hnodup
    exact hnodup.of_map _

/-- Under holds every eligible block is sent within as many waves as there are eligible
blocks if and only if they all fit the first wave. -/
theorem rotation_covers_iff (b : BlockStore) (hids : (b.pending.map PendingBlock.id).Nodup)
    (minute : ℕ) (netM defaultM : ℤ) (wave : ℕ) (hwave : 1 ≤ wave) (skipBeforeId : ℤ) :
    (∀ pb ∈ eligibleBlocks b minute netM defaultM,
      ∃ k ≤ (eligibleBlocks b minute netM defaultM).length,
        pb ∈ attemptedAt b minute netM defaultM wave skipBeforeId k) ↔
      (eligibleBlocks b minute netM defaultM).length ≤ wave := by
  constructor
  · intro hall
    by_contra hmany
    have hne : eligibleBlocks b minute netM defaultM ≠ [] := by
      intro hnil
      rw [hnil] at hmany
      exact hmany (Nat.zero_le _)
    obtain ⟨g, hmem, hg⟩ := exists_greatest flushKey hne
    obtain ⟨k, -, hk⟩ := hall g hmem
    exact greatest_notMem_attempted hids hwave (by omega) hg _ hk
  · intro hfew pb hpb
    exact ⟨0, Nat.zero_le _, mem_attempted_of_few hwave hfew _ hpb⟩

def heldBlock (id : ℤ) : PendingBlock :=
  { id := id
    hit := { hashStr := intText id, blockType := "XNM".toList, memoryCost := some 100 } }

def heldBag : BlockStore := { pending := [heldBlock 1, heldBlock 2], nextId := 3 }

theorem rotation_starves : ¬ ∀ (b : BlockStore) (minute : ℕ) (netM defaultM : ℤ) (wave : ℕ)
    (skipBeforeId : ℤ), (b.pending.map PendingBlock.id).Nodup → 1 ≤ wave →
    ∀ pb ∈ eligibleBlocks b minute netM defaultM,
      ∃ k ≤ (eligibleBlocks b minute netM defaultM).length,
        pb ∈ attemptedAt b minute netM defaultM wave skipBeforeId k := by
  intro hall
  have h := hall heldBag 30 100 100 1 0 (by decide) (le_refl 1) (heldBlock 2) (by decide +kernel)
  revert h
  decide +kernel

/-- Both blocks fit a wave of two. -/
theorem rotation_covers_two : ∃ k ≤ (eligibleBlocks heldBag 30 100 100).length,
    heldBlock 2 ∈ attemptedAt heldBag 30 100 100 2 0 k :=
  (rotation_covers_iff heldBag (by decide) 30 100 100 2 (by decide) 0).mpr (by decide +kernel)
    (heldBlock 2) (by decide +kernel)

end XnMiner

import XnMiner.Queue.BagRuns
import XnMiner.Queue.FlushBatch

/-! # Ids name one block for the life of the process

A listing and the marking of what it listed are separate operations, with any others
in between. An id is used once, so the marking finds the blocks that were listed or
none. Files may be reloaded with any narrowing of integers.
-/
namespace XnMiner
open TextCodec Transitions

def blockHit (pb : PendingBlock) : ℤ × BlockHit := (pb.id, pb.hit)

/-- Notes on blocks, one new block, or removals; ids may be used up in any case. -/
inductive IdStep (b b' : BlockStore) : Prop where
  | noted (hnext : b.nextId ≤ b'.nextId)
      (hblocks : b'.pending.map blockHit = b.pending.map blockHit)
  | added (hit : BlockHit) (reason : Str) (hnext : b'.nextId = b.nextId + 1)
      (hblocks : b'.pending = b.pending ++ [freshBlock b hit reason])
  | erased (ids : List ℤ) (hnext : b'.nextId = b.nextId)
      (hblocks : b'.pending = b.pending.filter fun pb => pb.id ∉ ids)

theorem eraseIds_nextId (b : BlockStore) (ids : List ℤ) : (eraseIds b ids).nextId = b.nextId := by
  induction ids generalizing b with
  | nil => rfl
  | cons id ids ih => exact ih (eraseId b id)

theorem setForwardedAll_blockHit (b : BlockStore) (ids : List ℤ) :
    (ids.foldl setForwarded b).pending.map blockHit = b.pending.map blockHit ∧
      (ids.foldl setForwarded b).nextId = b.nextId := by
  induction ids generalizing b with
  | nil => exact ⟨rfl, rfl⟩
  | cons id ids ih =>
    obtain ⟨hkeys, hnext⟩ := ih (setForwarded b id)
    refine ⟨hkeys.trans ?_, hnext⟩
    exact map_modifyFirst (by exact fun _ => rfl) b.pending

theorem enqueue_idStep (b : BlockStore) (hit : BlockHit) (reason queuedAt : Str) :
    IdStep b (enqueue b hit reason queuedAt).store := by
  have hcases := enqueue_cases b hit reason queuedAt
  generalize enqueue b hit reason queuedAt = e at hcases
  cases hcases with
  | duplicate => exact .noted (le_refl _) rfl
  | unprinted =>
    have hnext : b.nextId ≤ (claimId b hit).nextId := Int.le.intro 1 rfl
    exact .noted hnext rfl
  | added => exact .added hit reason rfl rfl

theorem markSubmittedMany_idStep (b : BlockStore) (ids : List ℤ) :
    IdStep b (markSubmittedMany b ids).store := by
  obtain ⟨n, hn⟩ := markSubmittedMany_store b ids
  rw [hn]
  exact .erased ids (eraseIds_nextId b ids) (eraseIds_pending b ids)

theorem exec_idStep (b : BlockStore) (op : StoreOp) : IdStep b (op.exec b).1 := by
  cases op with
  | enqueue hit reason queuedAt => exact enqueue_idStep b hit reason queuedAt
  | recordRejection hit httpStatus body source reason now =>
    simp only [StoreOp.exec, Effect.footprint]
    cases hlog : dump (rejectionRecord hit httpStatus body source now) with
    | none =>
      rw [recordRejection_throws hlog]
      exact .noted (le_refl _) rfl
    | some text =>
      rw [recordRejection_logged hlog]
      exact enqueue_idStep b hit reason now
  | markSubmitted id => exact markSubmittedMany_idStep b [id]
  | markSubmittedMany ids => exact markSubmittedMany_idStep b ids
  | markPendingReason id reason =>
    obtain ⟨n, hn⟩ := markPendingReason_store b id reason
    simp only [StoreOp.exec, Effect.footprint, hn]
    exact .noted (le_refl _) (map_modifyFirst (by exact fun _ => rfl) b.pending)
  | markForwardedMany ids =>
    obtain ⟨n, hn⟩ := markForwardedMany_store b ids
    obtain ⟨hblocks, hnext⟩ := setForwardedAll_blockHit b ids
    simp only [StoreOp.exec, Effect.footprint, hn]
    exact .noted hnext.ge hblocks
  | deferAllToNextStart minute =>
    obtain ⟨n, hn⟩ := deferAllToNextStart_store b minute
    simp only [StoreOp.exec, Effect.footprint, hn]
    refine .noted (le_refl _) ?_
    simp [deferAll, Function.comp_def, blockHit]
  | flush =>
    obtain ⟨n, hn⟩ := flush_store b
    simp only [StoreOp.exec, Effect.footprint, hn]
    exact .noted (le_refl _) rfl

/-- Blocks of the later bag are old ones or have new ids. -/
structure BlocksFrom (b b' : BlockStore) : Prop where
  nextId_le : b.nextId ≤ b'.nextId
  from_old : ∀ q ∈ b'.pending, (∃ pb ∈ b.pending, pb.id = q.id ∧ pb.hit = q.hit) ∨ b.nextId ≤ q.id

theorem BlocksFrom.refl (b : BlockStore) : BlocksFrom b b where
  nextId_le := le_refl _
  from_old := fun q hq => .inl ⟨q, hq, rfl, rfl⟩

theorem BlocksFrom.trans {b b' b'' : BlockStore} (h : BlocksFrom b b') (h' : BlocksFrom b' b'') :
    BlocksFrom b b'' where
  nextId_le := h.nextId_le.trans h'.nextId_le
  from_old := by
    intro q hq
    rcases h'.from_old q hq with ⟨pb, hpb, hid, hhit⟩ | hnew
    · rcases h.from_old pb hpb with ⟨pb', hpb', hid', hhit'⟩ | hnew
      · exact .inl ⟨pb', hpb', hid'.trans hid, hhit'.trans hhit⟩
      · exact .inr (hid ▸ hnew)
    · exact .inr (h.nextId_le.trans hnew)

theorem IdStep.blocksFrom {b b' : BlockStore} (h : IdStep b b') : BlocksFrom b b' := by
  cases h with
  | noted hnext hblocks =>
    refine ⟨hnext, fun q hq => ?_⟩
    have hmem := List.mem_map_of_mem (f := blockHit) hq
    rw [hblocks] at hmem
    obtain ⟨pb, hpb, hkey⟩ := List.mem_map.mp hmem
    obtain ⟨hid, hhit⟩ := Prod.mk.inj hkey
    exact .inl ⟨pb, hpb, hid, hhit⟩
  | added hit reason hnext hblocks =>
    refine ⟨by omega, fun q hq => ?_⟩
    rw [hblocks, List.mem_append, List.mem_singleton] at hq
    rcases hq with hq | rfl
    · exact .inl ⟨q, hq, rfl, rfl⟩
    · exact .inr (le_refl _)
  | erased ids hnext hblocks =>
    refine ⟨hnext.ge, fun q hq => ?_⟩
    rw [hblocks] at hq
    exact .inl ⟨q, (List.mem_filter.mp hq).1, rfl, rfl⟩

/-- The ids in the bag are used up and differ. -/
structure IdInv (b : BlockStore) : Prop where
  ids_lt : ∀ pb ∈ b.pending, pb.id < b.nextId
  ids_nodup : (b.pending.map PendingBlock.id).Nodup

theorem IdInv.empty (nextId : ℤ) : IdInv { nextId := nextId } := ⟨by simp, by simp⟩

theorem IdInv.noted {b b' : BlockStore} (h : IdInv b) (hnext : b.nextId ≤ b'.nextId)
    (hblocks : b'.pending.map blockHit = b.pending.map blockHit) : IdInv b' where
  ids_lt := by
    intro q hq
    have hmem := List.mem_map_of_mem (f := blockHit) hq
    rw [hblocks] at hmem
    obtain ⟨pb, hpb, hkey⟩ := List.mem_map.mp hmem
    have hid : pb.id = q.id := (Prod.mk.inj hkey).1
    have hlt := h.ids_lt pb hpb
    omega
  ids_nodup := by
    have hids := congrArg (List.map Prod.fst) hblocks
    simp only [List.map_map] at hids
    have hfst : Prod.fst ∘ blockHit = PendingBlock.id := rfl
    rw [hfst] at hids
    exact hids ▸ h.ids_nodup

/-- A block with an id that is not taken can be added. -/
theorem IdInv.addLoaded {b : BlockStore} (h : IdInv b) {pb : PendingBlock}
    (hfresh : ∀ e ∈ b.pending, e.id ≠ pb.id) : IdInv (addLoaded b pb) where
  ids_lt := by
    intro e he
    simp only [XnMiner.addLoaded, List.mem_append, List.mem_singleton] at he ⊢
    rcases he with he | rfl
    · have hlt := h.ids_lt e he
      omega
    · omega
  ids_nodup := by
    simp only [XnMiner.addLoaded, List.map_append, List.map_cons, List.map_nil]
    rw [List.nodup_append]
    refine ⟨h.ids_nodup, by simp, ?_⟩
    intro i hi j hj
    obtain ⟨e, he, rfl⟩ := List.mem_map.mp hi
    obtain rfl : j = pb.id := by simpa using hj
    exact hfresh e he

theorem IdInv.next_fresh {b : BlockStore} (h : IdInv b) : ∀ e ∈ b.pending, e.id ≠ b.nextId :=
  fun e he heq => absurd (h.ids_lt e he) (by omega)

theorem IdInv.step {b b' : BlockStore} (h : IdInv b) (hstep : IdStep b b') : IdInv b' := by
  cases hstep with
  | noted hnext hblocks => exact h.noted hnext hblocks
  | added hit reason hnext hblocks =>
    have hadd : IdInv (addFresh b hit reason) := by
      rw [addFresh_eq]
      exact h.addLoaded h.next_fresh
    refine hadd.noted ?_ ?_
    · exact hnext.ge
    · rw [hblocks]
      rfl
  | erased ids hnext hblocks =>
    refine ⟨fun q hq => ?_, ?_⟩
    · rw [hblocks] at hq
      rw [hnext]
      exact h.ids_lt q (List.mem_filter.mp hq).1
    · rw [hblocks]
      exact (List.filter_sublist.map _).nodup h.ids_nodup

def execAll (b : BlockStore) (ops : List StoreOp) : BlockStore :=
  ops.foldl (fun b op => (op.exec b).1) b

@[simp] theorem execAll_nil (b : BlockStore) : execAll b [] = b := rfl
@[simp] theorem execAll_cons (b : BlockStore) (op : StoreOp) (ops : List StoreOp) :
    execAll b (op :: ops) = execAll (op.exec b).1 ops := rfl

theorem execAll_blocksFrom (b : BlockStore) (ops : List StoreOp) : BlocksFrom b (execAll b ops) := by
  induction ops generalizing b with
  | nil => exact .refl b
  | cons op ops ih => exact (exec_idStep b op).blocksFrom.trans (ih _)

theorem IdInv.execAll {b : BlockStore} (h : IdInv b) (ops : List StoreOp) :
    IdInv (execAll b ops) := by
  induction ops generalizing b with
  | nil => exact h
  | cons op ops ih => exact ih (h.step (exec_idStep b op))

variable {castInt : ℤ → ℤ}

/-- Saved blocks that are read with ids other than the bag's and each other's. -/
theorem IdInv.loadItems_saved {b : BlockStore} (h : IdInv b) (blocks : List PendingBlock)
    (hids : ((b.pending ++ blocks.map (narrowBlock castInt)).map PendingBlock.id).Nodup) :
    IdInv (loadItems castInt b (blocks.map fun pb => readBack (pendingToJson pb))) := by
  induction blocks generalizing b with
  | nil => exact h
  | cons pb blocks ih =>
    have hnext : b.nextId ≤ b.nextId + 1 := Int.le.intro 1 rfl
    have hraised : IdInv { b with nextId := b.nextId + 1 } := h.noted hnext rfl
    rw [List.map_cons, loadItems_cons_saved]
    split_ifs
    · refine ih (hraised.addLoaded ?_) ?_
      · intro e he heq
        rw [List.map_append, List.nodup_append] at hids
        exact hids.2.2 e.id (List.mem_map_of_mem he) (toInt64 pb.id) (by simp) heq
      · simpa [XnMiner.addLoaded] using hids
    · exact hraised

theorem IdInv.loadDb {b : BlockStore} (h : IdInv b) {db : Option Str} (hdb : savedDb b db) :
    IdInv (loadDb castInt db) := by
  rcases hdb with rfl | ⟨hfit, text, p, hw, hp, rfl⟩
  · exact .empty 1
  · rcases saveDbUnlocked_writes hw with rfl | hd
    · rw [List.prefix_nil.mp hp]
      exact .empty 1
    · by_cases hne : p = text
      · subst hne
        rw [loadDb_saved castInt hd]
        refine (IdInv.empty _).loadItems_saved b.pending ?_
        rw [List.nil_append, map_narrowBlock_id hfit]
        exact h.ids_nodup
      · rw [loadDb_torn castInt hd hp hne]
        exact .empty 1

theorem IdInv.repairId_fresh {b : BlockStore} (h : IdInv b) (i : ℤ) :
    ∀ e ∈ b.pending, e.id ≠ repairId b i := by
  unfold repairId
  split_ifs with hlow htaken
  · exact h.next_fresh
  · exact h.next_fresh
  · refine fun e he heq => htaken ?_
    exact List.any_eq_true.mpr ⟨e, he, by simp [heq]⟩

theorem IdInv.recoverLine {b b' : BlockStore} (h : IdInv b) {line : Str}
    (hr : recoverLine castInt b line = some b') : IdInv b' := by
  unfold XnMiner.recoverLine at hr
  split at hr
  · exact Option.some.inj hr ▸ h
  · split at hr
    · obtain ⟨hit, -, ⟨-, rfl⟩ | ⟨-, i, reason, count, rfl⟩⟩ := recoverRecord_cases hr
      · exact h
      · exact h.addLoaded (h.repairId_fresh i)
    · exact Option.some.inj hr ▸ h

theorem IdInv.recoverLines {b b' : BlockStore} (h : IdInv b) {lines : List Str}
    (hr : recoverLines castInt b lines = some b') : IdInv b' := by
  induction lines generalizing b with
  | nil => exact Option.some.inj hr ▸ h
  | cons line lines ih =>
    obtain ⟨b1, h1, hr⟩ := Option.bind_eq_some_iff.mp hr
    exact ih (h.recoverLine h1) hr

theorem IdInv.recoverJsonl {b b' : BlockStore} (h : IdInv b) {jsonl : Option Str}
    (hr : (recoverJsonlUnlocked castInt b jsonl).2 = some b') : IdInv b' := by
  obtain ⟨b1, n, h1, rfl⟩ := recoverJsonl_some hr
  exact (h.recoverLines h1).noted (le_refl _) rfl

/-- The bag over the processes that use its files: the db file is what a save left, the log
may hold anything. -/
def storeMachine (castInt : ℤ → ℤ) : Machine BlockStore BagAction where
  init b := ∃ jsonl, (construct castInt { db := none, jsonl := jsonl }).2 = some b
  step b a b' :=
    match a with
    | .op op => b' = (op.exec b).1
    | .reload db jsonl =>
      savedDb b db ∧ (construct castInt { db := db, jsonl := jsonl }).2 = some b'

theorem storeMachine_idInv {b : BlockStore} (hb : (storeMachine castInt).Reachable b) :
    IdInv b := by
  refine Machine.Reachable.invariant ?_ ?_ hb
  · rintro s ⟨jsonl, hs⟩
    exact (IdInv.empty 1).recoverJsonl hs
  · rintro s (op | ⟨db, jsonl⟩) t - hinv hs
    · obtain rfl : t = (op.exec s).1 := hs
      exact hinv.step (exec_idStep s op)
    · exact (hinv.loadDb hs.1).recoverJsonl hs.2

theorem storeMachine_execAll {b : BlockStore} (hb : (storeMachine castInt).Reachable b)
    (ops : List StoreOp) : (storeMachine castInt).Reachable (execAll b ops) := by
  induction ops generalizing b with
  | nil => exact hb
  | cons op ops ih =>
    have hnext : (storeMachine castInt).step b (.op op) (op.exec b).1 := rfl
    exact ih (hb.next hnext)

inductive Listing (b : BlockStore) : List PendingBlock → Prop where
  | flushBatch (minute : ℕ) (netM defaultM limit skipBeforeId : ℤ) :
    Listing b (listFlushBatch b minute netM defaultM limit skipBeforeId)
  | unforwarded (limit : ℤ) : Listing b (listUnforwarded b limit)
  | pending : Listing b (listPending b)

theorem Listing.mem_pending {b : BlockStore} {listed : List PendingBlock} (h : Listing b listed)
    {pb : PendingBlock} (hpb : pb ∈ listed) : pb ∈ b.pending := by
  cases h with
  | flushBatch minute netM defaultM limit skipBeforeId => exact mem_pending_of_mem_batch hpb
  | unforwarded limit =>
    unfold listUnforwarded at hpb
    split_ifs at hpb
    · exact (List.mem_filter.mp (List.mem_of_mem_take hpb)).1
    · exact (List.mem_filter.mp hpb).1
  | pending => exact hpb

def ListedUnder (listed : List PendingBlock) (ids : List ℤ) (pb : PendingBlock) : Prop :=
  ∃ q ∈ listed, q.id ∈ ids ∧ blockHit q = blockHit pb

instance (listed : List PendingBlock) (ids : List ℤ) (pb : PendingBlock) :
    Decidable (ListedUnder listed ids pb) := inferInstanceAs (Decidable (∃ q ∈ listed, _ ∧ _))

/-- A block that has a listed id is the one that was listed. -/
theorem mem_ids_iff {b b' : BlockStore} (h : IdInv b) (hfrom : BlocksFrom b b')
    {listed : List PendingBlock} (hl : Listing b listed) {ids : List ℤ}
    (hids : ∀ id ∈ ids, ∃ q ∈ listed, q.id = id) {pb : PendingBlock} (hpb : pb ∈ b'.pending) :
    pb.id ∈ ids ↔ ListedUnder listed ids pb := by
  constructor
  · intro hid
    obtain ⟨q, hq, hqid⟩ := hids pb.id hid
    have hqb := hl.mem_pending hq
    refine ⟨q, hq, hqid ▸ hid, ?_⟩
    rcases hfrom.from_old pb hpb with ⟨old, hold, hoid, hohit⟩ | hnew
    · have hsame : q = old := List.inj_on_of_nodup_map h.ids_nodup hqb hold (hqid.trans hoid.symm)
      exact Prod.ext hqid (hsame ▸ hohit)
    · have hlt := h.ids_lt q hqb
      omega
  · rintro ⟨q, -, hid, hkey⟩
    have hqid : q.id = pb.id := (Prod.mk.inj hkey).1
    exact hqid ▸ hid

/-- Where ids differ, the first block with an id is the only one. -/
theorem modifyFirst_id {blocks : List PendingBlock} (h : (blocks.map PendingBlock.id).Nodup)
    (id : ℤ) (f : PendingBlock → PendingBlock) :
    modifyFirst (fun pb => pb.id == id) f blocks =
      blocks.map fun pb => if pb.id ∈ [id] then f pb else pb := by
  induction blocks with
  | nil => rfl
  | cons pb blocks ih =>
    rw [List.map_cons, List.nodup_cons] at h
    rw [modifyFirst, List.map_cons]
    by_cases hid : pb.id = id
    · have hrest : blocks.map (fun pb => if pb.id ∈ [id] then f pb else pb) = blocks := by
        refine (List.map_congr_left fun q hq => if_neg ?_).trans (List.map_id blocks)
        rw [List.mem_singleton]
        exact fun hqid => h.1 (List.mem_map.mpr ⟨q, hq, hqid.trans hid.symm⟩)
      rw [if_pos (by simpa using hid), hrest, if_pos (by simpa using hid)]
    · rw [if_neg (by simpa using hid), ih h.2, if_neg (by simpa using hid)]

theorem setForwardedAll_pending {b : BlockStore} (h : IdInv b) (ids : List ℤ) :
    (ids.foldl setForwarded b).pending =
      b.pending.map fun pb => if pb.id ∈ ids then { pb with forwarded := true } else pb := by
  induction ids generalizing b with
  | nil => simp
  | cons id ids ih =>
    obtain ⟨hblocks, hnext⟩ := setForwardedAll_blockHit b [id]
    have hone : IdInv (setForwarded b id) := h.noted hnext.ge hblocks
    have hpending : (setForwarded b id).pending = _ := modifyFirst_id h.ids_nodup id _
    rw [List.foldl_cons, ih hone, hpending, List.map_map]
    refine List.map_congr_left fun pb _ => ?_
    simp only [Function.comp, List.mem_cons, List.not_mem_nil, or_false]
    split_ifs <;> grind

/-- Whatever happens between a listing and a marking of ids it listed, the marking is about
the blocks that were listed, and an id whose block has gone is not used again. -/
theorem marks_find_listed (castInt : ℤ → ℤ) {b : BlockStore}
    (hb : (storeMachine castInt).Reachable b) {listed : List PendingBlock}
    (hl : Listing b listed) (ops : List StoreOp) (ids : List ℤ)
    (hids : ∀ id ∈ ids, ∃ q ∈ listed, q.id = id) :
    let b' := execAll b ops
    (markSubmittedMany b' ids).store.pending =
        b'.pending.filter (fun pb => ¬ ListedUnder listed ids pb) ∧
      (markForwardedMany b' ids).store.pending = b'.pending.map (fun pb =>
        if ListedUnder listed ids pb then { pb with forwarded := true } else pb) ∧
      (∀ id ∈ ids, ∀ reason, (markPendingReason b' id reason).store.pending =
        b'.pending.map fun pb =>
          if ListedUnder listed [id] pb then { pb with queueReason := reason } else pb) ∧
      ∀ pb ∈ b.pending, (∀ q ∈ b'.pending, q.id ≠ pb.id) →
        ∀ later, ∀ q ∈ (execAll b' later).pending, q.id ≠ pb.id := by
  intro b'
  have hinv := storeMachine_idInv hb
  have hinv' : IdInv b' := hinv.execAll ops
  have hfrom := execAll_blocksFrom b ops
  refine ⟨?_, ?_, fun id hid reason => ?_, fun pb hpb hgone later q hq heq => ?_⟩
  · refine (markSubmittedMany_pending b' ids).trans (List.filter_congr fun pb hpb => ?_)
    simp only [mem_ids_iff hinv hfrom hl hids hpb]
  · obtain ⟨n, hn⟩ := markForwardedMany_store b' ids
    rw [hn]
    refine (setForwardedAll_pending hinv' ids).trans (List.map_congr_left fun pb hpb => ?_)
    simp only [mem_ids_iff hinv hfrom hl hids hpb]
  · obtain ⟨n, hn⟩ := markPendingReason_store b' id reason
    have hone : ∀ i ∈ [id], ∃ q ∈ listed, q.id = i := by
      simpa using hids id hid
    rw [hn]
    refine (modifyFirst_id hinv'.ids_nodup id _).trans (List.map_congr_left fun pb hpb => ?_)
    simp only [mem_ids_iff hinv hfrom hl hone hpb]
  · rcases (execAll_blocksFrom b' later).from_old q hq with ⟨old, hold, hid, -⟩ | hnew
    · exact hgone old hold (hid.trans heq)
    · have hlt := hinv.ids_lt pb hpb
      have hnext : b.nextId ≤ b'.nextId := hfrom.nextId_le
      omega

def bagDigest (digest : Str) : StoreOp := .enqueue { latinHit with hashStr := digest, strategy := [] } [] []

def twoBagged : BlockStore := execAll {} [bagDigest ['a'], bagDigest ['b']]

/-- Two blocks are listed; the first is removed and its digest bagged again before the ids of
both are marked. -/
theorem marks_find_listed_run :
    (markSubmittedMany (execAll twoBagged [.markSubmitted 1, bagDigest ['a']]) [1, 2]).store.pending =
        (execAll twoBagged [.markSubmitted 1, bagDigest ['a']]).pending.filter
          (fun pb => ¬ ListedUnder (listPending twoBagged) [1, 2] pb) ∧
      (markSubmittedMany (execAll twoBagged [.markSubmitted 1, bagDigest ['a']])
        [1, 2]).store.pending.map PendingBlock.id = [3] := by
  have hempty : (storeMachine id).Reachable {} := .start ⟨none, rfl⟩
  have hb : (storeMachine id).Reachable twoBagged := storeMachine_execAll hempty _
  have hids : ∀ i ∈ [(1 : ℤ), 2], ∃ q ∈ listPending twoBagged, q.id = i := by decide +kernel
  have hmarks := marks_find_listed id hb .pending [.markSubmitted 1, bagDigest ['a']] [1, 2] hids
  exact ⟨hmarks.1, by decide +kernel⟩

end XnMiner

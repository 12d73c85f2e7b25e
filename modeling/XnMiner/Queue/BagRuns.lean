import XnMiner.Queue.BagInvariant
import XnMiner.Queue.CodecLaws
import XnMiner.System.Machine

/-! # The bag invariant over runs

A run alternates public operations with constructions on other files. It keeps the
invariant as long as no enqueue throws after it has claimed the digest.
-/
namespace XnMiner
open TextCodec Transitions

theorem BagInv.raise {b : BlockStore} (h : BagInv b) : BagInv { b with nextId := b.nextId + 1 } where
  nextId_pos := by
    have := h.nextId_pos
    simp only
    omega
  ids_range := by
    intro pb hpb
    have := h.ids_range pb hpb
    simp only
    omega
  ids_nodup := h.ids_nodup
  hashes_apart := h.hashes_apart
  indexed := h.indexed

/-- Saved blocks that are read with ids and hashes other than the bag's and each other's. -/
theorem BagInv.loadItems_saved {b : BlockStore} (h : BagInv b) (blocks : List PendingBlock)
    (hpos : ∀ pb ∈ blocks.map (narrowBlock id), 1 ≤ pb.id)
    (hids : ((b.pending ++ blocks.map (narrowBlock id)).map PendingBlock.id).Nodup)
    (hapart : (b.pending ++ blocks.map (narrowBlock id)).Pairwise Apart) :
    BagInv (loadItems id b (blocks.map fun pb => readBack (pendingToJson pb))) := by
  induction blocks generalizing b with
  | nil => exact h
  | cons block blocks ih =>
    rw [List.map_cons] at hpos hids hapart
    rw [List.map_cons, loadItems_cons_saved]
    set pb := narrowBlock id block
    split_ifs
    · have hmid : (b.pending ++ [pb]) ++ blocks.map (narrowBlock id) =
          b.pending ++ pb :: blocks.map (narrowBlock id) := by simp
      refine ih ?_ (fun q hq => hpos q (.tail _ hq)) (hmid ▸ hids) (hmid ▸ hapart)
      refine h.raise.add (hpos pb (.head _)) ?_ ?_
      · intro e he heq
        rw [List.map_append, List.nodup_append] at hids
        exact hids.2.2 e.id (List.mem_map_of_mem he) pb.id (by simp) heq
      · by_cases hne : pb.hit.hashStr = []
        · exact .inl hne
        · right
          rw [h.indexed, mem_hashesOf]
          rintro ⟨-, e, he, heq⟩
          rw [List.pairwise_append] at hapart
          exact hapart.2.2 e he pb (.head _) (heq ▸ hne) heq
    · exact h.raise

/-- The counter and the ids are values of an `int64_t`, as they are until it overflows. -/
def idsFit (b : BlockStore) : Prop :=
  toInt64 b.nextId = b.nextId ∧ ∀ pb ∈ b.pending, toInt64 pb.id = pb.id

/-- The db files a save can leave: the document it writes, or any prefix of it. -/
def savedDb (b : BlockStore) (db : Option Str) : Prop :=
  db = none ∨ idsFit b ∧
    ∃ text p, .db text ∈ (saveDbUnlocked b).writes ∧ p <+: text ∧ db = some p

theorem map_narrowBlock_id {b : BlockStore} (h : idsFit b) (castInt : ℤ → ℤ) :
    (b.pending.map (narrowBlock castInt)).map PendingBlock.id = b.pending.map PendingBlock.id := by
  rw [List.map_map]
  exact List.map_congr_left h.2

theorem saveDbUnlocked_writes {b : BlockStore} {text : Str}
    (h : .db text ∈ (saveDbUnlocked b).writes) : text = [] ∨ dump (dbJson b) = some text := by
  unfold saveDbUnlocked at h
  split at h
  · left
    simpa using h
  · next hd =>
    right
    rw [hd]
    simpa [eq_comm] using h

theorem BagInv.loadDb {b : BlockStore} (h : BagInv b) {db : Option Str} (hdb : savedDb b db) :
    BagInv (loadDb id db) := by
  rcases hdb with rfl | ⟨hfit, text, p, hw, hp, rfl⟩
  · exact BagInv.empty
  · rcases saveDbUnlocked_writes hw with rfl | hd
    · rw [List.prefix_nil.mp hp]
      exact BagInv.empty
    · by_cases hne : p = text
      · subst hne
        rw [loadDb_saved id hd]
        rw [hfit.1]
        refine BagInv.loadItems_saved ?_ b.pending ?_ ?_ ?_
        · exact ⟨h.nextId_pos, by simp, by simp, by simp, rfl⟩
        · rw [List.forall_mem_map]
          intro pb hpb
          rw [narrowBlock_id, hfit.2 pb hpb]
          exact (h.ids_range pb hpb).1
        · rw [List.nil_append, map_narrowBlock_id hfit]
          exact h.ids_nodup
        · rw [List.nil_append, List.pairwise_map]
          exact h.hashes_apart
      · rw [loadDb_torn id hd hp hne]
        exact BagInv.empty

theorem BagInv.repairId_fresh {b : BlockStore} (h : BagInv b) (i : ℤ) :
    1 ≤ repairId b i ∧ ∀ e ∈ b.pending, e.id ≠ repairId b i := by
  have hnext : ∀ e ∈ b.pending, e.id ≠ b.nextId := fun e he heq => by
    have := (h.ids_range e he).2
    omega
  unfold repairId
  split_ifs with hlow htaken
  · exact ⟨h.nextId_pos, hnext⟩
  · exact ⟨h.nextId_pos, hnext⟩
  · refine ⟨by omega, fun e he heq => htaken ?_⟩
    exact List.any_eq_true.mpr ⟨e, he, by simp [heq]⟩

variable {castInt : ℤ → ℤ}

theorem BagInv.recoverRecord {b b' : BlockStore} (h : BagInv b) {rec : Json}
    (hr : recoverRecord castInt b rec = some b') : BagInv b' := by
  obtain ⟨hit, -, ⟨-, rfl⟩ | ⟨hnew, i, reason, count, rfl⟩⟩ := recoverRecord_cases hr
  · exact h
  · obtain ⟨hpos, hfresh⟩ := h.repairId_fresh i
    exact h.add hpos hfresh (.inr fun hin => hnew (.inr hin))

theorem BagInv.recoverLine {b b' : BlockStore} (h : BagInv b) {line : Str}
    (hr : recoverLine castInt b line = some b') : BagInv b' := by
  unfold XnMiner.recoverLine at hr
  split at hr
  · exact Option.some.inj hr ▸ h
  · split at hr
    · exact h.recoverRecord hr
    · exact Option.some.inj hr ▸ h

theorem BagInv.recoverLines {b b' : BlockStore} (h : BagInv b) {lines : List Str}
    (hr : recoverLines castInt b lines = some b') : BagInv b' := by
  induction lines generalizing b with
  | nil => exact Option.some.inj hr ▸ h
  | cons line lines ih =>
    obtain ⟨b1, h1, hr⟩ := Option.bind_eq_some_iff.mp hr
    exact ih (h.recoverLine h1) hr

/-- What recovery leaves is what the lines of the log give, saved or not. -/
theorem recoverJsonl_some {b b' : BlockStore} {jsonl : Option Str}
    (hr : (recoverJsonlUnlocked castInt b jsonl).2 = some b') :
    ∃ b1 n, recoverLines castInt b (fileLines (jsonl.getD [])) = some b1 ∧
      b' = { b1 with dirtyOps := n } := by
  unfold recoverJsonlUnlocked at hr
  cases jsonl with
  | none =>
    obtain rfl := Option.some.inj hr
    exact ⟨b, b.dirtyOps, rfl, rfl⟩
  | some text =>
    dsimp only at hr
    split at hr
    · cases hr
    · next b1 h1 =>
      split_ifs at hr
      · obtain ⟨-, -, he⟩ := Option.map_eq_some_iff.mp hr
        obtain ⟨n, hn⟩ := saveDbUnlocked_store b1
        exact ⟨b1, n, h1, he.symm.trans hn⟩
      · exact ⟨b1, b1.dirtyOps, h1, (Option.some.inj hr).symm⟩

theorem BagInv.recoverJsonl {b b' : BlockStore} (h : BagInv b) {jsonl : Option Str}
    (hr : (recoverJsonlUnlocked castInt b jsonl).2 = some b') : BagInv b' := by
  obtain ⟨b1, n, h1, rfl⟩ := recoverJsonl_some hr
  exact (h.recoverLines h1).dirty n

/-- A fresh digest is enqueued with a record that can be printed. -/
def enqueuePrints (b : BlockStore) (hit : BlockHit) (reason queuedAt : Str) : Prop :=
  isDuplicate b hit ∨ hit.hashStr = [] ∨
    (hit.utf8 = true ∧ validUtf8 queuedAt = true ∧ validUtf8 reason = true)

theorem dump_queueRecord_eq_none {pb : PendingBlock} {queuedAt : Str} :
    dump (queueRecord pb queuedAt) = none ↔
      ¬ (pb.hit.utf8 = true ∧ validUtf8 queuedAt = true ∧ validUtf8 pb.queueReason = true) := by
  rw [dump, utf8Ok_queueRecord]
  simp only [ite_eq_right_iff, reduceCtorEq, imp_false, Bool.and_eq_true]

/-- Claiming a fresh digest without adding its block breaks the index. -/
theorem BagInv.claimId_iff {b : BlockStore} (h : BagInv b) {hit : BlockHit}
    (hd : ¬ isDuplicate b hit) : BagInv (claimId b hit) ↔ hit.hashStr = [] := by
  constructor
  · intro hc
    by_contra hne
    have hin : hit.hashStr ∈ (claimId b hit).hashIndex := by simp [claimId, hne]
    rw [hc.indexed] at hin
    exact hd ⟨hne, h.indexed ▸ hin⟩
  · intro he
    have heq : claimId b hit = { b with nextId := b.nextId + 1 } := by simp [claimId, he]
    rw [heq]
    exact h.raise

theorem BagInv.enqueue_iff {b : BlockStore} (h : BagInv b) (hit : BlockHit)
    (reason queuedAt : Str) :
    BagInv (enqueue b hit reason queuedAt).store ↔ enqueuePrints b hit reason queuedAt := by
  have hcases := enqueue_cases b hit reason queuedAt
  generalize enqueue b hit reason queuedAt = e at hcases
  cases hcases with
  | duplicate hd => exact iff_of_true h (.inl hd)
  | unprinted hd ht =>
    have hbad := dump_queueRecord_eq_none.mp ht
    rw [h.claimId_iff hd]
    exact ⟨fun he => .inr (.inl he), fun hp => (hp.resolve_left hd).resolve_right hbad⟩
  | @added text n hd ht =>
    have hgood : ¬ dump (queueRecord (freshBlock b hit reason) queuedAt) = none := by simp [ht]
    rw [dump_queueRecord_eq_none, not_not] at hgood
    exact iff_of_true (((h.fresh reason hd).dirty _).dirty n) (.inr (.inr hgood))

def StoreOp.prints (b : BlockStore) (op : StoreOp) : Prop :=
  match op with
  | .enqueue hit reason queuedAt => enqueuePrints b hit reason queuedAt
  | .recordRejection hit httpStatus body source reason now =>
    dump (rejectionRecord hit httpStatus body source now) = none ∨ enqueuePrints b hit reason now
  | _ => True

theorem BagInv.exec_iff {b : BlockStore} (h : BagInv b) (op : StoreOp) :
    BagInv (op.exec b).1 ↔ op.prints b := by
  cases op with
  | enqueue hit reason queuedAt => exact h.enqueue_iff hit reason queuedAt
  | recordRejection hit httpStatus body source reason now =>
    simp only [StoreOp.exec, Effect.footprint, StoreOp.prints]
    by_cases hlog : dump (rejectionRecord hit httpStatus body source now) = none
    · rw [recordRejection_throws hlog]
      exact iff_of_true h (.inl hlog)
    · obtain ⟨text, ht⟩ := Option.ne_none_iff_exists'.mp hlog
      rw [recordRejection_logged ht, or_iff_right hlog]
      exact h.enqueue_iff hit reason now
  | markSubmitted id =>
    refine iff_of_true ?_ trivial
    obtain ⟨n, hn⟩ := markSubmittedMany_store b [id]
    simp only [StoreOp.exec, Effect.footprint, XnMiner.markSubmitted, hn]
    exact (h.eraseIds [id]).dirty n
  | markSubmittedMany ids =>
    refine iff_of_true ?_ trivial
    obtain ⟨n, hn⟩ := markSubmittedMany_store b ids
    simp only [StoreOp.exec, Effect.footprint, hn]
    exact (h.eraseIds ids).dirty n
  | markPendingReason id reason =>
    refine iff_of_true ?_ trivial
    obtain ⟨n, hn⟩ := markPendingReason_store b id reason
    simp only [StoreOp.exec, Effect.footprint, hn]
    exact (h.setReason id reason).dirty n
  | markForwardedMany ids =>
    refine iff_of_true ?_ trivial
    obtain ⟨n, hn⟩ := markForwardedMany_store b ids
    simp only [StoreOp.exec, Effect.footprint, hn]
    exact (h.setForwardedAll ids).dirty n
  | deferAllToNextStart minute =>
    refine iff_of_true ?_ trivial
    obtain ⟨n, hn⟩ := deferAllToNextStart_store b minute
    simp only [StoreOp.exec, Effect.footprint, hn]
    exact (h.deferAll minute).dirty n
  | flush =>
    refine iff_of_true ?_ trivial
    obtain ⟨n, hn⟩ := flush_store b
    simp only [StoreOp.exec, Effect.footprint, hn]
    exact h.dirty n

/-- A public operation, or a construction on a db file of this store and any log. -/
inductive BagAction where
  | op (op : StoreOp)
  | reload (db jsonl : Option Str)

def bagMachine : Machine BlockStore BagAction where
  init b := ∃ jsonl, (construct id { db := none, jsonl := jsonl }).2 = some b
  step b a b' :=
    match a with
    | .op op => b' = (op.exec b).1
    | .reload db jsonl => savedDb b db ∧ (construct id { db := db, jsonl := jsonl }).2 = some b'

def BagAction.prints (b : BlockStore) (a : BagAction) : Prop :=
  match a with
  | .op storeOp => storeOp.prints b
  | .reload _ _ => True

theorem bag_step_iff {b b' : BlockStore} {a : BagAction} (h : BagInv b)
    (hs : bagMachine.step b a b') : BagInv b' ↔ a.prints b := by
  cases a with
  | op op =>
    obtain rfl : b' = (op.exec b).1 := hs
    exact h.exec_iff op
  | reload db jsonl =>
    refine iff_of_true ?_ trivial
    exact (h.loadDb hs.1).recoverJsonl hs.2

/-- A run whose enqueues print keeps the invariant, and the first other enqueue breaks it. -/
theorem bag_representation (b : BlockStore)
    (hb : (bagMachine.restrict fun b a => a.prints b).Reachable b) :
    BagInv b ∧ ∀ a b', bagMachine.step b a b' → (BagInv b' ↔ a.prints b) := by
  have hinv : BagInv b := by
    refine Machine.Reachable.invariant ?_ ?_ hb
    · rintro s ⟨jsonl, hs⟩
      exact BagInv.empty.recoverJsonl hs
    · rintro s a t - hinv ⟨hprints, hs⟩
      exact (bag_step_iff hinv hs).mpr hprints
  exact ⟨hinv, fun a b' hs => bag_step_iff hinv hs⟩

def latinHit : BlockHit :=
  { key := [], hashStr := "h".toList, blockType := "XNM".toList, attempts := 0,
    strategy := ['r', Char.ofNat 0xE9], hps := zeroDouble, foundAt := [], memoryCost := none }

theorem latinHit_not_indexed : ¬ Indexed ((StoreOp.enqueue latinHit [] []).exec {}).1 := by
  intro h
  have hmem : latinHit.hashStr ∈ ((StoreOp.enqueue latinHit [] []).exec {}).1.hashIndex := by
    decide +kernel
  have hpending : ((StoreOp.enqueue latinHit [] []).exec {}).1.pending = [] := by decide +kernel
  obtain ⟨-, pb, hpb, -⟩ := h.mem_iff.mp hmem
  rw [hpending] at hpb
  cases hpb

theorem bag_representation_fails : ¬ ∀ b, bagMachine.Reachable b → BagInv b := by
  intro hall
  have hstart : bagMachine.Reachable {} := .start ⟨none, rfl⟩
  have hnext : bagMachine.Reachable ((StoreOp.enqueue latinHit [] []).exec {}).1 :=
    hstart.next (a := .op (.enqueue latinHit [] [])) rfl
  exact latinHit_not_indexed (hall _ hnext).indexed

/-- A run that meets the condition, and the step that breaks the invariant. -/
theorem bag_representation_run :
    BagInv ((StoreOp.enqueue { latinHit with strategy := [] } [] []).exec {}).1 ∧
    ¬ BagAction.prints {} (.op (.enqueue latinHit [] [])) := by
  have hstart : (bagMachine.restrict fun b a => a.prints b).Reachable {} := .start ⟨none, rfl⟩
  constructor
  · refine (bag_representation _ (hstart.next (a := .op (.enqueue { latinHit with strategy := [] }
      [] [])) ⟨.inr (.inr ?_), rfl⟩)).1
    decide +kernel
  · rw [← (bag_representation {} hstart).2 (.op (.enqueue latinHit [] [])) _ rfl]
    exact fun h => latinHit_not_indexed h.indexed

end XnMiner

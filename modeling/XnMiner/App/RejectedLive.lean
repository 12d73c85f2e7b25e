import XnMiner.App.Handoff
import XnMiner.Queue.EnqueueThrows

/-! # The audit record of a rejected live block

The block has left the queue when its rejection is logged, and the log comes before the bag. An
exception of either leaves the worker's thread.
-/
namespace XnMiner
open TextCodec

variable {b : BlockStore} {hit : BlockHit} {body source reason queuedAt : Str} {status : ℤ}

theorem recordRejection_isSome (b : BlockStore) (hit : BlockHit) (status : ℤ)
    (body source reason queuedAt : Str) :
    (recordRejection b hit status body source reason queuedAt).result.isSome = true ↔
      (hit.utf8 = true ∧ validUtf8 body = true ∧ validUtf8 source = true ∧
          validUtf8 queuedAt = true) ∧
        (isDuplicate b hit ∨ b.canAdd hit reason queuedAt) := by
  have hlog := dump_isSome (rejectionRecord hit status body source queuedAt)
  rw [utf8Ok_rejectionRecord] at hlog
  cases ht : dump (rejectionRecord hit status body source queuedAt) with
  | none =>
    rw [ht] at hlog
    rw [recordRejection_throws ht]
    constructor
    · intro hreturns
      cases hreturns
    · rintro ⟨⟨hhit, hbody, hsource, hat⟩, -⟩
      rw [hhit, hbody, hsource, hat] at hlog
      cases hlog
  | some text =>
    rw [ht] at hlog
    have hprinted := hlog.symm
    simp only [Option.isSome_some, Bool.and_eq_true] at hprinted
    rw [recordRejection_logged ht, Option.isSome_map, enqueue_isSome]
    exact ⟨fun hadd => ⟨hprinted, hadd⟩, fun h => h.2⟩

/-- A recorded rejection leaves what its enqueue leaves. -/
theorem recordRejection_store
    (hreturns : (recordRejection b hit status body source reason queuedAt).result.isSome = true) :
    (recordRejection b hit status body source reason queuedAt).store =
        (enqueue b hit reason queuedAt).store ∧
      (enqueue b hit reason queuedAt).result.isSome = true := by
  cases ht : dump (rejectionRecord hit status body source queuedAt) with
  | none =>
    rw [recordRejection_throws ht] at hreturns
    cases hreturns
  | some text =>
    rw [recordRejection_logged ht, Option.isSome_map] at hreturns
    rw [recordRejection_logged ht]
    exact ⟨rfl, hreturns⟩

/-- Only a digest that the index has without a block is missing after an enqueue. -/
theorem enqueue_bagged_iff (hreturns : (enqueue b hit reason queuedAt).result.isSome = true) :
    bagged (enqueue b hit reason queuedAt).store hit ↔ (isDuplicate b hit → bagged b hit) := by
  have hcases := enqueue_cases b hit reason queuedAt
  generalize enqueue b hit reason queuedAt = e at hcases hreturns
  cases hcases with
  | duplicate hd => exact ⟨fun h _ => h, fun h => h hd⟩
  | unprinted => cases hreturns
  | added hd ht =>
    refine ⟨fun _ h => absurd h hd, fun _ => ?_⟩
    exact ⟨freshBlock b hit reason, List.mem_append_right _ (List.mem_singleton_self _), rfl⟩

/-- The next step of a worker that records a rejection. -/
theorem rejecting_next {cfg : Settings} {w t : HandoffWorld} {a : SubmitResult}
    {batch : List LiveSubmitJob} (hpc : w.worker = .rejecting hit a batch) (r : Readings) :
    let e := recordRejection w.shared.store hit a.status a.body "live".toList
      (if isDifficultyMismatch a.status a.body then "parked".toList else "resubmission".toList)
      r.stamp
    w.step cfg (.worker (.next r)) = some t ↔ e.result.isSome = true ∧
      t = { w with shared := { w.shared with store := e.store }, worker := .processing batch } := by
  intro e
  have hstep : w.step cfg (.worker (.next r)) = e.result.map fun _ =>
      { w with shared := { w.shared with store := e.store }, worker := .processing batch } := by
    simp only [HandoffWorld.step, hpc, SubmitPc.step, SubmitPc.next, Shared.callStore,
      Option.map_map, Function.comp_def, e]
  rw [hstep]
  cases e.result with
  | none => simp
  | some _ => simp [eq_comm]

/-- A live block that is rejected gets into the bag, and the worker goes on, exactly if the answer
is valid UTF-8 and the bag is fit for an enqueue. -/
theorem rejected_live_kept_iff (cfg : Settings) (w : HandoffWorld) (hit : BlockHit)
    (a : SubmitResult) (batch : List LiveSubmitJob) (r : Readings)
    (hpc : w.worker = .rejecting hit a batch) (hhit : hit.utf8 = true) :
    (∃ t, w.step cfg (.worker (.next r)) = some t ∧ t.worker = .processing batch ∧
        bagged t.shared.store hit) ↔
      validUtf8 a.body = true ∧ validUtf8 r.stamp = true ∧
        (isDuplicate w.shared.store hit → bagged w.shared.store hit) ∧
        (¬ isDuplicate w.shared.store hit → kSaveEveryOps ≤ w.shared.store.dirtyOps + 1 →
          ∀ pb ∈ w.shared.store.pending, pb.prints) := by
  set reason := if isDifficultyMismatch a.status a.body then "parked".toList
    else "resubmission".toList with hreason
  have hvalid : validUtf8 reason = true := by
    rw [hreason]
    split_ifs <;> decide
  have hlive : validUtf8 "live".toList = true := by decide
  have hreturns := recordRejection_isSome w.shared.store hit a.status a.body "live".toList reason
    r.stamp
  constructor
  · rintro ⟨t, hstep, -, hbagged⟩
    obtain ⟨hsome, rfl⟩ := (rejecting_next hpc r).mp hstep
    obtain ⟨⟨-, hbody, -, hstamp⟩, hadd⟩ := hreturns.mp hsome
    obtain ⟨hstore, henqueued⟩ := recordRejection_store hsome
    refine ⟨hbody, hstamp, ?_, ?_⟩
    · dsimp only at hbagged
      rw [hstore] at hbagged
      exact (enqueue_bagged_iff henqueued).mp hbagged
    · intro hfresh
      rcases hadd with hdup | hcan
      · exact absurd hdup hfresh
      · exact hcan.bag
  · rintro ⟨hbody, hstamp, hindexed, hsaves⟩
    have hadd : isDuplicate w.shared.store hit ∨ w.shared.store.canAdd hit reason r.stamp := by
      by_cases hd : isDuplicate w.shared.store hit
      · exact .inl hd
      · exact .inr ⟨hhit, hvalid, hstamp, hsaves hd⟩
    have hsome := hreturns.mpr ⟨⟨hhit, hbody, hlive, hstamp⟩, hadd⟩
    obtain ⟨hstore, henqueued⟩ := recordRejection_store hsome
    refine ⟨_, (rejecting_next hpc r).mpr ⟨hsome, rfl⟩, rfl, ?_⟩
    dsimp only
    rw [hstore]
    exact (enqueue_bagged_iff henqueued).mpr hindexed

def sentBlock : BlockHit :=
  { key := "key".toList, hashStr := "digest".toList, blockType := "XNM".toList }

def nextJob : LiveSubmitJob :=
  { hit := { sentBlock with hashStr := "other".toList }, kind := "XNM".toList }

def sentWorld : HandoffWorld := { worker := .submitting sentBlock [nextJob] }

def refusedWorld (body : Str) : HandoffWorld :=
  { worker := .rejecting sentBlock ⟨400, body⟩ [nextJob] }

/-- An answer that is text costs nothing. -/
theorem rejected_live_kept_text : ∃ t,
    (refusedWorld "bad".toList).step {} (.worker (.next {})) = some t ∧
      t.worker = .processing [nextJob] ∧ bagged t.shared.store sentBlock :=
  (rejected_live_kept_iff {} (refusedWorld "bad".toList) sentBlock ⟨400, "bad".toList⟩ [nextJob] {}
    rfl (by decide)).mpr ⟨by decide, by decide, fun hdup => absurd hdup (by decide),
      fun _ hdue => absurd hdue (by decide)⟩

/-- One byte that is no text: the block is nowhere, and the worker stands still. -/
theorem rejected_live_lost : ∃ w,
    sentWorld.step {} (.worker (.answer ⟨400, [Char.ofNat 0xFF]⟩)) = some w ∧
      w.shared.liveSubmitQ.length = 0 ∧ w.shared.store.pending = [] ∧
      ∀ r, w.step {} (.worker (.next r)) = none := by
  refine ⟨refusedWorld [Char.ofNat 0xFF], by rfl, rfl, rfl, fun r => ?_⟩
  rw [Option.eq_none_iff_forall_ne_some]
  intro t hstep
  have hsome := ((rejecting_next rfl r).mp hstep).1
  obtain ⟨⟨-, hbody, -⟩, -⟩ := (recordRejection_isSome _ _ _ _ _ _ _).mp hsome
  revert hbody
  decide

end XnMiner

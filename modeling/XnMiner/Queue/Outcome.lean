import XnMiner.Queue.Store

/-! # What an operation can do to the members and the files

Three cases cover every public operation: nothing that matters, a fresh block with
its log line, or an update of the list followed by a save.
-/
namespace XnMiner
open TextCodec

inductive Saves (b : BlockStore) : Effect Unit → Prop where
  | skipped : Saves b (done b ())
  | failed (h : dump (dbJson b) = none) : Saves b { store := b, writes := [.db []], result := none }
  | saved (text : Str) (h : dump (dbJson b) = some text) :
    Saves b { store := { b with dirtyOps := 0 }, writes := [.db text], result := some () }

theorem saves_saveDbUnlocked (b : BlockStore) : Saves b (saveDbUnlocked b) := by
  unfold saveDbUnlocked
  split
  · exact .failed ‹_›
  · exact .saved _ ‹_›

theorem saves_maybeSaveUnlocked (b : BlockStore) : Saves b (maybeSaveUnlocked b) := by
  unfold maybeSaveUnlocked
  split
  · exact saves_saveDbUnlocked b
  · exact .skipped

theorem Saves.pending {b : BlockStore} {e : Effect Unit} (h : Saves b e) :
    e.store.pending = b.pending := by
  cases h <;> rfl

def loggedByEnqueue (b : BlockStore) (hit : BlockHit) (reason queuedAt : Str) :
    List (PendingBlock × Str) :=
  if isDuplicate b hit then []
  else if dump (queueRecord (freshBlock b hit reason) queuedAt) = none then []
  else [(freshBlock b hit reason, queuedAt)]

def loggedBy (b : BlockStore) (op : StoreOp) : List (PendingBlock × Str) :=
  match op with
  | .enqueue hit reason queuedAt => loggedByEnqueue b hit reason queuedAt
  | .recordRejection hit httpStatus body source reason now =>
    if dump (rejectionRecord hit httpStatus body source now) = none then []
    else loggedByEnqueue b hit reason now
  | _ => []

def StoreOp.removes (op : StoreOp) : List ℤ :=
  match op with
  | .markSubmitted id => [id]
  | .markSubmittedMany ids => ids
  | _ => []

def logLine (entry : PendingBlock × Str) : Str := dumpText (queueRecord entry.1 entry.2)

/-- A write that leaves the db file and the text of the log alone. -/
def Write.quiet (w : Write) : Prop := w = .jsonl [] ∨ ∃ text, w = .rejected text

/-- The blocks after an update: hits and ids are kept, and only removed ids disappear. -/
structure Kept (blocks blocks' : List PendingBlock) (removed : List ℤ) : Prop where
  from_old : ∀ pb' ∈ blocks', ∃ pb ∈ blocks, pb.id = pb'.id ∧ pb.hit = pb'.hit ∧
    pb.rejectCount = pb'.rejectCount
  to_new : ∀ pb ∈ blocks, pb.id ∉ removed → ∃ pb' ∈ blocks', pb'.id = pb.id ∧ pb'.hit = pb.hit

inductive Outcome (b : BlockStore) (op : StoreOp) : Prop where
  | quiet (b1 : BlockStore) (ws : List Write) (hexec : op.exec b = (b1, ws))
      (hlog : loggedBy b op = []) (hpending : b1.pending = b.pending)
      (hdirty : b1.dirtyOps = b.dirtyOps) (hws : ∀ w ∈ ws, w.quiet)
  | fresh (hit : BlockHit) (reason queuedAt : Str) (rejections : List Write) (e : Effect Unit)
      (hexec : op.exec b = (e.store, rejections ++
        .jsonl (logLine (freshBlock b hit reason, queuedAt) ++ ['\n']) :: e.writes))
      (hlog : loggedBy b op = [(freshBlock b hit reason, queuedAt)])
      (hprint : utf8Ok (queueRecord (freshBlock b hit reason) queuedAt) = true)
      (hsave : Saves (markDirtyUnlocked (addFresh b hit reason)) e)
      (hws : ∀ w ∈ rejections, w.quiet)
  | update (b1 : BlockStore) (e : Effect Unit) (hexec : op.exec b = (e.store, e.writes))
      (hlog : loggedBy b op = []) (hkept : Kept b.pending b1.pending op.removes)
      (hdirty : 0 < b1.dirtyOps) (hsave : Saves b1 e)

theorem Disk.writeAll_append (d : Disk) (ws ws' : List Write) :
    d.writeAll (ws ++ ws') = (d.writeAll ws).writeAll ws' := List.foldl_append

def Disk.log (d : Disk) : Str := d.jsonl.getD []

theorem Disk.write_quiet (d : Disk) {w : Write} (h : w.quiet) :
    (d.write w).db = d.db ∧ (d.write w).log = d.log := by
  obtain rfl | ⟨text, rfl⟩ := h
  · simp [Disk.write, Disk.log]
  · exact ⟨rfl, rfl⟩

theorem Disk.writeAll_quiet (d : Disk) {ws : List Write} (h : ∀ w ∈ ws, w.quiet) :
    (d.writeAll ws).db = d.db ∧ (d.writeAll ws).log = d.log := by
  induction ws generalizing d with
  | nil => exact ⟨rfl, rfl⟩
  | cons w ws ih =>
    obtain ⟨hdb, hlog⟩ := d.write_quiet (h w (.head _))
    obtain ⟨hdb', hlog'⟩ := ih (d.write w) fun v hv => h v (.tail _ hv)
    exact ⟨hdb'.trans hdb, hlog'.trans hlog⟩

theorem Saves.log {b : BlockStore} {e : Effect Unit} (h : Saves b e) (d : Disk) :
    (d.writeAll e.writes).log = d.log := by
  cases h <;> rfl

@[simp] theorem Disk.log_write_jsonl (d : Disk) (text : Str) :
    (d.write (.jsonl text)).log = d.log ++ text := rfl

theorem Kept.refl (blocks : List PendingBlock) (removed : List ℤ) : Kept blocks blocks removed where
  from_old := fun pb hpb => ⟨pb, hpb, rfl, rfl, rfl⟩
  to_new := fun pb hpb _ => ⟨pb, hpb, rfl, rfl⟩

theorem Kept.map {blocks blocks' : List PendingBlock} (removed : List ℤ)
    (h : blocks'.map (fun pb => (pb.id, pb.hit, pb.rejectCount)) =
      blocks.map (fun pb => (pb.id, pb.hit, pb.rejectCount))) : Kept blocks blocks' removed where
  from_old := by
    intro pb' hpb'
    have hmem := List.mem_map_of_mem (f := fun pb : PendingBlock =>
      (pb.id, pb.hit, pb.rejectCount)) hpb'
    rw [h] at hmem
    obtain ⟨pb, hpb, heq⟩ := List.mem_map.mp hmem
    simp only [Prod.mk.injEq] at heq
    exact ⟨pb, hpb, heq⟩
  to_new := by
    intro pb hpb _
    have hmem := List.mem_map_of_mem (f := fun pb : PendingBlock =>
      (pb.id, pb.hit, pb.rejectCount)) hpb
    rw [← h] at hmem
    obtain ⟨pb', hpb', heq⟩ := List.mem_map.mp hmem
    simp only [Prod.mk.injEq] at heq
    exact ⟨pb', hpb', heq.1, heq.2.1⟩

theorem eraseIds_pending (b : BlockStore) (ids : List ℤ) :
    (eraseIds b ids).pending = b.pending.filter fun pb => pb.id ∉ ids := by
  induction ids generalizing b with
  | nil => simp [eraseIds]
  | cons id ids ih =>
    have hstep : (eraseIds b (id :: ids)).pending = (eraseIds (eraseId b id) ids).pending := rfl
    rw [hstep, ih]
    simp only [eraseId, List.filter_filter, List.mem_cons, not_or, Bool.decide_and]
    exact List.filter_congr fun pb _ => Bool.and_comm _ _

theorem markSubmittedMany_pending (b : BlockStore) (ids : List ℤ) :
    (markSubmittedMany b ids).store.pending = b.pending.filter fun pb => pb.id ∉ ids := by
  obtain ⟨n, hn⟩ := markSubmittedMany_store b ids
  rw [hn]
  exact eraseIds_pending b ids

theorem Kept.eraseIds (b : BlockStore) (ids : List ℤ) :
    Kept b.pending (eraseIds b ids).pending ids where
  from_old := by
    intro pb hpb
    rw [eraseIds_pending] at hpb
    exact ⟨pb, (List.mem_filter.mp hpb).1, rfl, rfl, rfl⟩
  to_new := by
    intro pb hpb hout
    refine ⟨pb, ?_, rfl, rfl⟩
    rw [eraseIds_pending]
    exact List.mem_filter.mpr ⟨hpb, by simpa using hout⟩

theorem map_modifyFirst {α β : Type} {p : α → Bool} {f : α → α} {g : α → β}
    (hg : ∀ x, g (f x) = g x) (xs : List α) : (modifyFirst p f xs).map g = xs.map g := by
  induction xs with
  | nil => rfl
  | cons x xs ih =>
    rw [modifyFirst]
    split_ifs
    · simp [hg]
    · simp [ih]

theorem Kept.setReason (b : BlockStore) (id : ℤ) (reason : Str) :
    Kept b.pending (setReason b id reason).pending [] := by
  refine Kept.map [] ?_
  dsimp only [XnMiner.setReason]
  exact map_modifyFirst (by exact fun _ => rfl) b.pending

theorem Kept.setForwardedAll (b : BlockStore) (ids : List ℤ) :
    Kept b.pending (ids.foldl setForwarded b).pending [] := by
  refine Kept.map [] ?_
  induction ids generalizing b with
  | nil => rfl
  | cons id ids ih =>
    rw [List.foldl_cons, ih]
    dsimp only [setForwarded]
    exact map_modifyFirst (by exact fun _ => rfl) b.pending

theorem Kept.deferAll (b : BlockStore) (minute : ℕ) :
    Kept b.pending (deferAll b minute).pending [] := by
  refine Kept.map [] ?_
  simp [XnMiner.deferAll, Function.comp_def]

/-- An enqueue, behind the writes of an audit line. -/
theorem outcome_of_enqueue {b : BlockStore} {op : StoreOp} (hit : BlockHit) (reason queuedAt : Str)
    (rejections : List Write) (hrej : ∀ w ∈ rejections, w.quiet)
    (hexec : op.exec b = ((enqueue b hit reason queuedAt).store,
      rejections ++ (enqueue b hit reason queuedAt).writes))
    (hlog : loggedBy b op = loggedByEnqueue b hit reason queuedAt) : Outcome b op := by
  by_cases hd : isDuplicate b hit
  · rw [enqueue_duplicate hd] at hexec
    rw [loggedByEnqueue, if_pos hd] at hlog
    exact .quiet b rejections (by simpa using hexec) hlog rfl rfl hrej
  · cases ht : dump (queueRecord (freshBlock b hit reason) queuedAt) with
    | none =>
      rw [enqueue_throws hd ht] at hexec
      rw [loggedByEnqueue, if_neg hd, if_pos ht] at hlog
      refine .quiet (claimId b hit) _ hexec hlog rfl rfl fun w hw => ?_
      rcases List.mem_append.mp hw with hw | hw
      · exact hrej w hw
      · exact .inl (List.mem_singleton.mp hw)
    | some text =>
      obtain ⟨hprint, rfl⟩ := dump_eq_some ht
      rw [enqueue_fresh hd ht] at hexec
      rw [loggedByEnqueue, if_neg hd, if_neg (by simp [ht])] at hlog
      exact .fresh hit reason queuedAt rejections _ hexec hlog hprint
        (saves_maybeSaveUnlocked _) hrej

theorem store_outcome (b : BlockStore) (op : StoreOp) : Outcome b op := by
  cases op with
  | enqueue hit reason queuedAt =>
    exact outcome_of_enqueue hit reason queuedAt [] (by simp) rfl rfl
  | recordRejection hit httpStatus body source reason now =>
    cases hlog : dump (rejectionRecord hit httpStatus body source now) with
    | none =>
      refine .quiet b [.rejected []] ?_ ?_ rfl rfl ?_
      · simp only [StoreOp.exec, Effect.footprint, recordRejection_throws hlog]
      · simp only [loggedBy, if_pos hlog]
      · exact fun w hw => .inr ⟨[], List.mem_singleton.mp hw⟩
    | some text =>
      refine outcome_of_enqueue hit reason now [.rejected (text ++ ['\n'])] ?_ ?_ ?_
      · exact fun w hw => .inr ⟨_, List.mem_singleton.mp hw⟩
      · simp only [StoreOp.exec, Effect.footprint, recordRejection_logged hlog]
        rfl
      · simp only [loggedBy, hlog, reduceCtorEq, if_false]
  | markSubmitted id =>
    exact .update (markDirtyUnlocked (eraseIds b [id])) _ rfl rfl (Kept.eraseIds b [id])
      (Nat.succ_pos _) (saves_saveDbUnlocked _)
  | markSubmittedMany ids =>
    by_cases hids : ids = []
    · subst hids
      exact .quiet b [] rfl rfl rfl rfl (by simp)
    · refine .update (markDirtyUnlocked (eraseIds b ids)) (saveDbUnlocked _) ?_ rfl
        (Kept.eraseIds b ids) (Nat.succ_pos _) (saves_saveDbUnlocked _)
      simp only [StoreOp.exec, Effect.footprint, markSubmittedMany, if_neg hids]
  | markPendingReason id reason =>
    exact .update (markDirtyUnlocked (setReason b id reason)) _ rfl rfl (Kept.setReason b id reason)
      (Nat.succ_pos _) (saves_maybeSaveUnlocked _)
  | markForwardedMany ids =>
    by_cases hids : ids = []
    · subst hids
      exact .quiet b [] rfl rfl rfl rfl (by simp)
    · refine .update (markDirtyUnlocked (ids.foldl setForwarded b)) (saveDbUnlocked _) ?_ rfl
        (Kept.setForwardedAll b ids) (Nat.succ_pos _) (saves_saveDbUnlocked _)
      simp only [StoreOp.exec, Effect.footprint, markForwardedMany, if_neg hids]
  | deferAllToNextStart minute =>
    exact .update (markDirtyUnlocked (deferAll b minute)) _ rfl rfl (Kept.deferAll b minute)
      (Nat.succ_pos _) (saves_saveDbUnlocked _)
  | flush =>
    by_cases hdirty : 0 < b.dirtyOps
    · refine .update b (saveDbUnlocked b) ?_ rfl (Kept.refl _ _) hdirty (saves_saveDbUnlocked b)
      simp only [StoreOp.exec, Effect.footprint, flush, if_pos hdirty]
    · refine .quiet b [] ?_ rfl rfl rfl (by simp)
      simp only [StoreOp.exec, Effect.footprint, flush, if_neg hdirty]
      rfl

end XnMiner

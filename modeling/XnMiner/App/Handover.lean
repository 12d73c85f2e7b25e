import XnMiner.App.HandoffMoves
import XnMiner.Queue.BagRuns

/-! # What a step of one party does to the hits

It may move a hit between the queue and the party's own hands, or settle it. It never takes
back what is settled: a wave removes only blocks that the pool accepted, and all other
operations of the bag keep the blocks there are.
-/
namespace XnMiner
open TextCodec Transitions

variable {b b' : BlockStore} {hit : BlockHit}

theorem bagged_of_blockHit (h : b'.pending.map blockHit = b.pending.map blockHit)
    (hb : bagged b hit) : bagged b' hit := by
  obtain ⟨pb, hpb, hhash⟩ := hb
  obtain ⟨q, hq, hkey⟩ := List.mem_map.mp (h.symm ▸ List.mem_map_of_mem (f := blockHit) hpb)
  exact ⟨q, hq, (congrArg BlockHit.hashStr (Prod.mk.inj hkey).2).trans hhash⟩

structure Retains (b b' : BlockStore) : Prop where
  bag : BagInv b'
  blocks : BlocksFrom b b'
  bagged : ∀ hit, bagged b hit → XnMiner.bagged b' hit

theorem Retains.refl (hb : BagInv b) : Retains b b :=
  ⟨hb, .refl b, fun _ h => h⟩

/-- An enqueue that returns leaves the digest in the bag, also where it was there before. -/
theorem enqueue_retains {reason stamp : Str} (hb : BagInv b)
    (hreturns : (enqueue b hit reason stamp).result.isSome) :
    Retains b (enqueue b hit reason stamp).store ∧ bagged (enqueue b hit reason stamp).store hit := by
  have hblocks := (enqueue_idStep b hit reason stamp).blocksFrom
  have hcases := enqueue_cases b hit reason stamp
  generalize enqueue b hit reason stamp = e at hcases hblocks hreturns
  cases hcases with
  | duplicate hd =>
    obtain ⟨-, pb, hpb, hhash⟩ := hb.indexed.mem_iff.mp hd.2
    exact ⟨.refl hb, pb, hpb, hhash⟩
  | unprinted => cases hreturns
  | @added text n hd ht =>
    have hpending : ({ markDirtyUnlocked (addFresh b hit reason) with
        dirtyOps := n } : BlockStore).pending = b.pending ++ [freshBlock b hit reason] := rfl
    refine ⟨⟨((hb.fresh reason hd).dirty _).dirty n, hblocks, ?_⟩, ?_⟩
    · rintro other ⟨pb, hpb, hhash⟩
      exact ⟨pb, hpending ▸ List.mem_append_left _ hpb, hhash⟩
    · exact ⟨_, hpending ▸ List.mem_append_right _ (List.mem_singleton_self _), rfl⟩

theorem recordRejection_retains {status : ℤ} {body source reason now : Str} (hb : BagInv b)
    (hreturns : (recordRejection b hit status body source reason now).result.isSome) :
    Retains b (recordRejection b hit status body source reason now).store ∧
      bagged (recordRejection b hit status body source reason now).store hit := by
  cases hlog : dump (rejectionRecord hit status body source now) with
  | none =>
    rw [recordRejection_throws hlog] at hreturns
    cases hreturns
  | some text =>
    rw [recordRejection_logged hlog] at hreturns ⊢
    exact enqueue_retains hb (by simpa using hreturns)

theorem note_blockHit {op : StoreOp} (hop : op.isNote = true) :
    (op.exec b).1.pending.map blockHit = b.pending.map blockHit := by
  cases op with
  | markPendingReason id reason =>
    obtain ⟨n, hn⟩ := markPendingReason_store b id reason
    simp only [StoreOp.exec, Effect.footprint, hn]
    exact map_modifyFirst (by exact fun _ => rfl) b.pending
  | markForwardedMany ids =>
    obtain ⟨n, hn⟩ := markForwardedMany_store b ids
    simp only [StoreOp.exec, Effect.footprint, hn]
    exact (setForwardedAll_blockHit b ids).1
  | deferAllToNextStart minute =>
    obtain ⟨n, hn⟩ := deferAllToNextStart_store b minute
    simp only [StoreOp.exec, Effect.footprint, hn]
    exact (annotates_deferAll b minute).blocks
  | flush =>
    obtain ⟨n, hn⟩ := flush_store b
    simp only [StoreOp.exec, Effect.footprint, hn]
  | _ => cases hop

theorem note_retains (hb : BagInv b) (op : StoreOp) (hop : op.isNote = true) :
    Retains b (op.exec b).1 := by
  have hkeys := note_blockHit (b := b) hop
  refine ⟨(hb.exec_iff op).mpr ?_, (exec_idStep b op).blocksFrom, fun _ => bagged_of_blockHit hkeys⟩
  cases op <;> trivial

def Shared.queued (s : Shared) : List BlockHit := s.liveSubmitQ.map LiveSubmitJob.hit

/-- What a step of a party with these hits in its hands may do. -/
structure Handover (s : Shared) (mine : List BlockHit) (t : Shared) (mine' : List BlockHit) :
    Prop where
  bag : BagInv t.store
  blocks : BlocksFrom s.store t.store
  accepted : s.accepted ⊆ t.accepted
  settled : ∀ hit, s.settled hit → t.settled hit
  queued : ∀ hit ∈ s.queued, hit ∈ t.queued ∨ hit ∈ mine' ∨ t.settled hit
  own : ∀ hit ∈ mine, hit ∈ t.queued ∨ hit ∈ mine' ∨ t.settled hit
  passed : ∀ hit ∈ t.passed, hit ∈ s.passed ∨ hit ∈ mine'

variable {s t : Shared} {mine mine' : List BlockHit}

theorem Handover.moved (hb : BagInv s.store) (hstore : t.store = s.store)
    (haccepted : t.accepted = s.accepted)
    (hqueued : ∀ hit ∈ s.queued, hit ∈ t.queued ∨ hit ∈ mine')
    (hown : ∀ hit ∈ mine, hit ∈ t.queued ∨ hit ∈ mine')
    (hpassed : ∀ hit ∈ t.passed, hit ∈ s.passed ∨ hit ∈ mine') : Handover s mine t mine' where
  bag := hstore ▸ hb
  blocks := hstore ▸ (Retains.refl hb).blocks
  accepted := haccepted ▸ List.Subset.refl _
  settled := fun hit h => by rwa [Shared.settled, hstore, haccepted]
  queued := fun hit h => (hqueued hit h).imp_right .inl
  own := fun hit h => (hown hit h).imp_right .inl
  passed := hpassed

/-- An operation of the bag that settles what the party lets go. -/
theorem Handover.called (hr : Retains s.store b)
    (hown : ∀ hit ∈ mine, hit ∈ mine' ∨ bagged b hit) :
    Handover s mine { s with store := b } mine' where
  bag := hr.bag
  blocks := hr.blocks
  accepted := List.Subset.refl _
  settled := fun hit h => h.imp_right (hr.bagged hit)
  queued := fun _ h => .inl h
  own := fun hit h => .inr ((hown hit h).imp_right .inr)
  passed := fun _ h => .inl h

theorem Handover.called_cons {hit : BlockHit} (hr : Retains s.store b) (hin : bagged b hit)
    (mine : List BlockHit) : Handover s (hit :: mine) { s with store := b } mine := by
  refine .called hr fun other hother => ?_
  rcases List.mem_cons.mp hother with rfl | hother
  · exact .inr hin
  · exact .inl hother

theorem queueHit_handover {hit : BlockHit} {reason stamp : Str} (hb : BagInv s.store)
    (h : queueHit s hit reason stamp = some t) (mine : List BlockHit) :
    Handover s (hit :: mine) t mine := by
  obtain ⟨id, hreturns, rfl⟩ := Option.map_eq_some_iff.mp h
  obtain ⟨hr, hin⟩ := enqueue_retains hb (Option.isSome_iff_exists.mpr ⟨id, hreturns⟩)
  exact .called_cons hr hin mine

theorem deferAll_handover {minute : ℕ} (hb : BagInv s.store)
    (h : (s.callStore fun b => deferAllToNextStart b minute) = some t) (mine : List BlockHit) :
    Handover s mine t mine := by
  obtain ⟨-, -, rfl⟩ := Option.map_eq_some_iff.mp h
  exact .called (note_retains hb (.deferAllToNextStart minute) rfl) fun hit h => .inl h

/-- The members that only the mining thread may change. -/
structure Aside (s t : Shared) : Prop where
  joinable : t.joinable = s.joinable
  finalized : t.finalized = s.finalized
  emptied : s.liveSubmitQ = [] → t.liveSubmitQ = []

theorem aside_callStore {α : Type} {op : BlockStore → Effect α} (h : s.callStore op = some t) :
    Aside s t := by
  obtain ⟨-, -, rfl⟩ := Option.map_eq_some_iff.mp h
  exact ⟨rfl, rfl, id⟩

theorem Bagging.handover {g : Bagging} {g' : Option Bagging} {r : Readings} (hb : BagInv s.store)
    (h : g.Moves r s t g') : Handover s g.hits t (g'.elim [] Bagging.hits) ∧ Aside s t := by
  cases h with
  | swap =>
    refine ⟨.moved hb rfl rfl (fun hit h => .inr h) (by simp [Bagging.hits]) fun hit h => .inl h,
      rfl, rfl, fun _ => rfl⟩
  | done =>
    exact ⟨.moved hb rfl rfl (fun hit h => .inl h) (by simp [Bagging.hits]) fun hit h => .inl h,
      rfl, rfl, id⟩
  | store hu => exact ⟨queueHit_handover hb hu _, aside_callStore hu⟩

def Shared.contents (s : Shared) : BlockStore × List LiveSubmitJob × List BlockHit × List Str :=
  (s.store, s.liveSubmitQ, s.passed, s.accepted)

theorem Handover.flags (hb : BagInv s.store) (hsame : t.contents = s.contents)
    (hmine : mine' = mine) : Handover s mine t mine' := by
  obtain ⟨hstore, hqueue, hpassed, haccepted⟩ :
      t.store = s.store ∧ t.liveSubmitQ = s.liveSubmitQ ∧ t.passed = s.passed ∧
        t.accepted = s.accepted := by simpa [Shared.contents] using hsame
  refine .moved hb hstore haccepted (fun _ h => .inl ?_) (fun _ h => .inr (hmine ▸ h))
    fun _ h => .inl (hpassed ▸ h)
  rwa [Shared.queued, hqueue]

def Shared.kept (s : Shared) :
    (BlockStore × List LiveSubmitJob × List BlockHit × List Str) × Bool × Bool :=
  (s.contents, s.joinable, s.finalized)

theorem Aside.flags (hsame : t.kept = s.kept) : Aside s t := by
  obtain ⟨hcontents, hflags⟩ := Prod.mk.inj hsame
  obtain ⟨hjoinable, hfinalized⟩ := Prod.mk.inj hflags
  refine ⟨hjoinable, hfinalized, fun hempty => ?_⟩
  have hqueue : t.liveSubmitQ = s.liveSubmitQ := (Prod.mk.inj (Prod.mk.inj hcontents).2).1
  rw [hqueue, hempty]

theorem idle_step (hb : BagInv s.store) (hsame : t.kept = s.kept) (hmine : mine' = mine) :
    Handover s mine t mine' ∧ Aside s t :=
  ⟨.flags hb (Prod.mk.inj hsame).1 hmine, .flags hsame⟩

theorem PersistPc.handover {p p' : PersistPc} {r : Readings} (hb : BagInv s.store)
    (h : p.Moves r s t p') : Handover s p.hits t p'.hits ∧ Aside s t := by
  cases h with
  | lock | shut | halt | stop => exact idle_step hb rfl rfl
  | bag hmoves | bagged hmoves => exact Bagging.handover hb hmoves
  | defer hu =>
    obtain ⟨hbag, hblocks, haccepted, hsettled, hqueued, hown, hpassed⟩ := deferAll_handover hb hu []
    obtain ⟨hjoinable, hfinalized, hemptied⟩ := aside_callStore hu
    exact ⟨⟨hbag, hblocks, haccepted, hsettled, hqueued, hown, hpassed⟩, hjoinable, hfinalized,
      hemptied⟩

variable {cfg : Settings}

def MiningPc.isFinal (pc : MiningPc) : Bool :=
  match pc with
  | .closing | .bagging _ true | .deferring true | .stopping true | .joining true | .returned => true
  | _ => false

/-- Behind the last swap of `finalize_session`; nothing is pushed any more. -/
def MiningPc.isClosed (pc : MiningPc) : Bool :=
  match pc with
  | .bagging (.storing _) true | .deferring true | .stopping true | .joining true | .returned => true
  | _ => false

structure MiningControl (s : Shared) (pc : MiningPc) : Prop where
  finalized : s.finalized = true → pc.isFinal = true
  closed : pc.isClosed = true → s.liveSubmitQ = []
  returned : pc = .returned → s.joinable = false

theorem MiningControl.aside {pc : MiningPc} (h : MiningControl s pc) (ha : Aside s t) :
    MiningControl t pc where
  finalized := fun hf => h.finalized (ha.finalized ▸ hf)
  closed := fun hc => ha.emptied (h.closed hc)
  returned := fun hr => ha.joinable ▸ h.returned hr

/-- Neither final nor closed, as all points of the loop and of `graceful_shutdown` are. -/
theorem MiningControl.early {pc pc' : MiningPc} (h : MiningControl s pc) (hearly : pc.isFinal = false)
    (hfinalized : t.finalized = s.finalized) (hclosed : pc'.isClosed = false) :
    MiningControl t pc' where
  finalized := fun hf => absurd (h.finalized (hfinalized ▸ hf)) (by simp [hearly])
  closed := fun hc => absurd hc (by simp [hclosed])
  returned := by
    rintro rfl
    cases hclosed

structure MiningKeeps (exited : Bool) (s : Shared) (pc : MiningPc) (t : Shared) (pc' : MiningPc) :
    Prop where
  handover : Handover s pc.hits t pc'.hits
  control : MiningControl t pc'
  joined : t.joinable = s.joinable ∨ exited = true

/-- The flags of a step in the loop or in `graceful_shutdown` matter to nobody's hits. -/
theorem MiningKeeps.idle {exited : Bool} {pc pc' : MiningPc} (hb : BagInv s.store)
    (hi : MiningControl s pc) (hearly : pc.isFinal = false) (hclosed : pc'.isClosed = false)
    (hhits : pc'.hits = pc.hits) (hsame : t.kept = s.kept) : MiningKeeps exited s pc t pc' := by
  obtain ⟨hstep, ha⟩ := idle_step hb hsame hhits
  exact ⟨hstep, hi.early hearly ha.finalized hclosed, .inl ha.joinable⟩

@[simp] theorem hits_handling (ending : Bool) : (MiningPc.handling ending).hits = [] := by
  cases ending <;> rfl

@[simp] theorem isClosed_handling (ending : Bool) : (MiningPc.handling ending).isClosed = false := by
  cases ending <;> rfl

@[simp] theorem hits_stopped (final : Bool) : (MiningPc.stopped final).hits = [] := by
  cases final <;> rfl

theorem receiveHit_keeps {raw : BlockHit} {r : Readings} {ending : Bool} {pc pc' : MiningPc}
    (hb : BagInv s.store) (hi : MiningControl s pc) (hearly : pc.isFinal = false)
    (hnone : pc.hits = []) (h : receiveHit cfg raw r ending s = (t, pc')) :
    MiningKeeps false s pc t pc' := by
  have hdropped : MiningKeeps false s pc s (.handling ending) :=
    .idle hb hi hearly (isClosed_handling ending) ((hits_handling ending).trans hnone.symm) rfl
  unfold receiveHit at h
  split at h
  · obtain ⟨rfl, rfl⟩ := Prod.mk.inj h
    exact hdropped
  · split at h
    · obtain ⟨rfl, rfl⟩ := Prod.mk.inj h
      exact hdropped
    · obtain ⟨rfl, rfl⟩ := Prod.mk.inj h
      refine ⟨.moved hb rfl rfl (fun _ h => .inl h) ?_ fun hit h => ?_, hi.early hearly rfl rfl,
        .inl rfl⟩
      · simp [hnone]
      · exact List.mem_append.mp h

/-- The last swap empties the queue, and nobody has filled it since. -/
theorem MiningControl.bagging {g : Bagging} {g' : Option Bagging} {r : Readings}
    (h : MiningControl s (.bagging g true)) (hmoves : g.Moves r s t g') (ha : Aside s t) :
    t.liveSubmitQ = [] := by
  cases hmoves with
  | swap => rfl
  | done | store => exact ha.emptied (h.closed rfl)

theorem MiningPc.step_keeps {pc pc' : MiningPc} {r : Readings} {exited : Bool}
    (hb : BagInv s.store) (hi : MiningControl s pc) (h : pc.step cfg r exited s = some (t, pc')) :
    MiningKeeps exited s pc t pc' := by
  cases MiningPc.step_moves h with
  | bags | passes | skip | shut | halt => exact .idle hb hi rfl rfl rfl rfl
  | @queue hit reason ending _ hu =>
    have ha := aside_callStore hu
    refine ⟨?_, hi.early rfl ha.finalized (isClosed_handling ending), .inl ha.joinable⟩
    rw [hits_handling]
    exact queueHit_handover hb hu []
  | @push hit ending =>
    refine ⟨.moved hb rfl rfl (fun other h => .inl ?_) (fun other h => .inl ?_) fun _ h => .inl h,
      hi.early rfl rfl (isClosed_handling ending), .inl rfl⟩
    · simp only [Shared.queued, List.map_append, List.mem_append]
      exact .inl h
    · obtain rfl := List.mem_singleton.mp h
      simp [Shared.queued]
  | update hmoves | updated hmoves =>
    obtain ⟨hstep, ha⟩ := PersistPc.handover hb hmoves
    exact ⟨hstep, hi.early rfl ha.finalized rfl, .inl ha.joinable⟩
  | @bag g g' final _ hmoves =>
    obtain ⟨hstep, ha⟩ := Bagging.handover hb hmoves
    refine ⟨hstep, ?_, .inl ha.joinable⟩
    cases final with
    | false => exact hi.early rfl ha.finalized (by cases g' <;> rfl)
    | true => exact ⟨fun _ => rfl, fun _ => hi.bagging hmoves ha, by simp⟩
  | @bagged g final _ hmoves =>
    obtain ⟨hstep, ha⟩ := Bagging.handover hb hmoves
    refine ⟨hstep, ?_, .inl ha.joinable⟩
    cases final with
    | false => exact hi.early rfl ha.finalized rfl
    | true => exact ⟨fun _ => rfl, fun _ => hi.bagging hmoves ha, by simp⟩
  | defer hu =>
    have ha := aside_callStore hu
    exact ⟨deferAll_handover hb hu [], hi.early rfl ha.finalized rfl, .inl ha.joinable⟩
  | deferFinal hu =>
    have ha := aside_callStore hu
    have hc := hi.aside ha
    exact ⟨deferAll_handover hb hu [], ⟨hc.finalized, hc.closed, by simp⟩, .inl ha.joinable⟩
  | save hu =>
    have ha := aside_callStore hu
    refine ⟨?_, hi.early rfl ha.finalized rfl, .inl ha.joinable⟩
    obtain ⟨-, -, rfl⟩ := Option.map_eq_some_iff.mp hu
    exact .called (note_retains hb .flush rfl) fun _ h => .inl h
  | @stopped final _ hjoined | @joined final hjoined =>
    refine ⟨.flags hb rfl (hits_stopped final), ?_, .inl rfl⟩
    cases final with
    | false => exact hi.early rfl rfl rfl
    | true => exact ⟨hi.finalized, hi.closed, fun _ => hjoined⟩
  | @stop final =>
    refine ⟨.flags hb rfl rfl, ?_, .inl rfl⟩
    cases final with
    | false => exact hi.early rfl rfl rfl
    | true => exact ⟨hi.finalized, hi.closed, by simp⟩
  | @join final hexited =>
    refine ⟨.flags hb rfl (hits_stopped final), ?_, .inr hexited⟩
    cases final with
    | false => exact hi.early rfl rfl rfl
    | true => exact ⟨hi.finalized, hi.closed, fun _ => rfl⟩
  | finalized hfinalized => cases hi.finalized hfinalized
  | finalize | close =>
    exact ⟨.flags hb rfl rfl, ⟨fun _ => rfl, by simp [MiningPc.isClosed], by simp⟩, .inl rfl⟩

/-- What is known of the listed blocks and the accepted ids of a wave, while others add blocks. -/
def SubmitPc.waveOk (pc : SubmitPc) (s : Shared) : Prop :=
  match pc with
  | .flushing _ listed ids =>
    (∀ pb ∈ listed, pb.id < s.store.nextId ∧ ∀ q ∈ s.store.pending, q.id = pb.id → q.hit = pb.hit) ∧
    (∀ id ∈ ids, id < s.store.nextId ∧
      ∀ q ∈ s.store.pending, q.id = id → q.hit.hashStr ∈ s.accepted)
  | _ => True

theorem BlocksFrom.old (h : BlocksFrom b b') {q : PendingBlock} (hq : q ∈ b'.pending)
    (hid : q.id < b.nextId) : ∃ pb ∈ b.pending, pb.id = q.id ∧ pb.hit = q.hit :=
  (h.from_old q hq).resolve_right (by omega)

theorem SubmitPc.waveOk.of_blocks {pc : SubmitPc} (h : pc.waveOk s)
    (hblocks : BlocksFrom s.store t.store) (haccepted : s.accepted ⊆ t.accepted) : pc.waveOk t := by
  cases pc with
  | flushing final listed ids =>
    constructor
    · intro pb hpb
      obtain ⟨hlt, hsame⟩ := h.1 pb hpb
      refine ⟨hlt.trans_le hblocks.nextId_le, fun q hq heq => ?_⟩
      obtain ⟨p, hp, hpid, hphit⟩ := hblocks.old hq (heq ▸ hlt)
      exact hphit ▸ hsame p hp (hpid.trans heq)
    · intro id hid
      obtain ⟨hlt, hin⟩ := h.2 id hid
      refine ⟨hlt.trans_le hblocks.nextId_le, fun q hq heq => ?_⟩
      obtain ⟨p, hp, hpid, hphit⟩ := hblocks.old hq (heq ▸ hlt)
      exact haccepted (hphit ▸ hin p hp (hpid.trans heq))
  | _ => trivial

structure WorkerKeeps (s : Shared) (pc : SubmitPc) (t : Shared) (pc' : SubmitPc) : Prop where
  handover : Handover s pc.hits t pc'.hits
  aside : Aside s t
  wave : pc'.waveOk t

theorem WorkerKeeps.idle {pc pc' : SubmitPc} (hb : BagInv s.store) (hsame : t.kept = s.kept)
    (hhits : pc'.hits = pc.hits) (hwave : pc'.waveOk t) : WorkerKeeps s pc t pc' := by
  obtain ⟨hstep, ha⟩ := idle_step hb hsame hhits
  exact ⟨hstep, ha, hwave⟩

theorem SubmitPc.next_keeps {pc pc' : SubmitPc} {r : Readings} (hb : BagInv s.store)
    (h : pc.Moves cfg r s t pc') : WorkerKeeps s pc t pc' := by
  cases h with
  | wake =>
    exact ⟨.moved hb rfl rfl (fun _ h => .inr h) (by simp [SubmitPc.hits]) fun _ h => .inl h,
      ⟨rfl, rfl, fun _ => rfl⟩, trivial⟩
  | bag hu | queue hu => exact ⟨queueHit_handover hb hu _, aside_callStore hu, trivial⟩
  | reject hu =>
    refine ⟨?_, aside_callStore hu, trivial⟩
    obtain ⟨answer, hreturns, rfl⟩ := Option.map_eq_some_iff.mp hu
    obtain ⟨hr, hin⟩ := recordRejection_retains hb (Option.isSome_iff_exists.mpr ⟨answer, hreturns⟩)
    exact .called_cons hr hin _
  | finalBag hmoves | finalBagged hmoves =>
    obtain ⟨hstep, haside⟩ := Bagging.handover hb hmoves
    exact ⟨hstep, haside, trivial⟩
  | finalDefer hu => exact ⟨deferAll_handover hb hu [], aside_callStore hu, trivial⟩
  | _ => exact .idle hb rfl rfl trivial

theorem Handover.accept (hb : BagInv s.store) {digest : Str}
    (hown : ∀ hit ∈ mine, hit ∈ mine' ∨ hit.hashStr = digest) :
    Handover s mine { s with accepted := digest :: s.accepted } mine' where
  bag := hb
  blocks := (Retains.refl hb).blocks
  accepted := List.subset_cons_self _ _
  settled := fun _ h => h.imp_left (List.mem_cons_of_mem _)
  queued := fun _ h => .inl h
  own := by
    intro hit h
    refine .inr ((hown hit h).imp_right fun heq => .inl ?_)
    rw [heq]
    exact List.mem_cons_self
  passed := fun _ h => .inl h

theorem waveOk_start (hb : BagInv s.store) (final : Bool) (minute : ℕ)
    (netM defaultM fetch skip : ℤ) : SubmitPc.waveOk
      (.flushing final (listFlushBatch s.store minute netM defaultM fetch skip) []) s := by
  refine ⟨fun pb hpb => ?_, by simp⟩
  have hmem := mem_pending_of_mem_batch hpb
  exact ⟨(hb.ids_range pb hmem).2, fun q hq hid => congrArg PendingBlock.hit (hb.eq_of_id hq hmem hid)⟩

theorem flushRemove_keeps {final : Bool} {listed : List PendingBlock} {ids : List ℤ}
    (hb : BagInv s.store) (hwave : (SubmitPc.flushing final listed ids).waveOk s)
    (h : (s.callStore fun b => markSubmittedMany b ids) = some t) :
    WorkerKeeps s (.flushing final listed ids) t (.flushing final listed []) := by
  have haside := aside_callStore h
  obtain ⟨-, -, rfl⟩ := Option.map_eq_some_iff.mp h
  obtain ⟨n, hn⟩ := markSubmittedMany_store s.store ids
  have hpending := markSubmittedMany_pending s.store ids
  have hblocks := (markSubmittedMany_idStep s.store ids).blocksFrom
  refine ⟨⟨?_, hblocks, List.Subset.refl _, ?_, fun _ h => .inl h, by simp [SubmitPc.hits],
    fun _ h => .inl h⟩, haside, ?_⟩
  · simp only [hn]
    exact (hb.eraseIds ids).dirty n
  · rintro hit (haccepted | ⟨pb, hpb, hhash⟩)
    · exact .inl haccepted
    · by_cases hid : pb.id ∈ ids
      · exact .inl (hhash ▸ (hwave.2 pb.id hid).2 pb hpb rfl)
      · refine .inr ⟨pb, ?_, hhash⟩
        rw [hpending]
        exact List.mem_filter.mpr ⟨hpb, by simpa using hid⟩
  · have hlater : (SubmitPc.flushing final listed ids).waveOk
        { s with store := (markSubmittedMany s.store ids).store } :=
      hwave.of_blocks hblocks (List.Subset.refl _)
    exact ⟨hlater.1, by simp⟩

theorem SubmitPc.step_keeps {pc pc' : SubmitPc} {e : SubmitEvent} (hb : BagInv s.store)
    (hwave : pc.waveOk s) (h : pc.step cfg e s = some (t, pc')) : WorkerKeeps s pc t pc' := by
  cases SubmitPc.step_steps h with
  | next hmoves => exact next_keeps hb hmoves
  | accepted =>
    refine ⟨.accept hb fun other hother => ?_, ⟨rfl, rfl, id⟩, trivial⟩
    rcases List.mem_cons.mp hother with rfl | hother
    · exact .inr rfl
    · exact .inl hother
  | held | rejected => exact .idle hb rfl rfl trivial
  | flush | finalFlush => exact .idle hb rfl rfl (waveOk_start hb _ _ _ _ _ _)
  | @flushAccepted pb a final listed ids hlisted hok =>
    refine ⟨.accept hb (by simp [SubmitPc.hits]), ⟨rfl, rfl, id⟩, hwave.1, fun id hid => ?_⟩
    rcases List.mem_append.mp hid with hid | hid
    · obtain ⟨hlt, hin⟩ := hwave.2 id hid
      exact ⟨hlt, fun q hq heq => List.mem_cons_of_mem _ (hin q hq heq)⟩
    · obtain rfl := List.mem_singleton.mp hid
      obtain ⟨hlt, hsame⟩ := hwave.1 pb hlisted
      exact ⟨hlt, fun q hq heq => hsame q hq heq ▸ List.mem_cons_self⟩
  | remove hu => exact flushRemove_keeps hb hwave hu
  | flushEnd | finalEnd => exact .idle hb rfl rfl trivial

end XnMiner

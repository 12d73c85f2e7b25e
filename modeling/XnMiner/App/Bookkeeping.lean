import XnMiner.App.NoHitLost
import XnMiner.Monitoring.Metrics

/-! # The bag and its counters

Each thread raises its counters after the operation of the bag they are about. Where a
hit is put into the bag outside `queue_hit`, it is counted whether or not its digest was
there before.
-/
namespace XnMiner
open TextCodec Transitions

inductive SessionThread where
  | mining
  | worker
  | persister
  deriving DecidableEq

inductive BagSite where
  | queueHit
  /-- `bag_live_queue_to_store`, or the worker while shutting down. -/
  | baggedJob (kind : Str)
  | rejected (a : SubmitResult)

def Bagging.puts (g : Bagging) : Option (BlockHit × BagSite) :=
  match g with
  | .storing (job :: _) => some (job.hit, .baggedJob job.kind)
  | _ => none

def PersistPc.puts (p : PersistPc) : Option (BlockHit × BagSite) :=
  match p with
  | .bagging g => g.puts
  | _ => none

def MiningPc.puts (pc : MiningPc) : Option (BlockHit × BagSite) :=
  match pc with
  | .queueing hit _ _ => some (hit, .queueHit)
  | .updating p => p.puts
  | .bagging g _ => g.puts
  | _ => none

def SubmitPc.puts (pc : SubmitPc) : Option (BlockHit × BagSite) :=
  match pc with
  | .bagging (job :: _) => some (job.hit, .baggedJob job.kind)
  | .queueing hit _ _ => some (hit, .queueHit)
  | .rejecting hit a _ => some (hit, .rejected a)
  | .finalBagging g => g.puts
  | _ => none

def enqueueAnswer (b : BlockStore) (hit : BlockHit) : ℤ := if isDuplicate b hit then 0 else b.nextId

def BagSite.counters (site : BagSite) (answer : ℤ) (hit : BlockHit) : List (Bucket × Str) :=
  match site with
  | .queueHit => if answer = 0 then [] else [(.enqueued, hit.blockType)]
  | .baggedJob kind => [(.enqueued, kind)]
  | .rejected a =>
    (if countsAsReject a.status a.body then [(.rejectedLive, hit.blockType)] else []) ++
      [(.resubmission, hit.blockType)]

/-- A digest that was in the bag is counted as a new block. -/
def BagSite.miscounts (site : BagSite) (known : Bool) : ℕ :=
  match site with
  | .queueHit => 0
  | .baggedJob _ | .rejected _ => if known then 1 else 0

def putCounters (b : BlockStore) (p : Option (BlockHit × BagSite)) : List (Bucket × Str) :=
  match p with
  | some (hit, site) => site.counters (enqueueAnswer b hit) hit
  | none => []

def putMiscounts (b : BlockStore) (p : Option (BlockHit × BagSite)) : ℕ :=
  match p with
  | some (hit, site) => site.miscounts (decide (isDuplicate b hit))
  | none => 0

def foundKind (raw : BlockHit) : Str :=
  let kind := classifyBlock raw.hashStr raw.blockType
  if kind = "OTHER".toList then if raw.blockType = [] then "OTHER".toList else raw.blockType
  else kind

def HandoffAction.thread (a : HandoffAction) : Option SessionThread :=
  match a with
  | .hit _ _ | .update | .leaveLoop _ | .drained | .mining _ => some .mining
  | .worker _ => some .worker
  | .persist _ => some .persister
  | .requestStop | .note _ => none

def HandoffWorld.puts (w : HandoffWorld) (a : HandoffAction) : Option (BlockHit × BagSite) :=
  match a with
  | .mining _ => w.mining.puts
  | .worker (.next _) => w.worker.puts
  | .persist _ => w.persister.puts
  | _ => none

/-- The counters behind a step. A flush counts the block as it is submitted, under a kind that
assembling it may have changed. -/
def HandoffWorld.counters (w : HandoffWorld) (a : HandoffAction) (flushKind : Str) :
    List (Bucket × Str) :=
  match a with
  | .hit raw _ => if isHex64Key raw.key then [(.found, foundKind raw)] else []
  | .worker (.answer r) => match w.worker with
    | .submitting hit _ => if r.ok then [(.acceptedLive, hit.blockType)] else []
    | _ => []
  | .worker (.flushAnswer _ _) => [(.acceptedFlush, flushKind)]
  | a => putCounters w.shared.store (w.puts a)

def HandoffWorld.miscounts (w : HandoffWorld) (a : HandoffAction) : ℕ :=
  putMiscounts w.shared.store (w.puts a)

structure Bookkeeping where
  world : HandoffWorld := {}
  stats : MiningStats := {}
  due : SessionThread → List (Bucket × Str) := fun _ => []
  /-- The blocks of the worker's wave that the pool has answered. -/
  answered : List ℤ := []
  /-- `pending_count()` at the start. -/
  started : ℕ := 0
  /-- How often a digest that was in the bag was counted as a new block. -/
  miscounted : ℕ := 0

inductive BookAction where
  | handoff (a : HandoffAction) (flushKind : Str)
  | count (t : SessionThread)
  | throws (r : Readings)

/-- A wave submits each block once, and the reasons the miner notes can be printed. -/
def Bookkeeping.allows (s : Bookkeeping) (a : HandoffAction) : Bool :=
  match a with
  | .worker (.flushAnswer pb _) => decide (pb.id ∉ s.answered)
  | .note (.markPendingReason _ reason) => validUtf8 reason
  | _ => true

def Bookkeeping.answeredBy (s : Bookkeeping) (a : HandoffAction) : List ℤ :=
  match a with
  | .worker (.flush _ _ _ _ _) => []
  | .worker (.flushAnswer pb _) => pb.id :: s.answered
  | _ => s.answered

def Bookkeeping.ready (s : Bookkeeping) (a : HandoffAction) : Bool :=
  s.allows a && a.thread.all fun t => (s.due t).isEmpty

def Bookkeeping.dueBy (s : Bookkeeping) (a : HandoffAction) (flushKind : Str) :
    SessionThread → List (Bucket × Str) :=
  match a.thread with
  | some t => Function.update s.due t (s.world.counters a flushKind)
  | none => s.due

section Steps
variable (cfg : Settings)

def Bookkeeping.handoff (s : Bookkeeping) (a : HandoffAction) (flushKind : Str) :
    Option Bookkeeping :=
  if s.ready a then (s.world.step cfg a).map fun w =>
    { s with
      world := w
      due := s.dueBy a flushKind
      answered := s.answeredBy a
      miscounted := s.miscounted + s.world.miscounts a }
  else none

def Bookkeeping.throws (s : Bookkeeping) (r : Readings) : Option Bookkeeping :=
  if s.due .mining = [] then (s.world.thrown r).map fun w => { s with world := w } else none

def Bookkeeping.step (s : Bookkeeping) (a : BookAction) : Option Bookkeeping :=
  match a with
  | .handoff a flushKind => s.handoff cfg a flushKind
  | .count t => match s.due t with
    | [] => none
    | (bucket, kind) :: rest => some { s with
        stats := s.stats.record bucket kind
        due := Function.update s.due t rest }
  | .throws r => s.throws r

end Steps

structure Bookkeeping.fresh (s : Bookkeeping) : Prop where
  world : s.world.fresh
  prints : ∀ pb ∈ s.world.shared.store.pending, pb.prints
  stats : s.stats = {}
  due : s.due = fun _ => []
  started : s.started = pendingCount s.world.shared.store
  miscounted : s.miscounted = 0

def bookMachine (cfg : Settings) : Machine Bookkeeping BookAction where
  init := Bookkeeping.fresh
  step s a t := s.step cfg a = some t

def SubmitPc.unremoved (pc : SubmitPc) : List ℤ :=
  match pc with
  | .flushing _ _ accepted => accepted
  | _ => []

/-- No thread is between an operation of the bag and what belongs to it. -/
structure Bookkeeping.quiet (s : Bookkeeping) : Prop where
  due : ∀ t, s.due t = []
  wave : s.world.worker.unremoved = []

def Bookkeeping.balanced (s : Bookkeeping) : Prop :=
  (pendingCount s.world.shared.store : ℤ) = s.started + s.stats.enqueuedTotal +
    s.stats.resubmissionTotal - s.stats.acceptedFlushTotal

variable {cfg : Settings} {b b' : BlockStore} {s t : Shared}

structure BagOk (b : BlockStore) : Prop where
  ids : IdInv b
  positive : 1 ≤ b.nextId
  prints : ∀ pb ∈ b.pending, pb.prints

inductive Put (b b' : BlockStore) : Option (BlockHit × BagSite) → Prop where
  | put (hit : BlockHit) (site : BagSite) (reason stamp : Str)
      (hreturns : (enqueue b hit reason stamp).result.isSome)
      (hstore : b' = (enqueue b hit reason stamp).store) : Put b b' (some (hit, site))
  | noted (h : Annotates b b') : Put b b' none

theorem Annotates.refl (b : BlockStore) : Annotates b b := ⟨rfl, rfl, id⟩

theorem annotates_flush (b : BlockStore) : Annotates b (flush b).store := by
  obtain ⟨n, hn⟩ := flush_store b
  rw [hn]
  exact (Annotates.refl b).dirty n

theorem annotates_deferAllToNextStart (b : BlockStore) (minute : ℕ) :
    Annotates b (deferAllToNextStart b minute).store := by
  obtain ⟨n, hn⟩ := deferAllToNextStart_store b minute
  rw [hn]
  exact (annotates_deferAll b minute).dirty n

theorem annotates_setForwardedAll (b : BlockStore) (ids : List ℤ) :
    Annotates b (ids.foldl setForwarded b) where
  blocks := (setForwardedAll_blockHit b ids).1
  nextId_eq := (setForwardedAll_blockHit b ids).2
  prints := by
    induction ids generalizing b with
    | nil => exact id
    | cons id ids ih =>
      refine fun hall => ih (setForwarded b id) fun pb hpb => ?_
      rcases mem_modifyFirst hpb with hpb | ⟨q, hq, rfl⟩
      · exact hall pb hpb
      · exact hall q hq

theorem Put.same (b : BlockStore) : Put b b none := .noted (.refl b)

theorem put_callStore {α : Type} {op : BlockStore → Effect α} (h : s.callStore op = some t)
    (ha : ∀ b, Annotates b (op b).store) : Put s.store t.store none := by
  obtain ⟨-, -, rfl⟩ := Option.map_eq_some_iff.mp h
  exact .noted (ha s.store)

theorem put_queueHit {hit : BlockHit} {reason stamp : Str} (site : BagSite)
    (h : queueHit s hit reason stamp = some t) : Put s.store t.store (some (hit, site)) := by
  obtain ⟨id, hid, rfl⟩ := Option.map_eq_some_iff.mp h
  exact .put hit site reason stamp (Option.isSome_iff_exists.mpr ⟨id, hid⟩) rfl

/-- A recorded rejection that returns is an enqueue that returns. -/
theorem recordRejection_returns {hit : BlockHit} {status : ℤ} {body source reason now : Str}
    (h : (recordRejection b hit status body source reason now).result.isSome) :
    (enqueue b hit reason now).result.isSome ∧
      (recordRejection b hit status body source reason now).store =
        (enqueue b hit reason now).store := by
  cases hlog : dump (rejectionRecord hit status body source now) with
  | none =>
    rw [recordRejection_throws hlog] at h
    cases h
  | some text =>
    rw [recordRejection_logged hlog] at h ⊢
    exact ⟨by simpa using h, rfl⟩

theorem recordRejection_true {hit : BlockHit} {status : ℤ} {body source reason now : Str}
    (h : (recordRejection b hit status body source reason now).result.isSome) :
    (recordRejection b hit status body source reason now).result = some true := by
  cases hlog : dump (rejectionRecord hit status body source now) with
  | none =>
    rw [recordRejection_throws hlog] at h
    cases h
  | some text =>
    rw [recordRejection_logged hlog] at h ⊢
    obtain ⟨id, hid⟩ := Option.isSome_iff_exists.mp (Option.isSome_map .. ▸ h)
    simp [hid]

theorem Bagging.put {g : Bagging} {g' : Option Bagging} {r : Readings}
    (h : g.Moves r s t g') : Put s.store t.store g.puts := by
  cases h with
  | swap | done => exact .same _
  | store hu => exact put_queueHit _ hu

theorem PersistPc.put {p p' : PersistPc} {r : Readings} (h : p.Moves r s t p') :
    Put s.store t.store p.puts := by
  cases h with
  | lock | shut | halt | stop => exact .same _
  | bag hmoves | bagged hmoves => exact Bagging.put hmoves
  | @defer u hu =>
    have hput : Put s.store u.store none :=
      put_callStore hu fun b => annotates_deferAllToNextStart b r.minute
    exact hput

theorem MiningPc.put {pc pc' : MiningPc} {r : Readings} {exited : Bool}
    (h : pc.step cfg r exited s = some (t, pc')) : Put s.store t.store pc.puts := by
  cases MiningPc.step_moves h with
  | queue hu => exact put_queueHit _ hu
  | update hmoves | updated hmoves => exact PersistPc.put hmoves
  | bag hmoves | bagged hmoves => exact Bagging.put hmoves
  | defer hu | deferFinal hu =>
    exact put_callStore hu fun b => annotates_deferAllToNextStart b _
  | save hu => exact put_callStore hu annotates_flush
  | _ => exact .same _

def SubmitPc.listed (pc : SubmitPc) : List PendingBlock :=
  match pc with
  | .flushing _ listed _ => listed
  | _ => []

def SubmitPc.outsideWave (pc : SubmitPc) : Prop := pc.unremoved = [] ∧ pc.listed = []

theorem SubmitPc.put {pc pc' : SubmitPc} {r : Readings} (h : pc.Moves cfg r s t pc') :
    Put s.store t.store pc.puts ∧ pc.outsideWave ∧ pc'.outsideWave := by
  cases h with
  | bag hu | queue hu => exact ⟨put_queueHit _ hu, ⟨rfl, rfl⟩, rfl, rfl⟩
  | @reject hit a batch _ hu =>
    refine ⟨?_, ⟨rfl, rfl⟩, rfl, rfl⟩
    obtain ⟨answer, hreturns, rfl⟩ := Option.map_eq_some_iff.mp hu
    obtain ⟨hsome, hstore⟩ := recordRejection_returns (Option.isSome_iff_exists.mpr ⟨_, hreturns⟩)
    exact .put hit _ _ _ hsome hstore
  | finalBag hmoves | finalBagged hmoves =>
    exact ⟨Bagging.put hmoves, ⟨rfl, rfl⟩, rfl, rfl⟩
  | finalDefer hu =>
    exact ⟨put_callStore hu fun b => annotates_deferAllToNextStart b _, ⟨rfl, rfl⟩, rfl, rfl⟩
  | _ => exact ⟨.same _, ⟨rfl, rfl⟩, rfl, rfl⟩

theorem Annotates.ids (h : Annotates b b') :
    b'.pending.map PendingBlock.id = b.pending.map PendingBlock.id := by
  have hids := congrArg (List.map Prod.fst) h.blocks
  simpa [Function.comp_def, blockHit] using hids

theorem enqueue_pending {hit : BlockHit} {reason stamp : Str}
    (h : (enqueue b hit reason stamp).result.isSome) :
    (enqueue b hit reason stamp).store.pending =
        (if isDuplicate b hit then b.pending else b.pending ++ [freshBlock b hit reason]) ∧
      (isDuplicate b hit ∨ (freshBlock b hit reason).prints) := by
  have hcases := enqueue_cases b hit reason stamp
  generalize enqueue b hit reason stamp = e at hcases h
  cases hcases with
  | duplicate hd =>
    rw [if_pos hd]
    exact ⟨rfl, .inl hd⟩
  | unprinted => cases h
  | added hd ht =>
    have hprints := (dump_eq_some ht).1
    rw [utf8Ok_queueRecord, Bool.and_eq_true, Bool.and_eq_true] at hprints
    rw [if_neg hd]
    exact ⟨rfl, .inr ⟨hprints.1, hprints.2.2⟩⟩

theorem BagOk.annotates (h : BagOk b) (ha : Annotates b b') : BagOk b' where
  ids := h.ids.noted ha.nextId_eq.ge ha.blocks
  positive := ha.nextId_eq ▸ h.positive
  prints := ha.prints h.prints

variable {p : Option (BlockHit × BagSite)}

theorem BagOk.put (h : BagOk b) (hput : Put b b' p) : BagOk b' := by
  cases hput with
  | put hit site reason stamp hreturns hstore =>
    have hstep := enqueue_idStep b hit reason stamp
    obtain ⟨hpending, hprints⟩ := enqueue_pending hreturns
    subst hstore
    refine ⟨h.ids.step hstep, h.positive.trans hstep.blocksFrom.nextId_le, fun pb hpb => ?_⟩
    rw [hpending] at hpb
    split_ifs at hpb with hd
    · exact h.prints pb hpb
    · rcases List.mem_append.mp hpb with hpb | hpb
      · exact h.prints pb hpb
      · exact List.mem_singleton.mp hpb ▸ hprints.resolve_left hd
  | noted ha => exact h.annotates ha

theorem Put.ids_kept (hput : Put b b' p) :
    b.pending.map PendingBlock.id ⊆ b'.pending.map PendingBlock.id := by
  cases hput with
  | put hit site reason stamp hreturns hstore =>
    rw [hstore, (enqueue_pending hreturns).1]
    split_ifs
    · exact List.Subset.refl _
    · rw [List.map_append]
      exact List.subset_append_left _ _
  | noted ha => exact ha.ids.symm ▸ List.Subset.refl _

def dueCount (due : List (Bucket × Str)) (c : Bucket) : ℕ := due.countP fun d => d.1 = c

/-- The bag grows by what is counted, but for the puts that are miscounted. -/
theorem Put.pending_length (hb : BagOk b) {hit : BlockHit} {site : BagSite}
    (hput : Put b b' (some (hit, site))) :
    b'.pending.length + site.miscounts (decide (isDuplicate b hit)) =
        b.pending.length + dueCount (site.counters (enqueueAnswer b hit) hit) .enqueued +
          dueCount (site.counters (enqueueAnswer b hit) hit) .resubmission ∧
      dueCount (site.counters (enqueueAnswer b hit) hit) .acceptedFlush = 0 := by
  cases hput with
  | put hit site reason stamp hreturns hstore =>
    have hpositive : b.nextId ≠ 0 := by
      have hle := hb.positive
      omega
    rw [hstore, (enqueue_pending hreturns).1, enqueueAnswer]
    by_cases hd : isDuplicate b hit
    · cases site <;> simp [hd, BagSite.miscounts, BagSite.counters, dueCount]
      split_ifs <;> simp
    · cases site <;> simp [hd, hpositive, BagSite.miscounts, BagSite.counters, dueCount]
      split_ifs <;> simp

theorem Put.noted_length (hput : Put b b' none) : b'.pending.length = b.pending.length := by
  cases hput with
  | noted ha => simpa using congrArg List.length ha.ids

structure WaveOk (ids answered : List ℤ) (pc : SubmitPc) : Prop where
  nodup : pc.unremoved.Nodup
  accepted : ∀ id ∈ pc.unremoved, id ∈ answered ∧ id ∈ ids
  listed : ∀ pb ∈ pc.listed, pb.id ∉ answered → pb.id ∈ ids

theorem WaveOk.outside {ids answered : List ℤ} {pc : SubmitPc} (h : pc.outsideWave) :
    WaveOk ids answered pc := by
  obtain ⟨hunremoved, hlisted⟩ := h
  refine ⟨?_, ?_, ?_⟩
  · rw [hunremoved]
    exact List.nodup_nil
  · simp [hunremoved]
  · simp [hlisted]

theorem WaveOk.kept {ids ids' answered : List ℤ} {pc : SubmitPc} (h : WaveOk ids answered pc)
    (hids : ids ⊆ ids') : WaveOk ids' answered pc where
  nodup := h.nodup
  accepted := fun id hid => ⟨(h.accepted id hid).1, hids (h.accepted id hid).2⟩
  listed := fun pb hpb hout => hids (h.listed pb hpb hout)

def bagIds (b : BlockStore) : List ℤ := b.pending.map PendingBlock.id

variable {pc pc' : SubmitPc} {answered : List ℤ}

/-- A step with these counters and miscounts keeps bag and wave in order and the books balanced. -/
structure Accounts (b : BlockStore) (pc : SubmitPc) (b' : BlockStore) (pc' : SubmitPc)
    (answered : List ℤ) (counters : List (Bucket × Str)) (miscounts : ℕ) : Prop where
  bag : BagOk b'
  wave : WaveOk (bagIds b') answered pc'
  balance : b'.pending.length + miscounts + dueCount counters .acceptedFlush +
      pc.unremoved.length =
    b.pending.length + dueCount counters .enqueued + dueCount counters .resubmission +
      pc'.unremoved.length

/-- A step that makes one put, or none, while the wave stays what it is. -/
theorem Accounts.of_put (hb : BagOk b) (hput : Put b b' p) (hwave : WaveOk (bagIds b) answered pc')
    (hsame : pc'.unremoved = pc.unremoved) :
    Accounts b pc b' pc' answered (putCounters b p) (putMiscounts b p) := by
  refine ⟨hb.put hput, hwave.kept hput.ids_kept, ?_⟩
  rw [hsame]
  cases p with
  | none =>
    have hlength := hput.noted_length
    simp only [putCounters, putMiscounts, dueCount, List.countP_nil]
    omega
  | some put =>
    obtain ⟨hgrows, hflush⟩ := hput.pending_length hb
    simp only [putCounters, putMiscounts]
    omega

def balanceBuckets : List Bucket := [.acceptedFlush, .enqueued, .resubmission]

/-- A step that leaves the bag alone and raises no counter of the balance. -/
theorem Accounts.idle (hb : BagOk b) (hwave : WaveOk (bagIds b) answered pc')
    (hsame : pc'.unremoved = pc.unremoved) {counters : List (Bucket × Str)}
    (hcounters : ∀ c ∈ balanceBuckets, dueCount counters c = 0) :
    Accounts b pc b pc' answered counters 0 := by
  refine ⟨hb, hwave, ?_⟩
  rw [hsame, hcounters .acceptedFlush (by decide), hcounters .enqueued (by decide),
    hcounters .resubmission (by decide)]

theorem receiveHit_store (raw : BlockHit) (r : Readings) (ending : Bool) (s : Shared) :
    (receiveHit cfg raw r ending s).1.store = s.store := by
  unfold receiveHit
  split_ifs
  · rfl
  · split <;> rfl

/-- The accepted blocks leave the bag, once each. -/
theorem Accounts.remove {final : Bool} {listed : List PendingBlock} {ids : List ℤ}
    (hb : BagOk s.store) (hwave : WaveOk (bagIds s.store) answered (.flushing final listed ids))
    (h : (s.callStore fun b => markSubmittedMany b ids) = some t) :
    Accounts s.store (.flushing final listed ids) t.store (.flushing final listed []) answered
      [] 0 := by
  obtain ⟨-, -, rfl⟩ := Option.map_eq_some_iff.mp h
  have hstep := markSubmittedMany_idStep s.store ids
  have hpending := markSubmittedMany_pending s.store ids
  refine ⟨⟨hb.ids.step hstep, hb.positive.trans hstep.blocksFrom.nextId_le, ?_⟩,
    ⟨List.nodup_nil, by simp [SubmitPc.unremoved], ?_⟩, ?_⟩
  · intro pb hpb
    rw [hpending] at hpb
    exact hb.prints pb (List.mem_filter.mp hpb).1
  · intro pb hpb hout
    obtain ⟨q, hq, hid⟩ := List.mem_map.mp (hwave.listed pb hpb hout)
    have hstays : q.id ∉ ids := fun hin => hout (hid ▸ (hwave.accepted q.id hin).1)
    rw [bagIds, ← hid]
    refine List.mem_map_of_mem ?_
    rw [hpending]
    exact List.mem_filter.mpr ⟨hq, by simpa using hstays⟩
  · have hremoved : (s.store.pending.filter fun pb => pb.id ∈ ids).length = ids.length := by
      have hperm : ((s.store.pending.map PendingBlock.id).filter fun i => i ∈ ids).Perm ids := by
        have hnodup : ids.Nodup := hwave.nodup
        rw [List.perm_ext_iff_of_nodup (hb.ids.ids_nodup.filter _) hnodup]
        intro i
        rw [List.mem_filter, decide_eq_true_eq]
        exact ⟨fun h => h.2, fun hi => ⟨(hwave.accepted i hi).2, hi⟩⟩
      rw [← hperm.length_eq, List.filter_map, List.length_map]
      rfl
    have hsplit := List.length_eq_length_filter_add (l := s.store.pending)
      fun pb => decide (pb.id ∈ ids)
    simp only [hpending, dueCount, List.countP_nil, SubmitPc.unremoved, List.length_nil]
    have hneg : (s.store.pending.filter fun pb => !decide (pb.id ∈ ids)) =
        s.store.pending.filter fun pb => pb.id ∉ ids := by simp
    rw [hneg] at hsplit
    omega

theorem note_annotates {op : StoreOp} (hop : op.isNote = true)
    (hprints : ∀ id reason, op = .markPendingReason id reason → validUtf8 reason = true) :
    Annotates b (op.exec b).1 := by
  cases op with
  | markPendingReason id reason =>
    obtain ⟨n, hn⟩ := markPendingReason_store b id reason
    simp only [StoreOp.exec, Effect.footprint, hn]
    exact (annotates_setReason b id (hprints id reason rfl)).dirty n
  | markForwardedMany ids =>
    obtain ⟨n, hn⟩ := markForwardedMany_store b ids
    simp only [StoreOp.exec, Effect.footprint, hn]
    exact (annotates_setForwardedAll b ids).dirty n
  | deferAllToNextStart minute => exact annotates_deferAllToNextStart b minute
  | flush => exact annotates_flush b
  | _ => cases hop

/-- An answer of the pool to a live hit counts in no bucket of the balance. -/
theorem HandoffWorld.answer_counters {w : HandoffWorld} (a : SubmitResult) (flushKind : Str)
    {c : Bucket} (hc : c ∈ balanceBuckets) :
    dueCount (w.counters (.worker (.answer a)) flushKind) c = 0 := by
  have hother : Bucket.acceptedLive ≠ c := by
    rintro rfl
    exact absurd hc (by decide)
  simp only [HandoffWorld.counters]
  split
  · split_ifs
    · simp [dueCount, hother]
    · rfl
  · rfl

theorem HandoffWorld.hit_counters {w : HandoffWorld} (raw : BlockHit) (r : Readings)
    (flushKind : Str) {c : Bucket} (hc : c ∈ balanceBuckets) :
    dueCount (w.counters (.hit raw r) flushKind) c = 0 := by
  have hother : Bucket.found ≠ c := by
    rintro rfl
    exact absurd hc (by decide)
  simp only [HandoffWorld.counters]
  split_ifs
  · simp [dueCount, hother]
  · rfl

theorem WaveOk.start (b : BlockStore) (final : Bool) (minute : ℕ)
    (netM defaultM fetch skip : ℤ) : WaveOk (bagIds b) []
      (.flushing final (listFlushBatch b minute netM defaultM fetch skip) []) where
  nodup := List.nodup_nil
  accepted := by simp [SubmitPc.unremoved]
  listed := fun _ hpb _ => List.mem_map_of_mem (mem_pending_of_mem_batch hpb)

/-- An accepted block of a wave is one more to be removed. -/
theorem WaveOk.accept {final : Bool} {listed : List PendingBlock} {ids accepted : List ℤ}
    {pb : PendingBlock} (h : WaveOk ids answered (.flushing final listed accepted))
    (hlisted : pb ∈ listed) (hnew : pb.id ∉ answered) :
    WaveOk ids (pb.id :: answered) (.flushing final listed (accepted ++ [pb.id])) := by
  refine ⟨?_, ?_, ?_⟩
  · have hout : pb.id ∉ accepted := fun hin => hnew (h.accepted _ hin).1
    exact List.nodup_append.mpr ⟨h.nodup, List.nodup_singleton _, by
      rintro i hi j hj rfl
      exact hout (List.mem_singleton.mp hj ▸ hi)⟩
  · intro id hid
    rcases List.mem_append.mp hid with hid | hid
    · exact ⟨List.mem_cons_of_mem _ (h.accepted id hid).1, (h.accepted id hid).2⟩
    · obtain rfl := List.mem_singleton.mp hid
      exact ⟨List.mem_cons_self, h.listed pb hlisted hnew⟩
  · intro q hq hout
    exact h.listed q hq fun hin => hout (List.mem_cons_of_mem _ hin)

theorem Accounts.worker {e : SubmitEvent} {flushKind : Str} {books : Bookkeeping}
    (hb : BagOk books.world.shared.store)
    (hwave : WaveOk (bagIds books.world.shared.store) books.answered books.world.worker)
    (hallows : books.allows (.worker e) = true)
    (h : books.world.worker.step cfg e books.world.shared = some (t, pc)) :
    Accounts books.world.shared.store books.world.worker t.store pc
      (books.answeredBy (.worker e)) (books.world.counters (.worker e) flushKind)
      (books.world.miscounts (.worker e)) := by
  have hnone : ∀ c ∈ balanceBuckets, dueCount [] c = 0 := fun _ _ => rfl
  obtain ⟨⟨s, mining, worker, persister⟩, stats, due, answered, started, miscounted⟩ := books
  dsimp only at hb hwave h ⊢
  cases SubmitPc.step_steps h with
  | next hmoves =>
    obtain ⟨hput, hbefore, hafter⟩ := SubmitPc.put hmoves
    exact .of_put hb hput (.outside hafter) (hafter.1.trans hbefore.1.symm)
  | accepted | held | rejected =>
    refine .idle hb (.outside ⟨rfl, rfl⟩) ?_ fun c hc => HandoffWorld.answer_counters _ _ hc
    rfl
  | flush =>
    refine .idle hb (.start ..) ?_ hnone
    rfl
  | finalFlush =>
    refine .idle hb (.start ..) ?_ hnone
    rfl
  | @flushAccepted pb a final listed ids hlisted hok =>
    have hnew : pb.id ∉ answered := of_decide_eq_true hallows
    refine ⟨hb, hwave.accept hlisted hnew, ?_⟩
    simp only [HandoffWorld.counters, HandoffWorld.miscounts, HandoffWorld.puts, putMiscounts,
      dueCount, SubmitPc.unremoved, List.length_append, List.length_singleton]
    simp
    omega
  | remove hu => exact .remove hb hwave hu
  | flushEnd | finalEnd =>
    refine .idle hb (.outside ⟨rfl, rfl⟩) ?_ hnone
    rfl

theorem Accounts.step {books : Bookkeeping} {w' : HandoffWorld} {a : HandoffAction}
    (flushKind : Str) (hb : BagOk books.world.shared.store)
    (hwave : WaveOk (bagIds books.world.shared.store) books.answered books.world.worker)
    (hallows : books.allows a = true) (h : books.world.step cfg a = some w') :
    Accounts books.world.shared.store books.world.worker w'.shared.store w'.worker
      (books.answeredBy a) (books.world.counters a flushKind) (books.world.miscounts a) := by
  have hnone : ∀ c ∈ balanceBuckets, dueCount [] c = 0 := fun _ _ => rfl
  cases HandoffWorld.step_moves h with
  | @hit raw r ending hpc =>
    exact (receiveHit_store raw r ending _).symm ▸ .idle hb hwave rfl
      fun c hc => HandoffWorld.hit_counters raw r flushKind hc
  | update | leaveLoop | drained | requestStop => exact .idle hb hwave rfl hnone
  | mining hstep => exact .of_put hb (MiningPc.put hstep) hwave rfl
  | worker hstep => exact .worker hb hwave hallows hstep
  | persist hstep => exact .of_put hb (PersistPc.put (PersistPc.step_moves hstep)) hwave rfl
  | @note op hnote =>
    have hprints : ∀ id reason, op = .markPendingReason id reason → validUtf8 reason = true := by
      rintro id reason rfl
      exact hallows
    exact .of_put hb (.noted (note_annotates hnote hprints)) hwave rfl

def Bookkeeping.total (s : Bookkeeping) (c : Bucket) : ℕ :=
  (s.stats.bucket c).total + dueCount (s.due .mining) c + dueCount (s.due .worker) c +
    dueCount (s.due .persister) c

structure BookInv (s : Bookkeeping) : Prop where
  bag : BagOk s.world.shared.store
  wave : WaveOk (bagIds s.world.shared.store) s.answered s.world.worker
  balance : s.world.shared.store.pending.length + s.total .acceptedFlush + s.miscounted =
    s.started + s.total .enqueued + s.total .resubmission + s.world.worker.unremoved.length

theorem total_due (s : Bookkeeping) {t : SessionThread} (h : s.due t = [])
    (due : List (Bucket × Str)) (c : Bucket) :
    Bookkeeping.total { s with due := Function.update s.due t due } c = s.total c + dueCount due c := by
  unfold Bookkeeping.total
  cases t <;> simp [h, dueCount] <;> omega

/-- Raising a counter only settles what was due. -/
theorem total_count (s : Bookkeeping) {t : SessionThread} {bucket : Bucket} {kind : Str}
    {rest : List (Bucket × Str)} (h : s.due t = (bucket, kind) :: rest) (c : Bucket) :
    Bookkeeping.total { s with
      stats := s.stats.record bucket kind
      due := Function.update s.due t rest } c = s.total c := by
  unfold Bookkeeping.total
  rw [MiningStats.record_bucket]
  cases t <;> simp [h, dueCount, List.countP_cons] <;> omega

theorem BookInv.handoff {s s' : Bookkeeping} {a : HandoffAction} {flushKind : Str} (hi : BookInv s)
    (h : s.handoff cfg a flushKind = some s') : BookInv s' := by
  unfold Bookkeeping.handoff at h
  split_ifs at h with hready
  obtain ⟨w', hw, rfl⟩ := Option.map_eq_some_iff.mp h
  obtain ⟨hallows, hidle⟩ := Bool.and_eq_true_iff.mp hready
  obtain ⟨hbag, hwave, hbalance⟩ := Accounts.step flushKind hi.bag hi.wave hallows hw
  refine ⟨hbag, hwave, ?_⟩
  have htotal : ∀ c ∈ balanceBuckets, Bookkeeping.total { s with
      world := w'
      due := s.dueBy a flushKind
      answered := s.answeredBy a
      miscounted := s.miscounted + s.world.miscounts a } c =
      s.total c + dueCount (s.world.counters a flushKind) c := by
    intro c hc
    unfold Bookkeeping.dueBy
    cases ht : a.thread with
    | none =>
      have hnone : dueCount (s.world.counters a flushKind) c = 0 := by
        cases a <;> first | rfl | cases ht
      rw [hnone]
      rfl
    | some t =>
      have hdue : s.due t = [] := by simpa [ht] using hidle
      exact total_due s hdue _ c
  have hbefore := hi.balance
  rw [htotal .acceptedFlush (by decide), htotal .enqueued (by decide),
    htotal .resubmission (by decide)]
  dsimp only
  omega

/-- Where everything in the bag can be saved, only the record itself makes an enqueue throw. -/
theorem enqueue_throws_pending (hb : BagOk b) {hit : BlockHit} {reason stamp : Str}
    (h : (enqueue b hit reason stamp).result = none) :
    (enqueue b hit reason stamp).store.pending = b.pending := by
  have hadds : ¬ b.canAdd hit reason stamp := by
    intro hadd
    have hreturns := (enqueue_isSome b hit reason stamp).mpr (.inr hadd)
    rw [h] at hreturns
    cases hreturns
  have hcases := enqueue_cases b hit reason stamp
  generalize enqueue b hit reason stamp = e at hcases h
  cases hcases with
  | duplicate | unprinted => rfl
  | added hd ht =>
    have hrecord := (dump_eq_some ht).1
    rw [utf8Ok_queueRecord, Bool.and_eq_true, Bool.and_eq_true] at hrecord
    exact absurd ⟨hrecord.1, hrecord.2.2, hrecord.2.1, fun _ => hb.prints⟩ hadds

theorem BookInv.throws {s s' : Bookkeeping} {r : Readings} (hi : BookInv s)
    (h : s.throws r = some s') : BookInv s' := by
  unfold Bookkeeping.throws at h
  split_ifs at h
  obtain ⟨w, hw, rfl⟩ := Option.map_eq_some_iff.mp h
  obtain ⟨hit, reason, ending, -, hthrows, rfl⟩ := thrown_cases hw
  have hpending := enqueue_throws_pending hi.bag hthrows
  have hstep := enqueue_idStep s.world.shared.store hit reason r.stamp
  refine ⟨⟨hi.bag.ids.step hstep, hi.bag.positive.trans hstep.blocksFrom.nextId_le, ?_⟩, ?_, ?_⟩
  · intro pb hpb
    exact hi.bag.prints pb (hpending ▸ hpb)
  · dsimp only
    rw [bagIds, hpending]
    exact hi.wave
  · dsimp only
    rw [hpending]
    exact hi.balance

theorem BookInv.step {s s' : Bookkeeping} {a : BookAction} (hi : BookInv s)
    (h : s.step cfg a = some s') : BookInv s' := by
  cases a with
  | handoff a flushKind => exact hi.handoff h
  | count t =>
    simp only [Bookkeeping.step] at h
    split at h
    next => cases h
    next bucket kind rest hdue =>
      obtain rfl := Option.some.inj h
      have hbefore := hi.balance
      refine ⟨hi.bag, hi.wave, ?_⟩
      rw [total_count s hdue, total_count s hdue, total_count s hdue]
      exact hbefore
  | throws r => exact hi.throws h

theorem BookInv.init {s : Bookkeeping} (h : s.fresh) : BookInv s := by
  obtain ⟨hworld, hprints, hstats, hdue, hstarted, hmiscounted⟩ := h
  have hbag := hworld.bag
  refine ⟨⟨⟨fun pb hpb => (hbag.ids_range pb hpb).2, hbag.ids_nodup⟩, hbag.nextId_pos, hprints⟩,
    .outside ?_, ?_⟩
  · rw [hworld.worker]
    exact ⟨rfl, rfl⟩
  · simp only [Bookkeeping.total, hstats, hdue, hstarted, hmiscounted, hworld.worker]
    simp [MiningStats.bucket, KindCounts.total, dueCount, pendingCount, SubmitPc.unremoved]

def countsNew (s : Bookkeeping) (a : BookAction) : Bool :=
  match a with
  | .handoff a _ => s.world.miscounts a == 0
  | .count _ | .throws _ => true

theorem miscounted_step {s s' : Bookkeeping} {a : BookAction} (h : s.step cfg a = some s') :
    s'.miscounted = 0 ↔ s.miscounted = 0 ∧ countsNew s a = true := by
  cases a with
  | handoff a flushKind =>
    simp only [Bookkeeping.step, Bookkeeping.handoff] at h
    split_ifs at h
    obtain ⟨w', -, rfl⟩ := Option.map_eq_some_iff.mp h
    simp [countsNew]
  | count t =>
    simp only [Bookkeeping.step] at h
    split at h
    next => cases h
    next => obtain rfl := Option.some.inj h; simp [countsNew]
  | throws r =>
    simp only [Bookkeeping.step, Bookkeeping.throws] at h
    split_ifs at h
    obtain ⟨w, -, rfl⟩ := Option.map_eq_some_iff.mp h
    simp [countsNew]

theorem miscounted_run {s : Bookkeeping} {as : List BookAction} (h : (bookMachine cfg).Run as s) :
    ((bookMachine cfg).restrict fun s a => countsNew s a = true).Run as s ↔ s.miscounted = 0 := by
  have hinit : ∀ s, (bookMachine cfg).init s → s.miscounted = 0 := fun _ hfresh => hfresh.miscounted
  exact h.restrict_iff hinit fun _ _ _ hstep => miscounted_step hstep

/-- Where no thread is inside an operation, the bag has as many blocks as the counters say if
and only if no step has counted a digest that was in the bag as a new block. A recorded
rejection answers that it queued the hit whether it did or not. -/
theorem books_balance_iff (cfg : Settings) (as : List BookAction) (s : Bookkeeping)
    (hs : (bookMachine cfg).Run as s) :
    (s.quiet → (s.balanced ↔
      ((bookMachine cfg).restrict fun s a => countsNew s a = true).Run as s)) ∧
      ∀ hit status body source reason now,
        let r := recordRejection s.world.shared.store hit status body source reason now
        r.result.isSome →
          ((r.result = some true ↔
              pendingCount r.store = pendingCount s.world.shared.store + 1) ↔
            ¬ isDuplicate s.world.shared.store hit) := by
  have hi : BookInv s := by
    refine Machine.Reachable.invariant (M := bookMachine cfg) (I := BookInv) (fun _ => BookInv.init)
      ?_ ⟨as, hs⟩
    intro s a s' _ hi hstep
    exact hi.step hstep
  refine ⟨fun hquiet => ?_, fun hit status body source reason now hreturns => ?_⟩
  · have hbalance := hi.balance
    have hlength : s.world.worker.unremoved.length = 0 := by rw [hquiet.wave, List.length_nil]
    simp only [Bookkeeping.total, hquiet.due, dueCount, List.countP_nil, MiningStats.bucket]
      at hbalance
    rw [miscounted_run hs]
    simp only [Bookkeeping.balanced, pendingCount, MiningStats.enqueuedTotal,
      MiningStats.resubmissionTotal, MiningStats.acceptedFlushTotal]
    omega
  · obtain ⟨hsome, hstore⟩ := recordRejection_returns hreturns
    have htrue := recordRejection_true hreturns
    rw [htrue, hstore, pendingCount, (enqueue_pending hsome).1]
    split_ifs with hd <;> simp [hd, pendingCount]

def findQueued : List BookAction :=
  [.handoff (.hit rawHit networkUp) [], .count .mining, .handoff (.mining networkUp) [],
    .handoff (.mining networkUp) []]

def persistQueue (jobs : ℕ) : List BookAction :=
  List.replicate 5 (.handoff (.persist {}) []) ++
  (List.replicate jobs [.handoff (.persist {}) [], .count .persister]).flatten ++
  List.replicate 2 (.handoff (.persist {}) [])

def Bookkeeping.figures (s : Bookkeeping) : List ℕ × List ℕ :=
  ([s.world.shared.store.pending.length, s.started, s.stats.enqueuedTotal,
      s.stats.resubmissionTotal, s.stats.acceptedFlushTotal],
    [(s.due .mining).length, (s.due .worker).length, (s.due .persister).length,
      s.world.worker.unremoved.length])

theorem quiet_of_figures {s : Bookkeeping} {totals : List ℕ}
    (h : s.figures = (totals, [0, 0, 0, 0])) : s.quiet := by
  simp only [Bookkeeping.figures, Prod.mk.injEq, List.cons.injEq, List.length_eq_zero_iff,
    and_true] at h
  obtain ⟨-, hmining, hworker, hpersister, hwave⟩ := h
  refine ⟨fun t => ?_, hwave⟩
  cases t with
  | mining => exact hmining
  | worker => exact hworker
  | persister => exact hpersister

theorem bookStart_fresh : Bookkeeping.fresh {} :=
  ⟨handoffStart_fresh, by simp, rfl, rfl, rfl, rfl⟩

theorem book_run {as : List BookAction} {s : Bookkeeping}
    (h : runSteps (Bookkeeping.step {}) {} as = some s) : (bookMachine {}).Run as s :=
  (Machine.Run.start bookStart_fresh).runSteps (fun _ _ _ _ h => h) h

theorem books_out_of_balance : ¬ ∀ (cfg : Settings) (as : List BookAction) (s : Bookkeeping),
    (bookMachine cfg).Run as s → s.quiet → s.balanced := by
  intro hall
  have hrun : (runSteps (Bookkeeping.step {}) {} (findQueued ++ findQueued ++ persistQueue 2)).map
      Bookkeeping.figures = some ([1, 0, 2, 0, 0], [0, 0, 0, 0]) := by decide +kernel
  obtain ⟨s, hs, hfigures⟩ := Option.map_eq_some_iff.mp hrun
  have hbalanced := hall {} _ s (book_run hs) (quiet_of_figures hfigures)
  simp only [Bookkeeping.figures, Prod.mk.injEq, List.cons.injEq, and_true] at hfigures
  obtain ⟨⟨hpending, hstarted, henqueued, hresubmission, hflush⟩, -⟩ := hfigures
  rw [Bookkeeping.balanced, pendingCount, hpending, hstarted, henqueued, hresubmission, hflush]
    at hbalanced
  exact absurd hbalanced (by decide)

theorem books_balance_run : ∃ s : Bookkeeping, s.stats.enqueuedTotal = 1 ∧ s.balanced := by
  have hrun : (runSteps (guarded countsNew (Bookkeeping.step {})) {}
      (findQueued ++ persistQueue 1)).map Bookkeeping.figures =
      some ([1, 0, 1, 0, 0], [0, 0, 0, 0]) := by decide +kernel
  obtain ⟨s, hs, hfigures⟩ := Option.map_eq_some_iff.mp hrun
  have hstart : ((bookMachine {}).restrict fun s a => countsNew s a = true).Run [] {} :=
    .start bookStart_fresh
  have hnew := hstart.runSteps_guarded (fun _ _ _ _ h => h) hs
  refine ⟨s, ?_, ?_⟩
  · simp only [Bookkeeping.figures, Prod.mk.injEq, List.cons.injEq] at hfigures
    exact hfigures.1.2.2.1
  · exact ((books_balance_iff {} _ s hnew.of_restrict).1 (quiet_of_figures hfigures)).mpr hnew

end XnMiner

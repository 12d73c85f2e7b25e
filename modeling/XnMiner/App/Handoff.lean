import XnMiner.App.FlushWave
import XnMiner.System.Machine

/-! # Handing hits to the bag

Four parties share the live queue, the bag and three flags: the mining thread, the submit
worker, a thread that calls `persist_queue_for_restart`, and those that only annotate or
save the bag. A critical section, a flag and an operation of the bag are a step each; an
operation of the bag that throws is none.
-/
namespace XnMiner
open TextCodec Transitions

structure LiveSubmitJob where
  hit : BlockHit
  kind : Str

/-- The shared members, with the hits that passed the checks of `handle_hit` and the
digests the pool accepted. -/
structure Shared where
  store : BlockStore := {}
  liveSubmitQ : List LiveSubmitJob := []
  running : Bool := true
  shuttingDown : Bool := false
  submitWorkerRunning : Bool := true
  persistMu : Bool := false
  /-- `submit_thread_.joinable()` -/
  joinable : Bool := true
  finalized : Bool := false
  passed : List BlockHit := []
  accepted : List Str := []

structure Readings where
  now : ℚ := 0
  minute : ℕ := 30
  stamp : Str := []
  oracle : OracleState := {}
  /-- Read again for the reason of a hit that has to wait. -/
  oracleAfter : OracleState := {}
  draining : Bool := false
  flushed : ℕ := 0
  engineDifficulty : ℤ := 0

def Shared.callStore {α : Type} (s : Shared) (op : BlockStore → Effect α) : Option Shared :=
  (op s.store).result.map fun _ => { s with store := (op s.store).store }

def queueHit (s : Shared) (hit : BlockHit) (reason stamp : Str) : Option Shared :=
  s.callStore fun b => enqueue b hit reason stamp

inductive Bagging where
  | swapping
  | storing (batch : List LiveSubmitJob)

def Bagging.step (b : Bagging) (r : Readings) (s : Shared) : Option (Shared × Option Bagging) :=
  match b with
  | .swapping => some ({ s with liveSubmitQ := [] }, some (.storing s.liveSubmitQ))
  | .storing [] => some (s, none)
  | .storing (job :: batch) =>
    (queueHit s job.hit SHUTDOWN_PENDING_REASON r.stamp).map fun s => (s, some (.storing batch))

inductive PersistPc where
  | outside
  | shutting
  | halting
  | stopping
  | bagging (b : Bagging)
  | deferring

/-- Calls of several threads queue at the lock, so one is under way. -/
def PersistPc.step (p : PersistPc) (r : Readings) (s : Shared) : Option (Shared × PersistPc) :=
  match p with
  | .outside => if s.persistMu then none else some ({ s with persistMu := true }, .shutting)
  | .shutting => some ({ s with shuttingDown := true }, .halting)
  | .halting => some ({ s with running := false }, .stopping)
  | .stopping => some ({ s with submitWorkerRunning := false }, .bagging .swapping)
  | .bagging b => (b.step r s).map fun
    | (s, some b) => (s, .bagging b)
    | (s, none) => (s, .deferring)
  | .deferring => (s.callStore fun b => deferAllToNextStart b r.minute).map fun s =>
    ({ s with persistMu := false }, .outside)

section Supervisor
variable (cfg : Settings)

def Readings.miningDifficulty (r : Readings) : ℤ :=
  if cfg.forceMineMode then cfg.forcedMineM else r.engineDifficulty

/-- Why `handle_hit` bags a hit; `none` where the hit is handed to the worker. -/
def handleHitReason (r : Readings) (shuttingDown : Bool) (hit : BlockHit) : Option Str :=
  let outside := decide (hit.blockType = "XUNI".toList) && !inXuniSubmitWindow r.minute
  let hitM := hit.memoryCost.getD (r.miningDifficulty cfg)
  let netM := r.oracleAfter.networkDifficulty.getD 0
  if shuttingDown then some (if outside then OUTSIDE_XUNI_WINDOW_REASON else SHUTDOWN_PENDING_REASON)
  else if outside then some OUTSIDE_XUNI_WINDOW_REASON
  else if r.draining = true ∧ 0 < r.flushed then some MATCH_WINDOW_NEW_REASON
  else if canSubmitHitM cfg r.oracle r.now hitM then none
  else if r.oracleAfter.networkOk = true ∧ 0 < netM ∧ netM ≠ hitM then some DIFFICULTY_CHANGE_REASON
  else if cfg.forceMineMode = false ∧ r.now < r.oracleAfter.deferSubmitUntil then
    some DIFFICULTY_CHANGE_REASON
  else some "network_down".toList

inductive MiningPc where
  | looping
  | prepared (hit : BlockHit) (ending : Bool)
  | queueing (hit : BlockHit) (reason : Str) (ending : Bool)
  | pushing (hit : BlockHit) (ending : Bool)
  | updating (p : PersistPc)
  | exited
  | halting
  | draining
  | bagging (b : Bagging) (final : Bool)
  | deferring (final : Bool)
  | saving
  | stopping (final : Bool)
  | joining (final : Bool)
  | finalizing
  | closing
  | returned

/-- Hits are handled in the loop and while `graceful_shutdown` drains the engine. -/
def MiningPc.handling (ending : Bool) : MiningPc := if ending then .draining else .looping

/-- `stop_submit_worker` returns to `graceful_shutdown` or to `finalize_session`. -/
def MiningPc.stopped (final : Bool) : MiningPc := if final then .returned else .finalizing

def receiveHit (raw : BlockHit) (r : Readings) (ending : Bool) (s : Shared) : Shared × MiningPc :=
  if isHex64Key raw.key = false then (s, .handling ending)
  else match prepareHitForSubmit raw cfg.saltHex (r.miningDifficulty cfg) cfg.timeCost
      cfg.parallelism with
    | none => (s, .handling ending)
    | some hit => ({ s with passed := s.passed ++ [hit] }, .prepared hit ending)

def MiningPc.step (pc : MiningPc) (r : Readings) (workerExited : Bool) (s : Shared) :
    Option (Shared × MiningPc) :=
  match pc with
  | .looping | .draining | .returned => none
  | .prepared hit ending => match handleHitReason cfg r s.shuttingDown hit with
    | some reason => some (s, .queueing hit reason ending)
    | none => some (s, .pushing hit ending)
  | .queueing hit reason ending =>
    (queueHit s hit reason r.stamp).map fun s => (s, .handling ending)
  | .pushing hit ending => some ({ s with
      liveSubmitQ := s.liveSubmitQ ++ [{ hit, kind := hit.blockType }] }, .handling ending)
  | .updating p => (p.step r s).map fun
    | (s, .outside) => (s, .looping)
    | (s, p) => (s, .updating p)
  | .exited =>
    if s.shuttingDown then some (s, .finalizing) else some ({ s with shuttingDown := true }, .halting)
  | .halting => some ({ s with running := false }, .draining)
  | .bagging b final => (b.step r s).map fun
    | (s, some b) => (s, .bagging b final)
    | (s, none) => (s, .deferring final)
  | .deferring final => (s.callStore fun b => deferAllToNextStart b r.minute).map fun s =>
    (s, if final then .stopping true else .saving)
  | .saving => (s.callStore flush).map fun s => (s, .stopping false)
  | .stopping final =>
    if s.submitWorkerRunning = false ∧ s.joinable = false then some (s, .stopped final)
    else some ({ s with submitWorkerRunning := false }, .joining final)
  | .joining final =>
    if s.joinable = false then some (s, .stopped final)
    else if workerExited then some ({ s with joinable := false }, .stopped final)
    else none
  | .finalizing =>
    if s.finalized then some (s, .returned)
    else some ({ s with finalized := true, running := false }, .closing)
  | .closing => some ({ s with shuttingDown := true }, .bagging .swapping true)

/-- Why `process_live_submit` bags a hit; `none` where it is submitted. -/
def liveSubmitReason (r : Readings) (shuttingDown : Bool) (hit : BlockHit) : Option Str :=
  let hitM := hit.memoryCost.getD (r.miningDifficulty cfg)
  if shuttingDown then some SHUTDOWN_PENDING_REASON
  else if hit.blockType = "XUNI".toList ∧ inXuniSubmitWindow r.minute = false then
    some OUTSIDE_XUNI_WINDOW_REASON
  else if canSubmitHitM cfg r.oracle r.now hitM then none
  else if liveSubmitAllowed cfg r.oracleAfter r.now && !oracleSaysM r.oracleAfter hitM then
    some DIFFICULTY_CHANGE_REASON
  else some "network_down".toList

/-- Why a hit that was not accepted is bagged; `none` is a rejection. -/
def answerReason (a : SubmitResult) : Option Str :=
  if a.status = 0 ∨ isTransientSubmitFailure a.status a.body = true then some "network_down".toList
  else if isPoolHold a.status a.body then some DIFFICULTY_CHANGE_REASON
  else if isDifficultyMismatch a.status a.body then some DIFFICULTY_CHANGE_REASON
  else if isXuniWindowReject a.status a.body then some OUTSIDE_XUNI_WINDOW_REASON
  else none

inductive SubmitPc where
  | waiting
  | swapped (batch : List LiveSubmitJob)
  | bagging (batch : List LiveSubmitJob)
  | processing (batch : List LiveSubmitJob)
  | queueing (hit : BlockHit) (reason : Str) (batch : List LiveSubmitJob)
  | submitting (hit : BlockHit) (batch : List LiveSubmitJob)
  | rejecting (hit : BlockHit) (a : SubmitResult) (batch : List LiveSubmitJob)
  | servicing
  /-- A wave over the listed blocks, and the accepted ids that are still in the bag. -/
  | flushing (final : Bool) (listed : List PendingBlock) (accepted : List ℤ)
  | checking
  | finalBagging (b : Bagging)
  | finalDeferring
  | finalDeciding
  | finalFlush
  | exited

inductive SubmitEvent where
  | next (r : Readings)
  | answer (a : SubmitResult)
  | flush (minute : ℕ) (netM defaultM fetch skipBeforeId : ℤ)
  | flushAnswer (pb : PendingBlock) (a : SubmitResult)
  | flushUnassembled (pb : PendingBlock) (m : ℤ)
  | flushRemove
  | flushEnd

def SubmitPc.next (pc : SubmitPc) (r : Readings) (s : Shared) : Option (Shared × SubmitPc) :=
  match pc with
  | .waiting => some ({ s with liveSubmitQ := [] }, .swapped s.liveSubmitQ)
  | .swapped batch => some (s, if s.shuttingDown then .bagging batch else .processing batch)
  | .bagging [] => some (s, .checking)
  | .bagging (job :: batch) =>
    (queueHit s job.hit SHUTDOWN_PENDING_REASON r.stamp).map fun s => (s, .bagging batch)
  | .processing [] => some (s, .servicing)
  | .processing (job :: batch) => match liveSubmitReason cfg r s.shuttingDown job.hit with
    | some reason => some (s, .queueing job.hit reason batch)
    | none => some (s, .submitting job.hit batch)
  | .queueing hit reason batch =>
    (queueHit s hit reason r.stamp).map fun s => (s, .processing batch)
  | .rejecting hit a batch => (s.callStore fun b =>
      recordRejection b hit a.status a.body "live".toList
        (if isDifficultyMismatch a.status a.body then "parked".toList else "resubmission".toList)
        r.stamp).map fun s => (s, .processing batch)
  | .servicing => some (s, .checking)
  | .checking =>
    some (s, if s.submitWorkerRunning = false then .finalBagging .swapping else .waiting)
  | .finalBagging b => (b.step r s).map fun
    | (s, some b) => (s, .finalBagging b)
    | (s, none) => (s, .finalDeferring)
  | .finalDeferring => (s.callStore fun b => deferAllToNextStart b r.minute).map fun s =>
    (s, .finalDeciding)
  | .finalDeciding =>
    if s.shuttingDown = false ∨ liveSubmitAllowed cfg r.oracle r.now = true then some (s, .finalFlush)
    else some (s, .exited)
  | .finalFlush => some (s, .exited)
  | .submitting _ _ | .flushing _ _ _ | .exited => none

/-- A wave that ends before its listing does nothing here; its notes are steps of their own. -/
def SubmitPc.step (pc : SubmitPc) (e : SubmitEvent) (s : Shared) : Option (Shared × SubmitPc) :=
  match e, pc with
  | .next r, pc => pc.next cfg r s
  | .answer a, .submitting hit batch =>
    if a.ok then some ({ s with accepted := hit.hashStr :: s.accepted }, .processing batch)
    else match answerReason a with
      | some reason => some (s, .queueing hit reason batch)
      | none => some (s, .rejecting hit a batch)
  | .flush minute netM defaultM fetch skip, .servicing =>
    some (s, .flushing false (listFlushBatch s.store minute netM defaultM fetch skip) [])
  | .flush minute netM defaultM fetch skip, .finalFlush =>
    some (s, .flushing true (listFlushBatch s.store minute netM defaultM fetch skip) [])
  | .flushAnswer pb a, .flushing final listed accepted =>
    if pb ∈ listed ∧ a.ok = true then
      some ({ s with accepted := pb.hit.hashStr :: s.accepted },
        .flushing final listed (accepted ++ [pb.id]))
    else none
  | .flushUnassembled pb m, .flushing final listed accepted =>
    if (submitForm cfg pb.hit m).isNone then
      (s.callStore fun b => markSubmitted b pb.id).map fun s => (s, .flushing final listed accepted)
    else none
  | .flushRemove, .flushing final listed accepted =>
    (s.callStore fun b => markSubmittedMany b accepted).map fun s => (s, .flushing final listed [])
  | .flushEnd, .flushing final _ [] => some (s, if final then .exited else .servicing)
  | _, _ => none

structure HandoffWorld where
  shared : Shared := {}
  mining : MiningPc := .looping
  worker : SubmitPc := .waiting
  persister : PersistPc := .outside

inductive HandoffAction where
  | hit (raw : BlockHit) (r : Readings)
  | update
  | leaveLoop (deadline : Bool)
  | drained
  | mining (r : Readings)
  | worker (e : SubmitEvent)
  | persist (r : Readings)
  | requestStop
  | note (op : StoreOp)

/-- Operations that neither add nor remove blocks, made by waves, the forwarder and the loop. -/
def StoreOp.isNote (op : StoreOp) : Bool :=
  match op with
  | .markPendingReason _ _ | .markForwardedMany _ | .deferAllToNextStart _ | .flush => true
  | .enqueue _ _ _ | .recordRejection _ _ _ _ _ _ | .markSubmitted _ | .markSubmittedMany _ => false

def HandoffWorld.step (s : HandoffWorld) (a : HandoffAction) : Option HandoffWorld :=
  match a with
  | .hit raw r => match s.mining with
    | .looping =>
      let (shared, mining) := receiveHit cfg raw r false s.shared
      some { s with shared, mining }
    | .draining =>
      let (shared, mining) := receiveHit cfg raw r true s.shared
      some { s with shared, mining }
    | _ => none
  | .update => match s.mining with
    | .looping =>
      if s.shared.shuttingDown then none else some { s with mining := .updating .outside }
    | _ => none
  | .leaveLoop deadline => match s.mining with
    | .looping =>
      if s.shared.running = false ∨ deadline = true then some { s with mining := .exited } else none
    | _ => none
  | .drained => match s.mining with
    | .draining => some { s with mining := .bagging .swapping false }
    | _ => none
  | .mining r => (s.mining.step cfg r (s.worker matches .exited) s.shared).map fun (shared, mining) =>
    { s with shared, mining }
  | .worker e => (s.worker.step cfg e s.shared).map fun (shared, worker) =>
    { s with shared, worker }
  | .persist r => (s.persister.step r s.shared).map fun (shared, persister) =>
    { s with shared, persister }
  | .requestStop => some { s with shared := { s.shared with running := false } }
  | .note op =>
    if op.isNote then
      some { s with shared := { s.shared with store := (op.exec s.shared.store).1 } }
    else none

end Supervisor

/-- The loop and `graceful_shutdown` catch what an enqueue of the mining thread throws. -/
def HandoffWorld.thrown (s : HandoffWorld) (r : Readings) : Option HandoffWorld :=
  match s.mining with
  | .queueing hit reason ending =>
    let e := enqueue s.shared.store hit reason r.stamp
    if e.result = none then
      some { s with shared := { s.shared with store := e.store }, mining := .handling ending }
    else none
  | _ => none

theorem thrown_cases {s t : HandoffWorld} {r : Readings} (h : s.thrown r = some t) :
    ∃ hit reason ending, s.mining = .queueing hit reason ending ∧
      (enqueue s.shared.store hit reason r.stamp).result = none ∧
      t = { s with
        shared := { s.shared with store := (enqueue s.shared.store hit reason r.stamp).store }
        mining := .handling ending } := by
  unfold HandoffWorld.thrown at h
  split at h
  next hit reason ending hpc =>
    dsimp only at h
    split_ifs at h with hthrows
    exact ⟨hit, reason, ending, hpc, hthrows, (Option.some.inj h).symm⟩
  next => cases h

def Bagging.hits (b : Bagging) : List BlockHit :=
  match b with
  | .swapping => []
  | .storing batch => batch.map LiveSubmitJob.hit

def PersistPc.hits (p : PersistPc) : List BlockHit :=
  match p with
  | .bagging b => b.hits
  | _ => []

def MiningPc.hits (pc : MiningPc) : List BlockHit :=
  match pc with
  | .prepared hit _ | .queueing hit _ _ | .pushing hit _ => [hit]
  | .updating p => p.hits
  | .bagging b _ => b.hits
  | _ => []

def SubmitPc.hits (pc : SubmitPc) : List BlockHit :=
  match pc with
  | .swapped batch | .bagging batch | .processing batch => batch.map LiveSubmitJob.hit
  | .queueing hit _ batch | .submitting hit batch | .rejecting hit _ batch =>
    hit :: batch.map LiveSubmitJob.hit
  | .finalBagging b => b.hits
  | _ => []

def bagged (b : BlockStore) (hit : BlockHit) : Prop :=
  ∃ pb ∈ b.pending, pb.hit.hashStr = hit.hashStr

def Shared.settled (s : Shared) (hit : BlockHit) : Prop :=
  hit.hashStr ∈ s.accepted ∨ bagged s.store hit

def HandoffWorld.held (s : HandoffWorld) (hit : BlockHit) : Prop :=
  hit ∈ s.mining.hits ∨ hit ∈ s.shared.liveSubmitQ.map LiveSubmitJob.hit ∨ hit ∈ s.worker.hits ∨
    s.shared.settled hit

/-- From `start_submit_worker` on, whatever became of the flags before. -/
structure HandoffWorld.fresh (s : HandoffWorld) : Prop where
  bag : BagInv s.shared.store
  queue : s.shared.liveSubmitQ = []
  passed : s.shared.passed = []
  joinable : s.shared.joinable = true
  finalized : s.shared.finalized = false
  mining : s.mining = .looping
  worker : s.worker = .waiting
  persister : s.persister.hits = []
  locked : s.shared.persistMu = true ↔ s.persister ≠ .outside

def handoffMachine (cfg : Settings) : Machine HandoffWorld HandoffAction where
  init := HandoffWorld.fresh
  step s a t := s.step cfg a = some t

end XnMiner

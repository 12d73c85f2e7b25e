import XnMiner.System.Locks
import Mathlib.Data.Fintype.Sum
import Mathlib.Tactic.DeriveFintype

/-! # The mutexes that the miner's functions lock

Every function below is what its namesake does with mutexes: the scopes of its locks in the
order of the source, with the calls inside them. A branch on data is left open. The waits of a
condition variable are scopes of its mutex, one for each time that it is woken.
-/
namespace XnMiner.LockScopes
open Locks Transitions

inductive Mutex where
  | persist
  | state
  | submit
  | store
  | metrics
  | logger
  | dashboard
  | wallet
  | localStats
  | xbs
  | poller
  | paper
  | bagForward
  | worker
  | lane (i : Fin 16)
  deriving DecidableEq

/-- A function, or a part of one, that does all its work in one scope and calls nothing that
locks. -/
def under (m : Mutex) : Code Mutex := .locked m .skip

def SessionLogger.write : Code Mutex := under .logger

def BlockStore.flush : Code Mutex := under .store
def BlockStore.enqueue : Code Mutex := under .store
def BlockStore.listUnforwarded : Code Mutex := under .store
def BlockStore.markForwardedMany : Code Mutex := maybe (under .store)
def BlockStore.recordRejection : Code Mutex := BlockStore.enqueue
def BlockStore.markSubmittedMany : Code Mutex := maybe (under .store)
def BlockStore.markSubmitted : Code Mutex := BlockStore.markSubmittedMany
def BlockStore.markPendingReason : Code Mutex := under .store
def BlockStore.pendingCount : Code Mutex := under .store
def BlockStore.pendingEligibleM : Code Mutex := under .store
def BlockStore.pendingByType : Code Mutex := under .store
def BlockStore.listFlushBatch : Code Mutex := under .store
def BlockStore.deferAllToNextStart : Code Mutex := under .store

def MetricsTracker.recordHashes : Code Mutex := under .metrics
def MetricsTracker.recordFound : Code Mutex := under .metrics
def MetricsTracker.recordEnqueued : Code Mutex := under .metrics
def MetricsTracker.recordAcceptedLive : Code Mutex := under .metrics
def MetricsTracker.recordAcceptedFlush : Code Mutex := under .metrics
def MetricsTracker.recordRejectedLive : Code Mutex := under .metrics
def MetricsTracker.recordRejectedFlush : Code Mutex := under .metrics
def MetricsTracker.recordResubmission : Code Mutex := under .metrics
def MetricsTracker.syncPending : Code Mutex := under .metrics
def MetricsTracker.setActiveLanes : Code Mutex := under .metrics
def MetricsTracker.stats : Code Mutex := under .metrics

def MinerDashboard.setStatus : Code Mutex := under .dashboard
def MinerDashboard.setNetwork : Code Mutex := under .dashboard
def MinerDashboard.setMiningM : Code Mutex := under .dashboard
def MinerDashboard.setCudaBatch : Code Mutex := under .dashboard
def MinerDashboard.setWalletLine : Code Mutex := under .dashboard
def MinerDashboard.setUptimeS : Code Mutex := under .dashboard
def MinerDashboard.event : Code Mutex := under .dashboard
def MinerDashboard.update : Code Mutex := under .dashboard
def MinerDashboard.render : Code Mutex := under .dashboard

def LocalMiningStatsTracker.recordAccept : Code Mutex := under .localStats
def WalletBalanceTracker.maybeRefresh : Code Mutex := maybe (under .wallet)
def WalletBalanceTracker.current : Code Mutex := under .wallet
def WalletBalanceTracker.summaryLine : Code Mutex := WalletBalanceTracker.current
def XenblockscanReporter.enqueue : Code Mutex := maybe (under .xbs)
def NetworkPoller.getStatus : Code Mutex := under .poller
def NetworkPoller.pollOnce : Code Mutex := under .poller
def LastblockPoller.getStatus : Code Mutex := under .paper
def LastblockPoller.pollOnce : Code Mutex := under .paper

def Submitter.submit : Code Mutex := maybe SessionLogger.write

def submitTask : Code Mutex := .loop Submitter.submit

def NetworkPoller.loop : Code Mutex := .loop NetworkPoller.pollOnce

def LastblockPoller.loop : Code Mutex := .loop LastblockPoller.pollOnce

def XenblockscanReporter.loop : Code Mutex := .loop (under .xbs)

def BagForwarder.sendWave : Code Mutex :=
  seq [BlockStore.listUnforwarded,
    maybe (.either (seq [BlockStore.markForwardedMany, maybe SessionLogger.write])
      (maybe SessionLogger.write))]

def BagForwarder.loop : Code Mutex :=
  seq [.loop (seq [BagForwarder.sendWave, under .bagForward, .loop (under .bagForward)]),
    maybe BagForwarder.sendWave]

def WoodyminerUploader.loop : Code Mutex :=
  .loop (seq [MetricsTracker.stats, under .state, maybe SessionLogger.write])

def CudaEngine.laneWorkerLoop (i : Fin 16) : Code Mutex :=
  .loop (seq [under .worker, .loop (under .worker),
    .loop (seq [under .worker, .loop (under .worker), maybe (under (.lane i))])])

def CudaEngine.stopLaneWorkers : Code Mutex := under .worker

def CudaEngine.ensureLaneWorkers : Code Mutex := maybe CudaEngine.stopLaneWorkers

def CudaEngine.start : Code Mutex := maybe CudaEngine.ensureLaneWorkers

def CudaEngine.stop : Code Mutex := CudaEngine.stopLaneWorkers

def CudaEngine.setDifficulty : Code Mutex := maybe CudaEngine.ensureLaneWorkers

def CudaEngine.reduceLaneCap : Code Mutex := maybe CudaEngine.ensureLaneWorkers

def CudaEngine.mineBatch : Code Mutex :=
  maybe (.either (under (.lane 0))
    (seq [CudaEngine.ensureLaneWorkers, under .worker, under .worker, .loop (under .worker)]))

def CudaEngine.drainPipeline : Code Mutex :=
  upTo (List.ofFn fun i => under (.lane i))

def GpuPowerBooster.setDifficulty : Code Mutex := maybe SessionLogger.write

def GpuPowerBooster.apply : Code Mutex := maybe SessionLogger.write

def GpuPowerBooster.tick : Code Mutex := maybe GpuPowerBooster.apply

def log : Code Mutex := SessionLogger.write

/-- A batch of the live queue: so many jobs, or any number of them. -/
abbrev Batch := Option ℕ

def Batch.each (batch : Batch) (c : Code Mutex) : Code Mutex :=
  match batch with
  | some n => times n c
  | none => .loop c

def Batch.ifAny (batch : Batch) (c : Code Mutex) : Code Mutex :=
  match batch with
  | some 0 => .skip
  | some (_ + 1) => c
  | none => maybe c

def bagLiveQueueToStore (batch : Batch) : Code Mutex :=
  seq [under .submit,
    batch.each (seq [BlockStore.enqueue, MetricsTracker.recordEnqueued]),
    batch.ifAny (seq [BlockStore.pendingCount, MetricsTracker.syncPending])]

def persistQueueForRestart (batch : Batch) : Code Mutex :=
  .locked .persist
    (seq [bagLiveQueueToStore batch, BlockStore.deferAllToNextStart, BlockStore.pendingCount, log])

/-- The handler of `SIGINT` and `SIGTERM`, which finds so many jobs in the live queue;
`request_stop` locks nothing. -/
def handleSignal (jobs : ℕ) : Code Mutex := persistQueueForRestart (some jobs)

def applyVramPolicy : Code Mutex := maybe log

def miningDifficulty : Code Mutex := maybe (under .state)

def liveSubmitAllowed : Code Mutex := under .state

def flushSubmitAllowed : Code Mutex := under .state

def oracleSaysM : Code Mutex := maybe (under .state)

def oracleLeftM : Code Mutex := maybe (under .state)

def bagTargetM : Code Mutex := maybe (under .state)

def submitTargetM : Code Mutex := seq [bagTargetM, under .state]

def networkMatchesHitM : Code Mutex := oracleSaysM

def canSubmitHitM : Code Mutex := seq [liveSubmitAllowed, maybe networkMatchesHitM]

def shouldParkCuda : Code Mutex := maybe (seq [bagTargetM, under .state])

def refreshPaper : Code Mutex :=
  seq [LastblockPoller.getStatus,
    maybe (seq [under .state, maybe log,
      maybe (seq [under .state, maybe MinerDashboard.setNetwork,
        maybe MinerDashboard.setMiningM])])]

def updateMatchDrain : Code Mutex :=
  .either (maybe (seq [log, maybe MinerDashboard.setStatus]))
    (seq [under .state, bagTargetM, oracleSaysM, oracleLeftM, BlockStore.pendingEligibleM,
      .either
        (.either (seq [log, maybe MinerDashboard.setStatus, BlockStore.flush])
          (maybe (seq [shouldParkCuda, MinerDashboard.setStatus])))
        (maybe (seq [shouldParkCuda, log, maybe MinerDashboard.setStatus]))])

def noteSubmitTransportFailure : Code Mutex :=
  seq [maybe networkMatchesHitM, under .state, maybe MinerDashboard.setNetwork, log]

def logFlushSkip : Code Mutex := maybe log

def maybeCheckUpdate : Code Mutex :=
  maybe (.either log (seq [log, persistQueueForRestart none]))

def refreshNetwork (replanEngine : Bool) : Code Mutex :=
  seq [.either NetworkPoller.pollOnce NetworkPoller.getStatus, under .state,
    maybe (.either
      (seq [under .state,
        .either
          (.either (seq [log, maybe MinerDashboard.setStatus, maybe GpuPowerBooster.setDifficulty])
            (seq [log, maybe MinerDashboard.setStatus, maybe GpuPowerBooster.setDifficulty,
              if replanEngine then maybe (seq [CudaEngine.setDifficulty, maybe log]) else .skip]))
          (maybe GpuPowerBooster.setDifficulty),
        maybe (seq [MinerDashboard.setNetwork, maybe MinerDashboard.setMiningM])])
      (seq [under .state, under .state,
        .either (seq [under .state, maybe MinerDashboard.setNetwork, maybe log])
          (maybe MinerDashboard.setNetwork)]))]

def uiRefresh : Code Mutex :=
  seq [
    maybe (seq [WalletBalanceTracker.maybeRefresh,
      maybe (seq [WalletBalanceTracker.summaryLine, MinerDashboard.setWalletLine])]),
    maybe (seq [MinerDashboard.setCudaBatch, maybe MinerDashboard.setUptimeS, MetricsTracker.stats,
      BlockStore.pendingByType, BlockStore.pendingByType, MinerDashboard.update,
      MinerDashboard.render]),
    maybe (seq [under .state, MetricsTracker.stats, BlockStore.pendingCount]),
    maybe (seq [maybe WalletBalanceTracker.current, MetricsTracker.stats,
      XenblockscanReporter.enqueue, under .state, XenblockscanReporter.enqueue])]

def uiEvent : Code Mutex := maybe (seq [MinerDashboard.event, uiRefresh])

def queueHit : Code Mutex :=
  seq [BlockStore.enqueue,
    maybe (seq [MetricsTracker.recordEnqueued, BlockStore.pendingCount, MetricsTracker.syncPending,
      uiEvent, log])]

def enqueueLiveSubmit : Code Mutex := under .submit

def handleHit : Code Mutex :=
  .either log
    (seq [MetricsTracker.recordFound, log, uiEvent, miningDifficulty,
      .either log (.either queueHit
        (seq [miningDifficulty, canSubmitHitM,
          .either (seq [under .state, queueHit]) enqueueLiveSubmit]))])

def handleBatchHits : Code Mutex := .loop handleHit

def processLiveSubmit : Code Mutex :=
  .either queueHit
    (seq [refreshNetwork false, miningDifficulty, canSubmitHitM,
      .either (seq [liveSubmitAllowed, maybe networkMatchesHitM, queueHit])
        (seq [Submitter.submit,
          .either
            (seq [under .state, maybe log, MetricsTracker.recordAcceptedLive,
              LocalMiningStatsTracker.recordAccept, uiEvent, log, miningDifficulty,
              XenblockscanReporter.enqueue])
            (.either (seq [noteSubmitTransportFailure, queueHit])
              (.either queueHit
                (seq [BlockStore.recordRejection, maybe MetricsTracker.recordRejectedLive,
                  MetricsTracker.recordResubmission, BlockStore.pendingCount,
                  MetricsTracker.syncPending, uiEvent, log])))])])

def flushResult : Code Mutex :=
  .either
    (seq [MetricsTracker.recordAcceptedFlush, LocalMiningStatsTracker.recordAccept,
      miningDifficulty, XenblockscanReporter.enqueue, under .state])
    (.either (maybe (seq [noteSubmitTransportFailure, BlockStore.markPendingReason]))
      (.either (maybe BlockStore.markPendingReason)
        (seq [maybe MetricsTracker.recordRejectedFlush, BlockStore.markPendingReason])))

def flushWork : Code Mutex :=
  seq [.loop (seq [miningDifficulty, maybe BlockStore.markSubmitted]),
    .either (seq [BlockStore.pendingCount, logFlushSkip])
      (seq [maybe (seq [BlockStore.pendingCount, log]),
        .loop (seq [.loop flushResult, maybe BlockStore.markSubmittedMany]),
        BlockStore.pendingCount, MetricsTracker.syncPending,
        .either (seq [maybe log, log, uiEvent]) (maybe (seq [under .state, maybe log]))])]

def tryFlushPending : Code Mutex :=
  seq [maybe flushSubmitAllowed,
    .either logFlushSkip (seq [maybe (under .state),
      maybe (seq [refreshNetwork false, refreshPaper,
        .either BlockStore.deferAllToNextStart
          (seq [maybe (seq [flushSubmitAllowed, maybe (seq [bagTargetM, networkMatchesHitM])]),
            maybe flushSubmitAllowed,
            .either logFlushSkip (seq [submitTargetM,
              .either logFlushSkip
                (seq [bagTargetM, BlockStore.listFlushBatch, maybe flushWork])])])])])]

def servicePendingQueue : Code Mutex :=
  seq [BlockStore.pendingByType, BlockStore.pendingCount, maybe (seq [log, tryFlushPending]),
    maybe tryFlushPending]

def submitTurn : Code Mutex :=
  seq [under .submit, .loop (under .submit),
    .either
      (seq [.loop (seq [BlockStore.enqueue, MetricsTracker.recordEnqueued]),
        maybe (seq [BlockStore.pendingCount, MetricsTracker.syncPending])])
      (seq [.loop processLiveSubmit, servicePendingQueue])]

def submitWorkerLoop : Code Mutex :=
  seq [.loop submitTurn, submitTurn, bagLiveQueueToStore none, BlockStore.deferAllToNextStart,
    maybe liveSubmitAllowed,
    .either tryFlushPending
      (seq [maybe BlockStore.pendingCount, maybe (seq [BlockStore.pendingCount, log])]),
    log]

def gpuSafetyTick : Code Mutex :=
  maybe (seq [maybe log, maybe GpuPowerBooster.tick, maybe (seq [log, CudaEngine.stop])])

def gracefulShutdown : Code Mutex :=
  seq [log, maybe MinerDashboard.setStatus,
    upTo [maybe (upTo [CudaEngine.drainPipeline, handleBatchHits,
      maybe MetricsTracker.recordHashes]), CudaEngine.stop],
    bagLiveQueueToStore none, BlockStore.deferAllToNextStart, BlockStore.flush]

def finalizeSession : Code Mutex :=
  maybe (seq [bagLiveQueueToStore none, BlockStore.deferAllToNextStart, CudaEngine.stop,
    maybe MinerDashboard.setStatus, log])

/-- The `try` block with which `run` starts the engine; the difficulty of the network is set
while the state is locked. -/
def startEngine : Code Mutex :=
  upTo [applyVramPolicy, CudaEngine.start, applyVramPolicy,
    .either CudaEngine.setDifficulty (.locked .state (maybe CudaEngine.setDifficulty)),
    maybe log, log, log, maybe log, maybe log]

def restartEngine : Code Mutex :=
  seq [maybe (seq [CudaEngine.reduceLaneCap, log]),
    upTo [CudaEngine.start,
      .either CudaEngine.setDifficulty (seq [under .state, maybe CudaEngine.setDifficulty]),
      maybe log, maybe MinerDashboard.setStatus],
    maybe log]

def mineTurn : Code Mutex :=
  upTo [maybe CudaEngine.start, shouldParkCuda,
    .either
      (seq [maybe (seq [CudaEngine.drainPipeline, maybe MetricsTracker.recordHashes,
        handleBatchHits, log]), maybe uiRefresh])
      (upTo [maybe log, maybe BlockStore.pendingByType, CudaEngine.mineBatch, maybe log,
        MetricsTracker.setActiveLanes, maybe MetricsTracker.recordHashes, handleBatchHits])]

def miningTurn : Code Mutex :=
  seq [refreshNetwork true, refreshPaper, updateMatchDrain, maybeCheckUpdate,
    .either (seq [maybe MinerDashboard.setStatus, maybe uiRefresh, maybe restartEngine])
      (seq [gpuSafetyTick,
        maybe (seq [mineTurn, maybe (seq [log, maybe (seq [log, maybe CudaEngine.stop])]),
          maybe (seq [uiRefresh,
            maybe (seq [MetricsTracker.stats, BlockStore.pendingCount, log])])])])]

def startNetwork : Code Mutex :=
  seq [maybe (seq [MinerDashboard.setStatus, MinerDashboard.render]),
    .loop (seq [NetworkPoller.pollOnce, maybe (refreshNetwork false)]),
    refreshNetwork false,
    .locked .state log,
    maybe (seq [log, maybe (seq [MinerDashboard.setMiningM, MinerDashboard.setStatus])]),
    log]

def run : Code Mutex :=
  seq [startNetwork, startEngine,
    .either (seq [log, finalizeSession])
      (seq [maybe GpuPowerBooster.apply, maybe log, log, maybe log, BlockStore.pendingCount,
        maybe (seq [BlockStore.pendingCount, log]), log, maybe MinerDashboard.setStatus,
        .loop miningTurn, maybe gracefulShutdown, finalizeSession])]

/-- `startup_checks` logs what fails, and the process ends; otherwise `run` follows. -/
def mainThread : Code Mutex := .either log run

/-- The threads of the process; the tasks of a flush wave are 256 at most, the lanes 16. -/
inductive Thread where
  | mining
  | submitWorker
  | submitTask (i : Fin 256)
  | laneWorker (i : Fin 16)
  | networkPoller
  | lastblockPoller
  | bagForwarder
  | woodyminer
  | xenblockscan
  deriving DecidableEq, Fintype

def threadCode (t : Thread) : Code Mutex :=
  match t with
  | .mining => mainThread
  | .submitWorker => submitWorkerLoop
  | .submitTask _ => submitTask
  | .laneWorker i => CudaEngine.laneWorkerLoop i
  | .networkPoller => NetworkPoller.loop
  | .lastblockPoller => LastblockPoller.loop
  | .bagForwarder => BagForwarder.loop
  | .woodyminer => WoodyminerUploader.loop
  | .xenblockscan => XenblockscanReporter.loop

def process : Machine (Thread → List (Frame Mutex)) (Event Thread) :=
  threadMachine threadCode handleSignal

end XnMiner.LockScopes

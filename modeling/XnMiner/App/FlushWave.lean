import XnMiner.App.RefreshNetwork
import XnMiner.Queue.BagInvariant
import XnMiner.Queue.FlushBatch
import XnMiner.Mining.Argon2Encode
import XnMiner.Network.Submitter
import XnMiner.App.MatchDrain
import XnMiner.System.Action

/-! # One wave of the queue flush

Other threads enqueue hits and move the oracles between the critical sections of the
wave. Every section starts with what they did since the last one; a reading of a clock or
of an atomic counts as a section of its own.
-/
namespace XnMiner
open TextCodec Actions

structure Enqueue where
  hit : BlockHit
  reason : Str
  queuedAt : Str

/-- What surrounds a wave, by the number of the section. -/
structure FlushEnv where
  now : ℕ → ℚ
  minute : ℕ → ℕ
  stamp : ℕ → Str
  poll : ℕ → NetworkStatus
  /-- No paper poller is configured where this is `none`. -/
  paper : ℕ → Option PaperStatus
  enqueues : ℕ → List Enqueue
  oracleMoves : ℕ → OracleState → OracleState
  engineDifficulty : ℕ → ℤ
  draining : ℕ → Bool
  /-- The pool's answer to a submitted hit. -/
  respond : BlockHit → SubmitResult

structure WorkItem where
  id : ℤ
  hit : BlockHit
  deriving DecidableEq

structure FlushWorld where
  store : BlockStore
  oracle : OracleState
  drain : DrainState
  clock : ℕ := 0
  /-- The blocks other threads have added during the wave. -/
  enqueued : List PendingBlock := []
  /-- The items submitted so far. -/
  sent : List WorkItem := []

def Enqueue.run (e : Enqueue) (b : BlockStore) : BlockStore :=
  (enqueue b e.hit e.reason e.queuedAt).store

def Enqueue.adds (e : Enqueue) (b : BlockStore) : List PendingBlock :=
  (loggedByEnqueue b e.hit e.reason e.queuedAt).map Prod.fst

def enqueueAll (es : List Enqueue) (b : BlockStore) : BlockStore × List PendingBlock :=
  match es with
  | [] => (b, [])
  | e :: es =>
    let r := enqueueAll es (e.run b)
    (r.1, e.adds b ++ r.2)

/-- The world at the next section. -/
def FlushWorld.interfere (env : FlushEnv) (s : FlushWorld) : FlushWorld :=
  let r := enqueueAll (env.enqueues s.clock) s.store
  { s with
    store := r.1
    enqueued := s.enqueued ++ r.2
    oracle := env.oracleMoves s.clock s.oracle
    clock := s.clock + 1 }

section Flush
variable (cfg : Settings) (env : FlushEnv)

def enter : Action FlushWorld FlushWorld := do
  update (FlushWorld.interfere env)
  look

def setOracle (f : OracleState → OracleState) : Action FlushWorld Unit :=
  update fun s => { s with oracle := f s.oracle }

def setDrain (f : DrainState → DrainState) : Action FlushWorld Unit :=
  update fun s => { s with drain := f s.drain }

/-- A public operation of the bag. -/
def callStore {α : Type} (op : BlockStore → Effect α) : Action FlushWorld α := do
  let s ← enter env
  let e := op s.store
  update fun s => { s with store := e.store }
  lift e.result

def flushAllowed : Action FlushWorld Bool := do
  let s ← enter env
  pure (flushSubmitAllowed cfg s.oracle (env.now s.clock))

def flushBlocked : Action FlushWorld Bool := do
  let allowed ← flushAllowed cfg env
  if allowed = false then pure true
  else if cfg.forceMineMode = true then pure false
  else do
    let s ← enter env
    pure (decide (env.now s.clock < s.oracle.deferSubmitUntil))

/-- `refresh_network` on the submit worker, which leaves the engine alone. -/
def refreshWithoutReplan (blocking : Bool) : Action FlushWorld Bool := do
  let s ← enter env
  let st := env.poll s.clock
  let s ← enter env
  match dedupePoll s.oracle blocking st with
  | none => pure (s.oracle.networkOk && s.oracle.networkDifficulty.isSome)
  | some o => do
    setOracle fun _ => o
    let s ← enter env
    match st.difficulty with
    | some raw => do
      setOracle fun o => applyDifficulty cfg o raw (env.now s.clock)
      pure true
    | none => do
      let soft := (applyFailure cfg s.oracle (env.now s.clock)).2
      setOracle fun o => (applyFailure cfg o (env.now s.clock)).1
      let s ← enter env
      pure (soft && s.oracle.networkOk)

def refreshPaper : Action FlushWorld Unit := do
  let s ← enter env
  match (env.paper s.clock).bind fun st => (claimPaper s.oracle st).map fun o => (st, o) with
  | none => pure ()
  | some (st, o) => do
    setOracle fun _ => o
    let s ← enter env
    setOracle fun o => applyPaper o st (env.now s.clock)

def lastGoodMatches : Action FlushWorld Bool := do
  let allowed ← flushAllowed cfg env
  if allowed = false then pure false
  else do
    let s ← enter env
    let bagM := bagTargetM cfg s.oracle
    let s ← enter env
    pure (oracleSaysM s.oracle bagM)

def waveSize (onShutdown draining : Bool) : ℤ :=
  if onShutdown then 0
  else if draining then
    let par := max 1 (min 256 cfg.matchDrainParallel)
    let wave := max 256 (par * 16)
    if 0 < cfg.matchDrainBatch then min wave cfg.matchDrainBatch else wave
  else 64

def waveParallel (onShutdown draining : Bool) : ℕ :=
  if draining && !onShutdown then (max 1 (min 256 cfg.matchDrainParallel)).toNat
  else if onShutdown then 1
  else 4

/-- The hit as it is submitted; `none` where it cannot be assembled. -/
def submitForm (hit : BlockHit) (hitM : ℤ) : Option BlockHit :=
  if isArgon2Encoded hit.hashStr then some hit
  else prepareHitForSubmit hit cfg.saltHex hitM cfg.timeCost cfg.parallelism

def miningDifficulty (k : ℕ) : ℤ :=
  if cfg.forceMineMode then cfg.forcedMineM else env.engineDifficulty k

def buildWork (onShutdown : Bool) (wave netM : ℤ) (work : List WorkItem)
    (pending : List PendingBlock) : Action FlushWorld (List WorkItem) :=
  match pending with
  | [] => pure work
  | pb :: rest => do
    let s ← enter env
    let hitM := pb.hit.memoryCost.getD (miningDifficulty cfg env s.clock)
    if (readyToFlush (env.minute s.clock) pb.hit.blockType).1 = false then
      buildWork onShutdown wave netM work rest
    else if hitM < netM then buildWork onShutdown wave netM work rest
    else
      match submitForm cfg pb.hit hitM with
      | none => do
        callStore env fun b => markSubmitted b pb.id
        buildWork onShutdown wave netM work rest
      | some hit =>
        let work := work ++ [{ id := pb.id, hit }]
        if onShutdown = false ∧ 0 < wave ∧ wave ≤ work.length then pure work
        else buildWork onShutdown wave netM work rest

structure Tally where
  flushed : ℕ := 0
  holds : ℕ := 0
  transportFail : Bool := false

def settleItem (onShutdown draining : Bool) (tally : Tally) (accepted : List ℤ) (item : WorkItem) :
    Action FlushWorld (Tally × List ℤ) := do
  let r := env.respond item.hit
  if r.ok = true then do
    onlyIf (draining = true) (setDrain fun d => { d with flushed := d.flushed + 1 })
    let _ ← enter env
    setOracle fun o => { o with submitBackoffUntil := 0, networkOk := true }
    pure ({ tally with flushed := tally.flushed + 1 }, accepted ++ [item.id])
  else if r.status = 0 ∨ isTransientSubmitFailure r.status r.body = true then
    if onShutdown = true then pure (tally, accepted)
    else do
      let s ← enter env
      setOracle fun o => noteSubmitTransportFailure cfg o r.status (env.now s.clock)
      callStore env fun b => markPendingReason b item.id "network_down".toList
      pure ({ tally with transportFail := true }, accepted)
  else if isPoolHold r.status r.body = true ∨ isDifficultyMismatch r.status r.body = true ∨
      isXuniWindowReject r.status r.body = true then do
    onlyIf (isDifficultyMismatch r.status r.body = true)
      (callStore env fun b => markPendingReason b item.id "parked".toList)
    pure ({ tally with holds := tally.holds + 1 }, accepted)
  else do
    let s ← look
    callStore env fun b => logRejection b item.hit r.status r.body "flush".toList (env.stamp s.clock)
    callStore env fun b => markPendingReason b item.id "resubmission".toList
    pure (tally, accepted)

def settleItems (onShutdown draining : Bool) (tally : Tally) (accepted : List ℤ)
    (items : List WorkItem) : Action FlushWorld (Tally × List ℤ) :=
  match items with
  | [] => pure (tally, accepted)
  | item :: rest => do
    let r ← settleItem cfg env onShutdown draining tally accepted item
    settleItems onShutdown draining r.1 r.2 rest

def subWave (onShutdown draining : Bool) (tally : Tally) (items : List WorkItem) :
    Action FlushWorld Tally := do
  update fun s => { s with sent := s.sent ++ items }
  let r ← settleItems cfg env onShutdown draining tally [] items
  if r.2 = [] then pure r.1
  else do
    callStore env fun b => markSubmittedMany b r.2
    pure r.1

def chunks {α : Type} (parallel : ℕ) (work : List α) : List (List α) :=
  (List.range ((work.length + parallel - 1) / parallel)).map fun i =>
    (work.drop (i * parallel)).take parallel

/-- A transport failure ends the wave after its sub-wave. -/
def subWaves (onShutdown draining : Bool) (tally : Tally) (work : List (List WorkItem)) :
    Action FlushWorld Tally :=
  match work with
  | [] => pure tally
  | items :: rest =>
    if tally.transportFail = true then pure tally
    else do
      let tally ← subWave cfg env onShutdown draining tally items
      subWaves onShutdown draining tally rest

/-- A wave that was only held pauses submits and moves the cursor. -/
def rotateAfterHold (onShutdown draining : Bool) (tally : Tally) (work : List WorkItem) :
    Action FlushWorld Unit :=
  if tally.flushed = 0 ∧ onShutdown = false ∧ 0 < tally.holds ∧ tally.transportFail = false then do
    let s ← enter env
    setOracle fun o => { o with
      submitBackoffUntil := env.now s.clock + if draining then 1 else 2 }
    setDrain fun d => { d with
      flushSkipBeforeId := match work.getLast? with
        | some item => item.id + 1
        | none => d.flushSkipBeforeId }
  else pure ()

def sendListed (onShutdown draining : Bool) (wave netM : ℤ) (listed : List PendingBlock) :
    Action FlushWorld ℕ :=
  match listed.getLast? with
  | none => pure 0
  | some lastBlock => do
    let work ← buildWork cfg env onShutdown wave netM [] listed
    if work = [] then do
      setDrain fun d => { d with flushSkipBeforeId := lastBlock.id + 1 }
      pure 0
    else do
      onlyIf (draining = true) (setDrain fun d => { d with loggedFirstWave := true })
      let tally ← subWaves cfg env onShutdown draining {}
        (chunks (waveParallel cfg onShutdown draining) work)
      rotateAfterHold env onShutdown draining tally work
      pure tally.flushed

def sendWave (onShutdown : Bool) : Action FlushWorld ℕ := do
  let s ← enter env
  let netM := submitTargetM cfg s.oracle
  if netM ≤ 0 then pure 0
  else do
    let s ← enter env
    let draining := env.draining s.clock
    let wave := waveSize cfg onShutdown draining
    let fetch := if onShutdown then 0 else wave * 2
    let s ← enter env
    let defaultM := bagTargetM cfg s.oracle
    let s ← enter env
    sendListed cfg env onShutdown draining wave netM
      (listFlushBatch s.store (env.minute s.clock) netM defaultM fetch s.drain.flushSkipBeforeId)

def tryFlushPending (onShutdown : Bool) : Action FlushWorld ℕ := do
  let blocked ← (if onShutdown = true then pure false else flushBlocked cfg env)
  if blocked = true then pure 0
  else do
    let refreshed ← refreshWithoutReplan cfg env onShutdown
    refreshPaper env
    if refreshed = false ∧ onShutdown = true then do
      let s ← enter env
      callStore env fun b => deferAllToNextStart b (env.minute s.clock)
      pure 0
    else do
      let usable ← (if refreshed = true then pure true else lastGoodMatches cfg env)
      if usable = false then pure 0
      else do
        let allowed ← (if onShutdown = true then pure true else flushAllowed cfg env)
        if allowed = false then pure 0 else sendWave cfg env onShutdown

end Flush

end XnMiner

import XnMiner.Config.Settings
import Mathlib.Data.Rat.Init
import Mathlib.Algebra.Order.Ring.Unbundled.Rat

/-! # What the supervisor believes about the pool's difficulty

Two oracles say which `m` the pool takes: the live `/difficulty` poll and the newest
sealed block. The fields stand under one mutex, so every query reads one state.
-/
namespace XnMiner
open TextCodec

structure OracleState where
  networkOk : Bool := false
  difficultyStale : Bool := false
  networkDifficulty : Option ℤ := none
  lastDifficultyOkAt : ℚ := 0
  difficultyFailStreak : ℕ := 0
  lastPollSeq : ℕ := 0
  paperOk : Bool := false
  paperNewestM : Option ℤ := none
  paperTipId : ℤ := 0
  lastPaperOkAt : ℚ := 0
  lastPaperSeq : ℕ := 0
  deferSubmitUntil : ℚ := 0
  submitBackoffUntil : ℚ := 0

def OracleState.liveM (o : OracleState) : Option ℤ :=
  if o.networkOk then o.networkDifficulty.filter fun d => 0 < d else none

def OracleState.paperM (o : OracleState) : Option ℤ :=
  if o.paperOk then o.paperNewestM.filter fun d => 0 < d else none

section Queries
variable (cfg : Settings) (o : OracleState)

def bagTargetM : ℤ :=
  if cfg.forceMineMode then cfg.forcedMineM else o.networkDifficulty.getD cfg.memoryCost

def oracleSaysM (m : ℤ) : Bool :=
  if m ≤ 0 then false
  else if o.networkOk && o.networkDifficulty == some m then true
  else o.paperOk && o.paperNewestM == some m

def oracleLeftM (m : ℤ) : Bool :=
  if m ≤ 0 then false
  else if (o.networkOk && o.networkDifficulty == some m) ||
      (o.paperOk && o.paperNewestM == some m) then false
  else o.liveM.isSome || o.paperM.isSome

/-- Live difficulty first, paper as fallback. -/
def submitTargetM : ℤ :=
  let bag := bagTargetM cfg o
  match o.liveM with
  | some d => if d = bag then bag else d
  | none => match o.paperM with
    | some d => if d = bag then bag else d
    | none => o.networkDifficulty.getD 0

def liveSubmitAllowed (now : ℚ) : Bool :=
  if !o.networkOk then false
  else if now < o.submitBackoffUntil then false
  else if !cfg.forceMineMode && decide (now < o.deferSubmitUntil) then false
  else true

def flushSubmitAllowed (now : ℚ) : Bool :=
  if now < o.submitBackoffUntil then false
  else if !cfg.forceMineMode && decide (now < o.deferSubmitUntil) then false
  else if o.paperOk || o.networkOk then true
  else cfg.forceMineMode && o.networkDifficulty == some cfg.forcedMineM

def canSubmitHitM (now : ℚ) (hitM : ℤ) : Bool := liveSubmitAllowed cfg o now && oracleSaysM o hitM

/-- Park only while the live difficulty, or without one the paper, is the bag's `m`. -/
def shouldParkCuda (drainActive : Bool) : Bool :=
  if !drainActive then false
  else match o.liveM with
    | some d => decide (d = bagTargetM cfg o)
    | none => o.paperOk && o.paperNewestM == some (bagTargetM cfg o)

/-- A failed transport pauses submits; a rate limit or a matching bag does not take the
network down. -/
def noteSubmitTransportFailure (status : ℤ) (now : ℚ) : OracleState :=
  let hybridMatch := cfg.forceMineMode && oracleSaysM o cfg.forcedMineM
  let rateLimit := decide (status = 401) || decide (status = 403) || decide (status = 429)
  let backoff : ℚ :=
    if hybridMatch || rateLimit then 3 else max 15 (cfg.networkDownPollIntervalS : ℚ)
  { o with
    submitBackoffUntil := now + backoff
    networkOk := if hybridMatch || rateLimit then o.networkOk else false }

end Queries

structure PaperStatus where
  ok : Bool := false
  newestM : Option ℤ := none
  majorityM : Option ℤ := none
  tipId : ℤ := 0
  mixed : Bool := false
  error : Str := []
  seq : ℕ := 0

/-- `none` where the snapshot was seen before. -/
def claimPaper (o : OracleState) (st : PaperStatus) : Option OracleState :=
  if st.seq = 0 ∨ st.seq = o.lastPaperSeq then none else some { o with lastPaperSeq := st.seq }

def applyPaper (o : OracleState) (st : PaperStatus) (now : ℚ) : OracleState :=
  if st.ok && st.newestM.isSome then
    { o with paperOk := true, paperNewestM := st.newestM, paperTipId := st.tipId,
             lastPaperOkAt := now }
  else
    let age := if 0 < o.lastPaperOkAt then now - o.lastPaperOkAt else 1000000000
    { o with paperOk := o.paperNewestM.isSome && decide (age < 30) }

end XnMiner

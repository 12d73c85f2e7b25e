import XnMiner.Config.Settings
import XnMiner.Mining.Argon2Encode
import XnMiner.System.Machine
import Mathlib.Logic.Function.Basic

/-! # The hash engine and its lane workers

The backend of a lane returns the matches of the previous wave and keeps the current one.
With several lanes each has a worker that hashes on until a new job is published, and a
ring of results that `mine_batch` empties. A match carries the difficulty of the request
it was computed under; the program does not have it.
-/
namespace XnMiner
open TextCodec Transitions

structure Found where
  key : Str
  digest : List ℕ
  matchedPattern : Str

structure HashApiMatch extends Found where
  computedAt : ℕ

def HashApiMatch.hash (m : HashApiMatch) : Str := base64Encode m.digest

/-- What hashing a wave comes to. -/
inductive BatchRun where
  | wave (found : List Found)
  | rejected
  | failed

def Found.under (difficulty : ℕ) (f : Found) : HashApiMatch :=
  { f with computedAt := difficulty }

/-- The buffered wave and the result of `runBatch`; without a result it has an error. -/
def runBatch (pending : Option (List HashApiMatch)) (difficulty : ℕ) (run : BatchRun) :
    Option (List HashApiMatch) × Option (List HashApiMatch) :=
  match run with
  | .wave found => (some (found.map (Found.under difficulty)), some (pending.getD []))
  | .rejected => (pending, none)
  | .failed => (none, none)

structure LaneMailbox where
  seq : ℕ := 0
  difficulty : ℕ := 0
  /-- The results produced and not yet consumed. -/
  ring : List (Option (List HashApiMatch)) := []

def kRing : ℕ := 4

inductive WorkerPhase where
  | waiting (seen : ℕ)
  | ready (seen difficulty : ℕ)
  | hashing (seen difficulty : ℕ)
  | holding (seen difficulty : ℕ) (result : Option (List HashApiMatch))

/-- A hit that the engine returned, and the hit `handle_hit` makes of it. -/
structure ReturnedHit where
  hit : BlockHit
  computedAt : ℕ
  prepared : Option BlockHit

inductive EnginePc where
  | outside
  | mining
  | draining (lane : ℕ)
  deriving DecidableEq

structure CudaEngine where
  started : Bool := true
  difficulty : ℤ
  lanes : ℕ
  /-- `lanes_impl_.size()` -/
  impl : ℕ
  pending : ℕ → Option (List HashApiMatch) := fun _ => none
  /-- `lane_workers_.size()` -/
  workers : ℕ := 0
  mailbox : ℕ → LaneMailbox := fun _ => {}
  phase : ℕ → WorkerPhase := fun _ => .waiting 0
  pc : EnginePc := .outside
  returned : List ReturnedHit := []

structure BatchReport where
  attempts : ℤ
  hps : Double
  foundAt : Str

/-- A match is labelled with the difficulty the engine has now. -/
def hitFromMatch (strategy : Str) (difficulty : ℤ) (m : HashApiMatch) (r : BatchReport) :
    Option BlockHit :=
  let kind := classifyBlock m.hash m.matchedPattern
  if kind = "OTHER".toList then none
  else if isHex64Key m.key = false then none
  else some { key := m.key, hashStr := m.hash, blockType := kind, attempts := r.attempts
              strategy := strategy, hps := r.hps, foundAt := r.foundAt
              memoryCost := some difficulty }

section Engine
variable (cfg : Settings)

/-- `handle_hit` runs on the same thread, before the engine's difficulty can change. -/
def returnHit (difficulty : ℤ) (r : BatchReport) (m : HashApiMatch) : Option ReturnedHit :=
  (hitFromMatch cfg.strategy difficulty m r).map fun hit =>
    { hit, computedAt := m.computedAt
      prepared := prepareHitForSubmit hit cfg.saltHex
        (if cfg.forceMineMode then cfg.forcedMineM else difficulty) cfg.timeCost cfg.parallelism }

def CudaEngine.giveBack (s : CudaEngine) (r : BatchReport) (ms : List HashApiMatch) : CudaEngine :=
  { s with returned := s.returned ++ ms.filterMap (returnHit cfg s.difficulty r) }

/-- A worker can be joined where it looks at the stop flag. -/
def WorkerPhase.joinable (p : WorkerPhase) : Bool :=
  match p with
  | .waiting _ | .ready _ _ => true
  | .hashing _ _ | .holding _ _ _ => false

def CudaEngine.joinable (s : CudaEngine) : Bool :=
  (List.range s.workers).all fun i => (s.phase i).joinable

/-- Waits for the workers; `none` while one of them is busy. -/
def CudaEngine.stopLaneWorkers (s : CudaEngine) : Option CudaEngine :=
  if s.joinable then some { s with workers := 0 } else none

def CudaEngine.ensureLaneWorkers (s : CudaEngine) : Option CudaEngine :=
  if s.lanes ≤ 1 then s.stopLaneWorkers
  else if s.workers = s.lanes then some s
  else s.stopLaneWorkers.map fun s =>
    { s with workers := s.lanes, mailbox := fun _ => {}, phase := fun _ => .waiting 0 }

/-- Kept lanes keep their buffered wave; making a new one does not fail. -/
def CudaEngine.syncLanes (s : CudaEngine) : CudaEngine :=
  { s with impl := s.lanes, pending := fun i => if i < s.impl then s.pending i else none }

/-- The difficulty is stored before the plan, which can throw, is made. The call is one step,
taken when the workers can be joined. A lane that is destroyed or made while its worker is in
`runBatch` is undefined behaviour, and no step. -/
def CudaEngine.setDifficulty (s : CudaEngine) (d : ℤ) (plan : Option ℕ) : Option CudaEngine :=
  if d = s.difficulty ∧ s.started = true then some s
  else if s.started = false then some { s with difficulty := d }
  else match plan with
    | none => some { s with difficulty := d }
    | some n => ({ s with difficulty := d, lanes := n } : CudaEngine).syncLanes.ensureLaneWorkers

def CudaEngine.runLane (s : CudaEngine) (i difficulty : ℕ) (run : BatchRun) :
    CudaEngine × Option (List HashApiMatch) :=
  let r := runBatch (s.pending i) difficulty run
  ({ s with pending := Function.update s.pending i r.1 }, r.2)

/-- The job of a lane is published when it changed or was never published. -/
def CudaEngine.publish (s : CudaEngine) (changed : ℕ → Bool) : CudaEngine :=
  { s with mailbox := fun i =>
      let box := s.mailbox i
      if i < s.lanes ∧ (changed i = true ∨ box.difficulty ≠ toUint32 s.difficulty ∨ box.seq = 0)
      then { box with difficulty := toUint32 s.difficulty, seq := box.seq + 1 }
      else box }

/-- The oldest result of each lane; an error leaves those of the lanes behind it. -/
def absorb (mailbox : ℕ → LaneMailbox) (lanes : List ℕ) (acc : List HashApiMatch) :
    (ℕ → LaneMailbox) × Option (List HashApiMatch) :=
  match lanes with
  | [] => (mailbox, some acc)
  | i :: rest => match (mailbox i).ring with
    | some ms :: ring =>
      absorb (Function.update mailbox i { mailbox i with ring := ring }) rest (acc ++ ms)
    | _ => (mailbox, none)

inductive EngineAction where
  | start (plan : Option ℕ)
  | stop
  | setDifficulty (d : ℤ) (plan : Option ℕ)
  | laneCap (n : ℕ) (sync : Bool)
  | mineSingle (run : BatchRun) (r : BatchReport)
  | mine (changed : ℕ → Bool)
  | collect (r : BatchReport)
  | drain
  | drainLane (r : BatchReport)
  | wake (i : ℕ) (usable : Bool)
  | check (i : ℕ)
  | hash (i : ℕ) (run : BatchRun)
  | push (i : ℕ)
  | leave (i : ℕ)

def CudaEngine.call (s : CudaEngine) (a : EngineAction) : Option CudaEngine :=
  match a, s.pc with
  | .start plan, .outside =>
    if s.started = true then some s
    else match plan with
      | none => some s
      | some n => (({ s with lanes := n } : CudaEngine).syncLanes.ensureLaneWorkers).map fun s =>
        { s with started := true }
  | .stop, .outside => s.stopLaneWorkers.map fun s => { s with impl := 0, started := false }
  | .setDifficulty d plan, .outside => s.setDifficulty d plan
  | .laneCap n sync, .outside =>
    if s.started = false ∨ n = 0 ∨ (sync = false ∧ s.impl < n) then none
    else
      let s := { s with lanes := n }
      (if sync then s.syncLanes else s).ensureLaneWorkers
  | .mineSingle run r, .outside =>
    if s.started = true ∧ 0 < s.impl ∧ s.lanes = 1 then
      let (s, result) := s.runLane 0 (toUint32 s.difficulty) run
      some (s.giveBack cfg r (result.getD []))
    else none
  | .mine changed, .outside =>
    if s.started = true ∧ 0 < s.impl ∧ s.lanes ≠ 1 then
      s.ensureLaneWorkers.map fun s => { s.publish changed with pc := .mining }
    else none
  | .collect r, .mining =>
    if (List.range s.lanes).all fun i => !(s.mailbox i).ring.isEmpty then
      let (mailbox, ms) := absorb s.mailbox (List.range s.lanes) []
      some (({ s with mailbox, pc := .outside } : CudaEngine).giveBack cfg r (ms.getD []))
    else none
  | .drain, .outside => if s.started = true then some { s with pc := .draining 0 } else some s
  | .drainLane r, .draining i =>
    if i < s.impl then
      let ms := (s.pending i).getD []
      some (({ s with pending := Function.update s.pending i none, pc := .draining (i + 1) } :
        CudaEngine).giveBack cfg r ms)
    else some { s with pc := .outside }
  | _, _ => none

def CudaEngine.work (s : CudaEngine) (a : EngineAction) : Option CudaEngine :=
  let goto := fun (i : ℕ) (p : WorkerPhase) (s : CudaEngine) =>
    { s with phase := Function.update s.phase i p }
  match a with
  | .wake i usable => match s.phase i with
    | .waiting seen =>
      let box := s.mailbox i
      if i < s.workers ∧ box.seq ≠ seen then
        if usable = true ∧ box.difficulty ≠ 0 ∧ i < s.impl then
          some (goto i (.ready box.seq box.difficulty) s)
        else some (goto i (.waiting box.seq) s)
      else none
    | _ => none
  | .check i => match s.phase i with
    | .ready seen d =>
      if i < s.workers ∧ (s.mailbox i).seq = seen ∧ (s.mailbox i).ring.length < kRing then
        some (goto i (.hashing seen d) s)
      else none
    | _ => none
  | .hash i run => match s.phase i with
    | .hashing seen d =>
      if i < s.workers ∧ i < s.impl then
        let (s, result) := s.runLane i d run
        some (goto i (.holding seen d result) s)
      else none
    | _ => none
  | .push i => match s.phase i with
    | .holding seen d result =>
      if i < s.workers then
        let box := s.mailbox i
        some (goto i (.ready seen d) { s with
          mailbox := Function.update s.mailbox i { box with ring := box.ring ++ [result] } })
      else none
    | _ => none
  | .leave i => match s.phase i with
    | .ready seen _ =>
      if i < s.workers ∧ (s.mailbox i).seq ≠ seen then some (goto i (.waiting seen) s) else none
    | _ => none
  | _ => none

def CudaEngine.step (s : CudaEngine) (a : EngineAction) : Option CudaEngine :=
  match a with
  | .wake .. | .check .. | .hash .. | .push .. | .leave .. => s.work a
  | _ => s.call cfg a

structure CudaEngine.fresh (s : CudaEngine) : Prop where
  outside : s.pc = .outside
  pending : s.pending = fun _ => none
  mailbox : s.mailbox = fun _ => {}
  phase : s.phase = fun _ => .waiting 0
  returned : s.returned = []
  stopped : s.started = false → s.impl = 0 ∧ s.workers = 0

/-- In hybrid mode the engine is only ever set to the forced `m`. -/
def engineMachine : Machine CudaEngine EngineAction where
  init s := s.fresh ∧ (cfg.forceMineMode = true → s.difficulty = cfg.forcedMineM)
  step s a t := s.step cfg a = some t ∧ ∀ d plan, a = .setDifficulty d plan →
    cfg.forceMineMode = true → d = cfg.forcedMineM

end Engine

/-- The hit and its PHC string name the difficulty the digest was computed under. -/
def ReturnedHit.genuine (r : ReturnedHit) : Prop :=
  (∃ m, r.hit.memoryCost = some m ∧ toUint32 m = r.computedAt) ∧
    ∃ p, r.prepared = some p ∧ findCost p.hashStr = some (natText r.computedAt)

def CudaEngine.genuine (s : CudaEngine) : Prop := ∀ r ∈ s.returned, r.genuine

def underOne (d : ℕ) (ms : Option (List HashApiMatch)) : Prop := ∀ m ∈ ms.getD [], m.computedAt = d

def WorkerPhase.seen (p : WorkerPhase) : ℕ :=
  match p with
  | .waiting seen | .ready seen _ | .hashing seen _ | .holding seen _ _ => seen

def WorkerPhase.holdsOnly (d : ℕ) (p : WorkerPhase) : Prop :=
  match p with
  | .waiting _ => True
  | .ready _ e | .hashing _ e => e = d
  | .holding _ e result => e = d ∧ underOne d result

def WorkerPhase.under (d : ℕ) (box : LaneMailbox) (p : WorkerPhase) : Prop :=
  p.holdsOnly d ∧ (box.seq ≠ p.seen → box.difficulty = d)

def CudaEngine.laneUnder (s : CudaEngine) (d i : ℕ) : Prop :=
  (∀ result ∈ (s.mailbox i).ring, underOne d result) ∧ (s.phase i).under d (s.mailbox i)

end XnMiner

import XnMiner.Mining.CudaEngine
import XnMiner.System.RingBuffer

/-! # Lane workers and `mine_batch` over the rings

With several lanes, every mailbox has four slots and two counters. A worker waits for room,
hashes, writes its slot and counts; `mine_batch` waits for a result of every lane and then
reads and counts lane by lane. A failed result ends the call before its lane is counted.
The number of lanes stays, so the workers are never restarted.
-/
namespace XnMiner
open TextCodec Transitions RingBuffers

/-- The matches of a wave; without them it failed. -/
abbrev LaneResult := Option (List HashApiMatch)

structure RingMailbox where
  seq : ℕ := 0
  difficulty : ℕ := 0
  ring : RingBuffer LaneResult := { slots := fun _ => some [] }

inductive LanePhase where
  | waiting (seen : ℕ)
  | ready (seen difficulty : ℕ)
  | hashing (seen difficulty : ℕ)
  | writing (seen difficulty : ℕ) (result : LaneResult)
  | publishing (seen difficulty : ℕ) (result : LaneResult)

inductive BatchPc where
  | outside
  | waiting
  | reading (lane : ℕ)
  | absorbing (lane : ℕ) (ms : List HashApiMatch)

structure RingEngine where
  difficulty : ℤ
  lanes : ℕ
  /-- `lanes_impl_.size()` -/
  impl : ℕ
  pending : ℕ → Option (List HashApiMatch) := fun _ => none
  mailbox : ℕ → RingMailbox := fun _ => {}
  phase : ℕ → LanePhase := fun _ => .waiting 0
  pc : BatchPc := .outside
  /-- The results a lane has made, oldest first. -/
  made : ℕ → List LaneResult := fun _ => []
  /-- The results `mine_batch` has taken from a lane, oldest first. -/
  taken : ℕ → List LaneResult := fun _ => []
  /-- How the calls ended, oldest first: normally, or by reporting a result of a lane. -/
  calls : List (Option (ℕ × ℕ)) := []

inductive LaneAction where
  | wake (usable : Bool)
  | check
  | hash (run : BatchRun)
  | write
  | publish
  | leave

def RingEngine.goto (s : RingEngine) (i : ℕ) (p : LanePhase) : RingEngine :=
  { s with phase := Function.update s.phase i p }

def RingEngine.setRing (s : RingEngine) (i : ℕ) (ring : RingBuffer LaneResult) : RingEngine :=
  { s with mailbox := Function.update s.mailbox i { s.mailbox i with ring } }

def RingEngine.work (s : RingEngine) (i : ℕ) (a : LaneAction) : Option RingEngine :=
  let box := s.mailbox i
  match a, s.phase i with
  | .wake usable, .waiting seen =>
    if i < s.lanes ∧ box.seq ≠ seen then
      if usable = true ∧ box.difficulty ≠ 0 ∧ i < s.impl then
        some (s.goto i (.ready box.seq box.difficulty))
      else some (s.goto i (.waiting box.seq))
    else none
  | .check, .ready seen d =>
    if i < s.lanes ∧ box.seq = seen ∧ box.ring.produced - box.ring.consumed < kRing then
      some (s.goto i (.hashing seen d))
    else none
  | .hash run, .hashing seen d =>
    if i < s.lanes ∧ i < s.impl then
      let r := runBatch (s.pending i) d run
      some ({ s with pending := Function.update s.pending i r.1 }.goto i (.writing seen d r.2))
    else none
  | .write, .writing seen d result =>
    if i < s.lanes then
      some ((s.setRing i (box.ring.write kRing result)).goto i (.publishing seen d result))
    else none
  | .publish, .publishing seen d result =>
    if i < s.lanes then
      some ({ s.setRing i box.ring.publish with
        made := Function.update s.made i (s.made i ++ [result]) }.goto i (.ready seen d))
    else none
  | .leave, .ready seen _ =>
    if i < s.lanes ∧ box.seq ≠ seen then some (s.goto i (.waiting seen)) else none
  | _, _ => none

/-- The job of a lane is published when it changed or was never published. -/
def RingEngine.publishJobs (s : RingEngine) (changed : ℕ → Bool) : RingEngine :=
  { s with mailbox := fun i =>
      let box := s.mailbox i
      if i < s.lanes ∧ (changed i = true ∨ box.difficulty ≠ toUint32 s.difficulty ∨ box.seq = 0)
      then { box with difficulty := toUint32 s.difficulty, seq := box.seq + 1 }
      else box }

inductive BatchAction where
  | setDifficulty (d : ℤ)
  | call (changed : ℕ → Bool)
  | gather
  | read
  | count
  | finish

def RingEngine.gathered (s : RingEngine) : Bool :=
  (List.range s.lanes).all fun i =>
    decide (1 ≤ (s.mailbox i).ring.produced - (s.mailbox i).ring.consumed)

def RingEngine.mine (s : RingEngine) (a : BatchAction) : Option RingEngine :=
  match a, s.pc with
  | .setDifficulty d, .outside => some { s with difficulty := d }
  | .call changed, .outside =>
    if 0 < s.impl then some { s.publishJobs changed with pc := .waiting } else none
  | .gather, .waiting => if s.gathered then some { s with pc := .reading 0 } else none
  | .read, .reading i =>
    if i < s.lanes then
      match (s.mailbox i).ring.front kRing with
      | some ms => some { s with pc := .absorbing i ms }
      | none => some { s with
          pc := .outside, calls := s.calls ++ [some (i, (s.mailbox i).ring.consumed)] }
    else none
  | .count, .absorbing i ms =>
    some { s.setRing i (s.mailbox i).ring.advance with
      taken := Function.update s.taken i (s.taken i ++ [some ms]), pc := .reading (i + 1) }
  | .finish, .reading i =>
    if i = s.lanes then some { s with pc := .outside, calls := s.calls ++ [none] } else none
  | _, _ => none

inductive RingAction where
  | work (i : ℕ) (a : LaneAction)
  | mine (a : BatchAction)

def RingEngine.step (s : RingEngine) (a : RingAction) : Option RingEngine :=
  match a with
  | .work i a => s.work i a
  | .mine a => s.mine a

/-- `ensure_lane_workers` has just started the workers of several lanes. -/
structure RingEngine.fresh (s : RingEngine) : Prop where
  several : 1 < s.lanes
  mailbox : s.mailbox = fun _ => {}
  phase : s.phase = fun _ => .waiting 0
  outside : s.pc = .outside
  made : s.made = fun _ => []
  taken : s.taken = fun _ => []
  calls : s.calls = []

def ringMachine : Machine RingEngine RingAction where
  init := RingEngine.fresh
  step s a t := s.step a = some t

variable {s t : RingEngine} {i : ℕ}

inductive RingEngine.Works (s : RingEngine) (i : ℕ) : LaneAction → RingEngine → Prop where
  | woken {seen : ℕ} (hphase : s.phase i = .waiting seen) (hlt : i < s.lanes)
      (hnew : (s.mailbox i).seq ≠ seen) (hjob : (s.mailbox i).difficulty ≠ 0)
      (himpl : i < s.impl) :
      Works s i (.wake true) (s.goto i (.ready (s.mailbox i).seq (s.mailbox i).difficulty))
  | skipped {seen : ℕ} {usable : Bool} (hphase : s.phase i = .waiting seen) (hlt : i < s.lanes)
      (hnew : (s.mailbox i).seq ≠ seen)
      (hskip : ¬ (usable = true ∧ (s.mailbox i).difficulty ≠ 0 ∧ i < s.impl)) :
      Works s i (.wake usable) (s.goto i (.waiting (s.mailbox i).seq))
  | checked {seen d : ℕ} (hphase : s.phase i = .ready seen d) (hlt : i < s.lanes)
      (hseq : (s.mailbox i).seq = seen)
      (hroom : (s.mailbox i).ring.produced - (s.mailbox i).ring.consumed < kRing) :
      Works s i .check (s.goto i (.hashing seen d))
  | hashed {seen d : ℕ} {run : BatchRun} (hphase : s.phase i = .hashing seen d)
      (hlt : i < s.lanes) (himpl : i < s.impl) :
      Works s i (.hash run) ({ s with
          pending := Function.update s.pending i (runBatch (s.pending i) d run).1 }.goto i
        (.writing seen d (runBatch (s.pending i) d run).2))
  | wrote {seen d : ℕ} {result : LaneResult} (hphase : s.phase i = .writing seen d result)
      (hlt : i < s.lanes) :
      Works s i .write ((s.setRing i ((s.mailbox i).ring.write kRing result)).goto i
        (.publishing seen d result))
  | published {seen d : ℕ} {result : LaneResult} (hphase : s.phase i = .publishing seen d result)
      (hlt : i < s.lanes) :
      Works s i .publish ({ s.setRing i (s.mailbox i).ring.publish with
        made := Function.update s.made i (s.made i ++ [result]) }.goto i (.ready seen d))
  | left {seen d : ℕ} (hphase : s.phase i = .ready seen d) (hlt : i < s.lanes)
      (hseq : (s.mailbox i).seq ≠ seen) : Works s i .leave (s.goto i (.waiting seen))

theorem RingEngine.work_works {a : LaneAction} (h : s.work i a = some t) : s.Works i a t := by
  unfold RingEngine.work at h
  dsimp only at h
  split at h
  case h_1 usable seen hphase =>
    split_ifs at h with hnew husable
    · obtain ⟨rfl, hjob, himpl⟩ := husable
      exact Option.some.inj h ▸ .woken hphase hnew.1 hnew.2 hjob himpl
    · exact Option.some.inj h ▸ .skipped hphase hnew.1 hnew.2 husable
  case h_2 seen d hphase =>
    split_ifs at h with hready
    exact Option.some.inj h ▸ .checked hphase hready.1 hready.2.1 hready.2.2
  case h_3 run seen d hphase =>
    split_ifs at h with hready
    exact Option.some.inj h ▸ .hashed hphase hready.1 hready.2
  case h_4 seen d result hphase =>
    split_ifs at h with hlt
    exact Option.some.inj h ▸ .wrote hphase hlt
  case h_5 seen d result hphase =>
    split_ifs at h with hlt
    exact Option.some.inj h ▸ .published hphase hlt
  case h_6 seen d hphase =>
    split_ifs at h with hready
    exact Option.some.inj h ▸ .left hphase hready.1 hready.2
  case h_7 => cases h

inductive RingEngine.Mines (s : RingEngine) : BatchAction → RingEngine → Prop where
  | sets {d : ℤ} (hpc : s.pc = .outside) : Mines s (.setDifficulty d) { s with difficulty := d }
  | calls {changed : ℕ → Bool} (hpc : s.pc = .outside) (hbuilt : 0 < s.impl) :
      Mines s (.call changed) { s.publishJobs changed with pc := .waiting }
  | gathers (hpc : s.pc = .waiting) (hall : s.gathered = true) :
      Mines s .gather { s with pc := .reading 0 }
  | reads {i : ℕ} {ms : List HashApiMatch} (hpc : s.pc = .reading i) (hlt : i < s.lanes)
      (hfront : (s.mailbox i).ring.front kRing = some ms) :
      Mines s .read { s with pc := .absorbing i ms }
  | throws {i : ℕ} (hpc : s.pc = .reading i) (hlt : i < s.lanes)
      (hfront : (s.mailbox i).ring.front kRing = none) : Mines s .read { s with
        pc := .outside, calls := s.calls ++ [some (i, (s.mailbox i).ring.consumed)] }
  | counts {i : ℕ} {ms : List HashApiMatch} (hpc : s.pc = .absorbing i ms) :
      Mines s .count { s.setRing i (s.mailbox i).ring.advance with
        taken := Function.update s.taken i (s.taken i ++ [some ms]), pc := .reading (i + 1) }
  | returns (hpc : s.pc = .reading s.lanes) :
      Mines s .finish { s with pc := .outside, calls := s.calls ++ [none] }

theorem RingEngine.mine_mines {a : BatchAction} (h : s.mine a = some t) : s.Mines a t := by
  unfold RingEngine.mine at h
  split at h
  case h_1 d hpc => exact Option.some.inj h ▸ .sets hpc
  case h_2 changed hpc =>
    split_ifs at h with hbuilt
    exact Option.some.inj h ▸ .calls hpc hbuilt
  case h_3 hpc =>
    split_ifs at h with hall
    exact Option.some.inj h ▸ .gathers hpc hall
  case h_4 j hpc =>
    split_ifs at h with hlt
    split at h
    next ms hfront => exact Option.some.inj h ▸ .reads hpc hlt hfront
    next hfront => exact Option.some.inj h ▸ .throws hpc hlt hfront
  case h_5 j ms hpc => exact Option.some.inj h ▸ .counts hpc
  case h_6 j hpc =>
    split_ifs at h with hlast
    exact Option.some.inj h ▸ .returns (hlast ▸ hpc)
  case h_7 => cases h

end XnMiner

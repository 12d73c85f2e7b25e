import XnMiner.Mining.LaneRings

/-! # Safety of the lane rings

For each lane the counters stay within one round of each other, a worker that has found
room keeps it until it counts, and what was made is what was taken followed by what lies in
the ring.
-/
namespace XnMiner
open TextCodec Transitions RingBuffers

def LanePhase.busy (p : LanePhase) : Bool :=
  match p with
  | .waiting _ | .ready _ _ => false
  | .hashing _ _ | .writing _ _ _ | .publishing _ _ _ => true

/-- Ring, phase and history of a lane agree. -/
structure LaneOk (ring : RingBuffer LaneResult) (phase : LanePhase) (made taken : List LaneResult) :
    Prop where
  fits : ring.Fits kRing
  history : made = taken ++ ring.contents kRing
  counted : taken.length = ring.consumed
  room : phase.busy = true → ring.produced < ring.consumed + kRing
  written : ∀ seen d result, phase = .publishing seen d result →
    ring.slots (ring.produced % kRing) = result

def RingEngine.laneOk (s : RingEngine) (i : ℕ) : Prop :=
  LaneOk (s.mailbox i).ring (s.phase i) (s.made i) (s.taken i)

variable {ring : RingBuffer LaneResult} {phase phase' : LanePhase} {made taken : List LaneResult}

theorem LaneOk.goto (h : LaneOk ring phase made taken)
    (hroom : phase'.busy = true → ring.produced < ring.consumed + kRing)
    (hnot : ∀ seen d result, phase' ≠ .publishing seen d result) : LaneOk ring phase' made taken where
  fits := h.fits
  history := h.history
  counted := h.counted
  room := hroom
  written := fun seen d result heq => absurd heq (hnot seen d result)

theorem LaneOk.write {seen d : ℕ} {result : LaneResult}
    (h : LaneOk ring (.writing seen d result) made taken) :
    LaneOk (ring.write kRing result) (.publishing seen d result) made taken where
  fits := h.fits.write result
  history := by rw [contents_write (h.room rfl), h.history]
  counted := h.counted
  room := fun _ => h.room rfl
  written := by
    intro seen' d' result' heq
    cases heq
    exact Function.update_self ..

theorem LaneOk.publish {seen d : ℕ} {result : LaneResult}
    (h : LaneOk ring (.publishing seen d result) made taken) :
    LaneOk ring.publish (.ready seen d) (made ++ [result]) taken where
  fits := h.fits.publish (h.room rfl)
  history := by
    rw [contents_publish h.fits.le, h.written seen d result rfl, ← List.append_assoc, ← h.history]
  counted := h.counted
  room := fun hbusy => by cases hbusy
  written := fun _ _ _ heq => by cases heq

theorem LaneOk.take (h : LaneOk ring phase made taken) (hlt : ring.consumed < ring.produced) :
    LaneOk ring.advance phase made (taken ++ [ring.front kRing]) where
  fits := h.fits.advance hlt
  history := by rw [h.history, contents_eq_cons hlt, List.append_assoc, List.singleton_append]
  counted := by rw [List.length_append, h.counted]; rfl
  room := fun hbusy => (h.room hbusy).trans (by simp only [RingBuffer.advance]; omega)
  written := h.written

def RingEngine.filledFrom (s : RingEngine) (j : ℕ) : Prop :=
  ∀ i, j ≤ i → i < s.lanes → (s.mailbox i).ring.consumed < (s.mailbox i).ring.produced

def RingEngine.batchOk (s : RingEngine) : Prop :=
  match s.pc with
  | .outside | .waiting => True
  | .reading j => s.filledFrom j
  | .absorbing j ms => s.filledFrom j ∧ j < s.lanes ∧ (s.mailbox j).ring.front kRing = some ms

structure RingInv (s : RingEngine) : Prop where
  lane : ∀ i < s.lanes, s.laneOk i
  batch : s.batchOk

variable {s t : RingEngine} {i : ℕ}

/-- What a worker may do to its ring: it only counts up, and leaves the oldest result. -/
structure Grows (ring ring' : RingBuffer LaneResult) : Prop where
  consumed : ring'.consumed = ring.consumed
  produced : ring.produced ≤ ring'.produced
  front : ring.consumed < ring.produced → ring'.front kRing = ring.front kRing

theorem Grows.refl (ring : RingBuffer LaneResult) : Grows ring ring := ⟨rfl, le_rfl, fun _ => rfl⟩

theorem Grows.write (hroom : ring.produced < ring.consumed + kRing) (result : LaneResult) :
    Grows ring (ring.write kRing result) where
  consumed := rfl
  produced := le_rfl
  front := fun hlt => Function.update_of_ne (slot_ne hroom le_rfl hlt) _ _

theorem Grows.publish (ring : RingBuffer LaneResult) : Grows ring ring.publish :=
  ⟨rfl, Nat.le_succ _, fun _ => rfl⟩

structure WorkerStep (i : ℕ) (s t : RingEngine) : Prop where
  pc : t.pc = s.pc
  lanes : t.lanes = s.lanes
  calls : t.calls = s.calls
  lane : t.laneOk i
  others : ∀ j, j ≠ i → s.laneOk j → t.laneOk j
  grows : ∀ j, Grows (s.mailbox j).ring (t.mailbox j).ring

theorem RingInv.worker (hi : RingInv s) (hstep : WorkerStep i s t) : RingInv t := by
  have hfilled : ∀ j, s.filledFrom j → t.filledFrom j := by
    intro j hj k hjk hk
    have hlt := hj k hjk (hstep.lanes ▸ hk)
    rw [(hstep.grows k).consumed]
    exact hlt.trans_le (hstep.grows k).produced
  refine ⟨fun j hj => ?_, ?_⟩
  · by_cases hji : j = i
    · exact hji ▸ hstep.lane
    · exact hstep.others j hji (hi.lane j (hstep.lanes ▸ hj))
  · have hb := hi.batch
    unfold RingEngine.batchOk at hb ⊢
    rw [hstep.pc]
    cases hp : s.pc with
    | outside => trivial
    | waiting => trivial
    | reading j =>
      rw [hp] at hb
      exact hfilled j hb
    | absorbing j ms =>
      rw [hp] at hb
      obtain ⟨hf, hj, hfront⟩ := hb
      exact ⟨hfilled j hf, hstep.lanes ▸ hj, ((hstep.grows j).front (hf j le_rfl hj)).trans hfront⟩

theorem grows_setRing {ring : RingBuffer LaneResult} (h : Grows (s.mailbox i).ring ring) (j : ℕ) :
    Grows (s.mailbox j).ring ((s.setRing i ring).mailbox j).ring := by
  by_cases hji : j = i
  · subst hji
    simpa [RingEngine.setRing] using h
  · simpa [RingEngine.setRing, hji] using Grows.refl _

theorem WorkerStep.goto (hlane : s.laneOk i) {p : LanePhase}
    (hroom : p.busy = true → (s.mailbox i).ring.produced < (s.mailbox i).ring.consumed + kRing)
    (hnot : ∀ seen d result, p ≠ .publishing seen d result) : WorkerStep i s (s.goto i p) where
  pc := rfl
  lanes := rfl
  calls := rfl
  lane := by simpa [RingEngine.laneOk, RingEngine.goto] using LaneOk.goto hlane hroom hnot
  others := fun j hji hj => by simpa [RingEngine.laneOk, RingEngine.goto, hji] using hj
  grows := fun _ => Grows.refl _

theorem WorkerStep.write (hlane : s.laneOk i) {seen d : ℕ} {result : LaneResult}
    (hphase : s.phase i = .writing seen d result) :
    WorkerStep i s ((s.setRing i ((s.mailbox i).ring.write kRing result)).goto i
      (.publishing seen d result)) := by
  rw [RingEngine.laneOk, hphase] at hlane
  refine ⟨rfl, rfl, rfl, ?_, fun j hji hj => ?_, grows_setRing (.write (hlane.room rfl) result)⟩
  · simpa [RingEngine.laneOk, RingEngine.goto, RingEngine.setRing] using hlane.write
  · simpa [RingEngine.laneOk, RingEngine.goto, RingEngine.setRing, hji] using hj

theorem WorkerStep.publish (hlane : s.laneOk i) {seen d : ℕ} {result : LaneResult}
    (hphase : s.phase i = .publishing seen d result) :
    WorkerStep i s ({ s.setRing i (s.mailbox i).ring.publish with
      made := Function.update s.made i (s.made i ++ [result]) }.goto i (.ready seen d)) := by
  rw [RingEngine.laneOk, hphase] at hlane
  refine ⟨rfl, rfl, rfl, ?_, fun j hji hj => ?_, grows_setRing (.publish _)⟩
  · simpa [RingEngine.laneOk, RingEngine.goto, RingEngine.setRing] using hlane.publish
  · simpa [RingEngine.laneOk, RingEngine.goto, RingEngine.setRing, hji] using hj

theorem RingInv.workerStep (hi : RingInv s) {a : LaneAction} (h : s.work i a = some t) :
    WorkerStep i s t := by
  cases RingEngine.work_works h with
  | woken _ hlt | skipped _ hlt | left _ hlt =>
    exact .goto (hi.lane i hlt) (by simp [LanePhase.busy]) (by simp)
  | checked _ hlt _ hroom =>
    have hlane := hi.lane i hlt
    have hle := hlane.fits.le
    exact .goto hlane (fun _ => by omega) (by simp)
  | @hashed seen d run hphase hlt _ =>
    have hlane := hi.lane i hlt
    have hroom := hlane.room
    rw [hphase] at hroom
    have hgoto := WorkerStep.goto (p := .writing seen d (runBatch (s.pending i) d run).2) hlane
      (fun _ => hroom rfl) (by simp)
    exact ⟨rfl, rfl, rfl, hgoto.lane, hgoto.others, hgoto.grows⟩
  | wrote hphase hlt => exact .write (hi.lane i hlt) hphase
  | published hphase hlt => exact .publish (hi.lane i hlt) hphase

/-- The mining thread moves without touching a lane. -/
theorem RingInv.moved (hi : RingInv s) {pc : BatchPc} {calls : List (Option (ℕ × ℕ))}
    (hbatch : RingEngine.batchOk { s with pc, calls }) : RingInv { s with pc, calls } :=
  ⟨hi.lane, hbatch⟩

theorem publishJobs_ring (s : RingEngine) (changed : ℕ → Bool) (j : ℕ) :
    ((s.publishJobs changed).mailbox j).ring = (s.mailbox j).ring := by
  simp only [RingEngine.publishJobs]
  split_ifs <;> rfl

theorem RingInv.call (hi : RingInv s) (changed : ℕ → Bool) :
    RingInv { s.publishJobs changed with pc := .waiting } := by
  refine ⟨fun j hj => ?_, trivial⟩
  have hold := hi.lane j hj
  rw [RingEngine.laneOk, ← publishJobs_ring s changed] at hold
  exact hold

theorem RingInv.count (hi : RingInv s) {ms : List HashApiMatch} (hpc : s.pc = .absorbing i ms) :
    RingInv { s.setRing i (s.mailbox i).ring.advance with
      taken := Function.update s.taken i (s.taken i ++ [some ms]), pc := .reading (i + 1) } := by
  have hb := hi.batch
  rw [RingEngine.batchOk, hpc] at hb
  obtain ⟨hfilled, hlt, hfront⟩ := hb
  constructor
  · intro j hj
    by_cases hji : j = i
    · subst hji
      have htake := (hi.lane j hlt).take (hfilled j le_rfl hlt)
      rw [hfront] at htake
      simpa [RingEngine.laneOk, RingEngine.setRing] using htake
    · simpa [RingEngine.laneOk, RingEngine.setRing, hji] using hi.lane j hj
  · intro j hij hj
    have hji : j ≠ i := by omega
    simpa [RingEngine.setRing, hji] using hfilled j (by omega) hj

theorem RingInv.mine (hi : RingInv s) {a : BatchAction} (h : s.mine a = some t) : RingInv t := by
  cases RingEngine.mine_mines h with
  | sets hpc => exact ⟨hi.lane, by simp [RingEngine.batchOk, hpc]⟩
  | calls => exact hi.call _
  | gathers hpc hall =>
    refine hi.moved fun j _ hj => ?_
    rw [RingEngine.gathered, List.all_eq_true] at hall
    have hone := of_decide_eq_true (hall j (List.mem_range.mpr hj))
    simp only at hone ⊢
    omega
  | reads hpc hlt hfront =>
    have hb := hi.batch
    rw [RingEngine.batchOk, hpc] at hb
    exact hi.moved ⟨hb, hlt, hfront⟩
  | throws | returns => exact hi.moved trivial
  | counts hpc => exact hi.count hpc

theorem RingInv.step (hi : RingInv s) {a : RingAction} (h : s.step a = some t) : RingInv t := by
  cases a with
  | work i a => exact hi.worker (hi.workerStep h)
  | mine a => exact hi.mine h

theorem RingInv.init (h : s.fresh) : RingInv s where
  lane := by
    intro i _
    rw [RingEngine.laneOk, h.mailbox, h.phase, h.made, h.taken]
    refine ⟨⟨le_rfl, Nat.zero_le _⟩, rfl, rfl, ?_, ?_⟩
    · simp [LanePhase.busy]
    · simp
  batch := by
    rw [RingEngine.batchOk, h.outside]
    trivial

theorem ringInv_of_reachable (hs : ringMachine.Reachable s) : RingInv s :=
  Machine.Reachable.invariant (M := ringMachine) (I := RingInv) (fun _ => RingInv.init)
    (fun _ _ _ _ hi h => hi.step h) hs

def LanePhase.abstract (p : LanePhase) : WorkerPhase :=
  match p with
  | .waiting seen => .waiting seen
  | .ready seen d => .ready seen d
  | .hashing seen d => .hashing seen d
  | .writing seen d result | .publishing seen d result => .holding seen d result

def RingMailbox.abstract (box : RingMailbox) : LaneMailbox :=
  { seq := box.seq, difficulty := box.difficulty, ring := box.ring.contents kRing }

def RingEngine.abstract (s : RingEngine) : CudaEngine :=
  { difficulty := s.difficulty, lanes := s.lanes, impl := s.impl, pending := s.pending
    workers := s.lanes
    mailbox := fun i => (s.mailbox i).abstract
    phase := fun i => (s.phase i).abstract
    pc := match s.pc with
      | .outside => .outside
      | _ => .mining }

theorem abstract_goto (s : RingEngine) (i : ℕ) (p : LanePhase) : (s.goto i p).abstract =
    { s.abstract with phase := Function.update s.abstract.phase i p.abstract } := by
  have hphase : (fun j => ((s.goto i p).phase j).abstract) =
      Function.update s.abstract.phase i p.abstract := by
    funext j
    by_cases hji : j = i
    · subst hji
      simp [RingEngine.goto]
    · simp [RingEngine.goto, RingEngine.abstract, hji]
  simp only [RingEngine.abstract] at hphase ⊢
  rw [hphase]
  rfl

theorem abstract_setRing (s : RingEngine) (i : ℕ) (ring : RingBuffer LaneResult) :
    (s.setRing i ring).abstract =
      { s.abstract with
        mailbox := Function.update s.abstract.mailbox i
          { s.abstract.mailbox i with ring := ring.contents kRing } } := by
  have hbox : (fun j => ((s.setRing i ring).mailbox j).abstract) =
      Function.update s.abstract.mailbox i
        { s.abstract.mailbox i with ring := ring.contents kRing } := by
    funext j
    by_cases hji : j = i
    · subst hji
      simp [RingEngine.setRing, RingEngine.abstract, RingMailbox.abstract]
    · simp [RingEngine.setRing, RingEngine.abstract, hji]
  simp only [RingEngine.abstract] at hbox ⊢
  rw [hbox]
  rfl

@[simp] theorem abstract_phase (s : RingEngine) (i : ℕ) :
    s.abstract.phase i = (s.phase i).abstract := rfl

@[simp] theorem abstract_mailbox (s : RingEngine) (i : ℕ) :
    s.abstract.mailbox i = (s.mailbox i).abstract := rfl

/-- A step of a worker is one of the worker on lists; writing the slot is not seen there. -/
theorem work_refines (hi : RingInv s) {a : LaneAction} (h : s.work i a = some t) :
    t.abstract = s.abstract ∨ ∃ b, s.abstract.work b = some t.abstract := by
  cases RingEngine.work_works h with
  | woken hphase hlt hnew hjob himpl =>
    refine .inr ⟨.wake i true, ?_⟩
    simp only [CudaEngine.work, abstract_phase, hphase, LanePhase.abstract]
    rw [abstract_goto]
    exact (if_pos ⟨hlt, hnew⟩).trans (if_pos ⟨trivial, hjob, himpl⟩)
  | @skipped seen usable hphase hlt hnew hskip =>
    refine .inr ⟨.wake i usable, ?_⟩
    simp only [CudaEngine.work, abstract_phase, hphase, LanePhase.abstract]
    rw [abstract_goto]
    exact (if_pos ⟨hlt, hnew⟩).trans (if_neg hskip)
  | checked hphase hlt hseq hcounters =>
    refine .inr ⟨.check i, ?_⟩
    simp only [CudaEngine.work, abstract_phase, hphase, LanePhase.abstract]
    have hroom : (s.abstract.mailbox i).ring.length < kRing := by
      rw [abstract_mailbox, RingMailbox.abstract, length_contents]
      exact hcounters
    rw [abstract_goto]
    exact if_pos ⟨hlt, hseq, hroom⟩
  | @hashed seen d run hphase hlt himpl =>
    refine .inr ⟨.hash i run, ?_⟩
    simp only [CudaEngine.work, abstract_phase, hphase, LanePhase.abstract]
    rw [abstract_goto]
    exact if_pos ⟨hlt, himpl⟩
  | @wrote seen d result hphase hlt =>
    have hlane := hi.lane i hlt
    rw [RingEngine.laneOk, hphase] at hlane
    have hbox : Function.update s.abstract.mailbox i (s.abstract.mailbox i) = s.abstract.mailbox :=
      Function.update_eq_self ..
    have hworker : Function.update s.abstract.phase i (.holding seen d result) = s.abstract.phase :=
      Function.update_eq_self_iff.mpr (by rw [abstract_phase, hphase]; rfl)
    refine .inl ?_
    rw [abstract_goto, abstract_setRing, contents_write (hlane.room rfl)]
    simp only [LanePhase.abstract, hworker]
    exact congrArg (fun mailbox => { s.abstract with mailbox }) hbox
  | @published seen d result hphase hlt =>
    refine .inr ⟨.push i, ?_⟩
    simp only [CudaEngine.work, abstract_phase, hphase, LanePhase.abstract]
    have hlane := hi.lane i hlt
    rw [RingEngine.laneOk, hphase] at hlane
    have hpush : (s.mailbox i).ring.publish.contents kRing =
        (s.mailbox i).ring.contents kRing ++ [result] := by
      rw [contents_publish hlane.fits.le, hlane.written seen d result rfl]
    have hset : ({ s.setRing i (s.mailbox i).ring.publish with
        made := Function.update s.made i (s.made i ++ [result]) } : RingEngine).abstract =
        (s.setRing i (s.mailbox i).ring.publish).abstract := rfl
    rw [abstract_goto, hset, abstract_setRing, hpush]
    exact if_pos hlt
  | left hphase hlt hseq =>
    refine .inr ⟨.leave i, ?_⟩
    simp only [CudaEngine.work, abstract_phase, hphase, LanePhase.abstract]
    rw [abstract_goto]
    exact if_pos ⟨hlt, hseq⟩

/-- The counters of a lane stay within a round of each other, its worker writes no slot that
is still to be read, and results are taken in the order they were made. -/
theorem lane_rings_safe (s : RingEngine) (hs : ringMachine.Reachable s) (i : ℕ) (hi : i < s.lanes) :
    let ring := (s.mailbox i).ring
    (0 ≤ (ring.produced : ℤ) - ring.consumed ∧ (ring.produced : ℤ) - ring.consumed ≤ kRing) ∧
    (∀ seen d result, s.phase i = .writing seen d result →
      ∀ k, ring.consumed ≤ k → k < ring.produced → k % kRing ≠ ring.produced % kRing) ∧
    (s.made i).length = ring.produced ∧ (s.taken i).length = ring.consumed ∧
    ∀ (k : ℕ) (result : LaneResult), (s.taken i)[k]? = some result → (s.made i)[k]? = some result := by
  have hlane := (ringInv_of_reachable hs).lane i hi
  have hle := hlane.fits.le
  have hbounded := hlane.fits.bounded
  refine ⟨⟨by omega, by omega⟩, ?_, ?_, hlane.counted, ?_⟩
  · intro seen d result hphase k hk hlt
    exact slot_ne (hlane.room (by rw [hphase]; rfl)) hk hlt
  · rw [hlane.history, List.length_append, length_contents, hlane.counted]
    omega
  · intro k result htaken
    have hlt : k < (s.taken i).length := (List.getElem?_eq_some_iff.mp htaken).1
    rw [hlane.history, List.getElem?_append_left hlt, htaken]

def ringStart : RingEngine := { difficulty := 1100, lanes := 2, impl := 2 }

theorem ringStart_fresh : ringStart.fresh := ⟨by decide, rfl, rfl, rfl, rfl, rfl, rfl⟩

def laneWave (i : ℕ) (run : BatchRun) : List RingAction :=
  [.work i .check, .work i (.hash run), .work i .write, .work i .publish]

def ringCalled : List RingAction :=
  [.mine (.call fun _ => false), .work 0 (.wake true), .work 1 (.wake true)]

/-- Lane 0 has made two results when its first one is taken. -/
theorem lane_rings_safe_run : ∃ s : RingEngine, (s.made 0).length = 2 ∧ (s.taken 0).length = 1 ∧
    (s.mailbox 0).ring.produced = 2 ∧ (s.mailbox 0).ring.consumed = 1 := by
  have hrun : (runSteps RingEngine.step ringStart
      (ringCalled ++ laneWave 0 (.wave []) ++ laneWave 1 (.wave []) ++ laneWave 0 (.wave []) ++
        [.mine .gather, .mine .read, .mine .count])).map
      (fun t => (t.lanes, (t.made 0).length, (t.taken 0).length)) = some (2, 2, 1) := by
    decide +kernel
  obtain ⟨s, hsteps, hvalues⟩ := Option.map_eq_some_iff.mp hrun
  have hs : ringMachine.Reachable s :=
    (Machine.Reachable.start (M := ringMachine) ringStart_fresh).runSteps (fun _ _ _ _ h => h) hsteps
  obtain ⟨hlanes, hmade, htaken⟩ : s.lanes = 2 ∧ (s.made 0).length = 2 ∧ (s.taken 0).length = 1 := by
    simpa using hvalues
  obtain ⟨-, -, hproduced, hconsumed, -⟩ := lane_rings_safe s hs 0 (by omega)
  exact ⟨s, hmade, htaken, by rw [← hproduced, hmade], by rw [← hconsumed, htaken]⟩

end XnMiner

import XnMiner.App.Oracle
import XnMiner.System.Machine
import Mathlib.Logic.Function.Basic

/-! # Refreshing the network difficulty

`refresh_network` reads the poller's snapshot and then takes the state mutex twice: to
see whether the snapshot was applied before, and to apply it. Only the mining thread
passes a change on to the engine. Both threads run these sections interleaved.
-/
namespace XnMiner
open TextCodec Transitions

def acceptNetworkDifficulty (raw fallback : ℤ) : ℤ :=
  if raw ≤ 0 then if 0 < fallback then fallback else 1100
  else if 10000000 < raw then if 0 < fallback then fallback else 1100
  else raw

/-- The first section; `none` where a snapshot seen before is not applied again. -/
def dedupePoll (o : OracleState) (blocking : Bool) (st : NetworkStatus) : Option OracleState :=
  if !blocking && (st.seq == 0 || st.seq == o.lastPollSeq) then none
  else some (if st.seq ≠ 0 then { o with lastPollSeq := st.seq } else o)

def acceptedDifficulty (cfg : Settings) (o : OracleState) (raw : ℤ) : ℤ :=
  acceptNetworkDifficulty raw (o.networkDifficulty.getD cfg.memoryCost)

def difficultyChanged (cfg : Settings) (o : OracleState) (raw : ℤ) : Bool :=
  o.networkDifficulty.any fun d => acceptedDifficulty cfg o raw != d

def applyDifficulty (cfg : Settings) (o : OracleState) (raw : ℤ) (now : ℚ) : OracleState :=
  { o with
    deferSubmitUntil :=
      if difficultyChanged cfg o raw then now + max 5 (cfg.sampleIntervalS : ℚ)
      else o.deferSubmitUntil
    networkDifficulty := some (acceptedDifficulty cfg o raw)
    networkOk := true
    difficultyStale := false
    difficultyFailStreak := 0
    lastDifficultyOkAt := now
    submitBackoffUntil := 0 }

/-- The second section for a failed poll, and whether the last good difficulty is only stale. -/
def applyFailure (cfg : Settings) (o : OracleState) (now : ℚ) : OracleState × Bool :=
  let streak := o.difficultyFailStreak + 1
  let age := if 0 < o.lastDifficultyOkAt then now - o.lastDifficultyOkAt else 1000000000
  let matchingHybrid := cfg.forceMineMode && o.networkDifficulty == some cfg.forcedMineM
  let failBudget := if matchingHybrid then 6 else 3
  let ageBudget : ℚ := if matchingHybrid then 120 else 60
  if o.networkDifficulty.isSome && decide (age < 180) && decide (streak < 8) then
    ({ o with
      difficultyFailStreak := streak
      difficultyStale := true
      networkOk := decide (streak < failBudget) && decide (age < ageBudget) }, true)
  else
    ({ o with
      difficultyFailStreak := streak
      networkOk := false
      difficultyStale := o.networkDifficulty.isSome }, false)

structure EngineHead where
  started : Bool := true
  difficulty : ℤ

/-- The new engine, and whether sizing the batch threw; the difficulty is stored first. -/
def EngineHead.setDifficulty (e : EngineHead) (d : ℤ) (sized : Bool) : EngineHead × Bool :=
  if d = e.difficulty ∧ e.started = true then (e, false)
  else ({ e with difficulty := d }, e.started && !sized)

@[simp] theorem EngineHead.setDifficulty_difficulty (e : EngineHead) (d : ℤ) (sized : Bool) :
    (e.setDifficulty d sized).1.difficulty = d := by
  unfold setDifficulty
  split_ifs with h
  · exact h.1.symm
  · rfl

inductive RefreshThread where
  | mining
  | worker
  deriving DecidableEq

inductive RefreshPc where
  | outside
  | read (st : NetworkStatus)
  | claimed (st : NetworkStatus)
  | replan (difficulty : ℤ)

structure RefreshWorld where
  poll : NetworkStatus
  oracle : OracleState
  engine : EngineHead
  pc : RefreshThread → RefreshPc := fun _ => .outside
  /-- The last step was the mining thread's return. -/
  miningReturned : Bool := false
  /-- The generation the mining thread read last. -/
  miningSeq : ℕ := 0
  /-- Some `set_difficulty` call has thrown. -/
  threw : Bool := false

inductive RefreshAction where
  | publish (st : NetworkStatus)
  | read (t : RefreshThread)
  | dedupe (t : RefreshThread)
  | apply (t : RefreshThread) (now : ℚ)
  | replan (sized : Bool)

def RefreshWorld.leave (s : RefreshWorld) (t : RefreshThread) (o : OracleState) : RefreshWorld :=
  { s with oracle := o, pc := Function.update s.pc t .outside, miningReturned := t == .mining }

def RefreshWorld.goto (s : RefreshWorld) (t : RefreshThread) (pc : RefreshPc) (o : OracleState) :
    RefreshWorld :=
  { s with oracle := o, pc := Function.update s.pc t pc, miningReturned := false }

def RefreshWorld.step (cfg : Settings) (s : RefreshWorld) (a : RefreshAction) :
    Option RefreshWorld :=
  match a with
  | .publish st =>
    some { s with poll := { st with seq := s.poll.seq + 1 }, miningReturned := false }
  | .read t => match s.pc t with
    | .outside =>
      some { s.goto t (.read s.poll) s.oracle with
        miningSeq := if t = .mining then s.poll.seq else s.miningSeq }
    | _ => none
  | .dedupe t => match s.pc t with
    | .read st => match dedupePoll s.oracle false st with
      | none => some (s.leave t s.oracle)
      | some o => some (s.goto t (.claimed st) o)
    | _ => none
  | .apply t now => match s.pc t with
    | .claimed st => match st.difficulty with
      | some raw =>
        let o := applyDifficulty cfg s.oracle raw now
        if difficultyChanged cfg s.oracle raw && t == .mining && s.engine.started then
          some (s.goto t (.replan (acceptedDifficulty cfg s.oracle raw)) o)
        else some (s.leave t o)
      | none => some (s.leave t (applyFailure cfg s.oracle now).1)
    | _ => none
  | .replan sized => match s.pc .mining with
    | .replan d =>
      let r := s.engine.setDifficulty d sized
      some { s.leave .mining s.oracle with engine := r.1, threw := s.threw || r.2 }
    | _ => none

/-- Classic mode after the engine was started at the known difficulty. -/
def refreshMachine (cfg : Settings) : Machine RefreshWorld RefreshAction where
  init s := s.oracle.networkDifficulty = some s.engine.difficulty ∧ s.engine.started = true ∧
    s.pc = (fun _ => .outside) ∧ s.miningReturned = false ∧ s.threw = false
  step s a t := cfg.forceMineMode = false ∧ s.step cfg a = some t

/-- When the mining thread has just returned, with no newer poll and no failed replan, the
engine mines at the network difficulty. -/
def RefreshWorld.follows (s : RefreshWorld) : Prop :=
  s.miningReturned = true → s.poll.seq = s.miningSeq → s.threw = false →
    s.oracle.networkDifficulty = some s.engine.difficulty

/-- The worker applies no poll that moves the difficulty. -/
def workerKeeps (cfg : Settings) (s : RefreshWorld) (a : RefreshAction) : Prop :=
  ∀ st raw now, a = .apply .worker now → s.pc .worker = .claimed st → st.difficulty = some raw →
    s.oracle.networkDifficulty = some (acceptedDifficulty cfg s.oracle raw)

@[simp] theorem applyDifficulty_networkDifficulty (cfg : Settings) (o : OracleState) (raw : ℤ)
    (now : ℚ) : (applyDifficulty cfg o raw now).networkDifficulty =
      some (acceptedDifficulty cfg o raw) := rfl

@[simp] theorem applyFailure_networkDifficulty (cfg : Settings) (o : OracleState) (now : ℚ) :
    (applyFailure cfg o now).1.networkDifficulty = o.networkDifficulty := by
  dsimp only [applyFailure]
  split_ifs <;> rfl

theorem dedupePoll_networkDifficulty {o o' : OracleState} {blocking : Bool} {st : NetworkStatus}
    (h : dedupePoll o blocking st = some o') : o'.networkDifficulty = o.networkDifficulty := by
  unfold dedupePoll at h
  split_ifs at h with hseen hseq
  · exact (Option.some.inj h) ▸ rfl
  · exact (Option.some.inj h) ▸ rfl

def RefreshWorld.planned (s : RefreshWorld) : ℤ :=
  match s.pc .mining with
  | .replan d => d
  | _ => s.engine.difficulty

structure RefreshInv (s : RefreshWorld) : Prop where
  started : s.engine.started = true
  planned : s.oracle.networkDifficulty = some s.planned
  worker : ∀ d, s.pc .worker ≠ .replan d
  returned : s.miningReturned = true → s.pc .mining = .outside

section Steps
variable {cfg : Settings} {s s' : RefreshWorld} {t : RefreshThread} {o : OracleState}

theorem RefreshWorld.planned_of_ne (h : ∀ d, s.pc .mining ≠ .replan d) :
    s.planned = s.engine.difficulty := by
  unfold RefreshWorld.planned
  split
  · next d hd => exact absurd hd (h d)
  · rfl

/-- A thread that has nothing to replan may leave when it keeps the difficulty. -/
theorem RefreshInv.leave (hi : RefreshInv s) (hd : o.networkDifficulty = s.oracle.networkDifficulty)
    (hpc : ∀ d, s.pc t ≠ .replan d) : RefreshInv (s.leave t o) := by
  cases t with
  | mining =>
    refine ⟨hi.started, ?_, hi.worker, fun _ => rfl⟩
    exact hd.trans (hi.planned.trans (congrArg some (RefreshWorld.planned_of_ne hpc)))
  | worker =>
    exact ⟨hi.started, hd.trans hi.planned, fun d h => (nomatch h), fun h => (nomatch h)⟩

/-- A thread that has nothing to replan may go on to a section other than the replan. -/
theorem RefreshInv.goto (hi : RefreshInv s) {pc : RefreshPc}
    (hd : o.networkDifficulty = s.oracle.networkDifficulty)
    (hpc : ∀ d, s.pc t ≠ .replan d) (hnew : ∀ d, pc ≠ .replan d) : RefreshInv (s.goto t pc o) := by
  cases t with
  | mining =>
    refine ⟨hi.started, ?_, hi.worker, fun h => (nomatch h)⟩
    have hplan : (s.goto .mining pc o).planned = s.engine.difficulty :=
      RefreshWorld.planned_of_ne (s := s.goto .mining pc o) hnew
    rw [hplan, ← RefreshWorld.planned_of_ne hpc]
    exact hd.trans hi.planned
  | worker =>
    exact ⟨hi.started, hd.trans hi.planned, hnew, fun h => (nomatch h)⟩

/-- The mining thread claims a moved difficulty for the engine. -/
theorem RefreshInv.claim (hi : RefreshInv s) {d : ℤ} (hd : o.networkDifficulty = some d) :
    RefreshInv (s.goto .mining (.replan d) o) :=
  ⟨hi.started, hd, hi.worker, fun h => (nomatch h)⟩

theorem RefreshInv.replan (hi : RefreshInv s) {d : ℤ} (hpc : s.pc .mining = .replan d)
    (sized threw : Bool) :
    RefreshInv { s.leave .mining s.oracle with
      engine := (s.engine.setDifficulty d sized).1, threw := threw } := by
  refine ⟨?_, ?_, hi.worker, fun _ => rfl⟩
  · change (s.engine.setDifficulty d sized).1.started = true
    unfold EngineHead.setDifficulty
    split_ifs <;> exact hi.started
  · have hplan : s.planned = d := by rw [RefreshWorld.planned, hpc]
    change s.oracle.networkDifficulty = some (s.engine.setDifficulty d sized).1.difficulty
    rw [hi.planned, hplan, EngineHead.setDifficulty_difficulty]

theorem accepted_of_unchanged {raw d : ℤ} (hd : o.networkDifficulty = some d)
    (h : difficultyChanged cfg o raw = false) : acceptedDifficulty cfg o raw = d := by
  simpa [difficultyChanged, hd] using h

theorem RefreshInv.apply (hi : RefreshInv s) {st : NetworkStatus} {raw : ℤ} {now : ℚ}
    (hkeep : workerKeeps cfg s (.apply t now)) (hpc : s.pc t = .claimed st)
    (hraw : st.difficulty = some raw) (h : s.step cfg (.apply t now) = some s') : RefreshInv s' := by
  have hne : ∀ d, s.pc t ≠ .replan d := by simp [hpc]
  simp only [RefreshWorld.step, hpc, hraw, hi.started, Bool.and_true] at h
  split_ifs at h with hchanged
  · obtain rfl : t = .mining := by simpa using ((Bool.and_eq_true ..).mp hchanged).2
    exact Option.some.inj h ▸ hi.claim rfl
  · refine Option.some.inj h ▸ hi.leave ?_ hne
    cases t with
    | mining =>
      rw [applyDifficulty_networkDifficulty, accepted_of_unchanged hi.planned (by simpa using hchanged),
        hi.planned]
    | worker => exact (hkeep st raw now rfl hpc hraw).symm

/-- One step, where the worker keeps the difficulty. -/
theorem RefreshInv.step (hi : RefreshInv s) {a : RefreshAction} (hkeep : workerKeeps cfg s a)
    (h : s.step cfg a = some s') : RefreshInv s' := by
  cases a with
  | publish st =>
    obtain rfl := Option.some.inj h
    exact ⟨hi.started, hi.planned, hi.worker, fun h => (nomatch h)⟩
  | read t =>
    cases hpc : s.pc t with
    | outside =>
      simp only [RefreshWorld.step, hpc] at h
      obtain rfl := Option.some.inj h
      have : RefreshInv (s.goto t (.read s.poll) s.oracle) :=
        hi.goto rfl (by simp [hpc]) (by simp)
      exact ⟨this.started, this.planned, this.worker, this.returned⟩
    | _ => simp [RefreshWorld.step, hpc] at h
  | dedupe t =>
    cases hpc : s.pc t with
    | read st =>
      simp only [RefreshWorld.step, hpc] at h
      cases hdedupe : dedupePoll s.oracle false st with
      | none =>
        simp only [hdedupe, Option.some.injEq] at h
        exact h ▸ hi.leave rfl (by simp [hpc])
      | some o =>
        simp only [hdedupe, Option.some.injEq] at h
        exact h ▸ hi.goto (dedupePoll_networkDifficulty hdedupe) (by simp [hpc]) (by simp)
    | _ => simp [RefreshWorld.step, hpc] at h
  | apply t now =>
    cases hpc : s.pc t with
    | claimed st =>
      cases hraw : st.difficulty with
      | some raw => exact hi.apply hkeep hpc hraw h
      | none =>
        simp only [RefreshWorld.step, hpc, hraw, Option.some.injEq] at h
        exact h ▸ hi.leave (applyFailure_networkDifficulty ..) (by simp [hpc])
    | _ => simp [RefreshWorld.step, hpc] at h
  | replan sized =>
    cases hpc : s.pc .mining with
    | replan d =>
      simp only [RefreshWorld.step, hpc, Option.some.injEq] at h
      exact h ▸ hi.replan hpc sized _
    | _ => simp [RefreshWorld.step, hpc] at h

end Steps

theorem RefreshInv.init {cfg : Settings} {s : RefreshWorld} (h : (refreshMachine cfg).init s) :
    RefreshInv s := by
  obtain ⟨hd, hstarted, hpc, hreturned, -⟩ := h
  refine ⟨hstarted, ?_, by simp [hpc], by simp [hreturned]⟩
  rw [RefreshWorld.planned_of_ne (by simp [hpc]), hd]

/-- While the worker applies no poll that moves the difficulty, the engine mines at the
network difficulty whenever the mining thread has just returned. -/
theorem engine_follows_network (cfg : Settings) (s : RefreshWorld)
    (hs : ((refreshMachine cfg).restrict (workerKeeps cfg)).Reachable s) : s.follows := by
  have hi : RefreshInv s := by
    have hinit : ∀ t, (refreshMachine cfg).init t → RefreshInv t := fun _ => RefreshInv.init
    refine Machine.Reachable.invariant (M := (refreshMachine cfg).restrict (workerKeeps cfg))
      (I := RefreshInv) hinit ?_ hs
    rintro s a s' - hi ⟨hkeep, -, hstep⟩
    exact hi.step hkeep hstep
  intro hreturned _ _
  rw [hi.planned, RefreshWorld.planned_of_ne (by simp [hi.returned hreturned])]

/-- A moved difficulty that the worker applies is not seen by the mining thread, whose next
call ends at the generation. -/
theorem not_follows_of_worker_apply {cfg : Settings} {s : RefreshWorld} (hi : RefreshInv s)
    (hmining : s.pc .mining = .outside) {st : NetworkStatus} {raw : ℤ} {now : ℚ}
    (hpc : s.pc .worker = .claimed st) (hraw : st.difficulty = some raw)
    (hmoved : ¬ workerKeeps cfg s (.apply .worker now))
    (hseen : s.poll.seq = s.oracle.lastPollSeq) (hthrew : s.threw = false) :
    ∃ t, runSteps (RefreshWorld.step cfg) s [.apply .worker now, .read .mining, .dedupe .mining] =
      some t ∧ ¬ t.follows := by
  have hne : s.oracle.networkDifficulty ≠ some (acceptedDifficulty cfg s.oracle raw) := by
    intro hkeep
    refine hmoved fun st' raw' now' _ hpc' hraw' => ?_
    obtain rfl : st = st' := by simpa [hpc] using hpc'
    obtain rfl : raw = raw' := by simpa [hraw] using hraw'
    exact hkeep
  let o := applyDifficulty cfg s.oracle raw now
  let s₁ := s.leave .worker o
  let s₂ := { s₁.goto .mining (.read s.poll) o with miningSeq := s.poll.seq }
  have happly : s.step cfg (.apply .worker now) = some s₁ := by
    simp [RefreshWorld.step, hpc, hraw, s₁, o]
  have hread : s₁.step cfg (.read .mining) = some s₂ := by
    simp [RefreshWorld.step, s₁, s₂, RefreshWorld.leave, hmining]
  have hdedupe : s₂.step cfg (.dedupe .mining) = some (s₂.leave .mining o) := by
    simp [RefreshWorld.step, s₂, RefreshWorld.goto, dedupePoll, o, applyDifficulty, hseen]
  refine ⟨s₂.leave .mining o, ?_, ?_⟩
  · simp only [runSteps, happly, hread, hdedupe, Option.bind_some]
  · intro hfollows
    have heq : some (acceptedDifficulty cfg s.oracle raw) = some s.engine.difficulty :=
      hfollows rfl rfl hthrew
    rw [heq, ← RefreshWorld.planned_of_ne (by simp [hmining])] at hne
    exact hne hi.planned

def refreshStart : RefreshWorld :=
  { poll := { seq := 1, difficulty := some 1100 }
    oracle := { networkOk := true, networkDifficulty := some 1100, lastPollSeq := 1 }
    engine := { difficulty := 1100 } }

def classic : Settings := { forceMineMemoryCost := 0 }

def workerFirst : List RefreshAction :=
  [.publish { difficulty := some 2000 }, .read .worker, .dedupe .worker, .apply .worker 10,
    .read .mining, .dedupe .mining]

theorem refreshStart_init : (refreshMachine classic).init refreshStart :=
  ⟨rfl, rfl, rfl, rfl, rfl⟩

theorem engine_not_follows :
    ¬ ∀ (cfg : Settings) (s : RefreshWorld), (refreshMachine cfg).Reachable s → s.follows := by
  intro hall
  obtain ⟨t, ht⟩ : ∃ t, runSteps (RefreshWorld.step classic) refreshStart workerFirst = some t :=
    ⟨_, rfl⟩
  have hreach : (refreshMachine classic).Reachable t :=
    (Machine.Reachable.start refreshStart_init).runSteps (fun _ _ _ _ h => ⟨rfl, h⟩) ht
  have hfollows := hall classic t hreach
  obtain rfl := Option.some.inj ht
  exact absurd (hfollows rfl rfl rfl) (by decide +kernel)

/-- The same poll, seen by the mining thread first. -/
theorem engine_follows_network_run : ∃ s : RefreshWorld, s.engine.difficulty = 2000 ∧ s.follows := by
  obtain ⟨t, ht⟩ : ∃ t, runSteps (RefreshWorld.step classic) refreshStart
      [.publish { difficulty := some 2000 }, .read .mining, .dedupe .mining, .apply .mining 10,
        .replan true] = some t := ⟨_, rfl⟩
  have hstart : ((refreshMachine classic).restrict (workerKeeps classic)).Reachable refreshStart :=
    .start refreshStart_init
  have hreach : ((refreshMachine classic).restrict (workerKeeps classic)).Reachable t := by
    refine hstart.runSteps ?_ ht
    intro a ha u v huv
    refine ⟨?_, rfl, huv⟩
    rintro st raw now rfl
    simp at ha
  refine ⟨t, ?_, engine_follows_network classic t hreach⟩
  obtain rfl := Option.some.inj ht
  rfl

end XnMiner

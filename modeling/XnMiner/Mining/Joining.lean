import XnMiner.Mining.EngineMoves

/-! # Calls that join the workers last

`set_difficulty` and `restore_lane_cap_if_cool` resize the lanes while the workers hash on, and
bring the workers up to them at the end. Here the resizing and the end of the call are two
steps. A worker whose lane is destroyed in the middle of a wave takes no step any more: what
it would do is undefined behaviour.
-/
namespace XnMiner
open Transitions

structure JoiningEngine where
  engine : CudaEngine
  /-- The lanes are resized and the workers not brought up to them. -/
  joining : Bool := false

inductive JoiningAction where
  | engine (a : EngineAction)
  | join

/-- What a call that replans has done when it comes to the workers. -/
def CudaEngine.replanned (s : CudaEngine) (a : EngineAction) : Option CudaEngine :=
  match a with
  | .setDifficulty d (some n) =>
    if s.pc = .outside ∧ s.started = true ∧ d ≠ s.difficulty then
      some ({ s with difficulty := d, lanes := n } : CudaEngine).syncLanes
    else none
  | .laneCap n true =>
    if s.pc = .outside ∧ s.started = true ∧ n ≠ 0 then
      some ({ s with lanes := n } : CudaEngine).syncLanes
    else none
  | _ => none

variable (cfg : Settings)

def JoiningEngine.step (s : JoiningEngine) (a : JoiningAction) : Option JoiningEngine :=
  match a with
  | .engine a =>
    if s.joining then (s.engine.work a).map fun e => { engine := e, joining := true }
    else match s.engine.replanned a with
      | some e => some { engine := e, joining := true }
      | none => (s.engine.step cfg a).map fun e => { engine := e }
  | .join =>
    if s.joining then s.engine.ensureLaneWorkers.map fun e => { engine := e } else none

/-- In hybrid mode the engine is only ever set to the forced `m`. -/
def joiningMachine : Machine JoiningEngine JoiningAction where
  init s := (engineMachine cfg).init s.engine ∧ s.joining = false
  step s a t := s.step cfg a = some t ∧ ∀ d plan, a = .engine (.setDifficulty d plan) →
    cfg.forceMineMode = true → d = cfg.forcedMineM

variable {cfg} {s t : CudaEngine} {a : EngineAction}

inductive CudaEngine.Replans (s : CudaEngine) : EngineAction → CudaEngine → Prop where
  | sets {d : ℤ} {n : ℕ} (hpc : s.pc = .outside) (hstarted : s.started = true)
      (hnew : d ≠ s.difficulty) : Replans s (.setDifficulty d (some n))
        ({ s with difficulty := d, lanes := n } : CudaEngine).syncLanes
  | recaps {n : ℕ} (hpc : s.pc = .outside) (hstarted : s.started = true) (hn : n ≠ 0) :
      Replans s (.laneCap n true) ({ s with lanes := n } : CudaEngine).syncLanes

theorem CudaEngine.replanned_replans (h : s.replanned a = some t) : s.Replans a t := by
  unfold CudaEngine.replanned at h
  split at h
  · split_ifs at h with hcall
    exact Option.some.inj h ▸ .sets hcall.1 hcall.2.1 hcall.2.2
  · split_ifs at h with hcall
    exact Option.some.inj h ▸ .recaps hcall.1 hcall.2.1 hcall.2.2
  · cases h

/-- The engine whose calls are single steps takes both steps with none in between. -/
theorem CudaEngine.step_eq_join (h : s.replanned a = some t) :
    s.step cfg a = t.ensureLaneWorkers := by
  cases CudaEngine.replanned_replans h with
  | sets hpc hstarted hnew =>
    simp [CudaEngine.step, CudaEngine.call, CudaEngine.setDifficulty, hpc, hstarted, hnew]
  | recaps hpc hstarted hn =>
    simp [CudaEngine.step, CudaEngine.call, hpc, hstarted, hn]

inductive JoiningEngine.Moves (cfg : Settings) (s : JoiningEngine) :
    JoiningAction → JoiningEngine → Prop where
  | worked {a : EngineAction} {e : CudaEngine} (hjoining : s.joining = true)
      (he : s.engine.Works a e) : Moves cfg s (.engine a) { engine := e, joining := true }
  | replans {a : EngineAction} {e : CudaEngine} (hjoining : s.joining = false)
      (he : s.engine.Replans a e) : Moves cfg s (.engine a) { engine := e, joining := true }
  | acts {a : EngineAction} {e : CudaEngine} (hjoining : s.joining = false)
      (hplain : s.engine.replanned a = none) (he : s.engine.step cfg a = some e) :
      Moves cfg s (.engine a) { engine := e }
  | joins {e : CudaEngine} (hjoining : s.joining = true)
      (he : s.engine.ensureLaneWorkers = some e) : Moves cfg s .join { engine := e }

theorem JoiningEngine.step_moves {s t : JoiningEngine} {a : JoiningAction}
    (h : s.step cfg a = some t) : s.Moves cfg a t := by
  cases a with
  | engine a =>
    simp only [JoiningEngine.step] at h
    split_ifs at h with hjoining
    · obtain ⟨e, he, rfl⟩ := Option.map_eq_some_iff.mp h
      exact .worked hjoining (CudaEngine.work_works he)
    · have hout : s.joining = false := by simpa using hjoining
      cases hre : s.engine.replanned a with
      | some e =>
        rw [hre] at h
        exact Option.some.inj h ▸ .replans hout (CudaEngine.replanned_replans hre)
      | none =>
        rw [hre] at h
        obtain ⟨e, he, rfl⟩ := Option.map_eq_some_iff.mp h
        exact .acts hout hre he
  | join =>
    simp only [JoiningEngine.step] at h
    split_ifs at h with hjoining
    obtain ⟨e, he, rfl⟩ := Option.map_eq_some_iff.mp h
    exact .joins hjoining he

end XnMiner

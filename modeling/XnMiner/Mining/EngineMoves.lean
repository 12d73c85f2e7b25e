import XnMiner.Mining.CudaEngine

/-! # What the engine can do in one step

One constructor for each way a step can go, with the tests it has passed.
-/
namespace XnMiner
open TextCodec Transitions

variable {cfg : Settings} {s t : CudaEngine}

inductive CudaEngine.Works (s : CudaEngine) : EngineAction → CudaEngine → Prop where
  | woken {i seen : ℕ} (hphase : s.phase i = .waiting seen) (hlt : i < s.workers)
      (hnew : (s.mailbox i).seq ≠ seen) (hjob : (s.mailbox i).difficulty ≠ 0)
      (himpl : i < s.impl) :
      Works s (.wake i true) { s with
        phase := Function.update s.phase i (.ready (s.mailbox i).seq (s.mailbox i).difficulty) }
  | skipped {i seen : ℕ} {usable : Bool} (hphase : s.phase i = .waiting seen)
      (hlt : i < s.workers) (hnew : (s.mailbox i).seq ≠ seen)
      (hskip : ¬ (usable = true ∧ (s.mailbox i).difficulty ≠ 0 ∧ i < s.impl)) :
      Works s (.wake i usable) { s with
        phase := Function.update s.phase i (.waiting (s.mailbox i).seq) }
  | checked {i seen d : ℕ} (hphase : s.phase i = .ready seen d) (hlt : i < s.workers)
      (hseq : (s.mailbox i).seq = seen) (hroom : (s.mailbox i).ring.length < kRing) :
      Works s (.check i) { s with phase := Function.update s.phase i (.hashing seen d) }
  | hashed {i seen d : ℕ} {run : BatchRun} (hphase : s.phase i = .hashing seen d)
      (hlt : i < s.workers) (himpl : i < s.impl) :
      Works s (.hash i run) { (s.runLane i d run).1 with
        phase := Function.update (s.runLane i d run).1.phase i
          (.holding seen d (s.runLane i d run).2) }
  | pushed {i seen d : ℕ} {result : Option (List HashApiMatch)}
      (hphase : s.phase i = .holding seen d result) (hlt : i < s.workers) :
      Works s (.push i) { s with
        mailbox := Function.update s.mailbox i
          { s.mailbox i with ring := (s.mailbox i).ring ++ [result] }
        phase := Function.update s.phase i (.ready seen d) }
  | left {i seen d : ℕ} (hphase : s.phase i = .ready seen d) (hlt : i < s.workers)
      (hseq : (s.mailbox i).seq ≠ seen) :
      Works s (.leave i) { s with phase := Function.update s.phase i (.waiting seen) }

theorem CudaEngine.work_works {a : EngineAction} (h : s.work a = some t) : s.Works a t := by
  unfold CudaEngine.work at h
  dsimp only at h
  split at h
  case h_1 i usable =>
    split at h
    next seen hphase =>
      split_ifs at h with hnew husable
      · obtain rfl := Option.some.inj h
        obtain ⟨rfl, hjob, himpl⟩ := husable
        exact .woken hphase hnew.1 hnew.2 hjob himpl
      · obtain rfl := Option.some.inj h
        exact .skipped hphase hnew.1 hnew.2 husable
    next => simp at h
  case h_2 i =>
    split at h
    next seen d hphase =>
      split_ifs at h with hready
      obtain rfl := Option.some.inj h
      exact .checked hphase hready.1 hready.2.1 hready.2.2
    next => simp at h
  case h_3 i run =>
    split at h
    next seen d hphase =>
      split_ifs at h with hready
      obtain rfl := Option.some.inj h
      exact .hashed hphase hready.1 hready.2
    next => simp at h
  case h_4 i =>
    split at h
    next seen d result hphase =>
      split_ifs at h with hlt
      obtain rfl := Option.some.inj h
      exact .pushed hphase hlt
    next => simp at h
  case h_5 i =>
    split at h
    next seen d hphase =>
      split_ifs at h with hleft
      obtain rfl := Option.some.inj h
      exact .left hphase hleft.1 hleft.2
    next => simp at h
  case h_6 => simp at h

inductive CudaEngine.Calls (cfg : Settings) (s : CudaEngine) : EngineAction → CudaEngine → Prop where
  | runsAlready {plan : Option ℕ} (hpc : s.pc = .outside) (hstarted : s.started = true) :
      Calls cfg s (.start plan) s
  | unplanned (hpc : s.pc = .outside) (hstarted : s.started = false) : Calls cfg s (.start none) s
  | starts {n : ℕ} {u : CudaEngine} (hpc : s.pc = .outside) (hstarted : s.started = false)
      (hu : ({ s with lanes := n } : CudaEngine).syncLanes.ensureLaneWorkers = some u) :
      Calls cfg s (.start (some n)) { u with started := true }
  | stops {u : CudaEngine} (hpc : s.pc = .outside) (hu : s.stopLaneWorkers = some u) :
      Calls cfg s .stop { u with impl := 0, started := false }
  | sets {d : ℤ} {plan : Option ℕ} {t : CudaEngine} (hpc : s.pc = .outside)
      (ht : s.setDifficulty d plan = some t) : Calls cfg s (.setDifficulty d plan) t
  | recaps {n : ℕ} {t : CudaEngine} (hpc : s.pc = .outside) (hstarted : s.started = true)
      (hn : n ≠ 0)
      (ht : ({ s with lanes := n } : CudaEngine).syncLanes.ensureLaneWorkers = some t) :
      Calls cfg s (.laneCap n true) t
  | narrows {n : ℕ} {t : CudaEngine} (hpc : s.pc = .outside) (hstarted : s.started = true)
      (hn : n ≠ 0) (hfits : n ≤ s.impl)
      (ht : ({ s with lanes := n } : CudaEngine).ensureLaneWorkers = some t) :
      Calls cfg s (.laneCap n false) t
  | minesSingle {run : BatchRun} {r : BatchReport} (hpc : s.pc = .outside)
      (hstarted : s.started = true) (himpl : 0 < s.impl) (hone : s.lanes = 1) :
      Calls cfg s (.mineSingle run r)
        ((s.runLane 0 (toUint32 s.difficulty) run).1.giveBack cfg r
          ((s.runLane 0 (toUint32 s.difficulty) run).2.getD []))
  | mines {changed : ℕ → Bool} {u : CudaEngine} (hpc : s.pc = .outside)
      (hstarted : s.started = true) (himpl : 0 < s.impl) (hseveral : s.lanes ≠ 1)
      (hu : s.ensureLaneWorkers = some u) :
      Calls cfg s (.mine changed) { u.publish changed with pc := .mining }
  | collects {r : BatchReport} (hpc : s.pc = .mining)
      (hfull : ((List.range s.lanes).all fun i => !(s.mailbox i).ring.isEmpty) = true) :
      Calls cfg s (.collect r) (({ s with
          mailbox := (absorb s.mailbox (List.range s.lanes) []).1, pc := .outside } :
        CudaEngine).giveBack cfg r ((absorb s.mailbox (List.range s.lanes) []).2.getD []))
  | drains (hpc : s.pc = .outside) (hstarted : s.started = true) :
      Calls cfg s .drain { s with pc := .draining 0 }
  | drainsNothing (hpc : s.pc = .outside) (hstarted : s.started = false) : Calls cfg s .drain s
  | drainsLane {i : ℕ} {r : BatchReport} (hpc : s.pc = .draining i) (hlt : i < s.impl) :
      Calls cfg s (.drainLane r) (({ s with
          pending := Function.update s.pending i none, pc := .draining (i + 1) } :
        CudaEngine).giveBack cfg r ((s.pending i).getD []))
  | drained {i : ℕ} {r : BatchReport} (hpc : s.pc = .draining i) (hlast : ¬ i < s.impl) :
      Calls cfg s (.drainLane r) { s with pc := .outside }

theorem CudaEngine.call_calls {a : EngineAction} (h : s.call cfg a = some t) : s.Calls cfg a t := by
  unfold CudaEngine.call at h
  split at h
  case h_1 plan hpc =>
    split_ifs at h with hstarted
    · exact Option.some.inj h ▸ .runsAlready hpc hstarted
    · cases plan with
      | none => exact Option.some.inj h ▸ .unplanned hpc (by simpa using hstarted)
      | some n =>
        obtain ⟨u, hu, rfl⟩ := Option.map_eq_some_iff.mp h
        exact .starts hpc (by simpa using hstarted) hu
  case h_2 hpc =>
    obtain ⟨u, hu, rfl⟩ := Option.map_eq_some_iff.mp h
    exact .stops hpc hu
  case h_3 d plan hpc => exact .sets hpc h
  case h_4 n sync hpc =>
    split_ifs at h with hbad hsync
    all_goals
      simp only [not_or] at hbad
      obtain ⟨hstopped, hn, hwide⟩ := hbad
      have hstarted : s.started = true := by simpa using hstopped
    · subst hsync
      exact .recaps hpc hstarted hn h
    · obtain rfl : sync = false := by simpa using hsync
      exact .narrows hpc hstarted hn (by simpa using hwide) h
  case h_5 run r hpc =>
    split_ifs at h with hready
    obtain rfl := Option.some.inj h
    exact .minesSingle hpc hready.1 hready.2.1 hready.2.2
  case h_6 changed hpc =>
    split_ifs at h with hready
    obtain ⟨u, hu, rfl⟩ := Option.map_eq_some_iff.mp h
    exact .mines hpc hready.1 hready.2.1 hready.2.2 hu
  case h_7 r hpc =>
    split_ifs at h with hfull
    obtain rfl := Option.some.inj h
    exact .collects hpc hfull
  case h_8 hpc =>
    split_ifs at h with hstarted
    · exact Option.some.inj h ▸ .drains hpc hstarted
    · exact Option.some.inj h ▸ .drainsNothing hpc (by simpa using hstarted)
  case h_9 r i hpc =>
    split_ifs at h with hlt
    · exact Option.some.inj h ▸ .drainsLane hpc hlt
    · exact Option.some.inj h ▸ .drained hpc hlt
  case h_10 => simp at h

theorem CudaEngine.step_moves {a : EngineAction} (h : s.step cfg a = some t) :
    s.Works a t ∨ s.Calls cfg a t := by
  unfold CudaEngine.step at h
  split at h
  all_goals first
    | exact .inl (CudaEngine.work_works h)
    | exact .inr (CudaEngine.call_calls h)

end XnMiner

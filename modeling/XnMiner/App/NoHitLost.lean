import XnMiner.App.Handover

/-! # No hit is lost between the threads

Each party hands its hits over, so every hit that passed the checks stays in one of the
places. Behind the last swap of `finalize_session` the mining thread pushes nothing and the
worker has exited, which empties the queue and their hands.
-/
namespace XnMiner
open TextCodec Transitions

variable {cfg : Settings} {s t : Shared} {mine mine' : List BlockHit}

/-- The places the threads know of, with the local batch of `persist_queue_for_restart`. -/
def HandoffWorld.placed (s : HandoffWorld) (hit : BlockHit) : Prop :=
  s.held hit ∨ hit ∈ s.persister.hits

structure HandoffInv (s : HandoffWorld) : Prop where
  bag : BagInv s.shared.store
  placed : ∀ hit ∈ s.shared.passed, s.placed hit
  wave : s.worker.waveOk s.shared
  joined : s.shared.joinable = false → s.worker = .exited
  control : MiningControl s.shared s.mining

/-- Hits that other parties hold are not touched. -/
theorem Handover.places (h : Handover s mine t mine') {others : BlockHit → Prop} {hit : BlockHit}
    (hp : hit ∈ mine ∨ hit ∈ s.queued ∨ s.settled hit ∨ others hit) :
    hit ∈ mine' ∨ hit ∈ t.queued ∨ t.settled hit ∨ others hit := by
  rcases hp with hp | hp | hp | hp
  · rcases h.own hit hp with h | h | h
    · exact .inr (.inl h)
    · exact .inl h
    · exact .inr (.inr (.inl h))
  · rcases h.queued hit hp with h | h | h
    · exact .inr (.inl h)
    · exact .inl h
    · exact .inr (.inr (.inl h))
  · exact .inr (.inr (.inl (h.settled hit hp)))
  · exact .inr (.inr (.inr hp))

/-- What passed the checks is placed if the old places of the party's hits are. -/
theorem Handover.all_placed (h : Handover s mine t mine') {others : BlockHit → Prop}
    (hp : ∀ hit ∈ s.passed, hit ∈ mine ∨ hit ∈ s.queued ∨ s.settled hit ∨ others hit) :
    ∀ hit ∈ t.passed, hit ∈ mine' ∨ hit ∈ t.queued ∨ t.settled hit ∨ others hit := by
  intro hit hin
  rcases h.passed hit hin with hin | hin
  · exact h.places (hp hit hin)
  · exact .inl hin

inductive Party where
  | mining
  | worker
  | persister

def HandoffWorld.inHand (w : HandoffWorld) (p : Party) : List BlockHit :=
  match p with
  | .mining => w.mining.hits
  | .worker => w.worker.hits
  | .persister => w.persister.hits

variable {w w' : HandoffWorld}

theorem placed_iff_inHand {hit : BlockHit} : w.placed hit ↔
    (∃ p, hit ∈ w.inHand p) ∨ hit ∈ w.shared.queued ∨ w.shared.settled hit := by
  constructor
  · rintro ((h | h | h | h) | h)
    exacts [.inl ⟨.mining, h⟩, .inr (.inl h), .inl ⟨.worker, h⟩, .inr (.inr h), .inl ⟨.persister, h⟩]
  · rintro (⟨_ | _ | _, h⟩ | h | h)
    exacts [.inl (.inl h), .inl (.inr (.inr (.inl h))), .inr h, .inl (.inr (.inl h)),
      .inl (.inr (.inr (.inr h)))]

theorem placed_iff (p : Party) {hit : BlockHit} : w.placed hit ↔ hit ∈ w.inHand p ∨
    hit ∈ w.shared.queued ∨ w.shared.settled hit ∨ ∃ q ≠ p, hit ∈ w.inHand q := by
  rw [placed_iff_inHand]
  constructor
  · rintro (⟨q, hq⟩ | h)
    · by_cases hqp : q = p
      · exact .inl (hqp ▸ hq)
      · exact .inr (.inr (.inr ⟨q, hqp, hq⟩))
    · exact .inr (h.imp_right .inl)
  · rintro (h | h | h | ⟨q, -, hq⟩)
    exacts [.inl ⟨p, h⟩, .inr (.inl h), .inr (.inr h), .inl ⟨q, hq⟩]

/-- A party hands its hits over, and the others keep theirs. -/
theorem HandoffInv.handed (hi : HandoffInv w) (p : Party)
    (h : Handover w.shared (w.inHand p) w'.shared (w'.inHand p))
    (hothers : ∀ q, q ≠ p → w'.inHand q = w.inHand q) :
    ∀ hit ∈ w'.shared.passed, w'.placed hit := by
  intro hit hin
  have hplaced := h.all_placed (fun hit hin => (placed_iff p).mp (hi.placed hit hin)) hit hin
  refine (placed_iff p).mpr (hplaced.imp_right (Or.imp_right (Or.imp_right ?_)))
  rintro ⟨q, hq, hhit⟩
  exact ⟨q, hq, hothers q hq ▸ hhit⟩

theorem HandoffInv.mining (hi : HandoffInv w) {exited : Bool} {pc : MiningPc}
    (h : MiningKeeps exited w.shared w.mining t pc) (hexited : exited = true → w.worker = .exited) :
    HandoffInv { w with shared := t, mining := pc } where
  bag := h.handover.bag
  placed := hi.handed .mining h.handover fun q hq => by
    cases q <;> first | rfl | exact absurd rfl hq
  wave := hi.wave.of_blocks h.handover.blocks h.handover.accepted
  joined := fun hj => h.joined.elim (fun hsame => hi.joined (hsame ▸ hj)) hexited
  control := h.control

theorem HandoffInv.worker (hi : HandoffInv w) {pc : SubmitPc} (h : WorkerKeeps w.shared w.worker t pc)
    (hjoined : t.joinable = false → pc = .exited) : HandoffInv { w with shared := t, worker := pc } where
  bag := h.handover.bag
  placed := hi.handed .worker h.handover fun q hq => by
    cases q <;> first | rfl | exact absurd rfl hq
  wave := h.wave
  joined := hjoined
  control := hi.control.aside h.aside

theorem HandoffInv.persister (hi : HandoffInv w) {p : PersistPc}
    (h : Handover w.shared w.persister.hits t p.hits) (ha : Aside w.shared t) :
    HandoffInv { w with shared := t, persister := p } where
  bag := h.bag
  placed := hi.handed .persister h fun q hq => by
    cases q <;> first | rfl | exact absurd rfl hq
  wave := hi.wave.of_blocks h.blocks h.accepted
  joined := fun hj => hi.joined (ha.joinable ▸ hj)
  control := hi.control.aside ha

theorem HandoffInv.receive (hi : HandoffInv w) {raw : BlockHit} {r : Readings} {ending : Bool}
    (hpc : w.mining = .handling ending) : HandoffInv { w with
      shared := (receiveHit cfg raw r ending w.shared).1
      mining := (receiveHit cfg raw r ending w.shared).2 } := by
  have hnone : w.mining.hits = [] := by rw [hpc, hits_handling]
  have hearly : w.mining.isFinal = false := by
    rw [hpc]
    cases ending <;> rfl
  exact hi.mining (receiveHit_keeps hi.bag hi.control hearly hnone rfl) (by simp)

theorem exited_step {e : SubmitEvent} : SubmitPc.step cfg .exited e s = none := by
  cases e <;> rfl

theorem HandoffInv.step (hi : HandoffInv w) {a : HandoffAction} {w' : HandoffWorld}
    (h : w.step cfg a = some w') : HandoffInv w' := by
  have hlooping : ∀ {pc : MiningPc}, w.mining.isFinal = false → pc.isClosed = false →
      w.mining.hits = [] → pc.hits = [] → HandoffInv { w with mining := pc } := by
    intro pc hearly hclosed hnone hnone'
    have hkeeps : MiningKeeps false w.shared w.mining w.shared pc :=
      .idle hi.bag hi.control hearly hclosed (hnone'.trans hnone.symm) rfl
    exact hi.mining hkeeps (by simp)
  cases HandoffWorld.step_moves h with
  | hit hpc => exact hi.receive hpc
  | update hpc | leaveLoop hpc | drained hpc =>
    exact hlooping (by rw [hpc]; rfl) rfl (by rw [hpc]; rfl) rfl
  | mining hstep =>
    refine hi.mining (MiningPc.step_keeps hi.bag hi.control hstep) fun hexited => ?_
    cases hw : w.worker <;> simp [hw] at hexited ⊢
  | worker hstep =>
    have hkeeps := SubmitPc.step_keeps hi.bag hi.wave hstep
    refine hi.worker hkeeps fun hj => ?_
    have hexited := hi.joined (hkeeps.aside.joinable ▸ hj)
    rw [hexited, exited_step] at hstep
    cases hstep
  | persist hstep =>
    obtain ⟨hstep, ha⟩ := PersistPc.handover hi.bag (PersistPc.step_moves hstep)
    exact hi.persister hstep ha
  | requestStop =>
    obtain ⟨hstep, ha⟩ := idle_step (t := { w.shared with running := false }) hi.bag rfl rfl
    exact hi.persister hstep ha
  | @note op hop =>
    exact hi.persister (.called (note_retains hi.bag op hop) fun _ h => .inl h) ⟨rfl, rfl, id⟩

theorem HandoffInv.init (h : w.fresh) : HandoffInv w where
  bag := h.bag
  placed := by
    rw [h.passed]
    simp
  wave := by
    rw [h.worker]
    trivial
  joined := fun hj => by simp [h.joinable] at hj
  control := by
    refine ⟨fun hf => ?_, ?_, ?_⟩
    · rw [h.finalized] at hf
      cases hf
    · rw [h.mining]
      intro hc
      cases hc
    · rw [h.mining]
      intro hr
      cases hr

/-- At every step a hit that passed the checks is held, queued, settled or in the local batch
of `persist_queue_for_restart`. When `finalize_session` has returned, it is settled or still
in that batch. -/
theorem no_hit_lost (cfg : Settings) (w : HandoffWorld) (hw : (handoffMachine cfg).Reachable w) :
    ∀ hit ∈ w.shared.passed, (w.held hit ∨ hit ∈ w.persister.hits) ∧
      (w.mining = .returned → w.shared.settled hit ∨ hit ∈ w.persister.hits) := by
  have hi : HandoffInv w := by
    refine Machine.Reachable.invariant (M := handoffMachine cfg) (I := HandoffInv)
      (fun _ => HandoffInv.init) ?_ hw
    intro w a w' _ hi hstep
    exact hi.step hstep
  intro hit hin
  refine ⟨hi.placed hit hin, fun hreturned => ?_⟩
  have hmining : w.mining.hits = [] := by rw [hreturned]; rfl
  have hworker : w.worker.hits = [] := by rw [hi.joined (hi.control.returned hreturned)]; rfl
  have hqueue : w.shared.liveSubmitQ = [] := hi.control.closed (by rw [hreturned]; rfl)
  rcases hi.placed hit hin with (h | h | h | h) | h
  · simp [hmining] at h
  · simp [hqueue] at h
  · simp [hworker] at h
  · exact .inl h
  · exact .inr h

def rawHit : BlockHit :=
  { key := List.replicate 64 'a', hashStr := "XEN11".toList, blockType := "XNM".toList }

def networkUp : Readings :=
  { oracle := { networkOk := true, networkDifficulty := some 100 } }

/-- The hit is queued; another thread swaps the queue into its batch; then the session ends. -/
def swappedAway : List HandoffAction :=
  [.hit rawHit networkUp, .mining networkUp, .mining networkUp] ++
  List.replicate 5 (.persist {}) ++ [.leaveLoop false] ++ List.replicate 6 (.mining {}) ++
  List.replicate 8 (.worker (.next {})) ++ [.mining {}, .mining {}]

def HandoffWorld.counts (w : HandoffWorld) : List ℕ :=
  [w.shared.passed.length, w.mining.hits.length, w.shared.liveSubmitQ.length,
    w.worker.hits.length, w.shared.accepted.length, w.shared.store.pending.length,
    w.persister.hits.length]

theorem handoffStart_fresh : HandoffWorld.fresh {} :=
  ⟨BagInv.empty, rfl, rfl, rfl, rfl, rfl, rfl, rfl, by simp⟩

theorem handoff_reachable {as : List HandoffAction}
    (h : runSteps (HandoffWorld.step {}) {} as = some w) : (handoffMachine {}).Reachable w :=
  (Machine.Reachable.start handoffStart_fresh).runSteps (fun _ _ _ _ h => h) h

/-- The session is over and the hit is only in the batch of the other thread. -/
theorem hit_held_by_persister : ¬ ∀ (cfg : Settings) (w : HandoffWorld),
    (handoffMachine cfg).Reachable w → ∀ hit ∈ w.shared.passed,
      w.held hit ∧ (w.mining = .returned → w.shared.settled hit) := by
  intro hall
  have hrun : (runSteps (HandoffWorld.step {}) {} swappedAway).map HandoffWorld.counts =
      some [1, 0, 0, 0, 0, 0, 1] := by decide +kernel
  obtain ⟨w, hw, hcounts⟩ := Option.map_eq_some_iff.mp hrun
  simp only [HandoffWorld.counts, List.cons.injEq, List.length_eq_zero_iff] at hcounts
  obtain ⟨hpassed, hmining, hqueue, hworker, haccepted, hpending, -⟩ := hcounts
  obtain ⟨hit, hhit⟩ := List.length_eq_one_iff.mp hpassed
  have hheld := (hall {} w (handoff_reachable hw) hit (by simp [hhit])).1
  simp [HandoffWorld.held, hmining, hqueue, hworker, Shared.settled, haccepted, bagged, hpending]
    at hheld

/-- When the other thread goes on, its batch is bagged. -/
theorem no_hit_lost_run : ∃ (w : HandoffWorld) (hit : BlockHit), w.mining = .returned ∧
    hit ∈ w.shared.passed ∧ w.shared.settled hit := by
  have hrun : (runSteps (HandoffWorld.step {}) {} (swappedAway ++ [.persist {}])).map
      (fun w => ((w.mining matches .returned), w.shared.passed.length, w.persister.hits.length)) =
      some (true, 1, 0) := by decide +kernel
  obtain ⟨w, hw, hvalues⟩ := Option.map_eq_some_iff.mp hrun
  simp only [Prod.mk.injEq, List.length_eq_zero_iff] at hvalues
  obtain ⟨hreturned, hpassed, hpersister⟩ := hvalues
  have hreturned : w.mining = .returned := by
    cases hw : w.mining <;> simp [hw] at hreturned ⊢
  obtain ⟨hit, hhit⟩ := List.length_eq_one_iff.mp hpassed
  have hin : hit ∈ w.shared.passed := by simp [hhit]
  have hplaced := (no_hit_lost {} w (handoff_reachable hw) hit hin).2 hreturned
  rw [hpersister] at hplaced
  exact ⟨w, hit, hreturned, hin, hplaced.resolve_right (by simp)⟩

end XnMiner

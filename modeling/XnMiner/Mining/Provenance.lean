import XnMiner.Mining.Joining

/-! # Difficulty provenance

While the pipeline holds only matches of the engine's difficulty, every hit that leaves
it is labelled right. Setting another difficulty keeps this when nothing older is left in the
lanes and workers that are kept, and nothing older can be hashed before the workers are joined.
-/
namespace XnMiner
open TextCodec Transitions

theorem isArgon2Encoded_base64 (digest : List ℕ) : isArgon2Encoded (base64Encode digest) = false := by
  rw [isArgon2Encoded, Bool.eq_false_iff]
  intro hprefix
  have hdollar : '$' ∈ "$argon2".toList := by decide
  exact dollar_notMem_base64Encode digest
    ((List.isPrefixOf_iff_prefix.mp hprefix).sublist.mem hdollar)

variable {cfg : Settings} {s t : CudaEngine} {d : ℕ}

/-- The hit of a match is genuine when the engine still has the difficulty of the match. -/
theorem returnHit_genuine_iff {m : HashApiMatch} {r : BatchReport} {out : ReturnedHit}
    {difficulty : ℤ} (hforced : cfg.forceMineMode = true → difficulty = cfg.forcedMineM)
    (h : returnHit cfg difficulty r m = some out) :
    out.genuine ↔ m.computedAt = toUint32 difficulty := by
  obtain ⟨hit, hhit, rfl⟩ := Option.map_eq_some_iff.mp h
  dsimp only [hitFromMatch] at hhit
  split_ifs at hhit
  have hdifficulty : (if cfg.forceMineMode then cfg.forcedMineM else difficulty) = difficulty := by
    split_ifs with hf
    · exact (hforced hf).symm
    · rfl
  have hhash : hit.hashStr = base64Encode m.digest := (Option.some.inj hhit) ▸ rfl
  have hcost : hit.memoryCost = some difficulty := (Option.some.inj hhit) ▸ rfl
  have hplain : isArgon2Encoded hit.hashStr = false := by rw [hhash, isArgon2Encoded_base64]
  constructor
  · rintro ⟨⟨c, hc, hsame⟩, -⟩
    obtain rfl : difficulty = c := Option.some.inj (hcost.symm.trans hc)
    exact hsame.symm
  · intro hm
    refine ⟨⟨difficulty, hcost, hm.symm⟩, _, prepareHitForSubmit_bare hplain _ _ _ _, ?_⟩
    rw [hdifficulty, findCost_encode, hm]

/-- All that is buffered, held or published is at one difficulty. -/
structure PipelineUnder (d : ℕ) (s : CudaEngine) : Prop where
  pending : ∀ i < s.impl, underOne d (s.pending i)
  lanes : ∀ i < s.workers, s.laneUnder d i

theorem underOne_none (d : ℕ) : underOne d none := by simp [underOne]

/-- A run at the difficulty keeps the buffer at it. -/
theorem underOne_runBatch {pending : Option (List HashApiMatch)} (h : underOne d pending)
    (run : BatchRun) :
    underOne d (runBatch pending d run).1 ∧ underOne d (runBatch pending d run).2 := by
  cases run with
  | wave found =>
    refine ⟨?_, h⟩
    intro m hm
    obtain ⟨f, -, rfl⟩ := List.mem_map.mp hm
    rfl
  | rejected => exact ⟨h, underOne_none d⟩
  | failed => exact ⟨underOne_none d, underOne_none d⟩

/-- The test of a lane that worker steps keep: waves are run at the difficulty, and then
anything at the difficulty may come of them. -/
structure LaneStable (d : ℕ) (Q : LaneMailbox → WorkerPhase → Prop) : Prop where
  woken : ∀ box seen, Q box (.waiting seen) → box.seq ≠ seen → Q box (.ready box.seq box.difficulty)
  skipped : ∀ box seen, Q box (.waiting seen) → Q box (.waiting box.seq)
  checked : ∀ box seen e, Q box (.ready seen e) → box.seq = seen → box.ring.length < kRing →
    Q box (.hashing seen e)
  hashed : ∀ box seen e, Q box (.hashing seen e) →
    e = d ∧ ∀ result, underOne d result → Q box (.holding seen e result)
  pushed : ∀ box seen e result, Q box (.holding seen e result) →
    Q { box with ring := box.ring ++ [result] } (.ready seen e)
  left : ∀ box seen e, Q box (.ready seen e) → box.seq ≠ seen → Q box (.waiting seen)

/-- A worker only touches its lane: buffer, ring and phase. -/
theorem CudaEngine.Works.keeps {a : EngineAction} (hw : s.Works a t)
    {Q : LaneMailbox → WorkerPhase → Prop} (hQ : LaneStable d Q) (lane : ℕ → Prop)
    (hlane : ∀ i < s.workers, i < s.impl → lane i)
    (hpending : ∀ i < s.impl, underOne d (s.pending i))
    (hlanes : ∀ i, lane i → Q (s.mailbox i) (s.phase i)) :
    (∀ i < t.impl, underOne d (t.pending i)) ∧ ∀ i, lane i → Q (t.mailbox i) (t.phase i) := by
  -- only the phase of lane `i` changes
  have hmoved : ∀ (i : ℕ) (p : WorkerPhase),
      (Q (s.mailbox i) (s.phase i) → Q (s.mailbox i) p) →
      ∀ j, lane j → Q (s.mailbox j) (Function.update s.phase i p j) := by
    intro i p hp j hj
    by_cases hji : j = i
    · subst hji
      rw [Function.update_self]
      exact hp (hlanes j hj)
    · rw [Function.update_of_ne hji]
      exact hlanes j hj
  cases hw with
  | @woken i seen hphase _ hnew _ _ =>
    exact ⟨hpending, hmoved i _ fun h => hQ.woken _ _ (hphase ▸ h) hnew⟩
  | @skipped i seen usable hphase _ _ _ =>
    exact ⟨hpending, hmoved i _ fun h => hQ.skipped _ _ (hphase ▸ h)⟩
  | @checked i seen e hphase _ hseq hroom =>
    exact ⟨hpending, hmoved i _ fun h => hQ.checked _ _ _ (hphase ▸ h) hseq hroom⟩
  | @hashed i seen e run hphase hlt himpl =>
    have hown := hlanes i (hlane i hlt himpl)
    rw [hphase] at hown
    obtain ⟨rfl, hheld⟩ := hQ.hashed _ _ _ hown
    obtain ⟨hbuffer, hresult⟩ := underOne_runBatch (hpending i himpl) run
    refine ⟨fun j hj => ?_, hmoved i _ fun _ => hheld _ hresult⟩
    by_cases hji : j = i
    · subst hji
      simpa [CudaEngine.runLane] using hbuffer
    · simpa [CudaEngine.runLane, hji] using hpending j hj
  | @pushed i seen e result hphase _ =>
    refine ⟨hpending, fun j hj => ?_⟩
    by_cases hji : j = i
    · subst hji
      have hown := hlanes j hj
      rw [hphase] at hown
      simpa using hQ.pushed _ _ _ _ hown
    · simpa [hji] using hlanes j hj
  | @left i seen e hphase _ hseq =>
    exact ⟨hpending, hmoved i _ fun h => hQ.left _ _ _ (hphase ▸ h) hseq⟩

theorem stopLaneWorkers_eq (h : s.stopLaneWorkers = some t) : t = { s with workers := 0 } := by
  unfold CudaEngine.stopLaneWorkers at h
  split_ifs at h
  exact (Option.some.inj h).symm

/-- Workers either stay, are stopped, or are started on empty mailboxes. -/
theorem ensureLaneWorkers_cases (h : s.ensureLaneWorkers = some t) :
    (s.lanes ≤ 1 ∧ t = { s with workers := 0 }) ∨ (1 < s.lanes ∧ s.workers = s.lanes ∧ t = s) ∨
    t = { s with workers := s.lanes, mailbox := fun _ => {}, phase := fun _ => .waiting 0 } := by
  unfold CudaEngine.ensureLaneWorkers at h
  split_ifs at h with hone hsame
  · exact .inl ⟨hone, stopLaneWorkers_eq h⟩
  · exact .inr (.inl ⟨by omega, hsame, (Option.some.inj h).symm⟩)
  · obtain ⟨u, hu, rfl⟩ := Option.map_eq_some_iff.mp h
    obtain rfl := stopLaneWorkers_eq hu
    exact .inr (.inr rfl)

/-- A worker on an empty mailbox has nothing to do. -/
theorem laneUnder_fresh (d i : ℕ) {s : CudaEngine} (hbox : s.mailbox i = {})
    (hphase : s.phase i = .waiting 0) : s.laneUnder d i := by
  rw [CudaEngine.laneUnder, hbox, hphase]
  exact ⟨by simp, trivial, fun h => absurd rfl h⟩

theorem PipelineUnder.ensureLaneWorkers (h : s.ensureLaneWorkers = some t)
    (hpending : ∀ i < s.impl, underOne d (s.pending i))
    (hlanes : 1 < s.lanes → s.workers = s.lanes → ∀ i < s.workers, s.laneUnder d i) :
    PipelineUnder d t := by
  rcases ensureLaneWorkers_cases h with ⟨-, rfl⟩ | ⟨hone, hsame, rfl⟩ | rfl
  · exact ⟨hpending, by simp⟩
  · exact ⟨hpending, hlanes hone hsame⟩
  · exact ⟨hpending, fun i _ => laneUnder_fresh d i rfl rfl⟩

/-- Kept lanes keep their wave, new ones have none. -/
theorem underOne_syncLanes (h : ∀ i < s.impl, i < s.lanes → underOne d (s.pending i)) :
    ∀ i < s.syncLanes.impl, underOne d (s.syncLanes.pending i) := by
  intro i hi
  simp only [CudaEngine.syncLanes]
  split_ifs with hold
  · exact h i hold hi
  · exact underOne_none d

structure EngineInv (cfg : Settings) (s : CudaEngine) : Prop where
  pipeline : PipelineUnder (toUint32 s.difficulty) s
  forced : cfg.forceMineMode = true → s.difficulty = cfg.forcedMineM
  genuine : s.genuine
  stopped : s.started = false → s.impl = 0 ∧ s.workers = 0
  mining : s.pc = .mining → s.workers = s.lanes

theorem EngineInv.giveBack (h : EngineInv cfg s) (r : BatchReport) {ms : List HashApiMatch}
    (hms : ∀ m ∈ ms, m.computedAt = toUint32 s.difficulty) :
    EngineInv cfg (s.giveBack cfg r ms) where
  pipeline := ⟨h.pipeline.pending, h.pipeline.lanes⟩
  forced := h.forced
  genuine := by
    intro out hout
    rcases List.mem_append.mp hout with hout | hout
    · exact h.genuine out hout
    · obtain ⟨m, hm, hr⟩ := List.mem_filterMap.mp hout
      exact (returnHit_genuine_iff h.forced hr).mpr (hms m hm)
  stopped := h.stopped
  mining := h.mining

theorem EngineInv.goto (hi : EngineInv cfg s) {pc : EnginePc} (hpc : pc ≠ .mining) :
    EngineInv cfg { s with pc } where
  pipeline := ⟨hi.pipeline.pending, hi.pipeline.lanes⟩
  forced := hi.forced
  genuine := hi.genuine
  stopped := hi.stopped
  mining := fun h => absurd h hpc

theorem ensureLaneWorkers_keeps (h : s.ensureLaneWorkers = some t) :
    t.difficulty = s.difficulty ∧ t.returned = s.returned ∧ t.started = s.started ∧
      t.lanes = s.lanes ∧ t.pc = s.pc := by
  rcases ensureLaneWorkers_cases h with ⟨-, rfl⟩ | ⟨-, -, rfl⟩ | rfl <;>
    exact ⟨rfl, rfl, rfl, rfl, rfl⟩

/-- Unless there is one lane, each has a worker. -/
theorem ensureLaneWorkers_workers (h : s.ensureLaneWorkers = some t) (hone : s.lanes ≠ 1) :
    t.workers = s.lanes := by
  rcases ensureLaneWorkers_cases h with ⟨hle, rfl⟩ | ⟨-, hsame, rfl⟩ | rfl
  · simp only
    omega
  · exact hsame
  · rfl

/-- Outside a call, the workers of a started engine are brought up to the number of lanes. -/
theorem EngineInv.ensureLaneWorkers (h : s.ensureLaneWorkers = some t)
    (hpending : ∀ i < s.impl, underOne (toUint32 s.difficulty) (s.pending i))
    (hlanes : 1 < s.lanes → s.workers = s.lanes →
      ∀ i < s.workers, s.laneUnder (toUint32 s.difficulty) i)
    (hforced : cfg.forceMineMode = true → s.difficulty = cfg.forcedMineM) (hgenuine : s.genuine)
    (hpc : s.pc = .outside) : EngineInv cfg { t with started := true } := by
  obtain ⟨hd, hreturned, -, -, hpc'⟩ := ensureLaneWorkers_keeps h
  have hpipeline := PipelineUnder.ensureLaneWorkers h hpending hlanes
  refine ⟨⟨hd ▸ hpipeline.pending, hd ▸ hpipeline.lanes⟩, hd ▸ hforced, ?_, by simp, ?_⟩
  · change ∀ r ∈ t.returned, r.genuine
    exact hreturned ▸ hgenuine
  · simp [hpc', hpc]

theorem EngineInv.stopLaneWorkers (hi : EngineInv cfg s) (hpc : s.pc = .outside)
    (h : s.stopLaneWorkers = some t) : EngineInv cfg { t with impl := 0, started := false } := by
  obtain rfl := stopLaneWorkers_eq h
  exact ⟨⟨by simp, by simp⟩, hi.forced, hi.genuine, fun _ => ⟨rfl, rfl⟩, by simp [hpc]⟩

/-- Setting a difficulty without resizing the lanes leaves all lanes and workers. -/
theorem EngineInv.setDifficulty (hi : EngineInv cfg s) (hpc : s.pc = .outside) {d : ℤ}
    {plan : Option ℕ} (hplain : s.replanned (.setDifficulty d plan) = none)
    (hdrained : d ≠ s.difficulty → plan = none → PipelineUnder (toUint32 d) s)
    (hforced : cfg.forceMineMode = true → d = cfg.forcedMineM)
    (h : s.setDifficulty d plan = some t) : EngineInv cfg t := by
  unfold CudaEngine.setDifficulty at h
  split_ifs at h with hsame hstopped
  · exact Option.some.inj h ▸ hi
  · obtain rfl := Option.some.inj h
    obtain ⟨himpl, hworkers⟩ := hi.stopped hstopped
    exact ⟨⟨by simp [himpl], by simp [hworkers]⟩, hforced, hi.genuine, hi.stopped, hi.mining⟩
  · have hstarted : s.started = true := by simpa using hstopped
    have hnew : d ≠ s.difficulty := fun heq => hsame ⟨heq, hstarted⟩
    cases plan with
    | none =>
      obtain rfl := Option.some.inj h
      have hpipeline := hdrained hnew rfl
      exact ⟨⟨hpipeline.pending, hpipeline.lanes⟩, hforced, hi.genuine, hi.stopped, hi.mining⟩
    | some n => simp [CudaEngine.replanned, hpc, hstarted, hnew] at hplain

theorem PipelineUnder.runLane (h : PipelineUnder d s) {i : ℕ} (hi : underOne d (s.pending i))
    (run : BatchRun) : PipelineUnder d (s.runLane i d run).1 ∧
      underOne d (s.runLane i d run).2 := by
  obtain ⟨hbuffer, hresult⟩ := underOne_runBatch hi run
  refine ⟨⟨fun j hj => ?_, h.lanes⟩, hresult⟩
  simp only [CudaEngine.runLane]
  by_cases hij : j = i
  · subst hij
    simpa using hbuffer
  · simpa [hij] using h.pending j hj

/-- Only sequence number and difficulty of a mailbox matter to its worker. -/
theorem under_congr {p : WorkerPhase} {box box' : LaneMailbox} (hseq : box'.seq = box.seq)
    (hd : box'.difficulty = box.difficulty) (h : p.under d box) : p.under d box' :=
  ⟨h.1, fun hne => hd.trans (h.2 (hseq ▸ hne))⟩

theorem laneUnder_stable (d : ℕ) : LaneStable d fun box p =>
    (∀ result ∈ box.ring, underOne d result) ∧ p.under d box where
  woken _ _ h hnew := ⟨h.1, h.2.2 hnew, fun hne => absurd rfl hne⟩
  skipped _ _ h := ⟨h.1, trivial, fun hne => absurd rfl hne⟩
  checked _ _ _ h _ _ := h
  hashed _ _ _ h := ⟨h.2.1, fun _ hresult => ⟨h.1, ⟨h.2.1, hresult⟩, h.2.2⟩⟩
  pushed box _ _ result h := by
    refine ⟨?_, h.2.1.1, h.2.2⟩
    intro res hres
    rcases List.mem_append.mp hres with hres | hres
    · exact h.1 res hres
    · rw [List.mem_singleton.mp hres]
      exact h.2.1.2
  left _ _ _ h _ := ⟨h.1, trivial, h.2.2⟩

theorem PipelineUnder.work {a : EngineAction} (h : PipelineUnder d s) (hw : s.Works a t) :
    PipelineUnder d t := by
  obtain ⟨hpending, hlanes⟩ := hw.keeps (laneUnder_stable d) (· < s.workers)
    (fun _ hlt _ => hlt) h.pending h.lanes
  refine ⟨hpending, fun i hi => hlanes i ?_⟩
  cases hw <;> exact hi

theorem PipelineUnder.publish (h : PipelineUnder (toUint32 s.difficulty) s) (changed : ℕ → Bool) :
    PipelineUnder (toUint32 s.difficulty) (s.publish changed) where
  pending := h.pending
  lanes := by
    intro j hj
    obtain ⟨hring, hphase⟩ := h.lanes j hj
    simp only [CudaEngine.laneUnder, CudaEngine.publish]
    split_ifs
    · exact ⟨hring, hphase.1, fun _ => rfl⟩
    · exact ⟨hring, hphase⟩

/-- Emptying the rings leaves the jobs as they are. -/
theorem absorb_mailbox (mailbox : ℕ → LaneMailbox) (lanes : List ℕ) (acc : List HashApiMatch)
    (j : ℕ) :
    ((absorb mailbox lanes acc).1 j).seq = (mailbox j).seq ∧
      ((absorb mailbox lanes acc).1 j).difficulty = (mailbox j).difficulty ∧
      ∀ result ∈ ((absorb mailbox lanes acc).1 j).ring, result ∈ (mailbox j).ring := by
  induction lanes generalizing mailbox acc with
  | nil => exact ⟨rfl, rfl, fun _ h => h⟩
  | cons i rest ih =>
    unfold absorb
    split
    next ms ring hring =>
      obtain ⟨hseq, hd, hsub⟩ := ih (Function.update mailbox i { mailbox i with ring }) (acc ++ ms)
      by_cases hij : j = i
      · subst hij
        simp only [Function.update_self] at hseq hd hsub
        exact ⟨hseq, hd, fun res hres => hring ▸ List.mem_cons_of_mem _ (hsub res hres)⟩
      · rw [Function.update_of_ne hij] at hseq hd hsub
        exact ⟨hseq, hd, hsub⟩
    next => exact ⟨rfl, rfl, fun _ h => h⟩

theorem absorb_under {mailbox : ℕ → LaneMailbox} {lanes : List ℕ} {acc : List HashApiMatch}
    (hrings : ∀ i ∈ lanes, ∀ result ∈ (mailbox i).ring, underOne d result)
    (hacc : ∀ m ∈ acc, m.computedAt = d) : underOne d (absorb mailbox lanes acc).2 := by
  induction lanes generalizing mailbox acc with
  | nil => exact hacc
  | cons i rest ih =>
    rw [List.forall_mem_cons] at hrings
    unfold absorb
    split
    next ms ring hring =>
      refine ih (fun j hj res hres => ?_) fun m hm => ?_
      · by_cases hji : j = i
        · subst hji
          rw [Function.update_self] at hres
          exact hrings.1 res (hring ▸ List.mem_cons_of_mem _ hres)
        · rw [Function.update_of_ne hji] at hres
          exact hrings.2 j hj res hres
      · rcases List.mem_append.mp hm with hm | hm
        · exact hacc m hm
        · exact hrings.1 (some ms) (hring ▸ List.mem_cons_self) m hm
    next => exact underOne_none d

theorem PipelineUnder.absorb (h : PipelineUnder d s) (lanes : List ℕ) (acc : List HashApiMatch) :
    PipelineUnder d { s with mailbox := (XnMiner.absorb s.mailbox lanes acc).1 } where
  pending := h.pending
  lanes := by
    intro j hj
    obtain ⟨hseq, hd, hsub⟩ := absorb_mailbox s.mailbox lanes acc j
    exact ⟨fun res hres => (h.lanes j hj).1 res (hsub res hres),
      under_congr hseq hd (h.lanes j hj).2⟩

theorem EngineInv.mine (hi : EngineInv cfg s) (hpc : s.pc = .outside) (hone : s.lanes ≠ 1)
    (hstarted : s.started = true) (changed : ℕ → Bool) (h : s.ensureLaneWorkers = some t) :
    EngineInv cfg { t.publish changed with pc := .mining } := by
  have hinv := EngineInv.ensureLaneWorkers h hi.pipeline.pending (fun _ _ => hi.pipeline.lanes)
    hi.forced hi.genuine hpc
  obtain ⟨-, -, hstarted', hlanes, -⟩ := ensureLaneWorkers_keeps h
  have hworkers : t.workers = t.lanes := by rw [ensureLaneWorkers_workers h hone, hlanes]
  have hpipeline : PipelineUnder (toUint32 t.difficulty) t :=
    ⟨hinv.pipeline.pending, hinv.pipeline.lanes⟩
  have hpublished := hpipeline.publish changed
  exact ⟨⟨hpublished.pending, hpublished.lanes⟩, hinv.forced, hinv.genuine,
    fun hstopped => absurd (hstarted'.trans hstarted) (by simpa [CudaEngine.publish] using hstopped),
    fun _ => hworkers⟩

/-- A call that does not resize the lanes before it comes to the workers. -/
theorem EngineInv.call {a : EngineAction} (hi : EngineInv cfg s)
    (hdrained : ∀ d plan, a = .setDifficulty d plan → d ≠ s.difficulty → plan = none →
      PipelineUnder (toUint32 d) s)
    (hforced : ∀ d plan, a = .setDifficulty d plan → cfg.forceMineMode = true →
      d = cfg.forcedMineM) (hplain : s.replanned a = none) (h : s.Calls cfg a t) :
    EngineInv cfg t := by
  cases h with
  | runsAlready | unplanned | drainsNothing => exact hi
  | starts hpc hstarted hu =>
    obtain ⟨himpl, hworkers⟩ := hi.stopped hstarted
    exact EngineInv.ensureLaneWorkers hu
      (underOne_syncLanes fun i hlt _ => hi.pipeline.pending i hlt)
      (fun _ _ => hi.pipeline.lanes) hi.forced hi.genuine hpc
  | stops hpc hu => exact hi.stopLaneWorkers hpc hu
  | sets hpc ht => exact hi.setDifficulty hpc hplain (hdrained _ _ rfl) (hforced _ _ rfl) ht
  | recaps hpc hstarted hn _ => simp [CudaEngine.replanned, hpc, hstarted, hn] at hplain
  | narrows hpc hstarted _ _ ht =>
    have hstarted' : t.started = true := (ensureLaneWorkers_keeps ht).2.2.1.trans hstarted
    have hinv := EngineInv.ensureLaneWorkers ht hi.pipeline.pending
      (fun _ _ => hi.pipeline.lanes) hi.forced hi.genuine hpc
    rwa [← hstarted'] at hinv
  | @minesSingle run r hpc _ himpl _ =>
    obtain ⟨hpipeline, hresult⟩ := hi.pipeline.runLane (hi.pipeline.pending 0 himpl) run
    have hinv : EngineInv cfg (s.runLane 0 (toUint32 s.difficulty) run).1 :=
      ⟨hpipeline, hi.forced, hi.genuine, hi.stopped, hi.mining⟩
    exact hinv.giveBack r hresult
  | @mines changed u hpc hstarted _ hseveral hu =>
    exact hi.mine hpc hseveral hstarted changed hu
  | @collects r hpc _ =>
    have hpipeline := hi.pipeline.absorb (List.range s.lanes) []
    have hinv : EngineInv cfg { s with
        mailbox := (absorb s.mailbox (List.range s.lanes) []).1, pc := .outside } :=
      ⟨⟨hpipeline.pending, hpipeline.lanes⟩, hi.forced, hi.genuine, hi.stopped, by simp⟩
    refine hinv.giveBack r (absorb_under (fun i hlt => ?_) (by simp))
    exact (hi.pipeline.lanes i (hi.mining hpc ▸ List.mem_range.mp hlt)).1
  | drains | drained => exact hi.goto (by simp)
  | @drainsLane i r hpc hlt =>
    have hinv : EngineInv cfg { s with
        pending := Function.update s.pending i none, pc := .draining (i + 1) } := by
      refine ⟨⟨fun j hj => ?_, hi.pipeline.lanes⟩, hi.forced, hi.genuine, hi.stopped, by simp⟩
      by_cases hji : j = i
      · subst hji
        simpa using underOne_none _
      · simpa [hji] using hi.pipeline.pending j hj
    exact hinv.giveBack r (hi.pipeline.pending i hlt)

def CudaEngine.outline (s : CudaEngine) :
    Bool × ℤ × (ℕ × ℕ × ℕ) × EnginePc × List ReturnedHit :=
  (s.started, s.difficulty, (s.lanes, s.impl, s.workers), s.pc, s.returned)

theorem CudaEngine.Works.outline {a : EngineAction} (h : s.Works a t) : t.outline = s.outline := by
  cases h <;> rfl

theorem EngineInv.of_outline (hi : EngineInv cfg s) (h : PipelineUnder (toUint32 s.difficulty) t)
    (hsame : t.outline = s.outline) : EngineInv cfg t := by
  obtain ⟨hstarted, hd, ⟨hlanes, himpl, hworkers⟩, hpc, hreturned⟩ :
      t.started = s.started ∧ t.difficulty = s.difficulty ∧
        (t.lanes = s.lanes ∧ t.impl = s.impl ∧ t.workers = s.workers) ∧ t.pc = s.pc ∧
        t.returned = s.returned := by simpa [CudaEngine.outline] using hsame
  refine ⟨hd ▸ h, hd ▸ hi.forced, ?_, ?_, ?_⟩
  · intro r hr
    exact hi.genuine r (hreturned ▸ hr)
  · rw [hstarted, himpl, hworkers]
    exact hi.stopped
  · rw [hpc, hworkers, hlanes]
    exact hi.mining

theorem EngineInv.work {a : EngineAction} (hi : EngineInv cfg s) (h : s.Works a t) :
    EngineInv cfg t := hi.of_outline (hi.pipeline.work h) h.outline

theorem EngineInv.init (h : (engineMachine cfg).init s) : EngineInv cfg s := by
  obtain ⟨hfresh, hforced⟩ := h
  refine ⟨⟨fun i _ => ?_, fun i _ => ?_⟩, hforced, ?_, hfresh.stopped, ?_⟩
  · rw [hfresh.pending]
    exact underOne_none _
  · exact laneUnder_fresh _ _ (by rw [hfresh.mailbox]) (by rw [hfresh.phase])
  · intro r hr
    rw [hfresh.returned] at hr
    simp at hr
  · simp [hfresh.outside]

/-- What the worker can still hash is at the difficulty; a full ring stops it. -/
def WorkerPhase.hashesOnly (d : ℕ) (box : LaneMailbox) (p : WorkerPhase) : Prop :=
  match p with
  | .waiting _ => True
  | .ready seen e => box.seq = seen → box.ring.length < kRing → e = d
  | .hashing _ e => e = d
  | .holding seen e _ => box.seq = seen → box.ring.length + 1 < kRing → e = d

def WorkerPhase.settled (d : ℕ) (box : LaneMailbox) (p : WorkerPhase) : Prop :=
  p.hashesOnly d box ∧ (box.seq ≠ p.seen → box.difficulty = d)

/-- A new difficulty is set when the buffered waves of the lanes that are kept are at it, all that
their workers can still hash is, and so are the rings and jobs of workers that are kept. -/
def drained (s : JoiningEngine) (a : JoiningAction) : Prop :=
  ∀ d plan, a = .engine (.setDifficulty d plan) → d ≠ s.engine.difficulty →
    (∀ i < s.engine.impl, (∀ n ∈ plan, i < n) → underOne (toUint32 d) (s.engine.pending i)) ∧
    (∀ i < s.engine.workers, (∀ n ∈ plan, i < n) →
      (s.engine.phase i).settled (toUint32 d) (s.engine.mailbox i)) ∧
    ((∀ n ∈ plan, 1 < n ∧ s.engine.workers = n) →
      ∀ i < s.engine.workers, s.engine.laneUnder (toUint32 d) i)

theorem settled_stable (d : ℕ) : LaneStable d fun box p => p.settled d box where
  woken _ _ h hnew := ⟨fun _ _ => h.2 hnew, fun hne => absurd rfl hne⟩
  skipped _ _ _ := ⟨trivial, fun hne => absurd rfl hne⟩
  checked _ _ _ h hseq hroom := ⟨h.1 hseq hroom, h.2⟩
  hashed _ _ _ h := ⟨h.1, fun _ _ => ⟨fun _ _ => h.1, h.2⟩⟩
  pushed _ _ _ _ h := by
    refine ⟨fun hseq hroom => h.1 hseq ?_, h.2⟩
    simpa using hroom
  left _ _ _ h _ := ⟨trivial, h.2⟩

theorem WorkerPhase.under.settled {p : WorkerPhase} {box : LaneMailbox} (h : p.under d box) :
    p.settled d box := by
  refine ⟨?_, h.2⟩
  cases p with
  | waiting seen => trivial
  | ready seen e => exact fun _ _ => h.1
  | hashing seen e => exact h.1
  | holding seen e result => exact fun _ _ => h.1.1

/-- Between the resizing of the lanes and the end of the call. -/
structure JoiningInv (cfg : Settings) (s : CudaEngine) : Prop where
  pending : ∀ i < s.impl, underOne (toUint32 s.difficulty) (s.pending i)
  jobs : ∀ i, i < s.workers ∧ i < s.impl →
    (s.phase i).settled (toUint32 s.difficulty) (s.mailbox i)
  kept : 1 < s.lanes → s.workers = s.lanes → ∀ i < s.workers, s.laneUnder (toUint32 s.difficulty) i
  forced : cfg.forceMineMode = true → s.difficulty = cfg.forcedMineM
  genuine : s.genuine
  started : s.started = true
  outside : s.pc = .outside

theorem JoiningInv.work {a : EngineAction} (hi : JoiningInv cfg s) (h : s.Works a t) :
    JoiningInv cfg t := by
  obtain ⟨hstarted, hd, ⟨hlanes, himpl, hworkers⟩, hpc, hreturned⟩ :
      t.started = s.started ∧ t.difficulty = s.difficulty ∧
        (t.lanes = s.lanes ∧ t.impl = s.impl ∧ t.workers = s.workers) ∧ t.pc = s.pc ∧
        t.returned = s.returned := by simpa [CudaEngine.outline] using h.outline
  obtain ⟨hpending, hjobs⟩ := h.keeps (settled_stable _)
    (fun i => i < s.workers ∧ i < s.impl) (fun _ hlt hkept => ⟨hlt, hkept⟩) hi.pending hi.jobs
  refine ⟨hd ▸ hpending, ?_, ?_, hd ▸ hi.forced, ?_, hstarted.trans hi.started,
    hpc.trans hi.outside⟩
  · rw [hd, hworkers, himpl]
    exact hjobs
  · rw [hlanes, hworkers, hd]
    intro hone hsame
    have hpipeline : PipelineUnder (toUint32 s.difficulty) s := ⟨hi.pending, hi.kept hone hsame⟩
    exact fun i hlt => (hpipeline.work h).lanes i (hworkers ▸ hlt)
  · intro r hr
    exact hi.genuine r (hreturned ▸ hr)

theorem EngineInv.replans {a : EngineAction} {joining : Bool} (hi : EngineInv cfg s)
    (hdrained : drained { engine := s, joining } (.engine a))
    (hforced : ∀ d plan, a = .setDifficulty d plan → cfg.forceMineMode = true →
      d = cfg.forcedMineM) (h : s.Replans a t) : JoiningInv cfg t := by
  cases h with
  | @sets d n hpc hstarted hnew =>
    obtain ⟨hpending, hjobs, hkept⟩ := hdrained d (some n) rfl hnew
    refine ⟨underOne_syncLanes fun i hlt hn => hpending i hlt (by simpa using hn), ?_, ?_,
      hforced d _ rfl, hi.genuine, hstarted, hpc⟩
    · exact fun i hlt => hjobs i hlt.1 (by simpa [CudaEngine.syncLanes] using hlt.2)
    · exact fun hone hsame => hkept (by simpa using ⟨hone, hsame⟩)
  | recaps hpc hstarted _ =>
    refine ⟨underOne_syncLanes fun i hlt _ => hi.pipeline.pending i hlt, ?_, ?_, hi.forced,
      hi.genuine, hstarted, hpc⟩
    · exact fun i hlt => (hi.pipeline.lanes i hlt.1).2.settled
    · exact fun _ _ => hi.pipeline.lanes

/-- What holds outside the calls that resize the lanes, and within one. -/
structure CallsInv (cfg : Settings) (s : JoiningEngine) : Prop where
  between : s.joining = false → EngineInv cfg s.engine
  within : s.joining = true → JoiningInv cfg s.engine

theorem CallsInv.step {s t : JoiningEngine} {a : JoiningAction} (hi : CallsInv cfg s)
    (hdrained : drained s a) (h : (joiningMachine cfg).step s a t) : CallsInv cfg t := by
  obtain ⟨hstep, hforced⟩ := h
  cases JoiningEngine.step_moves hstep with
  | worked hjoining he =>
    exact ⟨fun hout => absurd hout (by simp), fun _ => (hi.within hjoining).work he⟩
  | replans hjoining he =>
    refine ⟨fun hout => absurd hout (by simp), fun _ => ?_⟩
    exact (hi.between hjoining).replans hdrained (fun d plan ha => hforced d plan (ha ▸ rfl)) he
  | @acts a e hjoining hplain he =>
    refine ⟨fun _ => ?_, fun hin => absurd hin (by simp)⟩
    have hinv := hi.between hjoining
    rcases CudaEngine.step_moves he with hworks | hcalls
    · exact hinv.work hworks
    · refine hinv.call ?_ (fun d plan ha => hforced d plan (ha ▸ rfl)) hplain hcalls
      rintro d plan rfl hnew rfl
      obtain ⟨hpending, -, hkept⟩ := hdrained d none rfl hnew
      exact ⟨fun i hlt => hpending i hlt (by simp), hkept (by simp)⟩
  | @joins e hjoining he =>
    refine ⟨fun _ => ?_, fun hin => absurd hin (by simp)⟩
    have hinv := hi.within hjoining
    have hstarted : e.started = true := (ensureLaneWorkers_keeps he).2.2.1.trans hinv.started
    have hjoined : EngineInv cfg { e with started := true } := EngineInv.ensureLaneWorkers he
      hinv.pending hinv.kept hinv.forced hinv.genuine hinv.outside
    rwa [← hstarted] at hjoined

/-- In a run that changes the difficulty only of a drained pipeline, every hit that the
engine returned is genuine. -/
theorem hits_genuine (cfg : Settings) (s : JoiningEngine)
    (hs : ((joiningMachine cfg).restrict drained).Reachable s) : s.engine.genuine := by
  have hi : CallsInv cfg s := by
    refine Machine.Reachable.invariant (M := (joiningMachine cfg).restrict drained)
      (I := CallsInv cfg) ?_ ?_ hs
    · rintro s ⟨hinit, hout⟩
      exact ⟨fun _ => EngineInv.init hinit, fun hin => absurd (hout.symm.trans hin) (by simp)⟩
    · rintro s a t - hi ⟨hdrained, hstep⟩
      exact hi.step hdrained hstep
  cases hjoining : s.joining with
  | false => exact (hi.between hjoining).genuine
  | true => exact (hi.within hjoining).genuine

def engineStart : CudaEngine := { difficulty := 1100, lanes := 1, impl := 1 }

def classicMine : Settings := { forceMineMemoryCost := 0 }

def foundBlock : Found :=
  { key := List.replicate 64 'a', digest := [1, 2, 3], matchedPattern := "XEN11".toList }

def anyReport : BatchReport := { attempts := 1, hps := zeroDouble, foundAt := [] }

theorem engineStart_init : (joiningMachine classicMine).init { engine := engineStart } :=
  ⟨⟨⟨rfl, rfl, rfl, rfl, rfl, by decide⟩, by decide⟩, rfl⟩

def changedBetween : List JoiningAction :=
  [.engine (.mineSingle (.wave [foundBlock]) anyReport), .engine (.setDifficulty 2000 (some 1)),
    .join, .engine (.mineSingle (.wave []) anyReport)]

theorem hits_not_genuine :
    ¬ ∀ (cfg : Settings) (s : JoiningEngine), (joiningMachine cfg).Reachable s →
      s.engine.genuine := by
  intro hall
  have hrun : (runSteps (JoiningEngine.step classicMine) { engine := engineStart }
      changedBetween).map (fun t => t.engine.returned.map fun r => (r.hit.memoryCost, r.computedAt)) =
      some [(some 2000, 1100)] := by decide +kernel
  obtain ⟨t, ht, hlabel⟩ := Option.map_eq_some_iff.mp hrun
  have hreach : (joiningMachine classicMine).Reachable t :=
    (Machine.Reachable.start engineStart_init).runSteps
      (fun _ _ _ _ h => ⟨h, fun _ _ _ hforced => absurd hforced (by decide)⟩) ht
  obtain ⟨r, hr, hpair⟩ :
      ∃ r ∈ t.engine.returned, (r.hit.memoryCost, r.computedAt) = (some 2000, 1100) := by
    rw [← List.mem_map, hlabel]
    exact List.mem_singleton_self _
  obtain ⟨⟨m, hm, hsame⟩, -⟩ := hall classicMine t hreach r hr
  obtain ⟨hcost, hcomputed⟩ := Prod.mk.inj hpair
  obtain rfl : (2000 : ℤ) = m := Option.some.inj (hcost.symm.trans hm)
  rw [hcomputed] at hsame
  exact absurd hsame (by decide)

/-- The same wave, drained before the change. -/
theorem hits_genuine_run :
    ∃ s : JoiningEngine, s.engine.difficulty = 2000 ∧ s.engine.returned ≠ [] ∧
      s.engine.genuine := by
  have hrun : ((runSteps (JoiningEngine.step classicMine) { engine := engineStart }
      [.engine (.mineSingle (.wave [foundBlock]) anyReport), .engine .drain,
        .engine (.drainLane anyReport), .engine (.drainLane anyReport)]).bind fun t =>
      (t.step classicMine (.engine (.setDifficulty 2000 (some 1)))).map fun u =>
        ((t.engine.impl, (t.engine.pending 0).isNone, t.engine.workers), u.engine.difficulty,
          u.engine.returned.length)) = some ((1, true, 0), 2000, 1) := by decide +kernel
  obtain ⟨t, ht, hset⟩ := Option.bind_eq_some_iff.mp hrun
  obtain ⟨u, hu, hvalues⟩ := Option.map_eq_some_iff.mp hset
  obtain ⟨⟨himpl, hpending, hworkers⟩, hdifficulty, hlength⟩ :
      (t.engine.impl = 1 ∧ (t.engine.pending 0).isNone = true ∧ t.engine.workers = 0) ∧
        u.engine.difficulty = 2000 ∧ u.engine.returned.length = 1 := by simpa using hvalues
  have hstart : ((joiningMachine classicMine).restrict drained).Reachable { engine := engineStart } :=
    .start engineStart_init
  have hreach : ((joiningMachine classicMine).restrict drained).Reachable t := by
    refine hstart.runSteps ?_ ht
    intro a ha v w hvw
    refine ⟨?_, hvw, fun _ _ _ hforced => absurd hforced (by decide)⟩
    rintro d plan rfl
    simp at ha
  have hdrained : drained t (.engine (.setDifficulty 2000 (some 1))) := by
    rintro d plan hset -
    refine ⟨fun i hi _ => ?_, fun i hi => by simp [hworkers] at hi,
      fun _ i hi => by simp [hworkers] at hi⟩
    obtain rfl : i = 0 := by omega
    rw [Option.isNone_iff_eq_none.mp hpending]
    exact underOne_none _
  have hnext := hreach.next_restrict (t := u) (a := .engine (.setDifficulty 2000 (some 1)))
    ⟨hu, fun _ _ _ hforced => absurd hforced (by decide)⟩ hdrained
  refine ⟨u, hdifficulty, ?_, hits_genuine classicMine u hnext⟩
  intro hnil
  simp [hnil] at hlength

end XnMiner

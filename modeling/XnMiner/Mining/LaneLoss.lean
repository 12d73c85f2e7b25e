import XnMiner.Mining.DrainDelivery

/-! # Results that a failed lane loses

`mine_batch` counts the oldest results of the lanes in order and keeps their hits in a local
list, and a failed result ends the call. A ledger beside the engine numbers every result by
the step in which a backend handed it out, and notes this number with every hit that a call
returns.
-/
namespace XnMiner
open TextCodec Transitions

def LaneMailbox.good (box : LaneMailbox) : Prop := ∃ ms ring, box.ring = some ms :: ring

def LaneMailbox.oldest (box : LaneMailbox) : List HashApiMatch := box.ring.head?.join.getD []

def LaneMailbox.advance (box : LaneMailbox) : LaneMailbox := { box with ring := box.ring.tail }

def advancedBelow (mailbox : ℕ → LaneMailbox) (b j : ℕ) : LaneMailbox :=
  if j < b then (mailbox j).advance else mailbox j

variable {mailbox : ℕ → LaneMailbox} {lanes rest : List ℕ} {acc : List HashApiMatch} {i : ℕ}

theorem absorb_append (hnodup : lanes.Nodup) (hgood : ∀ i ∈ lanes, (mailbox i).good) :
    absorb mailbox (lanes ++ rest) acc =
      absorb (fun j => if j ∈ lanes then (mailbox j).advance else mailbox j) rest
        (acc ++ lanes.flatMap fun i => (mailbox i).oldest) := by
  induction lanes generalizing mailbox acc with
  | nil => simp
  | cons i lanes ih =>
    rw [List.nodup_cons] at hnodup
    rw [List.forall_mem_cons] at hgood
    obtain ⟨⟨ms, ring, hring⟩, hlanes⟩ := hgood
    have hadvance : ({ mailbox i with ring } : LaneMailbox) = (mailbox i).advance := by
      rw [LaneMailbox.advance, hring, List.tail_cons]
    have hother : ∀ j ∈ lanes, Function.update mailbox i (mailbox i).advance j = mailbox j := by
      intro j hj
      have hji : j ≠ i := fun heq => hnodup.1 (heq ▸ hj)
      exact Function.update_of_ne hji _ _
    have hstep : absorb mailbox (i :: lanes ++ rest) acc =
        absorb (Function.update mailbox i (mailbox i).advance) (lanes ++ rest) (acc ++ ms) := by
      rw [List.cons_append, absorb, hring, ← hadvance]
    have hmatches : lanes.flatMap (fun j =>
        (Function.update mailbox i (mailbox i).advance j).oldest) =
        lanes.flatMap fun j => (mailbox j).oldest :=
      List.flatMap_congr fun j hj => by rw [hother j hj]
    have holdest : (mailbox i).oldest = ms := by simp [LaneMailbox.oldest, hring]
    have hboxes : (fun j => if j ∈ lanes then
          (Function.update mailbox i (mailbox i).advance j).advance
        else Function.update mailbox i (mailbox i).advance j) =
        fun j => if j ∈ i :: lanes then (mailbox j).advance else mailbox j := by
      funext j
      by_cases hj : j ∈ lanes
      · rw [if_pos hj, hother j hj, if_pos (List.mem_cons_of_mem _ hj)]
      · by_cases hji : j = i
        · subst hji
          rw [if_neg hj, Function.update_self, if_pos List.mem_cons_self]
        · rw [if_neg hj, Function.update_of_ne hji, if_neg (by simp [hji, hj])]
    rw [hstep, ih hnodup.2 fun j hj => (hother j hj).symm ▸ hlanes j hj, hboxes, hmatches,
      List.flatMap_cons, holdest, List.append_assoc]

/-- A failed result is not counted, and the call ends. -/
theorem absorb_bad (hbad : ¬ (mailbox i).good) :
    absorb mailbox (i :: rest) acc = (mailbox, none) := by
  rw [absorb]
  split
  next ms ring hring => exact absurd ⟨ms, ring, hring⟩ hbad
  next => rfl

/-- A call counts all lanes, or those before the first failed one. -/
theorem absorb_range (mailbox : ℕ → LaneMailbox) (n : ℕ) :
    ((∀ i < n, (mailbox i).good) ∧ absorb mailbox (List.range n) [] =
      (advancedBelow mailbox n, some ((List.range n).flatMap fun i => (mailbox i).oldest))) ∨
    ∃ b < n, (∀ i < b, (mailbox i).good) ∧ ¬ (mailbox b).good ∧
      absorb mailbox (List.range n) [] = (advancedBelow mailbox b, none) := by
  have hcounted : ∀ b, (∀ i < b, (mailbox i).good) → ∀ rest,
      absorb mailbox (List.range b ++ rest) [] = absorb (advancedBelow mailbox b) rest
        ((List.range b).flatMap fun i => (mailbox i).oldest) := by
    intro b hgood rest
    rw [absorb_append List.nodup_range fun i hi => hgood i (List.mem_range.mp hi), List.nil_append]
    simp only [List.mem_range]
    rfl
  by_cases hall : ∀ i < n, (mailbox i).good
  · have hend := hcounted n hall []
    rw [List.append_nil] at hend
    exact .inl ⟨hall, hend⟩
  · classical
    have hex : ∃ b, b < n ∧ ¬ (mailbox b).good := by simpa using hall
    obtain ⟨hlt, hbad⟩ := Nat.find_spec hex
    have hbefore : ∀ i < Nat.find hex, (mailbox i).good := by
      intro i hi
      have hmin := Nat.find_min hex hi
      exact not_not.mp fun h => hmin ⟨hi.trans hlt, h⟩
    refine .inr ⟨Nat.find hex, hlt, hbefore, hbad, ?_⟩
    set b := Nat.find hex with hb
    have hsplit : List.range n = List.range b ++ b :: List.range' (b + 1) (n - b - 1) := by
      have happend : List.range' 0 b ++ List.range' (0 + b) (n - b) = List.range' 0 (b + (n - b)) :=
        List.range'_append_1
      rw [Nat.zero_add, Nat.add_sub_of_le hlt.le, show n - b = n - b - 1 + 1 by omega,
        List.range'_succ] at happend
      rw [List.range_eq_range', List.range_eq_range', happend]
    have hsame : ¬ (advancedBelow mailbox b b).good := by simpa [advancedBelow] using hbad
    rw [hsplit, hcounted b hbefore, absorb_bad hsame]

structure MatchLedger where
  engine : CudaEngine
  /-- The steps so far; a result has the number of the step that handed it out. -/
  steps : ℕ := 0
  /-- The numbers of the results in a lane's ring, and then of the one its worker holds. -/
  held : ℕ → List ℕ := fun _ => []
  /-- The hits that calls have returned, with the numbers of their results. -/
  returned : List (ℕ × MatchLabel) := []

/-- The results that stay with a lane; restarted workers begin on empty rings. -/
def MatchLedger.keeps (l : MatchLedger) (t : CudaEngine) (i : ℕ) : List ℕ :=
  if t.workers = l.engine.workers then
    (l.held i).drop ((l.engine.mailbox i).ring.length - (t.mailbox i).ring.length)
  else []

def MatchLedger.given (l : MatchLedger) (a : EngineAction) : List (ℕ × HashApiMatch) :=
  let s := l.engine
  match a, s.pc with
  | .mineSingle run _, .outside =>
    ((s.runLane 0 (toUint32 s.difficulty) run).2.getD []).map fun m => (l.steps, m)
  | .collect _, .mining => match (absorb s.mailbox (List.range s.lanes) []).2 with
    | some _ => (List.range s.lanes).flatMap fun i =>
      (s.mailbox i).oldest.map fun m => ((l.held i).headD 0, m)
    | none => []
  | .drainLane _, .draining i =>
    if i < s.impl then ((s.pending i).getD []).map fun m => (l.steps, m) else []
  | _, _ => []

def MatchLedger.step (cfg : Settings) (l : MatchLedger) (a : EngineAction) : Option MatchLedger :=
  (l.engine.step cfg a).map fun t =>
    { engine := t
      steps := l.steps + 1
      held := match a with
        | .hash i _ => Function.update (l.keeps t) i (l.keeps t i ++ [l.steps])
        | _ => l.keeps t
      returned := l.returned ++ (l.given a).filterMap fun p =>
        p.2.toFound.label.map fun label => (p.1, label) }

structure MatchLedger.fresh (l : MatchLedger) : Prop where
  engine : l.engine.fresh
  steps : l.steps = 0
  held : l.held = fun _ => []
  returned : l.returned = []

def ledgerMachine (cfg : Settings) : Machine MatchLedger EngineAction where
  init := MatchLedger.fresh
  step l a t := l.step cfg a = some t

def WorkerPhase.holds (p : WorkerPhase) : ℕ :=
  match p with
  | .holding _ _ _ => 1
  | _ => 0

/-- The workers keep rings and positions, or others start on empty rings. -/
def CudaEngine.Resumes (s t : CudaEngine) : Prop :=
  (t.workers = s.workers ∧ (∀ i, (t.mailbox i).ring = (s.mailbox i).ring) ∧ t.phase = s.phase) ∨
  (t.workers ≠ s.workers ∧ ∀ i < t.workers, (t.mailbox i).ring = [] ∧ t.phase i = .waiting 0)

variable {cfg : Settings} {s t u : CudaEngine}

theorem CudaEngine.Resumes.same (hworkers : t.workers = s.workers) (hmailbox : t.mailbox = s.mailbox)
    (hphase : t.phase = s.phase) : s.Resumes t :=
  .inl ⟨hworkers, fun _ => by rw [hmailbox], hphase⟩

theorem CudaEngine.Resumes.none_left (h : s.stopLaneWorkers = some t) : s.Resumes t := by
  obtain rfl := stopLaneWorkers_eq h
  by_cases hzero : s.workers = 0
  · exact .same hzero.symm rfl rfl
  · exact .inr ⟨fun h => hzero h.symm, fun i hi => absurd hi (Nat.not_lt_zero i)⟩

theorem CudaEngine.Resumes.ensure (h : s.ensureLaneWorkers = some t) : s.Resumes t := by
  unfold CudaEngine.ensureLaneWorkers at h
  split_ifs at h with hone hsame
  · exact .none_left h
  · exact Option.some.inj h ▸ .same rfl rfl rfl
  · obtain ⟨u, hu, rfl⟩ := Option.map_eq_some_iff.mp h
    obtain rfl := stopLaneWorkers_eq hu
    exact .inr ⟨fun h => hsame h.symm, fun _ _ => ⟨rfl, rfl⟩⟩

theorem CudaEngine.Resumes.setDifficulty {d : ℤ} {plan : Option ℕ}
    (h : s.setDifficulty d plan = some t) : s.Resumes t := by
  unfold CudaEngine.setDifficulty at h
  split_ifs at h with hsame hstopped
  · exact Option.some.inj h ▸ .same rfl rfl rfl
  · exact Option.some.inj h ▸ .same rfl rfl rfl
  · cases plan with
    | none => exact Option.some.inj h ▸ .same rfl rfl rfl
    | some n =>
      have hresumes := CudaEngine.Resumes.ensure h
      exact hresumes

/-- Only the end of a call of `mine_batch` takes results from the rings. -/
theorem CudaEngine.Calls.resumes {a : EngineAction} (h : s.Calls cfg a t)
    (hcollect : ∀ r, a ≠ .collect r) : s.Resumes t := by
  cases h with
  | runsAlready | unplanned | minesSingle | drains | drainsNothing | drainsLane | drained =>
    exact .same rfl rfl rfl
  | starts _ _ hu | recaps _ _ _ hu | narrows _ _ _ _ hu =>
    have hresumes := CudaEngine.Resumes.ensure hu
    exact hresumes
  | stops _ hu =>
    have hresumes := CudaEngine.Resumes.none_left hu
    exact hresumes
  | sets _ hu => exact .setDifficulty hu
  | @mines changed u _ _ _ _ hu =>
    rcases CudaEngine.Resumes.ensure hu with ⟨hworkers, hring, hphase⟩ | ⟨hworkers, hnew⟩
    · exact .inl ⟨hworkers, fun i => (publish_ring u changed i).trans (hring i), hphase⟩
    · refine .inr ⟨hworkers, fun i hi => ⟨?_, (hnew i hi).2⟩⟩
      exact (publish_ring u changed i).trans (hnew i hi).1
  | collects => exact absurd rfl (hcollect _)

theorem ensure_not_mining (h : s.ensureLaneWorkers = some t) (hpc : s.pc = .outside) :
    t.pc ≠ .mining := by
  rw [(ensureLaneWorkers_keeps h).2.2.2.2, hpc]
  decide

theorem setDifficulty_keeps {d : ℤ} {plan : Option ℕ} (h : s.setDifficulty d plan = some t) :
    t.returned = s.returned ∧ t.pc = s.pc := by
  unfold CudaEngine.setDifficulty at h
  split_ifs at h with hsame hstopped
  · exact Option.some.inj h ▸ ⟨rfl, rfl⟩
  · exact Option.some.inj h ▸ ⟨rfl, rfl⟩
  · cases plan with
    | none => exact Option.some.inj h ▸ ⟨rfl, rfl⟩
    | some n =>
      obtain ⟨-, hreturned, -, -, hpc⟩ := ensureLaneWorkers_keeps h
      exact ⟨hreturned, hpc⟩

theorem CudaEngine.Calls.workers {a : EngineAction} (h : s.Calls cfg a t) (hpc : t.pc = .mining) :
    t.workers = t.lanes := by
  cases h with
  | runsAlready hout | unplanned hout | drainsNothing hout => simp [hout] at hpc
  | starts hout _ hu | recaps hout _ _ hu | narrows hout _ _ _ hu =>
    have hnot := ensure_not_mining hu hout
    exact absurd hpc hnot
  | stops hout hu =>
    obtain rfl := stopLaneWorkers_eq hu
    simp [hout] at hpc
  | sets hout hu =>
    rw [(setDifficulty_keeps hu).2, hout] at hpc
    cases hpc
  | minesSingle hout => simp [CudaEngine.giveBack, CudaEngine.runLane, hout] at hpc
  | mines hout _ _ hone hu =>
    have hkept := (ensureLaneWorkers_keeps hu).2.2.2.1
    exact (ensureLaneWorkers_workers hu hone).trans hkept.symm
  | collects | drains | drainsLane | drained => cases hpc

/-- Every result has one number, and lies in one place. -/
structure MatchLedger.Ok (l : MatchLedger) : Prop where
  mining : l.engine.pc = .mining → l.engine.workers = l.engine.lanes
  count : ∀ i < l.engine.workers,
    (l.held i).length = (l.engine.mailbox i).ring.length + (l.engine.phase i).holds
  past : ∀ i, ∀ n ∈ l.held i, n < l.steps
  nodup : ∀ i, (l.held i).Nodup
  apart : ∀ i j, i ≠ j → ∀ n ∈ l.held i, n ∉ l.held j
  returnedPast : ∀ p ∈ l.returned, p.1 < l.steps
  unreturned : ∀ i, ∀ n ∈ l.held i, ∀ p ∈ l.returned, p.1 ≠ n

variable {l l' : MatchLedger} {a : EngineAction}

theorem MatchLedger.Ok.init (h : l.fresh) : l.Ok where
  mining := fun hpc => by simp [h.engine.outside] at hpc
  count := by simp [h.held, h.engine.mailbox, h.engine.phase, WorkerPhase.holds]
  past := by simp [h.held]
  nodup := by simp [h.held]
  apart := by simp [h.held]
  returnedPast := by simp [h.returned]
  unreturned := by simp [h.held]

theorem keeps_sublist (l : MatchLedger) (t : CudaEngine) (i : ℕ) : (l.keeps t i).Sublist (l.held i) := by
  unfold MatchLedger.keeps
  split_ifs
  · exact List.drop_sublist _ _
  · exact List.nil_sublist _

theorem mem_held_of_step (h : l.step cfg a = some l') {n : ℕ} (hn : n ∈ l'.held i) :
    n ∈ l.keeps l'.engine i ∨ (n = l.steps ∧ ∃ run, a = .hash i run) := by
  obtain ⟨t, -, rfl⟩ := Option.map_eq_some_iff.mp h
  dsimp only at hn ⊢
  split at hn
  next j run =>
    by_cases hij : i = j
    · subst hij
      rw [Function.update_self, List.mem_append, List.mem_singleton] at hn
      exact hn.imp_right fun heq => ⟨heq, run, rfl⟩
    · rw [Function.update_of_ne hij] at hn
      exact .inl hn
  next => exact .inl hn

theorem keeps_eq {t : CudaEngine} (hworkers : t.workers = l.engine.workers)
    (hring : (l.engine.mailbox i).ring.length ≤ (t.mailbox i).ring.length) :
    l.keeps t i = l.held i := by
  rw [MatchLedger.keeps, if_pos hworkers, Nat.sub_eq_zero_of_le hring, List.drop_zero]

theorem engine_step (h : l.step cfg a = some l') : l.engine.step cfg a = some l'.engine := by
  obtain ⟨t, ht, rfl⟩ := Option.map_eq_some_iff.mp h
  exact ht

theorem steps_of_step (h : l.step cfg a = some l') : l'.steps = l.steps + 1 := by
  obtain ⟨t, -, rfl⟩ := Option.map_eq_some_iff.mp h
  rfl

theorem collect_moves {r : BatchReport} (h : l.step cfg (.collect r) = some l') :
    l.engine.pc = .mining ∧ l'.engine.workers = l.engine.workers ∧
      l'.engine.phase = l.engine.phase ∧
      l'.engine.mailbox = (absorb l.engine.mailbox (List.range l.engine.lanes) []).1 ∧
      ∀ i < l.engine.lanes, (l.engine.mailbox i).ring ≠ [] := by
  have hmoves := CudaEngine.step_moves (engine_step h)
  generalize l'.engine = t at hmoves
  rcases hmoves with hworks | hcalls
  · cases hworks
  · cases hcalls with
    | collects hpc hfull =>
      refine ⟨hpc, rfl, rfl, rfl, fun i hlt hnil => ?_⟩
      have hone := List.all_eq_true.mp hfull i (List.mem_range.mpr hlt)
      rw [hnil] at hone
      cases hone

theorem number_of_counted (hi : l.Ok) {r : BatchReport} (h : l.step cfg (.collect r) = some l')
    (hlt : i < l.engine.lanes) {result : Option (List HashApiMatch)}
    (hring : (l.engine.mailbox i).ring = result :: (l'.engine.mailbox i).ring) :
    ∃ n, (l.held i).head? = some n ∧ n ∈ l.held i ∧ ∀ j, n ∉ l'.held j := by
  obtain ⟨hpc, hworkers, -, -, -⟩ := collect_moves h
  have hcount := hi.count i (hi.mining hpc ▸ hlt)
  have hkeeps : l.keeps l'.engine i = (l.held i).tail := by
    rw [MatchLedger.keeps, if_pos hworkers, hring, List.length_cons, Nat.add_sub_cancel_left,
      List.drop_one]
  rw [hring, List.length_cons] at hcount
  obtain ⟨n, ns, hheld⟩ := List.exists_cons_of_length_pos (l := l.held i) (by omega)
  have hnodup := hi.nodup i
  rw [hheld, List.nodup_cons] at hnodup
  refine ⟨n, by rw [hheld]; rfl, hheld ▸ List.mem_cons_self, fun j hj => ?_⟩
  rcases mem_held_of_step h hj with hkept | ⟨-, run, hash⟩
  · by_cases hji : j = i
    · subst hji
      rw [hkeeps, hheld] at hkept
      exact hnodup.1 hkept
    · exact hi.apart j i hji n ((keeps_sublist l _ j).subset hkept) (hheld ▸ List.mem_cons_self)
  · cases hash

/-- What is handed out and given back in one step never lies in a ring. -/
theorem steps_notMem_held (hi : l.Ok) (h : l.step cfg a = some l') (hash : ∀ i run, a ≠ .hash i run)
    (i : ℕ) : l.steps ∉ l'.held i := by
  intro hmem
  rcases mem_held_of_step h hmem with hkept | ⟨-, run, heq⟩
  · exact absurd (hi.past i _ ((keeps_sublist l _ i).subset hkept)) (Nat.lt_irrefl _)
  · exact hash i run heq

/-- What is given back lies in no ring any more. -/
theorem given_of_step (hi : l.Ok) (h : l.step cfg a = some l') {p : ℕ × HashApiMatch}
    (hp : p ∈ l.given a) :
    (p.1 = l.steps ∨ ∃ i, p.1 ∈ l.held i) ∧ ∀ i, p.1 ∉ l'.held i := by
  unfold MatchLedger.given at hp
  dsimp only at hp
  split at hp
  next run r hpc =>
    obtain ⟨m, -, rfl⟩ := List.mem_map.mp hp
    exact ⟨.inl rfl, steps_notMem_held hi h (by simp)⟩
  next r hpc =>
    obtain ⟨-, -, -, hmailbox, -⟩ := collect_moves h
    rcases absorb_range l.engine.mailbox l.engine.lanes with
      ⟨hgood, habsorb⟩ | ⟨b, -, -, -, habsorb⟩
    · rw [habsorb] at hp
      obtain ⟨i, hmem, hp⟩ := List.mem_flatMap.mp hp
      obtain ⟨m, -, rfl⟩ := List.mem_map.mp hp
      have hlt := List.mem_range.mp hmem
      obtain ⟨ms, ring, hring⟩ := hgood i hlt
      have htaken : l'.engine.mailbox i = (l.engine.mailbox i).advance := by
        rw [hmailbox, habsorb]
        exact if_pos hlt
      have hcounted : (l.engine.mailbox i).ring = some ms :: (l'.engine.mailbox i).ring := by
        rw [htaken, LaneMailbox.advance, hring, List.tail_cons]
      obtain ⟨n, hhead, hheld, hgone⟩ := number_of_counted hi h hlt hcounted
      have hnumber : (l.held i).headD 0 = n := by rw [List.headD_eq_head?_getD, hhead, Option.getD_some]
      exact ⟨.inr ⟨i, hnumber ▸ hheld⟩, hnumber ▸ hgone⟩
    · rw [habsorb] at hp
      cases hp
  next r j hpc =>
    split_ifs at hp
    · obtain ⟨m, -, rfl⟩ := List.mem_map.mp hp
      exact ⟨.inl rfl, steps_notMem_held hi h (by simp)⟩
    · cases hp
  next => cases hp

def MatchLedger.lost (l : MatchLedger) (n : ℕ) : Prop :=
  n < l.steps ∧ (∀ i, n ∉ l.held i) ∧ ∀ p ∈ l.returned, p.1 ≠ n

theorem returned_of_step (h : l.step cfg a = some l') {p : ℕ × MatchLabel} (hp : p ∈ l'.returned) :
    p ∈ l.returned ∨ ∃ m, (p.1, m) ∈ l.given a := by
  obtain ⟨t, -, rfl⟩ := Option.map_eq_some_iff.mp h
  refine (List.mem_append.mp hp).imp_right fun hnew => ?_
  obtain ⟨⟨n, m⟩, hgiven, hlabel⟩ := List.mem_filterMap.mp hnew
  obtain ⟨label, -, rfl⟩ := Option.map_eq_some_iff.mp hlabel
  exact ⟨m, hgiven⟩

theorem lost_step {n : ℕ} (hi : l.Ok) (hn : l.lost n) (h : l.step cfg a = some l') : l'.lost n := by
  obtain ⟨hpast, hheld, hreturned⟩ := hn
  have hsteps : l'.steps = l.steps + 1 := steps_of_step h
  refine ⟨by omega, fun i hmem => ?_, fun p hp heq => ?_⟩
  · rcases mem_held_of_step h hmem with hold | ⟨heq, -⟩
    · exact hheld i ((keeps_sublist l _ i).subset hold)
    · omega
  · rcases returned_of_step h hp with hold | ⟨m, hgiven⟩
    · exact hreturned p hold heq
    · rcases (given_of_step hi h hgiven).1 with hnew | ⟨i, hmem⟩
      · simp only at hnew
        omega
      · exact hheld i (heq ▸ hmem)

theorem count_of_collect (hi : l.Ok) {r : BatchReport} (h : l.step cfg (.collect r) = some l')
    (hlt : i < l'.engine.workers) : (l.keeps l'.engine i).length =
      (l'.engine.mailbox i).ring.length + (l'.engine.phase i).holds := by
  obtain ⟨-, hworkers, hphase, hmailbox, -⟩ := collect_moves h
  have hcount := hi.count i (hworkers ▸ hlt)
  have hadvanced : ∀ b,
      (advancedBelow l.engine.mailbox b i).ring.length ≤ (l.engine.mailbox i).ring.length := by
    intro b
    unfold advancedBelow
    split_ifs
    · simp [LaneMailbox.advance]
    · exact le_rfl
  have hle : (l'.engine.mailbox i).ring.length ≤ (l.engine.mailbox i).ring.length := by
    rw [hmailbox]
    rcases absorb_range l.engine.mailbox l.engine.lanes with ⟨-, habsorb⟩ | ⟨b, -, -, -, habsorb⟩ <;>
      exact habsorb ▸ hadvanced _
  rw [MatchLedger.keeps, if_pos hworkers, List.length_drop, hcount, hphase]
  omega

theorem count_of_resumes {t : CudaEngine} (hi : l.Ok) (h : l.engine.Resumes t)
    (hlt : i < t.workers) :
    (l.keeps t i).length = (t.mailbox i).ring.length + (t.phase i).holds := by
  rcases h with ⟨hworkers, hring, hphase⟩ | ⟨hworkers, hnew⟩
  · rw [keeps_eq hworkers (by rw [hring]), hring, hphase]
    exact hi.count i (hworkers ▸ hlt)
  · rw [MatchLedger.keeps, if_neg hworkers, (hnew i hlt).1, (hnew i hlt).2]
    rfl

/-- A worker that neither takes up nor puts down a result. -/
theorem count_of_goto {t : CudaEngine} {j : ℕ} {p : WorkerPhase} (hi : l.Ok)
    (hworkers : t.workers = l.engine.workers) (hmailbox : t.mailbox = l.engine.mailbox)
    (hphase : t.phase = Function.update l.engine.phase j p)
    (hholds : p.holds = (l.engine.phase j).holds) (hlt : i < t.workers) :
    (l.keeps t i).length = (t.mailbox i).ring.length + (t.phase i).holds := by
  have hcount := hi.count i (hworkers ▸ hlt)
  rw [keeps_eq hworkers (by rw [hmailbox]), hmailbox, hphase]
  by_cases hij : i = j
  · subst hij
    rwa [Function.update_self, hholds]
  · rwa [Function.update_of_ne hij]

theorem count_of_hash {t : CudaEngine} {j seen d : ℕ} {result : Option (List HashApiMatch)}
    (hi : l.Ok) (hworkers : t.workers = l.engine.workers) (hmailbox : t.mailbox = l.engine.mailbox)
    (hphase : t.phase = Function.update l.engine.phase j (.holding seen d result))
    (hholds : (l.engine.phase j).holds = 0) (hlt : i < t.workers) :
    (Function.update (l.keeps t) j (l.keeps t j ++ [l.steps]) i).length =
      (t.mailbox i).ring.length + (t.phase i).holds := by
  have hcount := hi.count i (hworkers ▸ hlt)
  have hkeeps : l.keeps t i = l.held i := keeps_eq hworkers (by rw [hmailbox])
  rw [hmailbox, hphase]
  by_cases hij : i = j
  · subst hij
    rw [Function.update_self, Function.update_self, List.length_append, hkeeps, hcount, hholds]
    rfl
  · rw [Function.update_of_ne hij, Function.update_of_ne hij, hkeeps]
    exact hcount

theorem count_of_push {t : CudaEngine} {j seen d : ℕ} {result : Option (List HashApiMatch)}
    (hi : l.Ok) (hworkers : t.workers = l.engine.workers)
    (hmailbox : t.mailbox = Function.update l.engine.mailbox j
      { l.engine.mailbox j with ring := (l.engine.mailbox j).ring ++ [result] })
    (hphase : t.phase = Function.update l.engine.phase j (.ready seen d))
    (hholds : (l.engine.phase j).holds = 1) (hlt : i < t.workers) :
    (l.keeps t i).length = (t.mailbox i).ring.length + (t.phase i).holds := by
  have hcount := hi.count i (hworkers ▸ hlt)
  by_cases hij : i = j
  · subst hij
    have hring : (t.mailbox i).ring = (l.engine.mailbox i).ring ++ [result] := by
      rw [hmailbox, Function.update_self]
    rw [keeps_eq hworkers (by simp [hring]), hcount, hholds, hring, List.length_append, hphase,
      Function.update_self]
    rfl
  · have hring : (t.mailbox i).ring = (l.engine.mailbox i).ring := by
      rw [hmailbox, Function.update_of_ne hij]
    rw [keeps_eq hworkers (by rw [hring]), hcount, hring, hphase, Function.update_of_ne hij]

theorem count_step (hi : l.Ok) (h : l.step cfg a = some l') : ∀ i < l'.engine.workers,
    (l'.held i).length = (l'.engine.mailbox i).ring.length + (l'.engine.phase i).holds := by
  intro i hlt
  by_cases hcollect : ∃ r, a = .collect r
  · obtain ⟨r, rfl⟩ := hcollect
    have hcount := count_of_collect hi h hlt
    obtain ⟨t, -, rfl⟩ := Option.map_eq_some_iff.mp h
    exact hcount
  · obtain ⟨t, ht, rfl⟩ := Option.map_eq_some_iff.mp h
    rcases CudaEngine.step_moves ht with hworks | hcalls
    · cases hworks with
      | woken hphase | skipped hphase | checked hphase | left hphase =>
        exact count_of_goto hi rfl rfl rfl (by rw [hphase]; rfl) hlt
      | hashed hphase => exact count_of_hash hi rfl rfl rfl (by rw [hphase]; rfl) hlt
      | pushed hphase => exact count_of_push hi rfl rfl rfl (by rw [hphase]; rfl) hlt
    · have hresumes := hcalls.resumes fun r heq => hcollect ⟨r, heq⟩
      have hcount := count_of_resumes hi hresumes hlt
      cases hcalls <;> exact hcount

theorem held_sublist_of_step (h : l.step cfg a = some l') (i : ℕ) :
    (l'.held i).Sublist (l.held i ++ [l.steps]) := by
  have hkeeps := keeps_sublist l l'.engine i
  obtain ⟨t, -, rfl⟩ := Option.map_eq_some_iff.mp h
  have hshort := hkeeps.trans (List.sublist_append_left _ [l.steps])
  dsimp only at hkeeps hshort ⊢
  split
  next j run =>
    by_cases hij : i = j
    · subst hij
      rw [Function.update_self]
      exact hkeeps.append_right _
    · rw [Function.update_of_ne hij]
      exact hshort
  next => exact hshort

theorem MatchLedger.Ok.step (hi : l.Ok) (h : l.step cfg a = some l') : l'.Ok := by
  have hsteps : l'.steps = l.steps + 1 := steps_of_step h
  have hheld : ∀ i, ∀ n ∈ l'.held i, n ∈ l.held i ∨ (n = l.steps ∧ ∃ run, a = .hash i run) := by
    intro i n hn
    exact (mem_held_of_step h hn).imp_left fun hkept => (keeps_sublist l _ i).subset hkept
  refine ⟨fun hpc => ?_, count_step hi h, fun i n hn => ?_, fun i => ?_, fun i j hij n hn hn' => ?_,
    fun p hp => ?_, fun i n hn p hp heq => ?_⟩
  · rcases CudaEngine.step_moves (engine_step h) with hworks | hcalls
    · have hmining := hi.mining
      generalize l'.engine = t at hworks hpc ⊢
      cases hworks <;> exact hmining hpc
    · exact hcalls.workers hpc
  · rcases hheld i n hn with hold | ⟨rfl, -⟩
    · exact hsteps ▸ (hi.past i n hold).trans (Nat.lt_succ_self _)
    · omega
  · have hfresh : l.steps ∉ l.held i := fun hmem => absurd (hi.past i _ hmem) (Nat.lt_irrefl _)
    refine (held_sublist_of_step h i).nodup (List.nodup_append'.mpr ⟨hi.nodup i, by simp, ?_⟩)
    exact List.disjoint_singleton.mpr hfresh
  · rcases hheld i n hn with hold | ⟨hnew, run, hash⟩
    · rcases hheld j n hn' with hold' | ⟨hnew', -⟩
      · exact hi.apart i j hij n hold hold'
      · exact absurd (hi.past i n hold) (by omega)
    · rcases hheld j n hn' with hold' | ⟨-, run', hash'⟩
      · exact absurd (hi.past j n hold') (by omega)
      · rw [hash] at hash'
        cases hash'
        exact hij rfl
  · rcases returned_of_step h hp with hold | ⟨m, hgiven⟩
    · exact hsteps ▸ (hi.returnedPast p hold).trans (Nat.lt_succ_self _)
    · rcases (given_of_step hi h hgiven).1 with hnew | ⟨i, hmem⟩
      · simp only at hnew
        omega
      · exact hsteps ▸ (hi.past i _ hmem).trans (Nat.lt_succ_self _)
  · rcases returned_of_step h hp with hold | ⟨m, hgiven⟩
    · rcases hheld i n hn with hn | ⟨hnew, -⟩
      · exact hi.unreturned i n hn p hold heq
      · have hpast := hi.returnedPast p hold
        omega
    · exact (given_of_step hi h hgiven).2 i (heq ▸ hn)

theorem ok_of_reachable (hl : (ledgerMachine cfg).Reachable l) : l.Ok :=
  Machine.Reachable.invariant (M := ledgerMachine cfg) (I := MatchLedger.Ok)
    (fun _ => MatchLedger.Ok.init) (fun _ _ _ _ hi h => hi.step h) hl

theorem map_snd_numbered (n : ℕ) (ms : List HashApiMatch) :
    (ms.map fun m => (n, m)).map Prod.snd = ms := by
  rw [List.map_map]
  exact List.map_id ms

theorem given_collect (hpc : l.engine.pc = .mining) (r : BatchReport) :
    (l.given (.collect r)).map Prod.snd =
      (absorb l.engine.mailbox (List.range l.engine.lanes) []).2.getD [] := by
  simp only [MatchLedger.given, hpc]
  rcases absorb_range l.engine.mailbox l.engine.lanes with ⟨-, habsorb⟩ | ⟨b, -, -, -, habsorb⟩
  · rw [habsorb, Option.getD_some, List.map_flatMap]
    simp only [map_snd_numbered]
  · rw [habsorb]
    rfl

theorem returned_nothing (hreturned : t.returned = l.engine.returned) (hgiven : l.given a = []) :
    t.returned.map ReturnedHit.label = l.engine.returned.map ReturnedHit.label ++
      ((l.given a).map Prod.snd).filterMap fun m => m.toFound.label := by
  rw [hreturned, hgiven, List.map_nil, List.filterMap_nil, List.append_nil]

/-- The hits of a step are those of the matches that it gives back. -/
theorem returned_given (h : l.engine.step cfg a = some t) :
    t.returned.map ReturnedHit.label = l.engine.returned.map ReturnedHit.label ++
      ((l.given a).map Prod.snd).filterMap fun m => m.toFound.label := by
  rcases CudaEngine.step_moves h with hworks | hcalls
  · cases hworks <;> exact returned_nothing rfl (by simp [MatchLedger.given])
  · cases hcalls with
    | runsAlready | unplanned | drains | drainsNothing =>
      exact returned_nothing rfl (by simp [MatchLedger.given])
    | starts _ _ hu | recaps _ _ _ hu | narrows _ _ _ _ hu | mines _ _ _ _ hu =>
      have hkept := (ensureLaneWorkers_keeps hu).2.1
      exact returned_nothing hkept (by simp [MatchLedger.given])
    | stops _ hu =>
      obtain rfl := stopLaneWorkers_eq hu
      exact returned_nothing rfl (by simp [MatchLedger.given])
    | sets _ hu => exact returned_nothing (setDifficulty_keeps hu).1 (by simp [MatchLedger.given])
    | @minesSingle run r hout =>
      have hgiven : l.given (.mineSingle run r) =
          ((l.engine.runLane 0 (toUint32 l.engine.difficulty) run).2.getD []).map
            fun m => (l.steps, m) := by
        simp only [MatchLedger.given, hout]
      rw [giveBack_labels, hgiven, map_snd_numbered]
      rfl
    | collects hout => rw [giveBack_labels, given_collect hout]
    | @drainsLane i r hout hlt =>
      have hgiven : l.given (.drainLane r) =
          ((l.engine.pending i).getD []).map fun m => (l.steps, m) := by
        simp only [MatchLedger.given, hout, if_pos hlt]
      rw [giveBack_labels, hgiven, map_snd_numbered]
    | drained hout hlast => exact returned_nothing rfl (by simp [MatchLedger.given, hout, hlast])

/-- Without their numbers, the noted hits are the ones that the engine has returned. -/
theorem ledger_returned (hl : (ledgerMachine cfg).Reachable l) :
    l.returned.map Prod.snd = l.engine.returned.map ReturnedHit.label := by
  refine Machine.Reachable.invariant (M := ledgerMachine cfg)
    (I := fun l => l.returned.map Prod.snd = l.engine.returned.map ReturnedHit.label)
    (fun l h => ?_) (fun l a l' _ hsame h => ?_) hl
  · rw [h.returned, h.engine.returned]
    rfl
  · obtain ⟨t, ht, rfl⟩ := Option.map_eq_some_iff.mp h
    have hlabels : ((l.given a).filterMap fun p =>
        p.2.toFound.label.map fun label => (p.1, label)).map Prod.snd =
        ((l.given a).map Prod.snd).filterMap fun m => m.toFound.label := by
      rw [List.map_filterMap, List.filterMap_map]
      refine List.filterMap_congr fun p _ => ?_
      rw [Option.map_map]
      exact Option.map_id_apply
    rw [List.map_append, hlabels, hsame, returned_given ht]

/-- Every hit of every result that the call took from a ring has been returned. -/
def keepsCounted (l l' t : MatchLedger) : Prop :=
  ∀ i < l.engine.lanes, ∀ ms, (l.engine.mailbox i).ring = some ms :: (l'.engine.mailbox i).ring →
    ∀ m ∈ ms, ∀ label, m.toFound.label = some label →
      ∃ n, (l.held i).head? = some n ∧ (n, label) ∈ t.returned

/-- The results in front of the first failed one have no match that makes a hit. -/
def nothingBefore (s : CudaEngine) : Prop :=
  ∀ i < s.lanes, (∀ j ≤ i, (s.mailbox j).ring.head? ≠ some none) →
    ∀ m ∈ (s.mailbox i).oldest, m.toFound.label = none

theorem lost_runSteps {n : ℕ} {t : MatchLedger} {as : List EngineAction} (hi : l.Ok) (hn : l.lost n)
    (h : runSteps (MatchLedger.step cfg) l as = some t) : t.lost n := by
  induction as generalizing l with
  | nil => exact Option.some.inj h ▸ hn
  | cons a as ih =>
    obtain ⟨u, hu, hrest⟩ := Option.bind_eq_some_iff.mp h
    exact ih (hi.step hu) (lost_step hi hn hu) hrest

/-- What a call does that meets a failed result: the lanes before it are counted. -/
theorem failing_call {r : BatchReport} (hcall : l.step cfg (.collect r) = some l')
    (hfailed : ∃ i < l.engine.lanes, (l.engine.mailbox i).ring.head? = some none) :
    ∃ b < l.engine.lanes, (∀ i < b, (l.engine.mailbox i).good) ∧
      (l.engine.mailbox b).ring.head? = some none ∧ l.given (.collect r) = [] ∧
      ∀ i, l'.engine.mailbox i = advancedBelow l.engine.mailbox b i := by
  obtain ⟨hpc, -, -, hmailbox, hfull⟩ := collect_moves hcall
  rcases absorb_range l.engine.mailbox l.engine.lanes with
    ⟨hgood, -⟩ | ⟨b, hb, hbefore, hbad, habsorb⟩
  · obtain ⟨i, hlt, hhead⟩ := hfailed
    obtain ⟨ms, ring, hring⟩ := hgood i hlt
    rw [hring] at hhead
    cases hhead
  · have hgiven := given_collect hpc r
    rw [habsorb, Option.getD_none, List.map_eq_nil_iff] at hgiven
    refine ⟨b, hb, hbefore, ?_, hgiven, fun i => by rw [hmailbox, habsorb]⟩
    cases hring : (l.engine.mailbox b).ring with
    | nil => exact absurd hring (hfull b hb)
    | cons result ring =>
      cases result with
      | none => rfl
      | some ms => exact absurd ⟨ms, ring, hring⟩ hbad

/-- A result that a failing call has counted is never returned. -/
theorem counted_lost (hi : l.Ok) {r : BatchReport} (hcall : l.step cfg (.collect r) = some l')
    (hgiven : l.given (.collect r) = []) (hlt : i < l.engine.lanes) {ms : List HashApiMatch}
    (hring : (l.engine.mailbox i).ring = some ms :: (l'.engine.mailbox i).ring) {n : ℕ}
    (hn : (l.held i).head? = some n) : l'.lost n := by
  obtain ⟨n', hhead, hheld, hgone⟩ := number_of_counted hi hcall hlt hring
  obtain rfl : n = n' := Option.some.inj (hn.symm.trans hhead)
  have hsteps : l'.steps = l.steps + 1 := steps_of_step hcall
  refine ⟨hsteps ▸ (hi.past i n hheld).trans (Nat.lt_succ_self _), hgone, fun p hp => ?_⟩
  rcases returned_of_step hcall hp with hold | ⟨m, hnew⟩
  · exact hi.unreturned i n hheld p hold
  · rw [hgiven] at hnew
    cases hnew

/-- However the engine goes on, it does not return the hits that a failing call has counted. -/
theorem nothingBefore_of_kept {t : MatchLedger} (hl : (ledgerMachine cfg).Reachable l)
    {r : BatchReport} (hcall : l.step cfg (.collect r) = some l')
    (hfailed : ∃ i < l.engine.lanes, (l.engine.mailbox i).ring.head? = some none)
    {as : List EngineAction} (hrun : runSteps (MatchLedger.step cfg) l' as = some t)
    (hkept : keepsCounted l l' t) : nothingBefore l.engine := by
  have hi := ok_of_reachable hl
  obtain ⟨b, hb, hbefore, hhead, hgiven, hmailbox⟩ := failing_call hcall hfailed
  intro i hlt hfront m hm
  have hib : i < b := by
    by_contra hle
    exact hfront b (Nat.le_of_not_lt hle) hhead
  obtain ⟨ms, ring, hring⟩ := hbefore i hib
  have hcounted : (l.engine.mailbox i).ring = some ms :: (l'.engine.mailbox i).ring := by
    rw [hmailbox, advancedBelow, if_pos hib, LaneMailbox.advance, hring, List.tail_cons]
  rw [LaneMailbox.oldest, hring] at hm
  by_contra hlabel
  obtain ⟨label, hlabel⟩ := Option.ne_none_iff_exists'.mp hlabel
  obtain ⟨n, hn, hreturned⟩ := hkept i hlt ms hcounted m hm label hlabel
  have hlost := lost_runSteps (hi.step hcall) (counted_lost hi hcall hgiven hlt hcounted hn) hrun
  exact hlost.2.2 (n, label) hreturned rfl

/-- A call with a failed lane keeps what it has counted just when this has no hit, however
the engine goes on. -/
theorem counted_kept_iff (cfg : Settings) (l l' t : MatchLedger)
    (hl : (ledgerMachine cfg).Reachable l) (r : BatchReport)
    (hcall : l.step cfg (.collect r) = some l')
    (hfailed : ∃ i < l.engine.lanes, (l.engine.mailbox i).ring.head? = some none)
    (as : List EngineAction) (hrun : runSteps (MatchLedger.step cfg) l' as = some t) :
    keepsCounted l l' t ↔ nothingBefore l.engine := by
  refine ⟨nothingBefore_of_kept hl hcall hfailed hrun, ?_⟩
  obtain ⟨b, -, hbefore, -, -, hmailbox⟩ := failing_call hcall hfailed
  intro hnothing i hlt ms hcounted m hm label hlabel
  have hib : i < b := by
    by_contra hle
    rw [hmailbox, advancedBelow, if_neg hle] at hcounted
    exact List.cons_ne_self _ _ hcounted.symm
  have hfront : ∀ j ≤ i, (l.engine.mailbox j).ring.head? ≠ some none := by
    intro j hj
    obtain ⟨ms', ring', hring'⟩ := hbefore j (hj.trans_lt hib)
    simp [hring']
  have hnone := hnothing i hlt hfront m (by rw [LaneMailbox.oldest, hcounted]; exact hm)
  rw [hlabel] at hnone
  cases hnone

def blockBeforeFailure : List EngineAction :=
  [.mine fun _ => false, .wake 0 true, .wake 1 true] ++ workerWave 0 [foundBlock] ++
    workerWave 0 [] ++ workerWave 1 [] ++ [.check 1, .hash 1 .failed, .push 1] ++
    [.collect anyReport, .mine fun _ => false]

/-- The call throws; then the lanes are drained. -/
theorem blockBeforeFailure_run : ∃ l l' t : MatchLedger, (ledgerMachine classicMine).Reachable l ∧
    l.step classicMine (.collect anyReport) = some l' ∧
    (∃ i < l.engine.lanes, (l.engine.mailbox i).ring.head? = some none) ∧
    runSteps (MatchLedger.step classicMine) l' (drainActions 2 anyReport) = some t ∧
    ¬ nothingBefore l.engine := by
  have hrun : ((runSteps (MatchLedger.step classicMine) { engine := twoLanes }
      blockBeforeFailure).bind fun l => (l.step classicMine (.collect anyReport)).bind fun l' =>
        (runSteps (MatchLedger.step classicMine) l' (drainActions 2 anyReport)).map fun _ =>
          (l.engine.lanes, (l.engine.mailbox 1).ring.head?.map Option.isNone,
            (l.engine.mailbox 0).ring.head?.map Option.isNone,
            (l.engine.mailbox 0).oldest.map fun m => m.toFound.label.isSome)) =
      some (2, some true, some false, [true]) := by decide +kernel
  obtain ⟨l, hl, hrest⟩ := Option.bind_eq_some_iff.mp hrun
  obtain ⟨l', hcall, hrest⟩ := Option.bind_eq_some_iff.mp hrest
  obtain ⟨t, hdrain, hvalues⟩ := Option.map_eq_some_iff.mp hrest
  simp only [Prod.mk.injEq, Option.map_eq_some_iff] at hvalues
  obtain ⟨hlanes, ⟨bad, hbad, hnone⟩, ⟨result, hfirst, hsome⟩, hblock⟩ := hvalues
  have hfresh : MatchLedger.fresh { engine := twoLanes } := ⟨twoLanes_init.1.1, rfl, rfl, rfl⟩
  have hreach : (ledgerMachine classicMine).Reachable l :=
    (Machine.Reachable.start hfresh).runSteps (fun _ _ _ _ h => h) hl
  refine ⟨l, l', t, hreach, hcall, ⟨1, by omega, ?_⟩, hdrain, fun hnothing => ?_⟩
  · rw [hbad, Option.isNone_iff_eq_none.mp hnone]
  · have hfront : ∀ j ≤ 0, (l.engine.mailbox j).ring.head? ≠ some none := by
      intro j hj
      obtain rfl := Nat.le_zero.mp hj
      rw [hfirst]
      rintro heq
      rw [Option.some.inj heq] at hsome
      cases hsome
    have hquiet := hnothing 0 (by omega) hfront
    cases hms : (l.engine.mailbox 0).oldest with
    | nil => simp [hms] at hblock
    | cons m ms =>
      rw [hms] at hblock hquiet
      simp [hquiet m List.mem_cons_self] at hblock

theorem counted_not_kept : ¬ ∀ (cfg : Settings) (l l' : MatchLedger),
    (ledgerMachine cfg).Reachable l → ∀ r, l.step cfg (.collect r) = some l' →
      (∃ i < l.engine.lanes, (l.engine.mailbox i).ring.head? = some none) →
        ∃ as t, runSteps (MatchLedger.step cfg) l' as = some t ∧ keepsCounted l l' t := by
  intro hall
  obtain ⟨l, l', -, hl, hcall, hfailed, -, hlost⟩ := blockBeforeFailure_run
  obtain ⟨as, t, hrun, hkept⟩ := hall classicMine l l' hl anyReport hcall hfailed
  exact hlost (nothingBefore_of_kept hl hcall hfailed hrun hkept)

/-- Draining the lanes after the call does not bring the block back. -/
theorem counted_kept_iff_drained : ∃ l l' t : MatchLedger,
    l.step classicMine (.collect anyReport) = some l' ∧
      runSteps (MatchLedger.step classicMine) l' (drainActions 2 anyReport) = some t ∧
        ¬ keepsCounted l l' t := by
  obtain ⟨l, l', t, hl, hcall, hfailed, hdrain, hlost⟩ := blockBeforeFailure_run
  have hiff := counted_kept_iff classicMine l l' t hl anyReport hcall hfailed _ hdrain
  exact ⟨l, l', t, hcall, hdrain, fun hkept => hlost (hiff.mp hkept)⟩

end XnMiner

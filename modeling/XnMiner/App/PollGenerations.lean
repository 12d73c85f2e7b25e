import XnMiner.App.RefreshNetwork

/-! # Poll generations

A snapshot is read under the poller's mutex, claimed under the state mutex and applied under
it again. A thread that is overtaken between these sections brings an older generation.
-/
namespace XnMiner
open TextCodec Transitions

structure PollRun where
  world : RefreshWorld
  /-- The oracle at the start. -/
  first : OracleState
  /-- The snapshots that were applied, oldest application first. -/
  applied : List NetworkStatus := []

def RefreshWorld.applies (s : RefreshWorld) (a : RefreshAction) : Option NetworkStatus :=
  match a with
  | .apply t _ => match s.pc t with
    | .claimed st => some st
    | _ => none
  | _ => none

def PollRun.step (cfg : Settings) (s : PollRun) (a : RefreshAction) : Option PollRun :=
  (s.world.step cfg a).map fun world =>
    { s with world, applied := s.applied ++ (s.world.applies a).toList }

structure PollRun.fresh (s : PollRun) : Prop where
  first : s.first = s.world.oracle
  outside : s.world.pc = fun _ => .outside
  published : s.world.oracle.lastPollSeq ≤ s.world.poll.seq
  applied : s.applied = []

def pollMachine (cfg : Settings) : Machine PollRun RefreshAction where
  init := PollRun.fresh
  step s a t := s.step cfg a = some t

abbrev PollFields := Option ℤ × ℕ

def OracleState.pollFields (o : OracleState) : PollFields :=
  (o.networkDifficulty, o.difficultyFailStreak)

def applyPoll (cfg : Settings) (f : PollFields) (st : NetworkStatus) : PollFields :=
  match st.difficulty with
  | some raw => (some (acceptNetworkDifficulty raw (f.1.getD cfg.memoryCost)), 0)
  | none => (f.1, f.2 + 1)

def PollRun.inSeqOrder (s : PollRun) : List NetworkStatus :=
  s.applied.mergeSort fun a b => a.seq ≤ b.seq

/-- Each generation is applied at most once and after all older ones, and between calls the
fields are what the generations make of them in their order. -/
structure PollRun.counts (cfg : Settings) (s : PollRun) : Prop where
  once : (s.applied.map (·.seq)).Nodup
  inOrder : s.applied.Pairwise fun a b => a.seq < b.seq
  fields : (∀ t, s.world.pc t = .outside) →
    s.world.oracle.pollFields = s.inSeqOrder.foldl (applyPoll cfg) s.first.pollFields

def RefreshThread.other (t : RefreshThread) : RefreshThread :=
  match t with
  | .mining => .worker
  | .worker => .mining

/-- No thread claims a generation older than the last claimed, nor applies one while the
other thread still has to apply an older one. -/
def keepsOrder (s : PollRun) (a : RefreshAction) : Bool :=
  match a with
  | .dedupe t => match s.world.pc t with
    | .read st => decide (st.seq = 0) || decide (s.world.oracle.lastPollSeq ≤ st.seq)
    | _ => true
  | .apply t _ => match s.world.pc t, s.world.pc t.other with
    | .claimed st, .claimed st' => decide (st.seq < st'.seq)
    | _, _ => true
  | _ => true

structure PollInv (cfg : Settings) (s : PollRun) : Prop where
  sorted : s.applied.Pairwise fun a b => a.seq < b.seq
  bounded : ∀ a ∈ s.applied, a.seq ≤ s.world.oracle.lastPollSeq
  claimed : ∀ t st, s.world.pc t = .claimed st →
    st.seq ≤ s.world.oracle.lastPollSeq ∧ ∀ a ∈ s.applied, a.seq < st.seq
  apart : ∀ t t' st st', t' ≠ t → s.world.pc t = .claimed st → s.world.pc t' = .claimed st' →
    st.seq ≠ st'.seq
  fields : s.world.oracle.pollFields = s.applied.foldl (applyPoll cfg) s.first.pollFields

section Steps
variable {cfg : Settings} {s : PollRun} {w : RefreshWorld} {t : RefreshThread} {st : NetworkStatus}

theorem dedupePoll_some {o o' : OracleState} (h : dedupePoll o false st = some o') :
    st.seq ≠ o.lastPollSeq ∧ o' = { o with lastPollSeq := st.seq } := by
  unfold dedupePoll at h
  split_ifs at h with hseen hseq
  · have hnew : ¬ (st.seq = 0 ∨ st.seq = o.lastPollSeq) := by simpa using hseen
    exact ⟨fun heq => hnew (.inr heq), (Option.some.inj h).symm⟩
  · have hnew : ¬ (st.seq = 0 ∨ st.seq = o.lastPollSeq) := by simpa using hseen
    exact absurd (.inl (by simpa using hseq)) hnew

theorem PollInv.quiet (hi : PollInv cfg s) (horacle : w.oracle = s.world.oracle)
    (hclaims : ∀ t st, w.pc t = .claimed st → s.world.pc t = .claimed st) :
    PollInv cfg { s with world := w } where
  sorted := hi.sorted
  bounded := horacle ▸ hi.bounded
  claimed := fun t st h => horacle ▸ hi.claimed t st (hclaims t st h)
  apart := fun t t' st st' hne h h' => hi.apart t t' st st' hne (hclaims t st h) (hclaims t' st' h')
  fields := horacle ▸ hi.fields

/-- A claimed generation is newer than all others. -/
theorem PollInv.claim (hi : PollInv cfg s) (hlt : s.world.oracle.lastPollSeq < st.seq) :
    PollInv cfg { s with
      world := s.world.goto t (.claimed st) { s.world.oracle with lastPollSeq := st.seq } } where
  sorted := hi.sorted
  bounded := fun a ha => (hi.bounded a ha).trans hlt.le
  claimed := by
    intro u st' hu
    by_cases hut : u = t
    · subst hut
      obtain rfl : st = st' := by simpa [RefreshWorld.goto] using hu
      exact ⟨le_rfl, fun a ha => (hi.bounded a ha).trans_lt hlt⟩
    · have hu' : s.world.pc u = .claimed st' := by simpa [RefreshWorld.goto, hut] using hu
      exact ⟨(hi.claimed u st' hu').1.trans hlt.le, (hi.claimed u st' hu').2⟩
  apart := by
    intro u u' st₁ st₂ hne hu hu'
    by_cases hut : u = t
    · subst hut
      obtain rfl : st = st₁ := by simpa [RefreshWorld.goto] using hu
      have hother : s.world.pc u' = .claimed st₂ := by simpa [RefreshWorld.goto, hne] using hu'
      exact ((hi.claimed u' st₂ hother).1.trans_lt hlt).ne'
    · have hfirst : s.world.pc u = .claimed st₁ := by simpa [RefreshWorld.goto, hut] using hu
      by_cases hut' : u' = t
      · subst hut'
        obtain rfl : st = st₂ := by simpa [RefreshWorld.goto] using hu'
        exact ((hi.claimed u st₁ hfirst).1.trans_lt hlt).ne
      · have hsecond : s.world.pc u' = .claimed st₂ := by simpa [RefreshWorld.goto, hut'] using hu'
        exact hi.apart u u' st₁ st₂ hne hfirst hsecond
  fields := hi.fields

theorem PollInv.applied (hi : PollInv cfg s) (hpc : s.world.pc t = .claimed st)
    (holdest : ∀ t' st', t' ≠ t → s.world.pc t' = .claimed st' → st.seq < st'.seq)
    (hseq : w.oracle.lastPollSeq = s.world.oracle.lastPollSeq)
    (hfields : w.oracle.pollFields = applyPoll cfg s.world.oracle.pollFields st)
    (hown : ∀ st', w.pc t ≠ .claimed st') (hothers : ∀ t', t' ≠ t → w.pc t' = s.world.pc t') :
    PollInv cfg { s with world := w, applied := s.applied ++ [st] } := by
  obtain ⟨hle, hnewest⟩ := hi.claimed t st hpc
  have hclaims : ∀ t' st', w.pc t' = .claimed st' → t' ≠ t ∧ s.world.pc t' = .claimed st' := by
    intro t' st' h
    have hne : t' ≠ t := fun heq => hown st' (heq ▸ h)
    exact ⟨hne, hothers t' hne ▸ h⟩
  refine ⟨?_, ?_, ?_, ?_, ?_⟩
  · refine List.pairwise_append.mpr ⟨hi.sorted, List.pairwise_singleton _ _, fun a ha b hb => ?_⟩
    rw [List.mem_singleton.mp hb]
    exact hnewest a ha
  · intro a ha
    rw [hseq]
    rcases List.mem_append.mp ha with hold | hnew
    · exact hi.bounded a hold
    · exact (List.mem_singleton.mp hnew) ▸ hle
  · intro t' st' h
    obtain ⟨hne, hclaimed⟩ := hclaims t' st' h
    obtain ⟨hle', hnewest'⟩ := hi.claimed t' st' hclaimed
    refine ⟨hseq ▸ hle', fun a ha => ?_⟩
    rcases List.mem_append.mp ha with hold | hnew
    · exact hnewest' a hold
    · exact (List.mem_singleton.mp hnew) ▸ holdest t' st' hne hclaimed
  · intro u u' st₁ st₂ hne hu hu'
    exact hi.apart u u' st₁ st₂ hne (hclaims u st₁ hu).2 (hclaims u' st₂ hu').2
  · rw [List.foldl_append, ← hi.fields, List.foldl_cons, List.foldl_nil]
    exact hfields

theorem applyFailure_pollFields (cfg : Settings) (o : OracleState) (now : ℚ) :
    (applyFailure cfg o now).1.pollFields = (o.networkDifficulty, o.difficultyFailStreak + 1) ∧
      (applyFailure cfg o now).1.lastPollSeq = o.lastPollSeq := by
  dsimp only [applyFailure]
  split_ifs <;> exact ⟨rfl, rfl⟩

theorem eq_other {t t' : RefreshThread} (h : t' ≠ t) : t' = t.other := by
  cases t <;> cases t' <;> first | rfl | exact absurd rfl h

theorem PollInv.apply (hi : PollInv cfg s) {now : ℚ} (hkeeps : keepsOrder s (.apply t now) = true)
    (hpc : s.world.pc t = .claimed st) (h : s.world.step cfg (.apply t now) = some w) :
    PollInv cfg { s with world := w, applied := s.applied ++ [st] } := by
  have holdest : ∀ t' st', t' ≠ t → s.world.pc t' = .claimed st' → st.seq < st'.seq := by
    intro t' st' hne hpc'
    obtain rfl := eq_other hne
    simpa [keepsOrder, hpc, hpc'] using hkeeps
  simp only [RefreshWorld.step, hpc] at h
  split at h
  next raw hraw =>
    have hfields : (applyDifficulty cfg s.world.oracle raw now).pollFields =
        applyPoll cfg s.world.oracle.pollFields st := by
      simp only [applyPoll, hraw]
      rfl
    split_ifs at h
    · obtain rfl := Option.some.inj h
      exact hi.applied hpc holdest rfl hfields (by simp [RefreshWorld.goto])
        fun t' hne => by simp [RefreshWorld.goto, hne]
    · obtain rfl := Option.some.inj h
      exact hi.applied hpc holdest rfl hfields (by simp [RefreshWorld.leave])
        fun t' hne => by simp [RefreshWorld.leave, hne]
  next hraw =>
    obtain rfl := Option.some.inj h
    obtain ⟨hfields, hseq⟩ := applyFailure_pollFields cfg s.world.oracle now
    refine hi.applied hpc holdest hseq ?_ (by simp [RefreshWorld.leave])
      fun t' hne => by simp [RefreshWorld.leave, hne]
    simp only [applyPoll, hraw]
    exact hfields

/-- A claim stays what it is when a thread leaves or goes on with something else. -/
theorem claims_of_update {pc : RefreshPc} (hne : ∀ st, pc ≠ .claimed st) (u : RefreshThread)
    (st : NetworkStatus) (h : Function.update s.world.pc t pc u = .claimed st) :
    s.world.pc u = .claimed st := by
  by_cases hut : u = t
  · subst hut
    rw [Function.update_self] at h
    exact absurd h (hne st)
  · rwa [Function.update_of_ne hut] at h

theorem PollInv.step (hi : PollInv cfg s) {a : RefreshAction} (hkeeps : keepsOrder s a = true)
    {s' : PollRun} (h : s.step cfg a = some s') : PollInv cfg s' := by
  obtain ⟨w, hw, rfl⟩ := Option.map_eq_some_iff.mp h
  cases a with
  | publish st =>
    obtain rfl := Option.some.inj hw
    simp only [RefreshWorld.applies, Option.toList_none, List.append_nil]
    exact hi.quiet rfl fun _ _ h => h
  | read t =>
    simp only [RefreshWorld.applies, Option.toList_none, List.append_nil]
    simp only [RefreshWorld.step] at hw
    split at hw
    next hpc =>
      obtain rfl := Option.some.inj hw
      exact hi.quiet rfl (claims_of_update (by simp))
    next => cases hw
  | dedupe t =>
    simp only [RefreshWorld.applies, Option.toList_none, List.append_nil]
    simp only [RefreshWorld.step] at hw
    split at hw
    next st hpc =>
      split at hw
      next => exact Option.some.inj hw ▸ hi.quiet rfl (claims_of_update (by simp))
      next o hdedupe =>
        obtain rfl := Option.some.inj hw
        obtain ⟨hne, rfl⟩ := dedupePoll_some hdedupe
        have hzero : st.seq ≠ 0 := fun hzero => by simp [dedupePoll, hzero] at hdedupe
        have hle : s.world.oracle.lastPollSeq ≤ st.seq := by simpa [keepsOrder, hpc, hzero] using hkeeps
        exact hi.claim (lt_of_le_of_ne hle hne.symm)
    next => cases hw
  | apply t now =>
    cases hpc : s.world.pc t with
    | claimed st =>
      simp only [RefreshWorld.applies, hpc, Option.toList_some]
      exact hi.apply hkeeps hpc hw
    | _ => simp [RefreshWorld.step, hpc] at hw
  | replan sized =>
    simp only [RefreshWorld.applies, Option.toList_none, List.append_nil]
    simp only [RefreshWorld.step] at hw
    split at hw
    next d hpc => exact Option.some.inj hw ▸ hi.quiet rfl (claims_of_update (by simp))
    next => cases hw

theorem PollInv.init (h : s.fresh) : PollInv cfg s := by
  have hpc : ∀ t st, s.world.pc t ≠ .claimed st := by simp [h.outside]
  refine ⟨?_, ?_, fun t st ht => absurd ht (hpc t st), fun t _ st _ _ ht => absurd ht (hpc t st), ?_⟩
  · rw [h.applied]
    exact List.Pairwise.nil
  · simp [h.applied]
  · rw [h.applied, h.first]
    rfl

end Steps

/-- While the generations are claimed in order, and applied by the thread with the oldest
claim, each counts once and in order. -/
theorem polls_count_once (cfg : Settings) (s : PollRun)
    (hs : ((pollMachine cfg).restrict fun s a => keepsOrder s a = true).Reachable s) : s.counts cfg := by
  have hi : PollInv cfg s := by
    refine Machine.Reachable.invariant (M := (pollMachine cfg).restrict fun s a => keepsOrder s a = true)
      (I := PollInv cfg) (fun _ => PollInv.init) ?_ hs
    rintro s a s' - hi ⟨hkeeps, hstep⟩
    exact hi.step hkeeps hstep
  have hsorted : s.inSeqOrder = s.applied := List.mergeSort_of_pairwise
    (hi.sorted.imp fun hlt => decide_eq_true hlt.le)
  refine ⟨?_, hi.sorted, fun _ => hsorted.symm ▸ hi.fields⟩
  exact (List.pairwise_map.mpr hi.sorted).imp Nat.ne_of_lt

def pollStart : PollRun := { world := refreshStart, first := refreshStart.oracle }

theorem pollStart_fresh : pollStart.fresh := ⟨rfl, rfl, le_rfl, rfl⟩

def overtaken : List RefreshAction :=
  [.publish { difficulty := some 2000 }, .read .mining, .publish { difficulty := some 3000 },
    .read .worker, .dedupe .worker, .apply .worker 10, .dedupe .mining, .apply .mining 11,
    .replan true, .read .worker, .dedupe .worker, .apply .worker 12]

theorem polls_miscounted :
    ¬ ∀ (cfg : Settings) (s : PollRun), (pollMachine cfg).Reachable s → s.counts cfg := by
  intro hall
  have hrun : (runSteps (PollRun.step classic) pollStart overtaken).map
      (fun t => t.applied.map (·.seq)) = some [3, 2, 3] := by decide +kernel
  obtain ⟨t, ht, hseqs⟩ := Option.map_eq_some_iff.mp hrun
  have hreach : (pollMachine classic).Reachable t :=
    (Machine.Reachable.start (M := pollMachine classic) pollStart_fresh).runSteps
      (fun _ _ _ _ h => h) ht
  have honce := (hall classic t hreach).once
  rw [hseqs] at honce
  exact absurd honce (by decide)

/-- The same generations, each claimed and applied before the next one is read. -/
theorem polls_count_once_run : ∃ s : PollRun, s.applied.map (·.seq) = [2, 3] ∧ s.counts classic := by
  have hrun : (runSteps (guarded keepsOrder (PollRun.step classic)) pollStart
      [.publish { difficulty := some 2000 }, .read .mining, .dedupe .mining, .apply .mining 10,
        .replan true, .publish { difficulty := some 3000 }, .read .worker, .dedupe .worker,
        .apply .worker 11]).map (fun t => t.applied.map (·.seq)) = some [2, 3] := by decide +kernel
  obtain ⟨t, ht, hseqs⟩ := Option.map_eq_some_iff.mp hrun
  have hstart : ((pollMachine classic).restrict fun s a => keepsOrder s a = true).Reachable
      pollStart := .start pollStart_fresh
  exact ⟨t, hseqs, polls_count_once classic t (hstart.runSteps_guarded (fun _ _ _ _ h => h) ht)⟩

end XnMiner

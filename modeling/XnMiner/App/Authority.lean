import XnMiner.App.RefreshNetwork
import XnMiner.App.MatchDrain
import XnMiner.Network.Submitter

/-! # When the live difficulty counts

`network_ok_` is what makes the known difficulty the live one. It is set by a poll with a
difficulty and, with no look at where the difficulty comes from, by an accepted submit.
Both threads run the four calls section by section; bag and pool answer as they like.
-/
namespace XnMiner
open TextCodec Transitions

inductive AfterPoll where
  | nothing (blocking : Bool)
  | live (hitM : ℤ)
  | flush (onShutdown : Bool)

def AfterPoll.blocking (k : AfterPoll) : Bool :=
  match k with
  | .nothing blocking => blocking
  | .live _ => false
  | .flush onShutdown => onShutdown

/-- What follows a `refresh_paper`; a flush knows whether its poll was good. -/
inductive AfterPaper where
  | nothing
  | flush (onShutdown refreshed : Bool)

inductive OraclePc where
  | outside
  | polling (k : AfterPoll)
  | claiming (k : AfterPoll) (st : NetworkStatus)
  | applying (k : AfterPoll) (st : NetworkStatus)
  | rereading (k : AfterPoll)
  | papering (k : AfterPaper)
  | paperApplying (k : AfterPaper) (st : PaperStatus)
  | liveAllowed (hitM : ℤ)
  | liveSays (hitM : ℤ)
  | liveWait
  | flushAllowed
  | flushDefer
  | lastAllowed
  | lastBag
  | lastSays (bagM : ℤ)
  | allowedAgain
  | target (onShutdown : Bool)
  | flushWait (onShutdown : Bool) (flushed holds : ℕ) (transportFail : Bool)

def afterPoll (k : AfterPoll) (refreshed : Bool) : OraclePc :=
  match k with
  | .nothing _ => .outside
  | .live hitM => .liveAllowed hitM
  | .flush onShutdown => .papering (.flush onShutdown refreshed)

def afterPaper (k : AfterPaper) : OraclePc :=
  match k with
  | .nothing => .outside
  | .flush onShutdown refreshed =>
    if refreshed then if onShutdown then .target true else .allowedAgain
    else if onShutdown then .outside else .lastAllowed

structure AuthorityWorld where
  oracle : OracleState := {}
  /-- A poll has said the difficulty; the configured one is none. -/
  polled : Bool := false
  pc : RefreshThread → OraclePc := fun _ => .outside

def inRange (raw : ℤ) : Bool := decide (0 < raw) && decide (raw ≤ 10000000)

def OracleState.accepted (o : OracleState) : OracleState :=
  { o with submitBackoffUntil := 0, networkOk := true }

section Steps
variable (cfg : Settings)

def AuthorityWorld.section (s : AuthorityWorld) (now : ℚ) (pc : OraclePc) :
    Option (OracleState × Bool × OraclePc) :=
  let o := s.oracle
  let read := fun pc => some (o, s.polled, pc)
  match pc with
  | .claiming k st => match dedupePoll o k.blocking st with
    | none => read (afterPoll k (o.networkOk && o.networkDifficulty.isSome))
    | some o' => some (o', s.polled, .applying k st)
  | .applying k st => match st.difficulty with
    | some raw => some (applyDifficulty cfg o raw now, s.polled || inRange raw, afterPoll k true)
    | none =>
      let r := applyFailure cfg o now
      some (r.1, s.polled, if r.2 then .rereading k else afterPoll k false)
  | .rereading k => read (afterPoll k o.networkOk)
  | .paperApplying k st => some (applyPaper o st now, s.polled, afterPaper k)
  | .liveAllowed hitM => read (if liveSubmitAllowed cfg o now then .liveSays hitM else .outside)
  | .liveSays hitM => read (if oracleSaysM o hitM then .liveWait else .outside)
  | .flushAllowed => read <|
    if flushSubmitAllowed cfg o now then
      if cfg.forceMineMode then .polling (.flush false) else .flushDefer
    else .outside
  | .flushDefer => read (if now < o.deferSubmitUntil then .outside else .polling (.flush false))
  | .lastAllowed => read (if flushSubmitAllowed cfg o now then .lastBag else .outside)
  | .lastBag => read (.lastSays (bagTargetM cfg o))
  | .lastSays bagM => read (if oracleSaysM o bagM then .allowedAgain else .outside)
  | .allowedAgain => read (if flushSubmitAllowed cfg o now then .target false else .outside)
  | .target onShutdown => read <|
    if submitTargetM cfg o ≤ 0 then .outside else .flushWait onShutdown 0 0 false
  | _ => none

def AuthorityWorld.answered (s : AuthorityWorld) (now : ℚ) (a : SubmitResult) (pc : OraclePc) :
    Option (OracleState × OraclePc) :=
  let o := s.oracle
  let unreachable := decide (a.status = 0) || isTransientSubmitFailure a.status a.body
  match pc with
  | .liveWait =>
    if a.ok then some (o.accepted, .outside)
    else if unreachable then some (noteSubmitTransportFailure cfg o a.status now, .outside)
    else some (o, .outside)
  | .flushWait onShutdown flushed holds transportFail =>
    if a.ok then some (o.accepted, .flushWait onShutdown (flushed + 1) holds transportFail)
    else if unreachable then
      if onShutdown then some (o, pc)
      else some (noteSubmitTransportFailure cfg o a.status now,
        .flushWait onShutdown flushed holds true)
    else if isPoolHold a.status a.body || isDifficultyMismatch a.status a.body ||
        isXuniWindowReject a.status a.body then
      some (o, .flushWait onShutdown flushed (holds + 1) transportFail)
    else some (o, pc)
  | _ => none

inductive OracleCall where
  | refreshNetwork (blocking : Bool)
  | refreshPaper
  | processLiveSubmit (hitM : ℤ)
  | tryFlushPending (onShutdown : Bool)

def OracleCall.start (c : OracleCall) : OraclePc :=
  match c with
  | .refreshNetwork blocking => .polling (.nothing blocking)
  | .refreshPaper => .papering .nothing
  | .processLiveSubmit hitM => .polling (.live hitM)
  | .tryFlushPending onShutdown =>
    if onShutdown then .polling (.flush true) else .flushAllowed

inductive OracleAction where
  | fallback
  | call (t : RefreshThread) (c : OracleCall)
  | snapshot (t : RefreshThread) (st : NetworkStatus)
  | paper (t : RefreshThread) (st : PaperStatus)
  | section (t : RefreshThread) (now : ℚ)
  | answer (t : RefreshThread) (a : SubmitResult) (now : ℚ)
  | finish (t : RefreshThread) (draining : Bool) (now : ℚ)

def AuthorityWorld.goto (s : AuthorityWorld) (t : RefreshThread) (o : OracleState) (polled : Bool)
    (pc : OraclePc) : AuthorityWorld :=
  { oracle := o, polled, pc := Function.update s.pc t pc }

/-- `run` puts in the configured difficulty when no poll has come; a held wave pauses submits. -/
def AuthorityWorld.step (s : AuthorityWorld) (a : OracleAction) : Option AuthorityWorld :=
  let o := s.oracle
  match a with
  | .fallback =>
    if o.networkDifficulty.isSome then some s
    else some { s with oracle :=
      { o with networkDifficulty := some cfg.memoryCost, networkOk := false } }
  | .call t c => match s.pc t with
    | .outside => some (s.goto t o s.polled c.start)
    | _ => none
  | .snapshot t st => match s.pc t with
    | .polling k => some (s.goto t o s.polled (.claiming k st))
    | _ => none
  | .paper t st => match s.pc t with
    | .papering k => match claimPaper o st with
      | none => some (s.goto t o s.polled (afterPaper k))
      | some o' => some (s.goto t o' s.polled (.paperApplying k st))
    | _ => none
  | .section t now => (s.section cfg now (s.pc t)).map fun r => s.goto t r.1 r.2.1 r.2.2
  | .answer t a now => (s.answered cfg now a (s.pc t)).map fun r => s.goto t r.1 s.polled r.2
  | .finish t draining now => match s.pc t with
    | .flushWait onShutdown flushed holds transportFail =>
      let held := decide (flushed = 0) && !onShutdown && decide (0 < holds) && !transportFail
      let pause : ℚ := if draining then 1 else 2
      some (s.goto t (if held then { o with submitBackoffUntil := now + pause } else o) s.polled
        .outside)
    | _ => none

def authorityMachine : Machine AuthorityWorld OracleAction where
  init s := s = {}
  step s a t := s.step cfg a = some t

def failBudget (o : OracleState) : ℕ :=
  if cfg.forceMineMode && o.networkDifficulty == some cfg.forcedMineM then 6 else 3

/-- A poll said the difficulty, and fewer polls than the budget have failed since. -/
def AuthorityWorld.authoritative (s : AuthorityWorld) : Bool :=
  s.polled && decide (s.oracle.difficultyFailStreak < failBudget cfg s.oracle)

/-- Only an authoritative difficulty is live; without one the paper oracle decides. -/
structure AuthorityWorld.sound (s : AuthorityWorld) : Prop where
  live : s.oracle.networkOk = true → s.authoritative cfg = true
  paper : s.authoritative cfg = false → ∀ m, s.oracle.paperM = some m →
    submitTargetM cfg s.oracle = m ∧
      shouldParkCuda cfg s.oracle true = decide (m = bagTargetM cfg s.oracle)

/-- A submit is accepted while the difficulty is authoritative, and a poll out of range does
not come first. -/
def backed (s : AuthorityWorld) (a : OracleAction) : Bool :=
  match a with
  | .answer _ a _ => !a.ok || s.authoritative cfg
  | .section t _ => match s.pc t with
    | .applying _ st => match st.difficulty with
      | some raw => s.polled || inRange raw
      | none => true
    | _ => true
  | _ => true

end Steps

structure AuthorityInv (cfg : Settings) (s : AuthorityWorld) : Prop where
  live : s.oracle.networkOk = true → s.authoritative cfg = true
  never : s.polled = false → s.oracle.lastDifficultyOkAt = 0

variable {cfg : Settings} {s : AuthorityWorld} {o : OracleState} {t : RefreshThread} {pc : OraclePc}

def OracleState.authority (o : OracleState) : Option ℤ × ℕ × ℚ :=
  (o.networkDifficulty, o.difficultyFailStreak, o.lastDifficultyOkAt)

/-- A section that at most takes the network down. -/
theorem AuthorityInv.keep (hi : AuthorityInv cfg s) (hsame : o.authority = s.oracle.authority)
    (hok : o.networkOk = true → s.oracle.networkOk = true) :
    AuthorityInv cfg (s.goto t o s.polled pc) := by
  simp only [OracleState.authority, Prod.mk.injEq] at hsame
  obtain ⟨hdifficulty, hstreak, hat⟩ := hsame
  refine ⟨fun h => ?_, fun h => hat.trans (hi.never h)⟩
  have hbudget : failBudget cfg o = failBudget cfg s.oracle := by
    rw [failBudget, failBudget, hdifficulty]
  change (s.polled && decide (o.difficultyFailStreak < failBudget cfg o)) = true
  rw [hstreak, hbudget]
  exact hi.live (hok h)

theorem AuthorityInv.read (hi : AuthorityInv cfg s) : AuthorityInv cfg (s.goto t s.oracle s.polled pc) :=
  hi.keep rfl id

theorem AuthorityInv.accepted (hi : AuthorityInv cfg s) (h : s.authoritative cfg = true) :
    AuthorityInv cfg (s.goto t s.oracle.accepted s.polled pc) := ⟨fun _ => h, hi.never⟩

theorem AuthorityInv.applyDifficulty {raw : ℤ} {now : ℚ} (h : (s.polled || inRange raw) = true) :
    AuthorityInv cfg (s.goto t (applyDifficulty cfg s.oracle raw now) (s.polled || inRange raw) pc) := by
  refine ⟨fun _ => ?_, fun hnever => absurd (hnever.symm.trans h) Bool.false_ne_true⟩
  have hbudget : ∀ o, 0 < failBudget cfg o := by
    intro o
    unfold failBudget
    split_ifs <;> decide
  simp only [AuthorityWorld.authoritative, AuthorityWorld.goto, h, Bool.true_and]
  exact decide_eq_true (hbudget _)

theorem applyFailure_authority (cfg : Settings) (o : OracleState) (now : ℚ) :
    (applyFailure cfg o now).1.authority =
      (o.networkDifficulty, o.difficultyFailStreak + 1, o.lastDifficultyOkAt) := by
  dsimp only [applyFailure]
  split_ifs <;> rfl

theorem applyFailure_never {now : ℚ} (h : o.lastDifficultyOkAt = 0) :
    (applyFailure cfg o now).1.networkOk = false := by
  have hold : ¬ (1000000000 : ℚ) < 180 := by decide +kernel
  simp [applyFailure, h, hold]

/-- A failed poll leaves the network up within the budget only. -/
theorem applyFailure_budget {now : ℚ} (h : (applyFailure cfg o now).1.networkOk = true) :
    o.difficultyFailStreak + 1 < failBudget cfg o := by
  dsimp only [applyFailure] at h
  generalize (if 0 < o.lastDifficultyOkAt then now - o.lastDifficultyOkAt else 1000000000) = age at h
  split at h
  · exact of_decide_eq_true (Bool.and_eq_true_iff.mp h).1
  · cases h

theorem AuthorityInv.applyFailure (hi : AuthorityInv cfg s) (now : ℚ) :
    AuthorityInv cfg (s.goto t (applyFailure cfg s.oracle now).1 s.polled pc) := by
  have hsame := applyFailure_authority cfg s.oracle now
  simp only [OracleState.authority, Prod.mk.injEq] at hsame
  obtain ⟨hdifficulty, hstreak, hat⟩ := hsame
  refine ⟨fun h => ?_, fun h => hat.trans (hi.never h)⟩
  have hpolled : s.polled = true := by
    cases hp : s.polled with
    | true => rfl
    | false => exact absurd (h.symm.trans (applyFailure_never (hi.never hp))) Bool.noConfusion
  have hbudget : failBudget cfg (XnMiner.applyFailure cfg s.oracle now).1 = failBudget cfg s.oracle := by
    rw [failBudget, failBudget, hdifficulty]
  refine Bool.and_eq_true_iff.mpr ⟨hpolled, decide_eq_true ?_⟩
  change (XnMiner.applyFailure cfg s.oracle now).1.difficultyFailStreak < _
  rw [hstreak]
  exact (applyFailure_budget h).trans_eq hbudget.symm

theorem dedupePoll_keeps {o o' : OracleState} {blocking : Bool} {st : NetworkStatus}
    (h : dedupePoll o blocking st = some o') :
    o'.authority = o.authority ∧ o'.networkOk = o.networkOk := by
  unfold dedupePoll at h
  split_ifs at h
  · exact (Option.some.inj h) ▸ ⟨rfl, rfl⟩
  · exact (Option.some.inj h) ▸ ⟨rfl, rfl⟩

theorem applyPaper_keeps (o : OracleState) (st : PaperStatus) (now : ℚ) :
    (applyPaper o st now).authority = o.authority ∧ (applyPaper o st now).networkOk = o.networkOk := by
  unfold applyPaper
  split_ifs <;> exact ⟨rfl, rfl⟩

theorem noteSubmitTransportFailure_keeps (cfg : Settings) (o : OracleState) (status : ℤ) (now : ℚ) :
    (noteSubmitTransportFailure cfg o status now).authority = o.authority ∧
      ((noteSubmitTransportFailure cfg o status now).networkOk = true → o.networkOk = true) := by
  refine ⟨rfl, fun h => ?_⟩
  dsimp only [noteSubmitTransportFailure] at h
  split_ifs at h
  exact h

theorem AuthorityInv.section (hi : AuthorityInv cfg s) {now : ℚ}
    (hbacked : backed cfg s (.section t now) = true) {r : OracleState × Bool × OraclePc}
    (h : s.section cfg now (s.pc t) = some r) : AuthorityInv cfg (s.goto t r.1 r.2.1 r.2.2) := by
  unfold AuthorityWorld.section at h
  dsimp only at h
  split at h
  case h_1 k st hpc =>
    split at h
    next => exact Option.some.inj h ▸ hi.read
    next o' hdedupe =>
      obtain ⟨hsame, hok⟩ := dedupePoll_keeps hdedupe
      exact Option.some.inj h ▸ hi.keep hsame fun hlive => hok ▸ hlive
  case h_2 k st hpc =>
    split at h
    next raw hraw =>
      have hpolled : (s.polled || inRange raw) = true := by simpa [backed, hpc, hraw] using hbacked
      exact Option.some.inj h ▸ .applyDifficulty hpolled
    next => exact Option.some.inj h ▸ hi.applyFailure now
  case h_4 k st hpc =>
    obtain ⟨hsame, hok⟩ := applyPaper_keeps s.oracle st now
    exact Option.some.inj h ▸ hi.keep hsame fun hlive => hok ▸ hlive
  case h_14 => cases h
  all_goals exact Option.some.inj h ▸ hi.read

theorem AuthorityInv.answered (hi : AuthorityInv cfg s) {now : ℚ} {a : SubmitResult}
    (hbacked : backed cfg s (.answer t a now) = true) {r : OracleState × OraclePc}
    (h : s.answered cfg now a pc = some r) : AuthorityInv cfg (s.goto t r.1 s.polled r.2) := by
  have haccepted : a.ok = true → s.authoritative cfg = true := by
    intro hok
    simpa [backed, hok] using hbacked
  have hnote := noteSubmitTransportFailure_keeps cfg s.oracle a.status now
  unfold AuthorityWorld.answered at h
  dsimp only at h
  split at h
  case h_1 =>
    split_ifs at h with hok hdown
    · exact Option.some.inj h ▸ hi.accepted (haccepted hok)
    · exact Option.some.inj h ▸ hi.keep hnote.1 hnote.2
    · exact Option.some.inj h ▸ hi.read
  case h_2 =>
    split_ifs at h with hok hdown hend hhold
    · exact Option.some.inj h ▸ hi.accepted (haccepted hok)
    · exact Option.some.inj h ▸ hi.read
    · exact Option.some.inj h ▸ hi.keep hnote.1 hnote.2
    · exact Option.some.inj h ▸ hi.read
    · exact Option.some.inj h ▸ hi.read
  case h_3 => cases h

theorem AuthorityInv.step (hi : AuthorityInv cfg s) {a : OracleAction} (hbacked : backed cfg s a = true)
    {s' : AuthorityWorld} (h : s.step cfg a = some s') : AuthorityInv cfg s' := by
  cases a with
  | fallback =>
    simp only [AuthorityWorld.step] at h
    split_ifs at h
    · exact Option.some.inj h ▸ hi
    · obtain rfl := Option.some.inj h
      exact ⟨fun hlive => absurd hlive Bool.false_ne_true, hi.never⟩
  | call t c =>
    simp only [AuthorityWorld.step] at h
    split at h
    next => exact Option.some.inj h ▸ hi.read
    next => cases h
  | snapshot t st =>
    simp only [AuthorityWorld.step] at h
    split at h
    next => exact Option.some.inj h ▸ hi.read
    next => cases h
  | paper t st =>
    simp only [AuthorityWorld.step] at h
    split at h
    next =>
      split at h
      next => exact Option.some.inj h ▸ hi.read
      next o' hclaim =>
        obtain rfl := Option.some.inj h
        unfold claimPaper at hclaim
        split_ifs at hclaim
        obtain rfl := Option.some.inj hclaim
        exact hi.keep rfl id
    next => cases h
  | «section» t now =>
    obtain ⟨r, hr, rfl⟩ := Option.map_eq_some_iff.mp h
    exact hi.section hbacked hr
  | answer t a now =>
    obtain ⟨r, hr, rfl⟩ := Option.map_eq_some_iff.mp h
    exact hi.answered hbacked hr
  | finish t draining now =>
    simp only [AuthorityWorld.step] at h
    split at h
    next =>
      obtain rfl := Option.some.inj h
      split_ifs <;> exact hi.keep rfl id
    next => cases h

/-- Without an authoritative difficulty the network is down, and the paper decides. -/
theorem AuthorityInv.sound (hi : AuthorityInv cfg s) : s.sound cfg := by
  refine ⟨hi.live, fun hnot m hm => ?_⟩
  have hdown : s.oracle.networkOk = false := by
    cases hok : s.oracle.networkOk with
    | false => rfl
    | true => exact absurd (hnot.symm.trans (hi.live hok)) Bool.noConfusion
  have hlive : s.oracle.liveM = none := by simp [OracleState.liveM, hdown]
  obtain ⟨hok, hnewest, -⟩ := paperM_eq_some.mp hm
  constructor
  · simp only [submitTargetM, hlive, hm]
    split_ifs with hbag
    · exact hbag.symm
    · rfl
  · simp [shouldParkCuda, hlive, hok, hnewest, beq_eq_decide]

/-- In runs where submits are only accepted while the difficulty is authoritative, and no poll
out of range comes first, only such a difficulty is live. -/
theorem live_difficulty_sound (cfg : Settings) (s : AuthorityWorld)
    (hs : ((authorityMachine cfg).restrict fun s a => backed cfg s a = true).Reachable s) :
    s.sound cfg := by
  have hi : AuthorityInv cfg s := by
    refine Machine.Reachable.invariant
      (M := (authorityMachine cfg).restrict fun s a => backed cfg s a = true)
      (I := AuthorityInv cfg) ?_ ?_ hs
    · rintro s rfl
      exact ⟨fun hok => absurd hok Bool.false_ne_true, fun _ => rfl⟩
    · rintro s a s' - hi ⟨hbacked, hstep⟩
      exact hi.step hbacked hstep
  exact hi.sound

/-- Each other step puts a difficulty live that is not authoritative. -/
theorem unbacked_not_sound {a : OracleAction} {s' : AuthorityWorld} (hnot : backed cfg s a = false)
    (h : s.step cfg a = some s') : ¬ s'.sound cfg := by
  intro hsound
  cases a with
  | answer t a now =>
    have hboth : a.ok = true ∧ s.authoritative cfg = false := by simpa [backed] using hnot
    obtain ⟨r, hr, rfl⟩ := Option.map_eq_some_iff.mp h
    have haccepted : r.1 = s.oracle.accepted := by
      unfold AuthorityWorld.answered at hr
      dsimp only at hr
      split at hr
      · rw [if_pos hboth.1] at hr
        exact (Option.some.inj hr) ▸ rfl
      · rw [if_pos hboth.1] at hr
        exact (Option.some.inj hr) ▸ rfl
      · cases hr
    have hlive := hsound.live (by rw [haccepted]; rfl)
    rw [haccepted] at hlive
    exact Bool.false_ne_true (hboth.2.symm.trans hlive)
  | «section» t now =>
    obtain ⟨r, hr, rfl⟩ := Option.map_eq_some_iff.mp h
    simp only [backed] at hnot
    split at hnot
    next k st hpc =>
      split at hnot
      next raw hraw =>
        rw [hpc] at hr
        simp only [AuthorityWorld.section, hraw, Option.some.injEq] at hr
        obtain rfl := hr
        have hlive := hsound.live rfl
        have hpolled : (s.polled || inRange raw) = true := (Bool.and_eq_true_iff.mp hlive).1
        exact Bool.false_ne_true (hnot.symm.trans hpolled)
      next => cases hnot
    next => cases hnot
  | _ => cases hnot

def paperAt100 : PaperStatus := { ok := true, newestM := some 100, seq := 1 }

def acceptedOnPaper : List OracleAction :=
  [.fallback, .call .mining .refreshPaper, .paper .mining paperAt100, .section .mining 10,
    .call .worker (.tryFlushPending false), .section .worker 11, .snapshot .worker {},
    .section .worker 11, .paper .worker paperAt100, .section .worker 11, .section .worker 11,
    .section .worker 11, .section .worker 11, .section .worker 11,
    .answer .worker { status := 200, body := [] } 12]

theorem fallback_goes_live : ¬ ∀ (cfg : Settings) (s : AuthorityWorld),
    (authorityMachine cfg).Reachable s → s.sound cfg := by
  intro hall
  have hrun : (runSteps (AuthorityWorld.step {}) {} acceptedOnPaper).map (fun s =>
      (s.authoritative {}, s.oracle.paperM, submitTargetM {} s.oracle)) =
      some (false, some 100, 1100) := by decide +kernel
  obtain ⟨s, hs, hvalues⟩ := Option.map_eq_some_iff.mp hrun
  simp only [Prod.mk.injEq] at hvalues
  obtain ⟨hnot, hpaper, htarget⟩ := hvalues
  have hreach : (authorityMachine {}).Reachable s :=
    (Machine.Reachable.start (M := authorityMachine {}) rfl).runSteps (fun _ _ _ _ h => h) hs
  have hsame := ((hall {} s hreach).paper hnot 100 hpaper).1
  rw [htarget] at hsame
  cases hsame

/-- A poll comes first, and the pool takes a hit that is submitted at once. -/
theorem live_difficulty_sound_run : ∃ s : AuthorityWorld, s.oracle.networkOk = true ∧
    s.oracle.networkDifficulty = some 100 ∧ s.sound {} := by
  have hrun : (runSteps (guarded (backed {}) (AuthorityWorld.step {})) {}
      [.fallback, .call .mining (.refreshNetwork false),
        .snapshot .mining { difficulty := some 100, seq := 1 }, .section .mining 10,
        .section .mining 10, .call .worker (.processLiveSubmit 100),
        .snapshot .worker { difficulty := some 100, seq := 1 }, .section .worker 20,
        .section .worker 20, .section .worker 20,
        .answer .worker { status := 200, body := [] } 21]).map (fun s =>
      (s.oracle.networkOk, s.oracle.networkDifficulty)) = some (true, some 100) := by decide +kernel
  obtain ⟨s, hs, hvalues⟩ := Option.map_eq_some_iff.mp hrun
  obtain ⟨hok, hdifficulty⟩ := Prod.mk.inj hvalues
  have hstart : ((authorityMachine {}).restrict fun s a => backed {} s a = true).Reachable {} :=
    .start rfl
  exact ⟨s, hok, hdifficulty,
    live_difficulty_sound {} s (hstart.runSteps_guarded (fun _ _ _ _ h => h) hs)⟩

end XnMiner

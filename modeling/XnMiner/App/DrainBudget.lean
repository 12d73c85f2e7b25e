import XnMiner.App.MatchDrain

/-! # The time budget of a drain

One window ends when its budget is used up, and nothing keeps the next call from opening
another: the budget binds only in runs whose bag no longer matches right after such an end.
-/
namespace XnMiner
open TextCodec

/-- One call and what it sees; the last four fields are left by other code between calls. -/
structure DrainCall where
  oracles : OracleState
  store : BlockStore
  now : ℚ
  gpuParked : Bool := false
  flushed : ℕ := 0
  loggedFirstWave : Bool := false
  flushSkipBeforeId : ℤ := 0

section Calls
variable (cfg : Settings)

def DrainState.called (st : DrainState) (c : DrainCall) : DrainState :=
  (updateMatchDrain cfg c.oracles c.store c.now
    { st with
      gpuParked := c.gpuParked
      flushed := c.flushed
      loggedFirstWave := c.loggedFirstWave
      flushSkipBeforeId := c.flushSkipBeforeId }).1

def drainRun (st : DrainState) (calls : List DrainCall) : DrainState :=
  calls.foldl (DrainState.called cfg) st

def DrainCall.eligible (c : DrainCall) : ℕ :=
  pendingEligibleM c.store (bagTargetM cfg c.oracles) (bagTargetM cfg c.oracles)

def DrainCall.sees (c : DrainCall) : Bool :=
  oracleSaysM c.oracles (bagTargetM cfg c.oracles) &&
    decide (cfg.matchDrainMinQueue ≤ c.eligible cfg)

def DrainState.timedOut (st : DrainState) (now : ℚ) : Bool :=
  decide (0 < cfg.matchDrainMaxS) && decide (0 < st.drainUntil) && decide (st.drainUntil ≤ now)

def DrainCall.bagClear (c : DrainCall) : Bool :=
  oracleSaysM c.oracles (bagTargetM cfg c.oracles) && c.eligible cfg == 0

def DrainCall.left (c : DrainCall) : Bool := oracleLeftM c.oracles (bagTargetM cfg c.oracles)

def DrainState.endsByBudget (st : DrainState) (c : DrainCall) : Bool :=
  cfg.matchDrainEnabled && st.active && st.timedOut cfg c.now && !c.bagClear cfg && !c.left cfg

def DrainState.startsDrain (st : DrainState) (c : DrainCall) : Bool :=
  !st.active && (st.called cfg c).active

end Calls

variable {cfg : Settings} {st : DrainState} {c d : DrainCall} {calls rest mid post : List DrainCall}

theorem DrainState.called_disabled (h : cfg.matchDrainEnabled = false) :
    (st.called cfg c).active = false := by
  cases hon : st.active <;> simp [called, updateMatchDrain, h, hon]

theorem DrainCall.sees_iff : c.sees cfg = true ↔
    oracleSaysM c.oracles (bagTargetM cfg c.oracles) = true ∧
      cfg.matchDrainMinQueue ≤ pendingEligibleM c.store (bagTargetM cfg c.oracles)
        (bagTargetM cfg c.oracles) := by
  rw [sees, Bool.and_eq_true, decide_eq_true_iff, eligible]

/-- A drain starts on every call that sees the match. -/
theorem DrainState.called_sees (hen : cfg.matchDrainEnabled = true) (hoff : st.active = false)
    (hsee : c.sees cfg = true) :
    (st.called cfg c).active = true ∧ (st.called cfg c).drainUntil =
      if 0 < cfg.matchDrainMaxS then c.now + cfg.matchDrainMaxS else 0 := by
  obtain ⟨hsaid, hmin⟩ := DrainCall.sees_iff.mp hsee
  constructor
  · simp [called, updateMatchDrain, hen, hoff, hsaid, hmin]
  · simp [called, updateMatchDrain, hen, hoff, hsaid, hmin]

theorem DrainState.called_unseen (hoff : st.active = false) (hsee : ¬ c.sees cfg = true) :
    (st.called cfg c).active = false := by
  cases hsaid : oracleSaysM c.oracles (bagTargetM cfg c.oracles) with
  | false => simp [called, updateMatchDrain, hoff, hsaid]
  | true =>
    have hmin : ¬ cfg.matchDrainMinQueue ≤ pendingEligibleM c.store (bagTargetM cfg c.oracles)
        (bagTargetM cfg c.oracles) := fun hmin => hsee (DrainCall.sees_iff.mpr ⟨hsaid, hmin⟩)
    cases hen : cfg.matchDrainEnabled <;> simp [called, updateMatchDrain, hen, hoff, hsaid, hmin]

theorem DrainState.called_running (hen : cfg.matchDrainEnabled = true) (hon : st.active = true) :
    (st.called cfg c).active = !(c.bagClear cfg || st.timedOut cfg c.now || c.left cfg) ∧
      ((st.called cfg c).active = true → (st.called cfg c).drainUntil = st.drainUntil) := by
  unfold called updateMatchDrain
  dsimp only
  rw [if_neg (by simp [hen]), if_pos hon]
  simp only [DrainCall.bagClear, DrainCall.eligible, timedOut, DrainCall.left]
  split_ifs with h
  · exact ⟨by simp [h], nofun⟩
  · exact ⟨by simp [h, hon], fun _ => rfl⟩

theorem DrainState.called_endsByBudget (h : st.endsByBudget cfg c = true) :
    (st.called cfg c).active = false := by
  simp only [endsByBudget, Bool.and_eq_true] at h
  obtain ⟨⟨⟨⟨hen, hon⟩, htime⟩, -⟩, -⟩ := h
  rw [(called_running hen hon).1, htime]
  simp

theorem DrainCall.not_left_of_said
    (hsaid : oracleSaysM c.oracles (bagTargetM cfg c.oracles) = true) : c.left cfg = false := by
  unfold left oracleLeftM
  unfold oracleSaysM at hsaid
  split_ifs at hsaid ⊢ <;> simp_all

/-- A call that sees the match can end a drain for its time only. -/
theorem DrainState.ends_sees (hcfg : cfg.loaded) (hen : cfg.matchDrainEnabled = true)
    (hon : st.active = true) (hsee : c.sees cfg = true) :
    (st.called cfg c).active = !st.timedOut cfg c.now ∧
      st.endsByBudget cfg c = st.timedOut cfg c.now := by
  obtain ⟨hsaid, hmin⟩ := DrainCall.sees_iff.mp hsee
  have hleft := DrainCall.not_left_of_said hsaid
  have hclear : c.bagClear cfg = false := by
    have hone : 1 ≤ cfg.matchDrainMinQueue := hcfg
    rw [DrainCall.bagClear, hsaid, Bool.true_and, beq_eq_false_iff_ne, DrainCall.eligible]
    omega
  constructor
  · simp [(called_running hen hon).1, hclear, hleft]
  · simp [endsByBudget, hen, hon, hclear, hleft]

theorem DrainState.enabled_of_active (h : (st.called cfg c).active = true) :
    cfg.matchDrainEnabled = true := by
  cases hen : cfg.matchDrainEnabled with
  | true => rfl
  | false => exact absurd ((called_disabled hen).symm.trans h) Bool.false_ne_true

theorem DrainState.sees_of_active (hoff : st.active = false) (h : (st.called cfg c).active = true) :
    c.sees cfg = true := by
  by_contra hsee
  exact Bool.false_ne_true ((called_unseen hoff hsee).symm.trans h)

theorem DrainState.sees_of_starts (h : st.startsDrain cfg c = true) : c.sees cfg = true := by
  rw [startsDrain, Bool.and_eq_true, Bool.not_eq_true'] at h
  exact sees_of_active h.1 h.2

theorem drainRun_append (cfg : Settings) (st : DrainState) (first rest : List DrainCall) :
    drainRun cfg st (first ++ rest) = drainRun cfg (drainRun cfg st first) rest :=
  List.foldl_append ..

theorem drainRun_snoc (cfg : Settings) (st : DrainState) (first : List DrainCall) (c : DrainCall) :
    drainRun cfg st (first ++ [c]) = (drainRun cfg st first).called cfg c := drainRun_append ..

/-- The calls right after an end by budget do not see the match. -/
def MatchGoneAfterBudget (cfg : Settings) (st : DrainState) (calls : List DrainCall) : Prop :=
  ∀ pre c d post, calls = pre ++ c :: d :: post →
    (drainRun cfg st pre).endsByBudget cfg c = true → d.sees cfg = false

theorem MatchGoneAfterBudget.drop (first : List DrainCall)
    (h : MatchGoneAfterBudget cfg st (first ++ rest)) :
    MatchGoneAfterBudget cfg (drainRun cfg st first) rest := by
  rintro pre c d post rfl hends
  refine h (first ++ pre) c d post (List.append_assoc ..).symm ?_
  rwa [drainRun_append]

theorem MatchGoneAfterBudget.take {more : List DrainCall}
    (h : MatchGoneAfterBudget cfg st (rest ++ more)) : MatchGoneAfterBudget cfg st rest := by
  rintro pre c d post rfl hends
  exact h pre c d (post ++ more) (by simp) hends

/-- The deadline of an open window was set by one of the calls. -/
theorem drainRun_until (hS : 0 < cfg.matchDrainMaxS) (calls : List DrainCall)
    (hon : (drainRun cfg {} calls).active = true) :
    ∃ s ∈ calls, (drainRun cfg {} calls).drainUntil = s.now + cfg.matchDrainMaxS := by
  induction calls using List.reverseRecOn with
  | nil => exact absurd hon Bool.false_ne_true
  | append_singleton calls c ih =>
    rw [drainRun_snoc] at hon ⊢
    have hen := DrainState.enabled_of_active hon
    cases hact : (drainRun cfg {} calls).active with
    | false =>
      have hsee := DrainState.sees_of_active hact hon
      exact ⟨c, by simp, (DrainState.called_sees hen hact hsee).2.trans (if_pos hS)⟩
    | true =>
      obtain ⟨s, hs, huntil⟩ := ih hact
      exact ⟨s, by simp [hs], ((DrainState.called_running hen hact).2 hon).trans huntil⟩

/-- A window that stays open while the match is seen has not reached its deadline. -/
theorem now_lt_until (hcfg : cfg.loaded) (hen : cfg.matchDrainEnabled = true)
    (hS : 0 < cfg.matchDrainMaxS) (hon : st.active = true) (hpos : 0 < st.drainUntil)
    (hgone : MatchGoneAfterBudget cfg st (mid ++ [d])) (hsees : ∀ e ∈ mid ++ [d], e.sees cfg = true)
    (hlast : (drainRun cfg st (mid ++ [d])).active = true) : d.now < st.drainUntil := by
  have hopen : ∀ {s : DrainState} {e : DrainCall}, s.active = true → 0 < s.drainUntil →
      e.sees cfg = true → (s.called cfg e).active = true → e.now < s.drainUntil := by
    intro s e hs hpos hsee hstay
    rw [(DrainState.ends_sees hcfg hen hs hsee).1, Bool.not_eq_true'] at hstay
    simpa [DrainState.timedOut, hS, hpos] using hstay
  induction mid generalizing st with
  | nil => exact hopen hon hpos (hsees d (by simp)) hlast
  | cons e mid ih =>
    have hsee : e.sees cfg = true := hsees e (by simp)
    cases hstay : (st.called cfg e).active with
    | true =>
      have huntil := (DrainState.called_running hen hon).2 hstay
      rw [← huntil]
      exact ih hstay (huntil ▸ hpos) (.drop [e] hgone)
        (fun x hx => hsees x (List.mem_cons_of_mem _ hx)) hlast
    | false =>
      -- the window ended for its time, so the next call must not see the match
      have hspec := DrainState.ends_sees hcfg hen hon hsee
      have hends : st.endsByBudget cfg e = true := by
        rw [hspec.2]
        simpa [hstay] using hspec.1
      obtain ⟨x, xs, hx⟩ : ∃ x xs, mid ++ [d] = x :: xs := by
        cases mid with
        | nil => exact ⟨d, [], rfl⟩
        | cons x xs => exact ⟨x, xs ++ [d], rfl⟩
      have hunseen := hgone [] e x xs (by rw [List.cons_append, hx]; rfl) hends
      have hseen := hsees x (by rw [List.cons_append, hx]; simp)
      exact absurd hseen (by simp [hunseen])

/-- The budget binds: after an end by budget a drain starts only once a call did not see the
match, and while calls see it a drain, and a parked GPU, stay on for less than the budget. -/
structure BudgetBinds (cfg : Settings) (calls : List DrainCall) : Prop where
  no_restart : ∀ (pre : List DrainCall) (c : DrainCall) (mid : List DrainCall) (d : DrainCall)
      (post : List DrainCall), calls = pre ++ c :: (mid ++ d :: post) →
    (drainRun cfg {} pre).endsByBudget cfg c = true →
    (drainRun cfg {} (pre ++ c :: mid)).startsDrain cfg d = true → ∃ e ∈ mid, e.sees cfg = false
  drain_short : ∀ (pre : List DrainCall) (c : DrainCall) (mid : List DrainCall) (d : DrainCall)
      (post : List DrainCall), calls = pre ++ c :: (mid ++ d :: post) →
    (∀ e ∈ mid ++ [d], e.sees cfg = true) → (drainRun cfg {} (pre ++ [c])).active = true →
    (drainRun cfg {} (pre ++ c :: (mid ++ [d]))).active = true → d.now < c.now + cfg.matchDrainMaxS
  park_short : ∀ (pre : List DrainCall) (c : DrainCall) (mid : List DrainCall) (d : DrainCall)
      (post : List DrainCall), calls = pre ++ c :: (mid ++ d :: post) →
    (∀ e ∈ mid ++ [d], e.sees cfg = true) →
    shouldParkCuda cfg c.oracles (drainRun cfg {} (pre ++ [c])).active = true →
    shouldParkCuda cfg d.oracles (drainRun cfg {} (pre ++ c :: (mid ++ [d]))).active = true →
    d.now < c.now + cfg.matchDrainMaxS

theorem active_of_park {o : OracleState} {active : Bool} (h : shouldParkCuda cfg o active = true) :
    active = true := by
  cases active with
  | true => rfl
  | false => exact absurd h Bool.false_ne_true

/-- A drain that ended for its time starts again on the next call that sees the match. -/
theorem restarts_of_seen {pre : List DrainCall}
    (hends : (drainRun cfg {} pre).endsByBudget cfg c = true) (hsee : d.sees cfg = true) :
    (drainRun cfg {} (pre ++ [c])).startsDrain cfg d = true := by
  have hen : cfg.matchDrainEnabled = true := by
    simp only [DrainState.endsByBudget, Bool.and_eq_true] at hends
    exact hends.1.1.1.1
  have hoff := DrainState.called_endsByBudget hends
  rw [drainRun_snoc, DrainState.startsDrain, hoff, (DrainState.called_sees hen hoff hsee).1]
  rfl

theorem drain_short_of_gone (hcfg : cfg.loaded) (hS : 0 < cfg.matchDrainMaxS)
    (hpos : ∀ c ∈ calls, 0 ≤ c.now) (hmono : calls.Pairwise fun a b => a.now ≤ b.now)
    (hgone : MatchGoneAfterBudget cfg {} calls) {pre : List DrainCall}
    (hcalls : calls = pre ++ c :: (mid ++ d :: post)) (hsees : ∀ e ∈ mid ++ [d], e.sees cfg = true)
    (hon : (drainRun cfg {} (pre ++ [c])).active = true)
    (hlast : (drainRun cfg {} (pre ++ c :: (mid ++ [d]))).active = true) :
    d.now < c.now + cfg.matchDrainMaxS := by
  have hsplit : calls = (pre ++ [c]) ++ ((mid ++ [d]) ++ post) := by simp [hcalls]
  have hen : cfg.matchDrainEnabled = true := by
    rw [drainRun_snoc] at hon
    exact DrainState.enabled_of_active hon
  -- the deadline was set by a call no later than `c`
  obtain ⟨s, hs, huntil⟩ := drainRun_until hS (pre ++ [c]) hon
  have hle : s.now ≤ c.now := by
    rcases List.mem_append.mp hs with hs | hs
    · rw [hcalls] at hmono
      exact (List.pairwise_append.mp hmono).2.2 s hs c List.mem_cons_self
    · rw [List.mem_singleton.mp hs]
  have hsnow : 0 ≤ s.now := hpos s (hsplit ▸ List.mem_append_left _ hs)
  have hSq : (0 : ℚ) < cfg.matchDrainMaxS := Int.cast_pos.mpr hS
  have hopen : 0 < (drainRun cfg {} (pre ++ [c])).drainUntil := by
    rw [huntil]
    exact add_pos_of_nonneg_of_pos hsnow hSq
  rw [hsplit] at hgone
  rw [show pre ++ c :: (mid ++ [d]) = (pre ++ [c]) ++ (mid ++ [d]) by simp, drainRun_append] at hlast
  calc d.now < (drainRun cfg {} (pre ++ [c])).drainUntil :=
        now_lt_until hcfg hen hS hon hopen (MatchGoneAfterBudget.drop _ hgone).take hsees hlast
    _ = s.now + cfg.matchDrainMaxS := huntil
    _ ≤ c.now + cfg.matchDrainMaxS := by gcongr

/-- The budget binds in exactly the runs whose calls right after an end by budget do not see
the match: the start of a drain asks for nothing else. -/
theorem budget_binds_iff (cfg : Settings) (hcfg : cfg.loaded) (hS : 0 < cfg.matchDrainMaxS)
    (calls : List DrainCall) (hpos : ∀ c ∈ calls, 0 ≤ c.now)
    (hmono : calls.Pairwise fun a b => a.now ≤ b.now) :
    BudgetBinds cfg calls ↔ MatchGoneAfterBudget cfg {} calls := by
  constructor
  · rintro h pre c d post rfl hends
    by_contra hsee
    have hstart := restarts_of_seen hends (Bool.not_eq_false _ ▸ hsee)
    obtain ⟨e, he, -⟩ := h.no_restart pre c [] d post rfl hends hstart
    exact List.not_mem_nil he
  · intro h
    refine ⟨?_, ?_, ?_⟩
    · rintro pre c mid d post rfl hends hstart
      -- the call right after the end is one in between: `d` itself saw the match
      cases mid with
      | nil =>
        have hsee := DrainState.sees_of_starts hstart
        exact absurd hsee (by simp [h pre c d post rfl hends])
      | cons e mid => exact ⟨e, List.mem_cons_self, h pre c e (mid ++ d :: post) rfl hends⟩
    · intro pre c mid d post hcalls hsees hon hlast
      exact drain_short_of_gone hcfg hS hpos hmono h hcalls hsees hon hlast
    · intro pre c mid d post hcalls hsees hpark hlast
      exact drain_short_of_gone hcfg hS hpos hmono h hcalls hsees (active_of_park hpark)
        (active_of_park hlast)

def fiveSeconds : Settings := { matchDrainMaxS := 5 }

def matchingCall (now : ℚ) : DrainCall :=
  { oracles := { networkOk := true, networkDifficulty := some 100 }, store := hybridBag, now }

theorem drain_restarts : ¬ ∀ (cfg : Settings) (calls : List DrainCall), cfg.loaded →
    0 < cfg.matchDrainMaxS → (∀ c ∈ calls, 0 ≤ c.now) →
    (calls.Pairwise fun a b => a.now ≤ b.now) → BudgetBinds cfg calls := by
  intro hall
  have h := (hall fiveSeconds [matchingCall 1, matchingCall 6, matchingCall 7] (le_refl _)
    (by decide) (by decide) (by decide)).no_restart [matchingCall 1] (matchingCall 6) []
    (matchingCall 7) [] rfl (by decide +kernel) (by decide +kernel)
  obtain ⟨e, he, -⟩ := h
  exact List.not_mem_nil he

/-- A drain that ends for its time when the oracles have no verdict is not opened again. -/
theorem budget_binds_run : BudgetBinds fiveSeconds
    [matchingCall 1, matchingCall 6, { oracles := {}, store := hybridBag, now := 7 }] := by
  refine (budget_binds_iff fiveSeconds (le_refl _) (by decide) _ (by decide) (by decide)).mpr ?_
  intro pre c d post hcalls hends
  rcases pre with _ | ⟨x, _ | ⟨y, pre⟩⟩
  · obtain ⟨rfl, -⟩ := List.cons.inj hcalls
    exact absurd hends (by decide +kernel)
  · obtain ⟨-, hcalls⟩ := List.cons.inj hcalls
    obtain ⟨-, hcalls⟩ := List.cons.inj hcalls
    obtain ⟨rfl, -⟩ := List.cons.inj hcalls
    decide +kernel
  · have hlen := congrArg List.length hcalls
    simp only [List.length_cons, List.length_append, List.length_nil] at hlen
    omega

end XnMiner

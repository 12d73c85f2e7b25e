import XnMiner.App.Oracle
import XnMiner.Queue.FlushBatch

/-! # Match drain

The drain starts on a bag that matches an oracle and ends when the bag is empty, the
time is up, or both oracles have left. The GPU is parked on the stricter test.
-/
namespace XnMiner
open TextCodec

structure DrainState where
  active : Bool := false
  gpuParked : Bool := false
  drainUntil : ℚ := 0
  startQueue : ℕ := 0
  flushed : ℕ := 0
  loggedFirstWave : Bool := false
  flushSkipBeforeId : ℤ := 0

/-- The new drain state, and whether the store is flushed. -/
def updateMatchDrain (cfg : Settings) (o : OracleState) (b : BlockStore) (now : ℚ)
    (st : DrainState) : DrainState × Bool :=
  if !cfg.matchDrainEnabled then
    (if st.active then { st with active := false, gpuParked := false } else st, false)
  else
    let bagM := bagTargetM cfg o
    let lastGoodMatches := oracleSaysM o bagM
    let confirmedMismatch := oracleLeftM o bagM
    let bagQ := pendingEligibleM b bagM bagM
    let matchQ := if lastGoodMatches then bagQ else 0
    if st.active then
      let timedOut := decide (0 < cfg.matchDrainMaxS) && decide (0 < st.drainUntil) &&
        decide (st.drainUntil ≤ now)
      let empty := lastGoodMatches && bagQ == 0
      if empty || timedOut || confirmedMismatch then
        ({ st with active := false, gpuParked := false, drainUntil := 0 }, true)
      else (st, false)
    else if lastGoodMatches && decide (cfg.matchDrainMinQueue ≤ matchQ) then
      ({ active := true
         gpuParked := false
         drainUntil := if 0 < cfg.matchDrainMaxS then now + cfg.matchDrainMaxS else 0
         startQueue := matchQ
         flushed := 0
         loggedFirstWave := false
         flushSkipBeforeId := 0 }, false)
    else (st, false)

/-- A drain that is on under a matching oracle has an eligible block. -/
theorem updateMatchDrain_active {cfg : Settings} (hcfg : cfg.loaded) {o : OracleState}
    {b : BlockStore} {now : ℚ} {st : DrainState}
    (h : (updateMatchDrain cfg o b now st).1.active = true)
    (hsaid : oracleSaysM o (bagTargetM cfg o) = true) :
    0 < pendingEligibleM b (bagTargetM cfg o) (bagTargetM cfg o) := by
  by_contra hempty
  have hzero : pendingEligibleM b (bagTargetM cfg o) (bagTargetM cfg o) = 0 := by omega
  have hmin : ¬ cfg.matchDrainMinQueue ≤ 0 := by
    have : 1 ≤ cfg.matchDrainMinQueue := hcfg
    omega
  dsimp only [updateMatchDrain] at h
  -- an empty bag ends a running drain and is below the threshold of a new one
  cases hen : cfg.matchDrainEnabled <;> cases hact : st.active <;>
    simp [hsaid, hzero, hen, hact, hmin] at h

theorem liveM_eq_some {o : OracleState} {d : ℤ} :
    o.liveM = some d ↔ o.networkOk = true ∧ o.networkDifficulty = some d ∧ 0 < d := by
  unfold OracleState.liveM
  split_ifs with hok
  · simp [hok, Option.filter_eq_some_iff]
  · simp [hok]

theorem paperM_eq_some {o : OracleState} {d : ℤ} :
    o.paperM = some d ↔ o.paperOk = true ∧ o.paperNewestM = some d ∧ 0 < d := by
  unfold OracleState.paperM
  split_ifs with hok
  · simp [hok, Option.filter_eq_some_iff]
  · simp [hok]

/-- Where the GPU may be parked, the submit target is the bag's `m` and an oracle says it. -/
theorem target_of_park {cfg : Settings} {o : OracleState} (hbag : 0 < bagTargetM cfg o)
    {active : Bool} (h : shouldParkCuda cfg o active = true) :
    submitTargetM cfg o = bagTargetM cfg o ∧ oracleSaysM o (bagTargetM cfg o) = true := by
  unfold shouldParkCuda at h
  dsimp only [submitTargetM, oracleSaysM]
  rw [if_neg (by omega)]
  split_ifs at h with hon
  cases hlive : o.liveM with
  | some d =>
    rw [hlive] at h
    obtain rfl : d = bagTargetM cfg o := of_decide_eq_true h
    obtain ⟨hok, hd, -⟩ := liveM_eq_some.mp hlive
    simp [hok, hd]
  | none =>
    rw [hlive] at h
    simp only [Bool.and_eq_true, beq_iff_eq] at h
    have hpaper : o.paperM = some (bagTargetM cfg o) := paperM_eq_some.mpr ⟨h.1, h.2, hbag⟩
    simp [hpaper, h.1, h.2]

theorem listFlushBatch_eq_nil_iff {b : BlockStore} {minute : ℕ} {netM defaultM skip : ℤ} :
    listFlushBatch b minute netM defaultM 0 skip = [] ↔
      eligibleBlocks b minute netM defaultM = [] := by
  have hcap : batchCap b 0 = b.pending.length := rfl
  have hle : (eligibleBlocks b minute netM defaultM).length ≤ b.pending.length :=
    List.length_filter_le ..
  rw [← List.length_eq_zero_iff, ← List.length_eq_zero_iff, length_listFlushBatch, hcap]
  omega

theorem pendingEligibleM_pos {b : BlockStore} {m defaultM : ℤ} :
    0 < pendingEligibleM b m defaultM ↔ ∃ pb ∈ b.pending, m ≤ hitM pb m defaultM := by
  rw [pendingEligibleM, List.length_pos_iff_exists_mem]
  simp only [List.mem_filter, decide_eq_true_eq]

theorem le_hitM_of_le {pb : PendingBlock} {netM m : ℤ} (hle : netM ≤ m) (hm : m ≤ hitM pb m m) :
    netM ≤ hitM pb netM m := by
  unfold hitM at hm ⊢
  cases hcost : pb.hit.memoryCost with
  | none =>
    rw [Option.getD_none]
    split_ifs <;> omega
  | some cost =>
    rw [hcost, Option.getD_some] at hm
    rw [Option.getD_some]
    omega

/-- A batch asked for at most at the bag's `m` is empty only if all blocks there are XUNI outside the
submit window. -/
theorem xuni_of_listFlushBatch_eq_nil {b : BlockStore} {minute : ℕ} {netM m : ℤ} (hle : netM ≤ m)
    (hnil : listFlushBatch b minute netM m 0 0 = []) :
    ∀ pb ∈ b.pending, m ≤ hitM pb m m →
      upper pb.hit.blockType = "XUNI".toList ∧ inXuniSubmitWindow minute = false := by
  intro pb hpb hm
  rw [listFlushBatch_eq_nil_iff, eligibleBlocks, List.filter_eq_nil_iff] at hnil
  have hready : ¬ (readyToFlush minute pb.hit.blockType).1 = true := fun hready =>
    hnil pb hpb (by rw [flushable, hready, decide_eq_true (le_hitM_of_le hle hm)]; rfl)
  rwa [readyToFlush_iff, not_or, not_not, Bool.not_eq_true] at hready

/-- A drain that is on under a matching oracle has a block at the bag's `m`. Up to a submit target of
that `m` the batch is empty only if all these blocks are XUNI outside the submit window, and where
the GPU would be parked an oracle says it and it is the submit target. -/
theorem matchDrain_park (cfg : Settings) (hcfg : cfg.loaded) (o : OracleState) (b : BlockStore)
    (minute : ℕ) (now : ℚ) (st : DrainState)
    (hon : (updateMatchDrain cfg o b now st).1.active = true) :
    (oracleSaysM o (bagTargetM cfg o) = true →
      ∃ pb ∈ b.pending, bagTargetM cfg o ≤ hitM pb (bagTargetM cfg o) (bagTargetM cfg o)) ∧
    (submitTargetM cfg o ≤ bagTargetM cfg o →
      listFlushBatch b minute (submitTargetM cfg o) (bagTargetM cfg o) 0 0 = [] →
        ∀ pb ∈ b.pending, bagTargetM cfg o ≤ hitM pb (bagTargetM cfg o) (bagTargetM cfg o) →
          upper pb.hit.blockType = "XUNI".toList ∧ inXuniSubmitWindow minute = false) ∧
    (0 < bagTargetM cfg o →
      shouldParkCuda cfg o (updateMatchDrain cfg o b now st).1.active = true →
      oracleSaysM o (bagTargetM cfg o) = true ∧ submitTargetM cfg o = bagTargetM cfg o) := by
  refine ⟨fun hsaid => ?_, fun hle hnil => xuni_of_listFlushBatch_eq_nil hle hnil,
    fun hbag hpark => ?_⟩
  · exact pendingEligibleM_pos.mp (updateMatchDrain_active hcfg hon hsaid)
  · obtain ⟨htarget, hsaid⟩ := target_of_park hbag hpark
    exact ⟨hsaid, htarget⟩

def mixedOracles : OracleState :=
  { networkOk := true, networkDifficulty := some 1100, paperOk := true, paperNewestM := some 100 }

def hybridBag : BlockStore :=
  { pending := [{ id := 1, hit := { blockType := "XNM".toList, memoryCost := some 100 } }]
    nextId := 2 }

theorem matchDrain_idles : ¬ ∀ (cfg : Settings) (o : OracleState) (b : BlockStore) (minute : ℕ)
    (now : ℚ) (st : DrainState), cfg.loaded → (updateMatchDrain cfg o b now st).1.active = true →
      listFlushBatch b minute (submitTargetM cfg o) (bagTargetM cfg o) 0 0 ≠ [] := by
  intro hall
  exact hall {} mixedOracles hybridBag 30 0 {} (le_refl _) (by decide +kernel) (by decide +kernel)

def matchedOracles : OracleState := { mixedOracles with networkDifficulty := some 100 }

/-- A drain that parks the GPU: the live difficulty is the bag's `m`, and its block is sent. -/
theorem matchDrain_park_run : submitTargetM {} matchedOracles = 100 ∧
    listFlushBatch hybridBag 30 (submitTargetM {} matchedOracles) (bagTargetM {} matchedOracles) 0 0 ≠
      [] := by
  have hpark := matchDrain_park {} (le_refl _) matchedOracles hybridBag 30 0 {} (by decide +kernel)
  have htarget := (hpark.2.2 (by decide) (by decide +kernel)).2
  have hbag : bagTargetM {} matchedOracles = 100 := by decide
  refine ⟨htarget.trans hbag, fun hnil => ?_⟩
  have hxuni := hpark.2.1 (Int.le_of_eq htarget) hnil _ (List.mem_singleton_self _) (by decide)
  exact absurd hxuni.1 (by decide)

end XnMiner

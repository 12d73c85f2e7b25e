import XnMiner.App.HeldWave

/-! # When a flush stops after a transport failure

Outside a shutdown a transport failure ends the wave after its sub-wave. In a shutdown the
flag is not set, and each item is a sub-wave of its own.
-/
namespace XnMiner
open TextCodec Actions

def transportFails (env : FlushEnv) (item : WorkItem) : Bool :=
  let r := env.respond item.hit
  !r.ok && (decide (r.status = 0) || isTransientSubmitFailure r.status r.body)

/-- Nothing is sent after the sub-wave of an item that fails. -/
def endsAtFailure (env : FlushEnv) (parallel : ℕ) (sent : List WorkItem) : Prop :=
  ∀ i item, sent[i]? = some item → transportFails env item = true →
    sent.length ≤ (i / parallel + 1) * parallel

section Plan
variable (cfg : Settings) (env : FlushEnv)

abbrev WavePlan := Option (Bool × List WorkItem)

def planListed (onShutdown draining : Bool) (wave netM : ℤ) (listed : List PendingBlock) :
    Action FlushWorld WavePlan :=
  match listed.getLast? with
  | none => pure none
  | some lastBlock => do
    let work ← buildWork cfg env onShutdown wave netM [] listed
    if work = [] then do
      setDrain fun d => { d with flushSkipBeforeId := lastBlock.id + 1 }
      pure none
    else pure (some (draining, work))

def planWave (onShutdown : Bool) : Action FlushWorld WavePlan := do
  let s ← enter env
  let netM := submitTargetM cfg s.oracle
  if netM ≤ 0 then pure none
  else do
    let s ← enter env
    let draining := env.draining s.clock
    let wave := waveSize cfg onShutdown draining
    let fetch := if onShutdown then 0 else wave * 2
    let s ← enter env
    let defaultM := bagTargetM cfg s.oracle
    let s ← enter env
    planListed cfg env onShutdown draining wave netM
      (listFlushBatch s.store (env.minute s.clock) netM defaultM fetch s.drain.flushSkipBeforeId)

/-- What `try_flush_pending` does before its first submit. -/
def planFlush (onShutdown : Bool) : Action FlushWorld WavePlan := do
  let blocked ← (if onShutdown = true then pure false else flushBlocked cfg env)
  if blocked = true then pure none
  else do
    let refreshed ← refreshWithoutReplan cfg env onShutdown
    refreshPaper env
    if refreshed = false ∧ onShutdown = true then do
      let s ← enter env
      callStore env fun b => deferAllToNextStart b (env.minute s.clock)
      pure none
    else do
      let usable ← (if refreshed = true then pure true else lastGoodMatches cfg env)
      if usable = false then pure none
      else do
        let allowed ← (if onShutdown = true then pure true else flushAllowed cfg env)
        if allowed = false then pure none else planWave cfg env onShutdown

def sendPlan (onShutdown : Bool) (plan : WavePlan) : Action FlushWorld ℕ :=
  match plan with
  | none => pure 0
  | some (draining, work) => do
    onlyIf (draining = true) (setDrain fun d => { d with loggedFirstWave := true })
    let tally ← subWaves cfg env onShutdown draining {}
      (chunks (waveParallel cfg onShutdown draining) work)
    rotateAfterHold env onShutdown draining tally work
    pure tally.flushed

theorem sendListed_eq (onShutdown draining : Bool) (wave netM : ℤ) (listed : List PendingBlock) :
    sendListed cfg env onShutdown draining wave netM listed =
      planListed cfg env onShutdown draining wave netM listed >>= sendPlan cfg env onShutdown := by
  unfold sendListed planListed
  cases listed.getLast? with
  | none => rfl
  | some lastBlock => simp only [bind_assoc, ite_bind, pure_bind, sendPlan]

theorem sendWave_eq (onShutdown : Bool) : sendWave cfg env onShutdown =
    planWave cfg env onShutdown >>= sendPlan cfg env onShutdown := by
  unfold sendWave planWave
  simp only [bind_assoc, ite_bind, pure_bind, sendListed_eq, sendPlan]

theorem tryFlushPending_eq (onShutdown : Bool) : tryFlushPending cfg env onShutdown =
    planFlush cfg env onShutdown >>= sendPlan cfg env onShutdown := by
  unfold tryFlushPending planFlush
  simp only [bind_assoc, ite_bind, pure_bind, sendWave_eq, sendPlan]

end Plan

variable {cfg : Settings} {env : FlushEnv} {onShutdown draining : Bool}

abbrev SendsNothing {α : Type} (x : Action FlushWorld α) : Prop := Leaves FlushWorld.sent x

theorem sendsNothing_enter : SendsNothing (enter env) := by
  refine Leaves.bind ?_ fun _ => .look
  exact .update fun _ => rfl

theorem sendsNothing_setOracle (f : OracleState → OracleState) : SendsNothing (setOracle f) :=
  .update fun _ => rfl

theorem sendsNothing_setDrain (f : DrainState → DrainState) : SendsNothing (setDrain f) :=
  .update fun _ => rfl

theorem sendsNothing_callStore {α : Type} (op : BlockStore → Effect α) :
    SendsNothing (callStore env op) := by
  refine sendsNothing_enter.bind fun _ => Leaves.bind ?_ fun _ => .lift _
  exact .update fun _ => rfl

theorem sendsNothing_sections : FlushSections env SendsNothing :=
  ⟨Leaves.compositional, sendsNothing_enter, sendsNothing_setOracle, sendsNothing_setDrain⟩

theorem sendsNothing_buildWork (wave netM : ℤ) (work : List WorkItem)
    (pending : List PendingBlock) :
    SendsNothing (buildWork cfg env onShutdown wave netM work pending) := by
  induction pending generalizing work with
  | nil => exact .pure _
  | cons pb rest ih =>
    refine sendsNothing_enter.bind fun s => .ite (ih work) (.ite (ih work) ?_)
    cases submitForm cfg pb.hit (pb.hit.memoryCost.getD (miningDifficulty cfg env s.clock)) with
    | none => exact (sendsNothing_callStore _).bind fun _ => ih work
    | some hit => exact .ite (.pure _) (ih _)

theorem sendsNothing_planFlush : SendsNothing (planFlush cfg env onShutdown) := by
  have hlisted : ∀ (draining : Bool) (wave netM : ℤ) (listed : List PendingBlock),
      SendsNothing (planListed cfg env onShutdown draining wave netM listed) := by
    intro draining wave netM listed
    unfold planListed
    cases listed.getLast? with
    | none => exact .pure _
    | some lastBlock =>
      exact (sendsNothing_buildWork _ _ _ _).bind fun _ =>
        .ite ((sendsNothing_setDrain _).bind fun _ => .pure _) (.pure _)
  have hwave : SendsNothing (planWave cfg env onShutdown) :=
    sendsNothing_enter.bind fun _ => .ite (.pure _) (sendsNothing_enter.bind fun _ =>
      sendsNothing_enter.bind fun _ => sendsNothing_enter.bind fun _ => hlisted _ _ _ _)
  refine Leaves.bind (.ite (.pure _) sendsNothing_sections.flushBlocked) fun _ => .ite (.pure _) ?_
  refine (sendsNothing_sections.refreshWithoutReplan _).bind fun _ => sendsNothing_sections.refreshPaper.bind fun _ => ?_
  refine .ite (sendsNothing_enter.bind fun _ => (sendsNothing_callStore _).bind fun _ => .pure _) ?_
  refine Leaves.bind (.ite (.pure _) sendsNothing_sections.lastGoodMatches) fun _ => .ite (.pure _) ?_
  exact Leaves.bind (.ite (.pure _) sendsNothing_sections.flushAllowed) fun _ => .ite (.pure _) hwave

theorem sendsNothing_settleItem (tally : Tally) (accepted : List ℤ) (item : WorkItem) :
    SendsNothing (settleItem cfg env onShutdown draining tally accepted item) := by
  refine .ite ?_ (.ite (.ite (.pure _) ?_) (.ite ?_ ?_))
  · exact (Leaves.onlyIf (sendsNothing_setDrain _)).bind fun _ => sendsNothing_enter.bind fun _ =>
      (sendsNothing_setOracle _).bind fun _ => .pure _
  · exact sendsNothing_enter.bind fun _ => (sendsNothing_setOracle _).bind fun _ =>
      (sendsNothing_callStore _).bind fun _ => .pure _
  · exact (Leaves.onlyIf (sendsNothing_callStore _)).bind fun _ => .pure _
  · exact Leaves.look.bind fun _ => (sendsNothing_callStore _).bind fun _ =>
      (sendsNothing_callStore _).bind fun _ => .pure _

theorem sendsNothing_settleItems (tally : Tally) (accepted : List ℤ) (items : List WorkItem) :
    SendsNothing (settleItems cfg env onShutdown draining tally accepted items) := by
  induction items generalizing tally accepted with
  | nil => exact .pure _
  | cons item rest ih =>
    exact (sendsNothing_settleItem tally accepted item).bind fun r => ih r.1 r.2

/-- A sub-wave submits its items, whatever the answers. -/
theorem subWave_sent (tally : Tally) (items : List WorkItem) (s : FlushWorld) :
    (subWave cfg env onShutdown draining tally items s).1.sent = s.sent ++ items := by
  have hrest : SendsNothing (do
      let r ← settleItems cfg env onShutdown draining tally [] items
      if r.2 = [] then pure r.1
      else do
        callStore env fun b => markSubmittedMany b r.2
        pure r.1 : Action FlushWorld Tally) :=
    (sendsNothing_settleItems tally [] items).bind fun _ =>
      .ite (.pure _) ((sendsNothing_callStore _).bind fun _ => .pure _)
  exact hrest { s with sent := s.sent ++ items }

def setsFlag (env : FlushEnv) (onShutdown : Bool) (item : WorkItem) : Bool :=
  !onShutdown && transportFails env item

theorem settleItem_flag (tally : Tally) (accepted : List ℤ) (item : WorkItem) :
    Triple True (fun _ => True) (settleItem cfg env onShutdown draining tally accepted item)
      fun r _ => r.1.transportFail = (tally.transportFail || setsFlag env onShutdown item) := by
  unfold settleItem
  refine .ite (fun hok => ?_) fun hok => .ite (fun hfail => ?_) fun hfail => ?_
  · have hflag : setsFlag env onShutdown item = false := by simp [setsFlag, transportFails, hok]
    refine (Triple.anything _).bind fun _ => (Triple.anything _).bind fun _ =>
      (Triple.anything _).bind fun _ => .pure fun _ _ => ?_
    rw [hflag, Bool.or_false]
  · have hfails : transportFails env item = true := by simpa [transportFails, hok] using hfail
    refine .ite (fun hshut => .pure fun _ _ => ?_) fun hshut => ?_
    · simp [setsFlag, hshut]
    · refine (Triple.anything _).bind fun _ => (Triple.anything _).bind fun _ =>
        (Triple.anything _).bind fun _ => .pure fun _ _ => ?_
      simp [setsFlag, hshut, hfails]
  · have hflag : setsFlag env onShutdown item = false := by
      simpa [setsFlag, transportFails, hok] using fun _ => hfail
    refine .ite (fun _ => ?_) fun _ => ?_
    · refine (Triple.anything _).bind fun _ => .pure fun _ _ => ?_
      rw [hflag, Bool.or_false]
    · refine (Triple.anything _).bind fun _ => (Triple.anything _).bind fun _ =>
        (Triple.anything _).bind fun _ => .pure fun _ _ => ?_
      rw [hflag, Bool.or_false]

theorem settleItems_flag (tally : Tally) (accepted : List ℤ) (items : List WorkItem) :
    Triple True (fun _ => True) (settleItems cfg env onShutdown draining tally accepted items)
      fun r _ => r.1.transportFail = (tally.transportFail || items.any (setsFlag env onShutdown)) := by
  induction items generalizing tally accepted with
  | nil => exact .pure fun _ _ => (Bool.or_false _).symm
  | cons item rest ih =>
    refine (settleItem_flag tally accepted item).bind fun r => ?_
    intro s hflag
    refine (ih r.1 r.2).post (fun r' _ hrest => ?_) s trivial
    rw [hrest, hflag, List.any_cons, Bool.or_assoc]

theorem subWave_flag (tally : Tally) (items : List WorkItem) :
    Triple True (fun _ => True) (subWave cfg env onShutdown draining tally items)
      fun r _ => r.transportFail = (tally.transportFail || items.any (setsFlag env onShutdown)) := by
  refine (Triple.anything _).bind fun _ => (settleItems_flag tally [] items).bind fun r => ?_
  intro s hflag
  exact Triple.ite (P := fun _ => True) (fun _ => .pure fun _ _ => hflag)
    (fun _ => (Triple.anything _).bind fun _ => .pure fun _ _ => hflag) s trivial

structure SentWaves (env : FlushEnv) (onShutdown : Bool) (waves : List (List WorkItem))
    (before after : List WorkItem) (returned : Bool) (k : ℕ) : Prop where
  le : k ≤ waves.length
  sent : after = before ++ (waves.take k).flatten
  /-- No answer to a sub-wave before the last one set the flag. -/
  quiet : ∀ items ∈ waves.take (k - 1), items.any (setsFlag env onShutdown) = false
  /-- Without the flag, a wave that returns has sent everything. -/
  all : returned = true → (∀ items ∈ waves, items.any (setsFlag env onShutdown) = false) →
    k = waves.length

theorem subWaves_sent (waves : List (List WorkItem)) {tally : Tally}
    (hflag : tally.transportFail = false) (s : FlushWorld) : ∃ k,
      SentWaves env onShutdown waves s.sent
        (subWaves cfg env onShutdown draining tally waves s).1.sent
        (subWaves cfg env onShutdown draining tally waves s).2.isSome k := by
  induction waves generalizing tally s with
  | nil => exact ⟨0, le_rfl, (List.append_nil _).symm, by simp, fun _ _ => rfl⟩
  | cons items rest ih =>
    have hsent : (subWave cfg env onShutdown draining tally items s).1.sent = s.sent ++ items :=
      subWave_sent tally items s
    have hset : ∀ r t, subWave cfg env onShutdown draining tally items s = (t, some r) →
        r.transportFail = (tally.transportFail || items.any (setsFlag env onShutdown)) :=
      (subWave_flag tally items s trivial).1
    rw [subWaves, if_neg (by simp [hflag])]
    rcases hr : subWave cfg env onShutdown draining tally items s with ⟨u, _ | tally'⟩
    · rw [hr] at hsent
      rw [bind_throws hr]
      exact ⟨1, by simp, by simpa using hsent, by simp, fun h => by cases h⟩
    · rw [hr] at hsent
      have hset' := hset tally' u hr
      rw [hflag, Bool.false_or] at hset'
      rw [bind_returns hr]
      cases hany : items.any (setsFlag env onShutdown) with
      | true =>
        have hstop : subWaves cfg env onShutdown draining tally' rest u = (u, some tally') := by
          cases rest with
          | nil => rfl
          | cons _ _ => rw [subWaves, if_pos (hset'.trans hany)]; rfl
        rw [hstop]
        refine ⟨1, by simp, by simpa using hsent, by simp, fun _ hquiet => ?_⟩
        rw [hquiet items List.mem_cons_self] at hany
        cases hany
      | false =>
        obtain ⟨k, hk⟩ := ih (hset'.trans hany) u
        refine ⟨k + 1, Nat.succ_le_succ hk.le, ?_, ?_, fun hreturned hquiet => ?_⟩
        · rw [hk.sent, hsent, List.take_succ_cons, List.flatten_cons, List.append_assoc]
        · intro wave hwave
          cases k with
          | zero => simp at hwave
          | succ n =>
            rcases List.mem_cons.mp hwave with rfl | hwave
            · exact hany
            · exact hk.quiet wave hwave
        · have hrest := hk.all hreturned fun wave hwave => hquiet wave (List.mem_cons_of_mem _ hwave)
          rw [hrest, List.length_cons]

/-- An item lies in the sub-wave of its position. -/
theorem mem_chunk {α : Type} {parallel i k : ℕ} (hpos : 0 < parallel) {work : List α} {x : α}
    (hx : work[i]? = some x) (hi : i / parallel < k) :
    ∃ items ∈ (chunks parallel work).take k, x ∈ items := by
  have hlt : i < work.length := (List.getElem?_eq_some_iff.mp hx).1
  have hchunk : i / parallel < (work.length + parallel - 1) / parallel := by
    rw [Nat.div_lt_iff_lt_mul hpos]
    exact hlt.trans_le (le_div_mul hpos work.length)
  refine ⟨(work.drop (i / parallel * parallel)).take parallel, ?_, ?_⟩
  · rw [chunks, ← List.map_take, List.take_range]
    exact List.mem_map.mpr ⟨i / parallel, List.mem_range.mpr (lt_min hi hchunk), rfl⟩
  · have hplace : i / parallel * parallel + i % parallel = i := Nat.div_add_mod' i parallel
    refine List.mem_of_getElem? (i := i % parallel) ?_
    rw [List.getElem?_take, if_pos (Nat.mod_lt i hpos), List.getElem?_drop, hplace, hx]

def plannedWork (cfg : Settings) (env : FlushEnv) (onShutdown : Bool) (s : FlushWorld) :
    List WorkItem :=
  match (planFlush cfg env onShutdown s).2 with
  | some (some (_, work)) => work
  | _ => []

def plannedParallel (cfg : Settings) (env : FlushEnv) (onShutdown : Bool) (s : FlushWorld) : ℕ :=
  match (planFlush cfg env onShutdown s).2 with
  | some (some (draining, _)) => waveParallel cfg onShutdown draining
  | _ => 1

theorem waveParallel_shutdown : waveParallel cfg true draining = 1 := by
  simp [waveParallel]

theorem plannedParallel_pos (s : FlushWorld) : 0 < plannedParallel cfg env onShutdown s := by
  unfold plannedParallel
  split
  next draining _ _ =>
    cases onShutdown with
    | false => exact waveParallel_pos draining
    | true => rw [waveParallel_shutdown]; exact Nat.one_pos
  next => exact Nat.one_pos

theorem plannedParallel_shutdown (s : FlushWorld) : plannedParallel cfg env true s = 1 := by
  unfold plannedParallel
  split
  · exact waveParallel_shutdown
  · rfl

theorem sendPlan_sent (s : FlushWorld) (work : List WorkItem) : ∃ k,
    SentWaves env onShutdown (chunks (waveParallel cfg onShutdown draining) work) s.sent
      (sendPlan cfg env onShutdown (some (draining, work)) s).1.sent
      (sendPlan cfg env onShutdown (some (draining, work)) s).2.isSome k := by
  obtain ⟨logged, hlog, -, hsame⟩ := logFirstWave draining s
  have hnone : ({} : Tally).transportFail = false := rfl
  obtain ⟨k, hk⟩ : ∃ k, SentWaves env onShutdown
      (chunks (waveParallel cfg onShutdown draining) work) logged.sent
      (subWaves cfg env onShutdown draining {}
        (chunks (waveParallel cfg onShutdown draining) work) logged).1.sent
      (subWaves cfg env onShutdown draining {}
        (chunks (waveParallel cfg onShutdown draining) work) logged).2.isSome k :=
    subWaves_sent _ hnone logged
  rw [hsame] at hk
  rw [sendPlan, bind_returns hlog]
  refine ⟨k, ?_⟩
  rcases hr : subWaves cfg env onShutdown draining {}
    (chunks (waveParallel cfg onShutdown draining) work) logged with ⟨v, _ | tally⟩
  · rw [hr] at hk
    rw [bind_throws hr]
    exact hk
  · rw [hr] at hk
    have hrest : SendsNothing (do
        rotateAfterHold env onShutdown draining tally work
        pure tally.flushed) := (sendsNothing_sections.rotateAfterHold _ _ tally work).bind fun _ => .pure _
    rw [bind_returns hr]
    exact ⟨hk.le, (hrest v).trans hk.sent, hk.quiet, fun _ => hk.all rfl⟩

/-- A flush sends the first sub-waves of its plan. -/
theorem flush_sent (s : FlushWorld) : ∃ k,
    SentWaves env onShutdown
      (chunks (plannedParallel cfg env onShutdown s) (plannedWork cfg env onShutdown s)) s.sent
      (tryFlushPending cfg env onShutdown s).1.sent
      (tryFlushPending cfg env onShutdown s).2.isSome k := by
  have hplan : (planFlush cfg env onShutdown s).1.sent = s.sent := sendsNothing_planFlush s
  rw [tryFlushPending_eq]
  unfold plannedParallel plannedWork
  rcases hp : planFlush cfg env onShutdown s with ⟨u, _ | _ | ⟨draining, work⟩⟩ <;> rw [hp] at hplan
  · rw [bind_throws hp]
    exact ⟨0, Nat.zero_le _, hplan.trans (List.append_nil _).symm, by simp, fun h => by cases h⟩
  · rw [bind_returns hp]
    exact ⟨0, Nat.zero_le _, hplan.trans (List.append_nil _).symm, by simp, fun _ _ => by simp [chunks]⟩
  · rw [bind_returns hp, ← show u.sent = s.sent from hplan]
    exact sendPlan_sent u work

theorem getElem?_of_take {α : Type} {work : List α} {n i : ℕ} {x : α}
    (h : (work.take n)[i]? = some x) : work[i]? = some x := by
  rw [List.getElem?_take] at h
  split_ifs at h
  exact h

/-- No sub-wave but the last one has an item that fails. -/
theorem endsAtFailure_of_quiet {parallel k : ℕ} (hpos : 0 < parallel) {work : List WorkItem}
    (hquiet : ∀ items ∈ (chunks parallel work).take (k - 1),
      items.any (transportFails env) = false) :
    endsAtFailure env parallel (work.take (k * parallel)) := by
  intro i item hi hfail
  by_contra hlong
  have hlength : (work.take (k * parallel)).length ≤ k * parallel := List.length_take_le _ _
  have hbefore : i / parallel < k - 1 := by
    have hlt : (i / parallel + 1) * parallel < k * parallel := by omega
    have := Nat.lt_of_mul_lt_mul_right hlt
    omega
  obtain ⟨items, hitems, hitem⟩ := mem_chunk hpos (getElem?_of_take hi) hbefore
  have hany := hquiet items hitems
  rw [List.any_eq_false] at hany
  exact hany item hitem hfail

/-- One item at a time, only the last item of the work list may fail. -/
theorem endsAtFailure_of_last {work : List WorkItem} (k : ℕ)
    (hlast : ∀ item ∈ work.dropLast, transportFails env item = false) :
    endsAtFailure env 1 (work.take k) := by
  intro i item hi hfail
  have hwork := getElem?_of_take hi
  have hlength : (work.take k).length ≤ work.length := (List.take_sublist _ _).length_le
  by_contra hlong
  rw [Nat.div_one, Nat.mul_one] at hlong
  have hmem : item ∈ work.dropLast := by
    refine List.mem_of_getElem? (i := i) ?_
    rw [List.getElem?_dropLast, if_pos (by omega), hwork]
  rw [hlast item hmem] at hfail
  cases hfail

theorem last_of_endsAtFailure {work : List WorkItem} (h : endsAtFailure env 1 work) :
    ∀ item ∈ work.dropLast, transportFails env item = false := by
  intro item hitem
  obtain ⟨i, hi⟩ := List.mem_iff_getElem?.mp hitem
  rw [List.getElem?_dropLast] at hi
  split_ifs at hi with hbefore
  by_contra hfail
  have hends := h i item hi (by simpa using hfail)
  rw [Nat.div_one, Nat.mul_one] at hends
  omega

/-- Whatever the answers, a flush ends with the sub-wave of the first transport failure, unless
it is one of a shutdown. There it does so just when no item but the last one fails. -/
theorem flush_stops_iff (cfg : Settings) (env : FlushEnv) (onShutdown : Bool) (b : BlockStore)
    (o : OracleState) (d : DrainState) :
    let s := flushStart b o d
    let run := tryFlushPending cfg env onShutdown s
    let stops := endsAtFailure env (plannedParallel cfg env onShutdown s) run.1.sent
    let condition := onShutdown = false ∨
      ∀ item ∈ (plannedWork cfg env onShutdown s).dropLast, transportFails env item = false
    (condition → stops) ∧ (run.2 ≠ none → (stops ↔ condition)) := by
  intro s run stops condition
  obtain ⟨k, hk⟩ : ∃ k, SentWaves env onShutdown
      (chunks (plannedParallel cfg env onShutdown s) (plannedWork cfg env onShutdown s)) s.sent
      run.1.sent run.2.isSome k := flush_sent s
  have hsent : run.1.sent =
      (plannedWork cfg env onShutdown s).take (k * plannedParallel cfg env onShutdown s) :=
    hk.sent.trans (take_chunks_flatten _ _ _ hk.le)
  have hstops : condition → stops := by
    intro hcondition
    change endsAtFailure env (plannedParallel cfg env onShutdown s) run.1.sent
    rw [hsent]
    cases onShutdown with
    | false => exact endsAtFailure_of_quiet (plannedParallel_pos s) hk.quiet
    | true =>
      rw [plannedParallel_shutdown, Nat.mul_one]
      exact endsAtFailure_of_last k (hcondition.resolve_left (by decide))
  refine ⟨hstops, fun hreturns => ⟨fun hends => ?_, hstops⟩⟩
  cases onShutdown with
  | false => exact .inl rfl
  | true =>
    have hall := hk.all (Option.isSome_iff_ne_none.mpr hreturns) (by simp [setsFlag])
    change endsAtFailure env (plannedParallel cfg env true s) run.1.sent at hends
    rw [hk.sent, hall, List.take_length, chunks_all (plannedParallel_pos s),
      plannedParallel_shutdown] at hends
    exact .inr (last_of_endsAtFailure hends)

def deadPool : FlushEnv :=
  { flushEnv with
    poll := fun _ => { difficulty := some 100 }
    respond := fun _ => { status := 0, body := [] } }

def networkAt100 : OracleState := { networkOk := true, networkDifficulty := some 100 }

theorem deadPool_fails (item : WorkItem) : transportFails deadPool item = true := by
  have hanswer : deadPool.respond item.hit = { status := 0, body := [] } := rfl
  rw [transportFails, hanswer]
  decide

theorem flush_not_stopped : ¬ ∀ (cfg : Settings) (env : FlushEnv) (onShutdown : Bool)
    (b : BlockStore) (o : OracleState) (d : DrainState),
    endsAtFailure env (plannedParallel cfg env onShutdown (flushStart b o d))
      (tryFlushPending cfg env onShutdown (flushStart b o d)).1.sent := by
  intro hall
  have hends := hall {} deadPool true flushBag networkAt100 {}
  have hlength : (tryFlushPending {} deadPool true (flushStart flushBag networkAt100 {})).1.sent.length =
      2 := by decide +kernel
  rw [plannedParallel_shutdown] at hends
  generalize (tryFlushPending {} deadPool true (flushStart flushBag networkAt100 {})).1.sent = sent
    at hends hlength
  have hfirst := hends 0 (sent.get ⟨0, by omega⟩) (List.getElem?_eq_getElem _) (deadPool_fails _)
  omega

/-- Outside a shutdown the same two blocks share a sub-wave, and the flush ends with it. -/
theorem flush_stops_iff_dead : (tryFlushPending {} deadPool false
      (flushStart flushBag networkAt100 {})).1.sent.length = 2 ∧
    endsAtFailure deadPool (plannedParallel {} deadPool false (flushStart flushBag networkAt100 {}))
      (tryFlushPending {} deadPool false (flushStart flushBag networkAt100 {})).1.sent :=
  ⟨by decide +kernel, (flush_stops_iff {} deadPool false flushBag networkAt100 {}).1 (.inl rfl)⟩

end XnMiner

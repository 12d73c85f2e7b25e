import XnMiner.App.FlushRemoval
import XnMiner.Queue.Rotation

/-! # A wave that is held moves the cursor

While nobody else moves bag and oracles and the pool holds every block, one wave of
`try_flush_pending` sends the blocks that the rotation counts as attempted, and leaves the
cursor where the rotation puts it.
-/
namespace XnMiner
open TextCodec Actions

/-- Clock ticks apart, nothing happens around the wave, and every answer is a hold. -/
structure FlushEnv.Still (env : FlushEnv) (minute : ℕ) : Prop where
  minute_eq : ∀ k, env.minute k = minute
  enqueues : ∀ k, env.enqueues k = []
  oracleMoves : ∀ k o, env.oracleMoves k o = o
  refused : ∀ hit, (env.respond hit).ok = false
  delivered : ∀ hit, (env.respond hit).status ≠ 0
  definite : ∀ hit, isTransientSubmitFailure (env.respond hit).status (env.respond hit).body = false
  matching : ∀ hit, isDifficultyMismatch (env.respond hit).status (env.respond hit).body = false
  held : ∀ hit, isPoolHold (env.respond hit).status (env.respond hit).body = true

def FlushWorld.later (s : FlushWorld) (n : ℕ) : FlushWorld := { s with clock := s.clock + n }

variable {cfg : Settings} {env : FlushEnv} {minute : ℕ} {netM defaultM : ℤ} {wave : ℕ}
  {s : FlushWorld}

@[simp] theorem later_later (s : FlushWorld) (m n : ℕ) : (s.later m).later n = s.later (m + n) := by
  simp [FlushWorld.later, Nat.add_assoc]

theorem enter_still (h : env.Still minute) (s : FlushWorld) :
    enter env s = (s.later 1, some (s.later 1)) := by
  have hsame : s.interfere env = s.later 1 := by
    simp [FlushWorld.interfere, h.enqueues, h.oracleMoves, enqueueAll, FlushWorld.later]
  change (s.interfere env, some (s.interfere env)) = _
  rw [hsame]

structure Sendable (minute : ℕ) (netM : ℤ) (pb : PendingBlock) : Prop where
  ready : (readyToFlush minute pb.hit.blockType).1 = true
  cost : ∃ m, pb.hit.memoryCost = some m ∧ netM ≤ m

theorem sendable_of_mem_batch {b : BlockStore} {limit skipBeforeId : ℤ} {pb : PendingBlock}
    (hcost : ∀ pb ∈ b.pending, pb.hit.memoryCost ≠ none)
    (h : pb ∈ listFlushBatch b minute netM defaultM limit skipBeforeId) :
    Sendable minute netM pb := by
  obtain ⟨hmem, hok⟩ := List.mem_filter.mp (mem_eligible_of_mem_batch h)
  rw [flushable, Bool.and_eq_true, decide_eq_true_eq] at hok
  obtain ⟨m, hm⟩ := Option.ne_none_iff_exists'.mp (hcost pb hmem)
  refine ⟨hok.2, m, hm, ?_⟩
  simpa [hitM, hm] using hok.1

/-- The loop takes blocks until the wave is full. -/
theorem buildWork_still (h : env.Still minute) {pending : List PendingBlock}
    (hsend : ∀ pb ∈ pending, Sendable minute netM pb) {work : List WorkItem}
    (hroom : work.length < wave) (s : FlushWorld) :
    ∃ n work', buildWork cfg env false wave netM work pending s = (s.later n, some work') ∧
      work'.map WorkItem.id = (work.map WorkItem.id ++ pending.map PendingBlock.id).take wave := by
  induction pending generalizing work s with
  | nil =>
    refine ⟨0, work, rfl, ?_⟩
    rw [List.map_nil, List.append_nil, List.take_of_length_le (by simpa using hroom.le)]
  | cons pb rest ih =>
    rw [List.forall_mem_cons] at hsend
    obtain ⟨⟨hready, m, hm, hle⟩, hrest⟩ := hsend
    obtain ⟨hit, hform⟩ := Option.ne_none_iff_exists'.mp (submitForm_ne_none cfg pb.hit m)
    let item : WorkItem := { id := pb.id, hit }
    have hpos : 0 < wave := by omega
    have hstep : buildWork cfg env false wave netM work (pb :: rest) s =
        if wave ≤ (work ++ [item]).length then (s.later 1, some (work ++ [item]))
        else buildWork cfg env false wave netM (work ++ [item]) rest (s.later 1) := by
      rw [buildWork, bind_apply, enter_still h]
      simp only [h.minute_eq, hready, hm, Option.getD_some, not_lt.mpr hle, hform, if_false,
        Bool.true_eq_false, true_and, Nat.cast_pos, hpos, Nat.cast_le, item]
      split_ifs <;> rfl
    rw [hstep]
    split_ifs with hfull
    · refine ⟨1, work ++ [item], rfl, ?_⟩
      have hlen : (work ++ [item]).length = wave := by
        rw [List.length_append, List.length_singleton] at hfull ⊢
        omega
      have hids : work.map WorkItem.id ++ (pb :: rest).map PendingBlock.id =
          (work ++ [item]).map WorkItem.id ++ rest.map PendingBlock.id := by simp [item]
      rw [hids, List.take_append_of_le_length (by simpa using hlen.ge),
        List.take_of_length_le (by simpa using hlen.le)]
    · obtain ⟨n, work', hrun, hids⟩ := ih hrest (not_le.mp hfull) (s.later 1)
      refine ⟨1 + n, work', by rw [hrun, later_later], ?_⟩
      rw [hids]
      simp [item]

theorem settleItem_held (h : env.Still minute) (draining : Bool) (tally : Tally) (accepted : List ℤ)
    (item : WorkItem) (s : FlushWorld) : settleItem cfg env false draining tally accepted item s =
      (s, some ({ tally with holds := tally.holds + 1 }, accepted)) := by
  simp only [settleItem, h.refused, h.delivered, h.definite, h.held, h.matching, onlyIf,
    Bool.false_eq_true, if_false, or_false, true_or, if_true]
  rfl

theorem settleItems_held (h : env.Still minute) (draining : Bool) (tally : Tally)
    (accepted : List ℤ) (items : List WorkItem) (s : FlushWorld) :
    settleItems cfg env false draining tally accepted items s =
      (s, some ({ tally with holds := tally.holds + items.length }, accepted)) := by
  induction items generalizing tally with
  | nil => rfl
  | cons item rest ih =>
    rw [settleItems, bind_apply, settleItem_held h]
    simp only [ih, List.length_cons]
    congr 4
    omega

def FlushWorld.sending (s : FlushWorld) (items : List WorkItem) : FlushWorld :=
  { s with sent := s.sent ++ items }

theorem subWave_held (h : env.Still minute) (draining : Bool) (tally : Tally)
    (items : List WorkItem) (s : FlushWorld) : subWave cfg env false draining tally items s =
      (s.sending items, some { tally with holds := tally.holds + items.length }) := by
  have hsend : update (fun s : FlushWorld => { s with sent := s.sent ++ items }) s =
      (s.sending items, some ()) := rfl
  rw [subWave, bind_apply, hsend]
  simp only
  rw [bind_apply, settleItems_held h]
  rfl

theorem subWaves_held (h : env.Still minute) (draining : Bool) {tally : Tally}
    (hfail : tally.transportFail = false) (work : List (List WorkItem)) (s : FlushWorld) :
    subWaves cfg env false draining tally work s =
      (s.sending work.flatten, some { tally with holds := tally.holds + work.flatten.length }) := by
  induction work generalizing tally s with
  | nil => simp [subWaves, FlushWorld.sending, Pure.pure]
  | cons items rest ih =>
    rw [subWaves, if_neg (by simp [hfail]), bind_apply, subWave_held h]
    refine (ih (show ({ tally with holds := tally.holds + items.length } : Tally).transportFail =
      false from hfail) (s.sending items)).trans ?_
    simp [FlushWorld.sending, Nat.add_assoc]

theorem waveParallel_pos (draining : Bool) : 0 < waveParallel cfg false draining := by
  unfold waveParallel
  cases draining <;> simp

/-- As many sub-waves as are sent hold all of `n` items. -/
theorem le_div_mul {parallel : ℕ} (hpos : 0 < parallel) (n : ℕ) :
    n ≤ (n + parallel - 1) / parallel * parallel := by
  have hdiv := Nat.div_add_mod (n + parallel - 1) parallel
  have hmod := Nat.mod_lt (n + parallel - 1) hpos
  rw [Nat.mul_comm]
  omega

theorem chunks_all {α : Type} {parallel : ℕ} (hpos : 0 < parallel) (work : List α) :
    (chunks parallel work).flatten = work := by
  rw [chunks_flatten, List.take_of_length_le (le_div_mul hpos work.length)]

theorem rotateAfterHold_held (h : env.Still minute) (draining : Bool) {tally : Tally}
    (hflushed : tally.flushed = 0) (hholds : 0 < tally.holds) (hfail : tally.transportFail = false)
    {work : List WorkItem} {last : WorkItem} (hlast : work.getLast? = some last) (s : FlushWorld) :
    ∃ t, rotateAfterHold env false draining tally work s = (t, some ()) ∧ t.store = s.store ∧
      t.sent = s.sent ∧ t.drain.flushSkipBeforeId = last.id + 1 := by
  unfold rotateAfterHold
  rw [if_pos ⟨hflushed, rfl, hholds, hfail⟩, bind_apply, enter_still h]
  refine ⟨_, rfl, rfl, rfl, ?_⟩
  simp [hlast]

/-- The first wave of a drain is logged, and nothing else changes. -/
theorem logFirstWave (draining : Bool) (s : FlushWorld) :
    ∃ logged, onlyIf (draining = true) (setDrain fun d => { d with loggedFirstWave := true }) s =
      (logged, some ()) ∧ logged.store = s.store ∧ logged.sent = s.sent := by
  cases draining with
  | false => exact ⟨s, rfl, rfl, rfl⟩
  | true => exact ⟨_, rfl, rfl, rfl⟩

/-- A held wave sends what the rotation attempts, keeps the bag and moves the cursor. -/
theorem held_wave_rotates (h : env.Still minute) (draining : Bool) (hwave : 1 ≤ wave)
    (hcost : ∀ pb ∈ s.store.pending, pb.hit.memoryCost ≠ none) :
    ∃ t, sendListed cfg env false draining wave netM
        (listFlushBatch s.store minute netM defaultM (2 * wave) s.drain.flushSkipBeforeId) s =
      (t, some 0) ∧ t.store = s.store ∧
      t.drain.flushSkipBeforeId =
        rotate s.store minute netM defaultM wave s.drain.flushSkipBeforeId ∧
      t.sent.map WorkItem.id = s.sent.map WorkItem.id ++
        (attempted s.store minute netM defaultM wave s.drain.flushSkipBeforeId).map
          PendingBlock.id := by
  unfold rotate attempted
  generalize hlisted : listFlushBatch s.store minute netM defaultM (2 * wave)
    s.drain.flushSkipBeforeId = listed
  unfold sendListed
  cases hlast : listed.getLast? with
  | none =>
    obtain rfl := List.getLast?_eq_none_iff.mp hlast
    exact ⟨s, rfl, rfl, by simp, by simp⟩
  | some lastBlock =>
    have hsend : ∀ pb ∈ listed, Sendable minute netM pb := fun pb hpb =>
      sendable_of_mem_batch hcost (hlisted ▸ hpb)
    have hroom : ([] : List WorkItem).length < wave := hwave
    obtain ⟨n, work, hwork, hids⟩ : ∃ n work,
        buildWork cfg env false wave netM [] listed s = (s.later n, some work) ∧
          work.map WorkItem.id = _ := buildWork_still h hsend hroom s
    rw [List.map_nil, List.nil_append, ← List.map_take] at hids
    have hne : work ≠ [] := by
      rintro rfl
      have hnil : listed.take wave = [] := by simpa using hids.symm
      rcases List.take_eq_nil_iff.mp hnil with hzero | rfl
      · omega
      · cases hlast
    obtain ⟨last, hlastItem⟩ := Option.ne_none_iff_exists'.mp (mt List.getLast?_eq_none_iff.mp hne)
    have hcursor : ((listed.take wave).getLast?).map PendingBlock.id = some last.id := by
      rw [← List.getLast?_map, ← hids, List.getLast?_map, hlastItem]
      rfl
    obtain ⟨pb, hpb, hid⟩ := Option.map_eq_some_iff.mp hcursor
    obtain ⟨logged, hlog, hlogStore, hlogSent⟩ := logFirstWave draining (s.later n)
    let tally : Tally := { holds := 0 + work.length }
    have hsent : subWaves cfg env false draining {} (chunks (waveParallel cfg false draining) work)
        logged = (logged.sending work, some tally) := by
      rw [subWaves_held h draining rfl, chunks_all (waveParallel_pos draining)]
    have hholds : 0 < tally.holds := by simpa [tally] using List.length_pos_of_ne_nil hne
    obtain ⟨t, hrotate, hstore, hsentIds, hskip⟩ :=
      rotateAfterHold_held h draining rfl hholds rfl hlastItem (logged.sending work)
    refine ⟨t, ?_, hstore.trans hlogStore, ?_, ?_⟩
    · simp only [bind_apply, hwork, if_neg hne, hlog, hsent, hrotate]
      rfl
    · rw [hskip, hpb]
      simp [hid]
    · rw [hsentIds]
      simp [FlushWorld.sending, FlushWorld.later, hlogSent, hids]

end XnMiner

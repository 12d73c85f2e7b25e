import XnMiner.App.NoHitLost

/-! # The end of a session

`graceful_shutdown` drains the engine's pipeline unless `shutting_down_` was stored before.
`persist_queue_for_restart` stores it too, and then the engine is only stopped.
-/
namespace XnMiner
open TextCodec Transitions

/-- How far `graceful_shutdown` is with the engine. -/
inductive Teardown where
  | before
  | handling
  | over
  deriving DecidableEq

structure SessionEnd where
  world : HandoffWorld := {}
  engineRunning : Bool := true
  teardown : Teardown := .before
  /-- The hits of the drained pipeline, which `handle_batch_hits` gets. -/
  drained : Option (List BlockHit) := none
  toHandle : List BlockHit := []
  /-- The engine was running when the mining loop was left. -/
  stillRunning : Bool := false
  /-- `finalize_session` has stopped the engine. -/
  ended : Bool := false
  /-- `persist_queue_for_restart` stored `shutting_down_` before `graceful_shutdown` tested it. -/
  hurried : Bool := false

inductive EndAction where
  | handoff (a : HandoffAction)
  | throws (r : Readings)
  | engine (running : Bool)
  | drain (hits : List BlockHit)
  | drainThrows
  | stopEngine
  | finalStop

inductive SessionPart where
  | loop
  | graceful
  | bagging
  | final
  deriving DecidableEq

def MiningPc.part (pc : MiningPc) : SessionPart :=
  match pc with
  | .looping | .prepared _ false | .queueing _ _ false | .pushing _ false | .updating _ | .exited =>
    .loop
  | .prepared _ true | .queueing _ _ true | .pushing _ true | .halting | .draining => .graceful
  | .bagging _ false | .deferring false | .saving | .stopping false | .joining false => .bagging
  | .bagging _ true | .deferring true | .stopping true | .joining true | .finalizing | .closing
  | .returned => .final

def PersistPc.shuts (p : PersistPc) : Bool :=
  match p with
  | .shutting => true
  | _ => false

def MiningPc.shuts (pc : MiningPc) : Bool :=
  match pc with
  | .updating p => p.shuts
  | _ => false

/-- The step stores `shutting_down_` for a restart before the test. -/
def HandoffWorld.hurries (w : HandoffWorld) (a : HandoffAction) : Bool :=
  w.mining.part == .loop && match a with
    | .mining _ => w.mining.shuts
    | .persist _ => w.persister.shuts
    | _ => false

/-- While `graceful_shutdown` handles the drained hits, they come in order. -/
def SessionEnd.permits (s : SessionEnd) (a : HandoffAction) : Bool :=
  match a with
  | .hit raw _ => match s.world.mining with
    | .draining => s.teardown == .handling && s.toHandle.head? == some raw
    | _ => s.engineRunning
  | .drained => s.teardown == .over
  | _ => true

def SessionEnd.handoff (cfg : Settings) (s : SessionEnd) (a : HandoffAction) : Option SessionEnd :=
  if s.permits a then (s.world.step cfg a).map fun w =>
    { s with
      world := w
      toHandle := match a with
        | .hit _ _ => s.toHandle.tail
        | _ => s.toHandle
      stillRunning := match a with
        | .leaveLoop _ => s.engineRunning
        | _ => s.stillRunning
      hurried := s.hurried || s.world.hurries a }
  else none

def SessionEnd.step (cfg : Settings) (s : SessionEnd) (a : EndAction) : Option SessionEnd :=
  match a with
  | .handoff a => s.handoff cfg a
  | .throws r => (s.world.thrown r).map fun w => match w.mining with
    -- the rest of the drained hits and the stop of the engine are skipped
    | .draining => { s with world := w, toHandle := [], teardown := .over }
    | _ => { s with world := w }
  | .engine running => match s.world.mining with
    | .looping => some { s with engineRunning := running }
    | _ => none
  | .drain hits => match s.world.mining, s.teardown, s.engineRunning with
    | .draining, .before, true =>
      some { s with teardown := .handling, drained := some hits, toHandle := hits }
    | _, _, _ => none
  | .drainThrows => match s.world.mining, s.teardown, s.engineRunning with
    | .draining, .before, true => some { s with teardown := .over, drained := some [] }
    | _, _, _ => none
  | .stopEngine => match s.world.mining, s.teardown, s.engineRunning, s.toHandle with
    | .draining, .before, false, _ => some { s with teardown := .over }
    | .draining, .handling, _, [] => some { s with teardown := .over, engineRunning := false }
    | _, _, _, _ => none
  | .finalStop => match s.world.mining, s.ended with
    | .returned, false => some { s with engineRunning := false, ended := true }
    | _, _ => none

/-- At the head of the mining loop, before anybody has told the session to stop for a restart. -/
structure SessionEnd.fresh (s : SessionEnd) : Prop where
  world : s.world.fresh
  shuttingDown : s.world.shared.shuttingDown = false
  teardown : s.teardown = .before
  drained : s.drained = none
  toHandle : s.toHandle = []
  ended : s.ended = false
  hurried : s.hurried = false

def endMachine (cfg : Settings) : Machine SessionEnd EndAction where
  init := SessionEnd.fresh
  step s a t := s.step cfg a = some t

variable {cfg : Settings} {s t : Shared}

theorem callStore_shuttingDown {α : Type} {op : BlockStore → Effect α}
    (h : s.callStore op = some t) : t.shuttingDown = s.shuttingDown := by
  obtain ⟨-, -, rfl⟩ := Option.map_eq_some_iff.mp h
  rfl

theorem Bagging.shuttingDown {g : Bagging} {g' : Option Bagging} {r : Readings}
    (h : g.Moves r s t g') : t.shuttingDown = s.shuttingDown := by
  cases h with
  | swap | done => rfl
  | store hu => exact callStore_shuttingDown hu

theorem PersistPc.shuttingDown {p p' : PersistPc} {r : Readings} (h : p.Moves r s t p') :
    t.shuttingDown = (s.shuttingDown || p.shuts) := by
  cases h with
  | lock | shut | halt | stop => simp [PersistPc.shuts]
  | bag hmoves | bagged hmoves => simpa [PersistPc.shuts] using Bagging.shuttingDown hmoves
  | defer hu => simpa [PersistPc.shuts] using callStore_shuttingDown hu

inductive PartStep (s : Shared) (pc : MiningPc) (t : Shared) (pc' : MiningPc) : Prop where
  | early (hpart : pc.part = .loop) (hpart' : pc'.part = .loop) (hexited : pc' ≠ .exited)
      (hflag : t.shuttingDown = (s.shuttingDown || pc.shuts))
  | skipped (hpc : pc = .exited) (hflag : s.shuttingDown = true) (hpc' : pc' = .finalizing)
  | graceful (hpc : pc = .exited) (hflag : s.shuttingDown = false) (hpc' : pc' = .halting)
  | later (hpart : pc.part ≠ .loop) (hpart' : pc'.part = pc.part ∨
      pc.part = .bagging ∧ pc'.part = .final)

theorem MiningPc.partStep {pc pc' : MiningPc} {r : Readings} {exited : Bool}
    (h : pc.Moves cfg r exited s t pc') : PartStep s pc t pc' := by
  cases h with
  | @bags hit ending | @passes hit ending =>
    cases ending with
    | false => exact .early rfl rfl (by simp) (by simp [MiningPc.shuts])
    | true => exact .later (by simp [MiningPc.part]) (.inl rfl)
  | @queue hit reason ending _ hu =>
    have hflag := callStore_shuttingDown hu
    cases ending with
    | false => exact .early rfl rfl (by simp [MiningPc.handling]) (by simp [MiningPc.shuts, hflag])
    | true => exact .later (by simp [MiningPc.part]) (.inl rfl)
  | @push hit ending =>
    cases ending with
    | false => exact .early rfl rfl (by simp [MiningPc.handling]) (by simp [MiningPc.shuts])
    | true => exact .later (by simp [MiningPc.part]) (.inl rfl)
  | update hmoves | updated hmoves =>
    exact .early rfl rfl (by simp) (PersistPc.shuttingDown hmoves)
  | skip hflag => exact .skipped rfl hflag rfl
  | shut hflag => exact .graceful rfl hflag rfl
  | halt | defer | deferFinal | save | finalized | finalize | close =>
    exact .later (by simp [MiningPc.part]) (.inl rfl)
  | @bag g g' final | @bagged g final | @stop final =>
    cases final <;> exact .later (by simp [MiningPc.part]) (.inl rfl)
  | @stopped final | @joined final | @join final =>
    cases final with
    | false => exact .later (by simp [MiningPc.part]) (.inr ⟨rfl, rfl⟩)
    | true => exact .later (by simp [MiningPc.part]) (.inl rfl)

theorem SubmitPc.next_shuttingDown {pc pc' : SubmitPc} {r : Readings} (h : pc.Moves cfg r s t pc') :
    t.shuttingDown = s.shuttingDown := by
  cases h with
  | bag hu | queue hu | reject hu | finalDefer hu => exact callStore_shuttingDown hu
  | finalBag hmoves | finalBagged hmoves => exact Bagging.shuttingDown hmoves
  | _ => rfl

theorem SubmitPc.shuttingDown {pc pc' : SubmitPc} {e : SubmitEvent}
    (h : pc.step cfg e s = some (t, pc')) : t.shuttingDown = s.shuttingDown := by
  cases SubmitPc.step_steps h with
  | next hmoves => exact SubmitPc.next_shuttingDown hmoves
  | remove hu => exact callStore_shuttingDown hu
  | _ => rfl

def MiningPc.handlesDrained (pc : MiningPc) : Bool :=
  match pc with
  | .prepared _ true | .queueing _ _ true | .pushing _ true => true
  | _ => false

structure EndInv (s : SessionEnd) : Prop where
  loop : s.world.mining.part = .loop → s.drained = none ∧ s.teardown = .before ∧
    s.hurried = s.world.shared.shuttingDown
  exited : s.world.mining = .exited → s.stillRunning = s.engineRunning
  graceful : s.world.mining.part = .graceful → s.hurried = false ∧
    (s.teardown = .before → s.stillRunning = s.engineRunning) ∧
    (s.teardown ≠ .before → s.stillRunning = true → s.drained.isSome = true)
  handling : s.world.mining.handlesDrained = true → s.teardown = .handling
  bagging : s.world.mining.part = .bagging → s.hurried = false ∧
    (s.stillRunning = true → s.drained.isSome = true)
  final : s.world.mining.part = .final → s.stillRunning = true →
    (s.drained.isSome = true ↔ s.hurried = false)
  ended : s.ended = true → s.world.mining = .returned

variable {e : SessionEnd} {w : HandoffWorld}

/-- A step of another party, which may store the flag. -/
theorem EndInv.others (hi : EndInv e) (hmining : w.mining = e.world.mining) {shuts : Bool}
    (hflag : w.shared.shuttingDown = (e.world.shared.shuttingDown || shuts)) :
    EndInv { e with
      world := w
      hurried := e.hurried || (e.world.mining.part == .loop && shuts) } := by
  obtain ⟨hloop, hexited, hgraceful, hhandling, hbagging, hfinal, hended⟩ := hi
  have hlater : e.world.mining.part ≠ .loop →
      (e.hurried || (e.world.mining.part == .loop && shuts)) = e.hurried := by
    intro hpart
    simp [hpart]
  refine ⟨fun hpart => ?_, ?_, fun hpart => ?_, ?_, fun hpart => ?_, fun hpart => ?_, ?_⟩ <;>
    simp only [hmining] at *
  · obtain ⟨hdrained, hteardown, hhurried⟩ := hloop hpart
    exact ⟨hdrained, hteardown, by simp [hpart, hflag, hhurried]⟩
  · exact hexited
  · rw [hlater (by simp [hpart])]
    exact hgraceful hpart
  · exact hhandling
  · rw [hlater (by simp [hpart])]
    exact hbagging hpart
  · rw [hlater (by simp [hpart])]
    exact hfinal hpart
  · exact hended

/-- A step of the mining thread inside its part that leaves the flag alone. -/
theorem EndInv.within (hi : EndInv e) {toHandle : List BlockHit}
    (hpart : w.mining.part = e.world.mining.part) (hexited : w.mining ≠ .exited)
    (hended : e.ended = false) (hflag : w.shared.shuttingDown = e.world.shared.shuttingDown)
    (hhandling : w.mining.handlesDrained = true → e.teardown = .handling) :
    EndInv { e with world := w, toHandle := toHandle } where
  loop := fun h => by
    rw [hflag]
    exact hi.loop (hpart ▸ h)
  exited := fun h => absurd h hexited
  graceful := fun h => hi.graceful (hpart ▸ h)
  handling := hhandling
  bagging := fun h => hi.bagging (hpart ▸ h)
  final := fun h => hi.final (hpart ▸ h)
  ended := fun h => absurd (hended.symm.trans h) (by simp)

theorem EndInv.notEnded (hi : EndInv e) (h : e.world.mining ≠ .returned) : e.ended = false := by
  cases hended : e.ended with
  | false => rfl
  | true => exact absurd (hi.ended hended) h

theorem receiveHit_part (cfg : Settings) (raw : BlockHit) (r : Readings) (ending : Bool)
    (s : Shared) :
    (receiveHit cfg raw r ending s).2.part = (MiningPc.handling ending).part ∧
      (receiveHit cfg raw r ending s).2 ≠ .exited ∧
      (receiveHit cfg raw r ending s).1.shuttingDown = s.shuttingDown ∧
      ((receiveHit cfg raw r ending s).2.handlesDrained = true → ending = true) := by
  unfold receiveHit
  split_ifs
  · cases ending <;> simp [MiningPc.handling, MiningPc.handlesDrained]
  · split <;> cases ending <;> simp [MiningPc.handling, MiningPc.handlesDrained, MiningPc.part]

/-- A step of the mining thread inside `handle_hit` stays with drained hits, or with others. -/
theorem MiningPc.Moves.handlesDrained {pc pc' : MiningPc} {r : Readings} {exited : Bool}
    (h : pc.Moves cfg r exited s t pc') (hpc' : pc'.handlesDrained = true) :
    pc.handlesDrained = true := by
  cases h with
  | @bags hit ending | @passes hit ending =>
    cases ending with
    | false => simp [MiningPc.handlesDrained] at hpc'
    | true => rfl
  | @queue hit reason ending | @push hit ending =>
    cases ending <;> simp [MiningPc.handling, MiningPc.handlesDrained] at hpc'
  | @stopped final | @joined final | @join final =>
    cases final <;> simp [MiningPc.stopped, MiningPc.handlesDrained] at hpc'
  | _ => simp [MiningPc.handlesDrained] at hpc'

theorem EndInv.mining (hi : EndInv e) {pc : MiningPc} {r : Readings} {exited : Bool}
    (h : e.world.mining.step cfg r exited e.world.shared = some (t, pc)) :
    EndInv { e with
      world := { e.world with shared := t, mining := pc }
      hurried := e.hurried || (e.world.mining.part == .loop && e.world.mining.shuts) } := by
  have hended : e.ended = false := by
    refine hi.notEnded fun hpc => ?_
    rw [hpc] at h
    cases h
  have hnotEnded : ∀ {P : Prop}, e.ended = true → P := fun h => by simp [hended] at h
  have hhandling : pc.handlesDrained = true → e.teardown = .handling :=
    fun hpc => hi.handling ((MiningPc.step_moves h).handlesDrained hpc)
  cases MiningPc.partStep (MiningPc.step_moves h) with
  | early hpart hpart' hexited hflag =>
    obtain ⟨hdrained, hteardown, hhurried⟩ := hi.loop hpart
    refine ⟨fun _ => ⟨hdrained, hteardown, ?_⟩, fun hpc => absurd hpc hexited, ?_, hhandling, ?_,
      ?_, hnotEnded⟩
    · simp [hpart, hflag, hhurried]
    · exact fun hother => absurd (hpart'.symm.trans hother) (by decide)
    · exact fun hother => absurd (hpart'.symm.trans hother) (by decide)
    · exact fun hother => absurd (hpart'.symm.trans hother) (by decide)
  | skipped hpc hflag hpc' =>
    obtain ⟨hdrained, -, hhurried⟩ := hi.loop (by rw [hpc]; rfl)
    subst hpc'
    refine ⟨by simp [MiningPc.part], by simp, by simp [MiningPc.part], hhandling,
      by simp [MiningPc.part], fun _ _ => ?_, hnotEnded⟩
    simp [hdrained, hhurried, hflag]
  | graceful hpc hflag hpc' =>
    obtain ⟨-, hteardown, hhurried⟩ := hi.loop (by rw [hpc]; rfl)
    subst hpc'
    refine ⟨by simp [MiningPc.part], by simp, fun _ => ⟨?_, fun _ => hi.exited hpc, ?_⟩, hhandling,
      by simp [MiningPc.part], by simp [MiningPc.part], hnotEnded⟩
    · simp [hhurried, hflag, hpc, MiningPc.shuts]
    · exact fun hlate => absurd hteardown hlate
  | later hpart hpart' =>
    have hhurried : (e.hurried || (e.world.mining.part == .loop && e.world.mining.shuts)) =
        e.hurried := by simp [hpart]
    rw [hhurried]
    rcases hpart' with hsame | ⟨hbefore, hafter⟩
    · refine ⟨fun h => absurd (hsame.symm.trans h) hpart, ?_, fun h => hi.graceful (hsame ▸ h),
        hhandling, fun h => hi.bagging (hsame ▸ h), fun h => hi.final (hsame ▸ h), hnotEnded⟩
      rintro rfl
      exact absurd hsame.symm hpart
    · obtain ⟨hfalse, hdrained⟩ := hi.bagging hbefore
      refine ⟨fun h => absurd (hafter.symm.trans h) (by decide), ?_,
        fun h => absurd (hafter.symm.trans h) (by decide), hhandling,
        fun h => absurd (hafter.symm.trans h) (by decide), fun _ hrunning => ?_, hnotEnded⟩
      · rintro rfl
        cases hafter
      · exact iff_of_true (hdrained hrunning) hfalse

theorem EndInv.handoff (hi : EndInv e) {a : HandoffAction} {e' : SessionEnd}
    (h : e.handoff cfg a = some e') : EndInv e' := by
  unfold SessionEnd.handoff at h
  split_ifs at h with hpermits
  obtain ⟨w, hw, rfl⟩ := Option.map_eq_some_iff.mp h
  have hnone : ∀ {b : Bool}, (e.hurried || (b && false)) = e.hurried := by simp
  cases HandoffWorld.step_moves hw with
  | @hit raw r ending hpc =>
    simp only [HandoffWorld.hurries, hnone]
    obtain ⟨hpart, hexited, hflag, hdrained⟩ := receiveHit_part cfg raw r ending e.world.shared
    have hended := hi.notEnded (by cases ending <;> simp [hpc, MiningPc.handling])
    refine hi.within (hpart.trans (hpc ▸ rfl)) hexited hended hflag fun hhandles => ?_
    obtain rfl := hdrained hhandles
    rw [SessionEnd.permits, hpc] at hpermits
    exact of_decide_eq_true (Bool.and_eq_true_iff.mp hpermits).1
  | update hpc =>
    simp only [HandoffWorld.hurries, hnone]
    have hended := hi.notEnded (by simp [hpc])
    exact hi.within (by rw [hpc]; rfl) (by simp) hended rfl (by simp [MiningPc.handlesDrained])
  | leaveLoop hpc =>
    simp only [HandoffWorld.hurries, hnone]
    obtain ⟨hdrained, hteardown, hhurried⟩ := hi.loop (by rw [hpc]; rfl)
    have hended := hi.notEnded (by simp [hpc])
    refine ⟨fun _ => ⟨hdrained, hteardown, hhurried⟩, fun _ => rfl, by simp [MiningPc.part],
      by simp [MiningPc.handlesDrained], by simp [MiningPc.part], by simp [MiningPc.part], ?_⟩
    simp [hended]
  | drained hpc =>
    simp only [HandoffWorld.hurries, hnone]
    obtain ⟨hhurried, -, hdrained⟩ := hi.graceful (by rw [hpc]; rfl)
    have hended := hi.notEnded (by simp [hpc])
    have hover : e.teardown = .over := by simpa [SessionEnd.permits] using hpermits
    refine ⟨by simp [MiningPc.part], by simp, by simp [MiningPc.part],
      by simp [MiningPc.handlesDrained], fun _ => ⟨hhurried, hdrained (by simp [hover])⟩,
      by simp [MiningPc.part], ?_⟩
    simp [hended]
  | mining hu => exact hi.mining hu
  | @worker _ t pc hu =>
    have hflag := SubmitPc.shuttingDown hu
    exact hi.others (w := { e.world with shared := t, worker := pc }) rfl (by simpa using hflag)
  | @persist _ t p hu =>
    have hflag := PersistPc.shuttingDown (PersistPc.step_moves hu)
    exact hi.others (w := { e.world with shared := t, persister := p }) rfl hflag
  | requestStop =>
    have hflag := (Bool.or_false e.world.shared.shuttingDown).symm
    exact hi.others (w := { e.world with shared := { e.world.shared with running := false } })
      rfl hflag
  | @note op =>
    have hflag := (Bool.or_false e.world.shared.shuttingDown).symm
    exact hi.others (w := { e.world with
      shared := { e.world.shared with store := (op.exec e.world.shared.store).1 } }) rfl hflag

/-- What `graceful_shutdown` does to the engine while it drains. -/
theorem EndInv.tearDown (hi : EndInv e) (hpc : e.world.mining = .draining) {teardown : Teardown}
    {drained : Option (List BlockHit)} {toHandle : List BlockHit} {running : Bool}
    (hteardown : teardown ≠ .before)
    (hdrained : e.stillRunning = true → drained.isSome = true) :
    EndInv { e with
      teardown := teardown
      drained := drained
      toHandle := toHandle
      engineRunning := running } := by
  obtain ⟨hhurried, -, -⟩ := hi.graceful (by rw [hpc]; rfl)
  have hended := hi.notEnded (by simp [hpc])
  refine ⟨?_, ?_, fun _ => ⟨hhurried, fun h => absurd h hteardown, fun _ => hdrained⟩, ?_, ?_, ?_,
    ?_⟩
  · simp [hpc, MiningPc.part]
  · simp [hpc]
  · simp [hpc, MiningPc.handlesDrained]
  · simp [hpc, MiningPc.part]
  · simp [hpc, MiningPc.part]
  · simp [hended]

/-- What an enqueue throws is caught outside `handle_hit`. -/
theorem EndInv.caught (hi : EndInv e) {hit : BlockHit} {reason : Str} {ending : Bool}
    (hpc : e.world.mining = .queueing hit reason ending) (store : BlockStore) :
    EndInv { e with
      world := { e.world with
        shared := { e.world.shared with store }
        mining := .handling ending } } := by
  refine hi.within ?_ ?_ (hi.notEnded (by simp [hpc])) rfl ?_
  · rw [hpc]
    cases ending <;> rfl
  · cases ending <;> simp [MiningPc.handling]
  · cases ending <;> simp [MiningPc.handling, MiningPc.handlesDrained]

theorem EndInv.throws (hi : EndInv e) {r : Readings} {e' : SessionEnd}
    (h : e.step cfg (.throws r) = some e') : EndInv e' := by
  obtain ⟨w, hw, rfl⟩ := Option.map_eq_some_iff.mp h
  obtain ⟨hit, reason, ending, hpc, -, rfl⟩ := thrown_cases hw
  have hcaught := hi.caught hpc (enqueue e.world.shared.store hit reason r.stamp).store
  cases ending with
  | false => exact hcaught
  | true =>
    obtain ⟨-, -, hdrained⟩ := hi.graceful (by rw [hpc]; rfl)
    have hteardown := hi.handling (by rw [hpc]; rfl)
    exact hcaught.tearDown rfl (by simp) (hdrained (by simp [hteardown]))

theorem EndInv.step (hi : EndInv e) {a : EndAction} {e' : SessionEnd}
    (h : e.step cfg a = some e') : EndInv e' := by
  cases a with
  | handoff a => exact hi.handoff h
  | throws r => exact hi.throws h
  | engine running =>
    simp only [SessionEnd.step] at h
    split at h
    next hpc =>
      obtain rfl := Option.some.inj h
      have hpart : e.world.mining.part = .loop := by rw [hpc]; rfl
      refine ⟨hi.loop, ?_, ?_, hi.handling, hi.bagging, hi.final, hi.ended⟩
      · simp [hpc]
      · exact fun hother => absurd (hpart.symm.trans hother) (by decide)
    next => cases h
  | drain hits =>
    simp only [SessionEnd.step] at h
    split at h
    next hpc _ _ =>
      obtain rfl := Option.some.inj h
      exact hi.tearDown hpc (by simp) fun _ => rfl
    next => cases h
  | drainThrows =>
    simp only [SessionEnd.step] at h
    split at h
    next hpc _ _ =>
      obtain rfl := Option.some.inj h
      exact hi.tearDown hpc (by simp) fun _ => rfl
    next => cases h
  | stopEngine =>
    simp only [SessionEnd.step] at h
    split at h
    next hpc hbefore hstopped =>
      obtain rfl := Option.some.inj h
      obtain ⟨-, hrunning, -⟩ := hi.graceful (by rw [hpc]; rfl)
      refine hi.tearDown hpc (by simp) fun hstill => ?_
      rw [hrunning hbefore, hstopped] at hstill
      cases hstill
    next hpc hhandling _ =>
      obtain rfl := Option.some.inj h
      obtain ⟨-, -, hdrained⟩ := hi.graceful (by rw [hpc]; rfl)
      exact hi.tearDown hpc (by simp) (hdrained (by simp [hhandling]))
    next => cases h
  | finalStop =>
    simp only [SessionEnd.step] at h
    split at h
    next hpc hended =>
      obtain rfl := Option.some.inj h
      refine ⟨hi.loop, ?_, ?_, hi.handling, hi.bagging, hi.final, fun _ => hpc⟩
      · simp [hpc]
      · simp [hpc, MiningPc.part]
    next => cases h

theorem EndInv.init (h : e.fresh) : EndInv e := by
  obtain ⟨hworld, hflag, hteardown, hdrained, -, hended, hhurried⟩ := h
  refine ⟨fun _ => ⟨hdrained, hteardown, hhurried.trans hflag.symm⟩, ?_, ?_, ?_, ?_, ?_, ?_⟩
  · simp [hworld.mining]
  · simp [hworld.mining, MiningPc.part]
  · simp [hworld.mining, MiningPc.handlesDrained]
  · simp [hworld.mining, MiningPc.part]
  · simp [hworld.mining, MiningPc.part]
  · simp [hended]

structure HandlingInv (e : SessionEnd) : Prop where
  rest : e.teardown ≠ .handling → e.toHandle = []
  handling : e.teardown = .handling → e.world.mining.part = .graceful

/-- No step of the world leaves `graceful_shutdown` while it handles the hits. -/
theorem HandoffWorld.step_graceful {w w' : HandoffWorld} {a : HandoffAction}
    (h : w.step cfg a = some w') (hpart : w.mining.part = .graceful)
    (hdrained : a ≠ .drained) : w'.mining.part = .graceful := by
  cases HandoffWorld.step_moves h with
  | @hit raw r ending hpc =>
    have hsame := (receiveHit_part cfg raw r ending w.shared).1
    exact hsame.trans (hpc ▸ hpart)
  | mining hu =>
    cases MiningPc.partStep (MiningPc.step_moves hu) with
    | early hloop => simp [hloop] at hpart
    | skipped hpc => simp [hpc, MiningPc.part] at hpart
    | graceful hpc => simp [hpc, MiningPc.part] at hpart
    | later _ hpart' =>
      rcases hpart' with hsame | ⟨hbagging, -⟩
      · exact hsame.trans hpart
      · simp [hbagging] at hpart
  | update hpc | leaveLoop hpc => simp [hpc, MiningPc.part] at hpart
  | drained => exact absurd rfl hdrained
  | worker | persist | requestStop | note => exact hpart

theorem HandlingInv.step (hi : HandlingInv e) {a : EndAction} {e' : SessionEnd}
    (h : e.step cfg a = some e') : HandlingInv e' := by
  obtain ⟨hrest, hhandling⟩ := hi
  cases a with
  | handoff a =>
    simp only [SessionEnd.step, SessionEnd.handoff] at h
    split_ifs at h with hpermits
    obtain ⟨w, hw, rfl⟩ := Option.map_eq_some_iff.mp h
    constructor
    · intro hother
      cases a <;> simp [hrest hother]
    · intro hteardown
      refine HandoffWorld.step_graceful hw (hhandling hteardown) ?_
      rintro rfl
      simp only at hteardown
      simp [SessionEnd.permits, hteardown] at hpermits
  | throws r =>
    obtain ⟨w, hw, rfl⟩ := Option.map_eq_some_iff.mp h
    obtain ⟨hit, reason, ending, hpc, -, rfl⟩ := thrown_cases hw
    cases ending with
    | false =>
      refine ⟨hrest, fun hteardown => ?_⟩
      have hpart := hhandling hteardown
      rw [hpc] at hpart
      cases hpart
    | true => exact ⟨fun _ => rfl, fun hteardown => by cases hteardown⟩
  | engine running =>
    simp only [SessionEnd.step] at h
    split at h <;> cases h
    exact ⟨hrest, hhandling⟩
  | drain hits =>
    simp only [SessionEnd.step] at h
    split at h <;> cases h
    next hpc _ _ => exact ⟨fun hother => absurd rfl hother, fun _ => by rw [hpc]; rfl⟩
  | drainThrows =>
    simp only [SessionEnd.step] at h
    split at h <;> cases h
    next _ hbefore _ =>
      exact ⟨fun _ => hrest (by simp [hbefore]), fun hteardown => by cases hteardown⟩
  | stopEngine =>
    simp only [SessionEnd.step] at h
    split at h <;> cases h
    next _ hbefore _ =>
      exact ⟨fun _ => hrest (by simp [hbefore]), fun hteardown => by cases hteardown⟩
    next _ _ hempty => exact ⟨fun _ => hempty, fun hteardown => by cases hteardown⟩
  | finalStop =>
    simp only [SessionEnd.step] at h
    split at h <;> cases h
    exact ⟨hrest, hhandling⟩

/-- The step does not store `shutting_down_` for a restart before `graceful_shutdown` tests it. -/
def unhurried (e : SessionEnd) (a : EndAction) : Bool :=
  match a with
  | .handoff a => !e.world.hurries a
  | _ => true

theorem hurried_step {e' : SessionEnd} {a : EndAction} (h : e.step cfg a = some e') :
    e'.hurried = false ↔ e.hurried = false ∧ unhurried e a = true := by
  cases a with
  | handoff a =>
    simp only [SessionEnd.step, SessionEnd.handoff] at h
    split_ifs at h
    obtain ⟨w, -, rfl⟩ := Option.map_eq_some_iff.mp h
    simp [unhurried]
  | throws r =>
    obtain ⟨w, -, rfl⟩ := Option.map_eq_some_iff.mp h
    split <;> simp [unhurried]
  | _ =>
    simp only [SessionEnd.step] at h
    split at h <;> cases h <;> simp [unhurried]

/-- `drain_pipeline` was called, and `handle_batch_hits` has been through what it gave. -/
def SessionEnd.pipelineDrained (e : SessionEnd) : Prop := e.drained.isSome = true ∧ e.toHandle = []

/-- When the session is over, the pipeline of an engine that was running has been drained and
its hits handled if and only if nobody stored `shutting_down_` for a restart too early. -/
theorem session_drains_iff (cfg : Settings) (as : List EndAction) (e : SessionEnd)
    (hs : (endMachine cfg).Run as e) (hended : e.ended = true) (hrunning : e.stillRunning = true) :
    e.pipelineDrained ↔
      ((endMachine cfg).restrict fun e a => unhurried e a = true).Run as e := by
  have hi : EndInv e ∧ HandlingInv e := by
    refine Machine.Reachable.invariant (M := endMachine cfg)
      (I := fun e => EndInv e ∧ HandlingInv e)
      (fun e hfresh => ⟨EndInv.init hfresh, fun _ => hfresh.toHandle, ?_⟩) ?_ ⟨as, hs⟩
    · intro hteardown
      rw [hfresh.teardown] at hteardown
      cases hteardown
    · intro e a e' _ hi hstep
      exact ⟨hi.1.step hstep, hi.2.step hstep⟩
  have hinit : ∀ e, (endMachine cfg).init e → e.hurried = false := fun _ hfresh => hfresh.hurried
  have hfinal : e.world.mining.part = .final := by rw [hi.1.ended hended]; rfl
  have hhandled : e.toHandle = [] := by
    refine hi.2.rest fun hteardown => ?_
    rw [hi.2.handling hteardown] at hfinal
    cases hfinal
  rw [hs.restrict_iff hinit fun _ _ _ hstep => hurried_step hstep, SessionEnd.pipelineDrained,
    and_iff_left hhandled]
  exact hi.1.final hfinal hrunning

def miningSteps (n : ℕ) : List EndAction := List.replicate n (.handoff (.mining {}))

def workerSteps (n : ℕ) : List EndAction := List.replicate n (.handoff (.worker (.next {})))

def signalled : List EndAction :=
  .handoff .requestStop :: List.replicate 7 (.handoff (.persist {})) ++
  [.handoff (.leaveLoop false)] ++ workerSteps 8 ++ miningSteps 8 ++ [.finalStop]

def timeUp : List EndAction :=
  .handoff (.leaveLoop true) :: miningSteps 2 ++
  [.drain [rawHit], .handoff (.hit rawHit networkUp)] ++ miningSteps 2 ++
  [.stopEngine, .handoff .drained] ++ miningSteps 5 ++ workerSteps 8 ++ miningSteps 7 ++
  [.finalStop]

def SessionEnd.outcome (e : SessionEnd) : Bool × Bool × Bool :=
  (e.ended, e.stillRunning, e.drained.isSome)

theorem endStart_fresh : SessionEnd.fresh {} :=
  ⟨handoffStart_fresh, rfl, rfl, rfl, rfl, rfl, rfl⟩

theorem pipeline_left : ¬ ∀ (cfg : Settings) (as : List EndAction) (e : SessionEnd),
    (endMachine cfg).Run as e → e.ended = true → e.stillRunning = true → e.pipelineDrained := by
  intro hall
  have hrun : (runSteps (SessionEnd.step {}) {} signalled).map SessionEnd.outcome =
      some (true, true, false) := by decide +kernel
  obtain ⟨e, he, houtcome⟩ := Option.map_eq_some_iff.mp hrun
  simp only [SessionEnd.outcome, Prod.mk.injEq] at houtcome
  obtain ⟨hended, hrunning, hleft⟩ := houtcome
  have hstart : (endMachine {}).Run [] {} := .start endStart_fresh
  have hdrained := hall {} _ e (hstart.runSteps (fun _ _ _ _ h => h) he) hended hrunning
  exact absurd (hleft.symm.trans hdrained.1) (by decide)

theorem session_drains_run : ∃ e : SessionEnd, e.ended = true ∧ e.pipelineDrained := by
  have hrun : (runSteps (guarded unhurried (SessionEnd.step {})) {} timeUp).map
      SessionEnd.outcome = some (true, true, true) := by decide +kernel
  obtain ⟨e, he, houtcome⟩ := Option.map_eq_some_iff.mp hrun
  simp only [SessionEnd.outcome, Prod.mk.injEq] at houtcome
  obtain ⟨hended, hrunning, -⟩ := houtcome
  have hstart : ((endMachine {}).restrict fun e a => unhurried e a = true).Run [] {} :=
    .start endStart_fresh
  have hunhurried := hstart.runSteps_guarded (fun _ _ _ _ h => h) he
  refine ⟨e, hended, ?_⟩
  exact (session_drains_iff {} _ e hunhurried.of_restrict hended hrunning).mpr hunhurried

end XnMiner

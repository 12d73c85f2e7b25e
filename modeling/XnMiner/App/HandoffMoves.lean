import XnMiner.App.Handoff
import XnMiner.App.FlushRemoval

/-! # What each party can do in one step

One constructor for each way a step can go, with the tests it has passed.
-/
namespace XnMiner
open TextCodec Transitions

theorem some_pair_inj {α β : Type} {a a' : α} {b b' : β} (h : some (a, b) = some (a', b')) :
    a = a' ∧ b = b' := Prod.mk.inj (Option.some.inj h)

/-- A call that may fail, and the point behind it. -/
theorem map_pair_eq_some {α β : Type} {o : Option α} {a : α} {b b' : β}
    (h : (o.map fun u => (u, b)) = some (a, b')) : o = some a ∧ b = b' := by
  obtain ⟨u, rfl, heq⟩ := Option.map_eq_some_iff.mp h
  obtain ⟨rfl, rfl⟩ := Prod.mk.inj heq
  exact ⟨rfl, rfl⟩

variable {r : Readings} {s t : Shared}

inductive Bagging.Moves (r : Readings) (s : Shared) : Bagging → Shared → Option Bagging → Prop where
  | swap : Moves r s .swapping { s with liveSubmitQ := [] } (some (.storing s.liveSubmitQ))
  | done : Moves r s (.storing []) s none
  | store {job : LiveSubmitJob} {batch : List LiveSubmitJob} {t : Shared}
      (h : queueHit s job.hit SHUTDOWN_PENDING_REASON r.stamp = some t) :
      Moves r s (.storing (job :: batch)) t (some (.storing batch))

theorem Bagging.step_moves {g : Bagging} {g' : Option Bagging} (h : g.step r s = some (t, g')) :
    g.Moves r s t g' := by
  unfold Bagging.step at h
  split at h
  · obtain ⟨rfl, rfl⟩ := some_pair_inj h
    exact .swap
  · obtain ⟨rfl, rfl⟩ := some_pair_inj h
    exact .done
  · obtain ⟨hu, rfl⟩ := map_pair_eq_some h
    exact .store hu

inductive PersistPc.Moves (r : Readings) (s : Shared) : PersistPc → Shared → PersistPc → Prop where
  | lock (hfree : s.persistMu = false) : Moves r s .outside { s with persistMu := true } .shutting
  | shut : Moves r s .shutting { s with shuttingDown := true } .halting
  | halt : Moves r s .halting { s with running := false } .stopping
  | stop : Moves r s .stopping { s with submitWorkerRunning := false } (.bagging .swapping)
  | bag {g g' : Bagging} {t : Shared} (h : g.Moves r s t (some g')) :
      Moves r s (.bagging g) t (.bagging g')
  | bagged {g : Bagging} {t : Shared} (h : g.Moves r s t none) : Moves r s (.bagging g) t .deferring
  | defer {t : Shared} (h : (s.callStore fun b => deferAllToNextStart b r.minute) = some t) :
      Moves r s .deferring { t with persistMu := false } .outside

theorem PersistPc.step_moves {p p' : PersistPc} (h : p.step r s = some (t, p')) :
    p.Moves r s t p' := by
  unfold PersistPc.step at h
  split at h
  case h_1 =>
    split_ifs at h with hlocked
    obtain ⟨rfl, rfl⟩ := some_pair_inj h
    exact .lock (by simpa using hlocked)
  case h_2 =>
    obtain ⟨rfl, rfl⟩ := some_pair_inj h
    exact .shut
  case h_3 =>
    obtain ⟨rfl, rfl⟩ := some_pair_inj h
    exact .halt
  case h_4 =>
    obtain ⟨rfl, rfl⟩ := some_pair_inj h
    exact .stop
  case h_5 g =>
    obtain ⟨⟨u, g'⟩, hu, heq⟩ := Option.map_eq_some_iff.mp h
    have hmoves := Bagging.step_moves hu
    cases g' with
    | none =>
      obtain ⟨rfl, rfl⟩ := Prod.mk.inj heq
      exact .bagged hmoves
    | some g' =>
      obtain ⟨rfl, rfl⟩ := Prod.mk.inj heq
      exact .bag hmoves
  case h_6 =>
    obtain ⟨u, hu, heq⟩ := Option.map_eq_some_iff.mp h
    obtain ⟨rfl, rfl⟩ := Prod.mk.inj heq
    exact .defer hu

/-- The mining thread outside `receiveHit`; `exited` says whether the worker has exited. -/
inductive MiningPc.Moves (cfg : Settings) (r : Readings) (exited : Bool) (s : Shared) :
    MiningPc → Shared → MiningPc → Prop where
  | bags {hit : BlockHit} {ending : Bool} {reason : Str}
      (h : handleHitReason cfg r s.shuttingDown hit = some reason) :
      Moves cfg r exited s (.prepared hit ending) s (.queueing hit reason ending)
  | passes {hit : BlockHit} {ending : Bool}
      (h : handleHitReason cfg r s.shuttingDown hit = none) :
      Moves cfg r exited s (.prepared hit ending) s (.pushing hit ending)
  | queue {hit : BlockHit} {reason : Str} {ending : Bool} {t : Shared}
      (h : queueHit s hit reason r.stamp = some t) :
      Moves cfg r exited s (.queueing hit reason ending) t (.handling ending)
  | push {hit : BlockHit} {ending : Bool} :
      Moves cfg r exited s (.pushing hit ending)
        { s with liveSubmitQ := s.liveSubmitQ ++ [{ hit, kind := hit.blockType }] }
        (.handling ending)
  | update {p p' : PersistPc} {t : Shared} (h : p.Moves r s t p') (hinside : p' ≠ .outside) :
      Moves cfg r exited s (.updating p) t (.updating p')
  | updated {p : PersistPc} {t : Shared} (h : p.Moves r s t .outside) :
      Moves cfg r exited s (.updating p) t .looping
  | skip (h : s.shuttingDown = true) : Moves cfg r exited s .exited s .finalizing
  | shut (h : s.shuttingDown = false) :
      Moves cfg r exited s .exited { s with shuttingDown := true } .halting
  | halt : Moves cfg r exited s .halting { s with running := false } .draining
  | bag {g g' : Bagging} {final : Bool} {t : Shared} (h : g.Moves r s t (some g')) :
      Moves cfg r exited s (.bagging g final) t (.bagging g' final)
  | bagged {g : Bagging} {final : Bool} {t : Shared} (h : g.Moves r s t none) :
      Moves cfg r exited s (.bagging g final) t (.deferring final)
  | defer {t : Shared} (h : (s.callStore fun b => deferAllToNextStart b r.minute) = some t) :
      Moves cfg r exited s (.deferring false) t .saving
  | deferFinal {t : Shared} (h : (s.callStore fun b => deferAllToNextStart b r.minute) = some t) :
      Moves cfg r exited s (.deferring true) t (.stopping true)
  | save {t : Shared} (h : s.callStore flush = some t) :
      Moves cfg r exited s .saving t (.stopping false)
  | stopped {final : Bool} (hrunning : s.submitWorkerRunning = false) (h : s.joinable = false) :
      Moves cfg r exited s (.stopping final) s (.stopped final)
  | stop {final : Bool} :
      Moves cfg r exited s (.stopping final) { s with submitWorkerRunning := false } (.joining final)
  | joined {final : Bool} (h : s.joinable = false) :
      Moves cfg r exited s (.joining final) s (.stopped final)
  | join {final : Bool} (h : exited = true) :
      Moves cfg r exited s (.joining final) { s with joinable := false } (.stopped final)
  | finalized (h : s.finalized = true) : Moves cfg r exited s .finalizing s .returned
  | finalize (h : s.finalized = false) :
      Moves cfg r exited s .finalizing { s with finalized := true, running := false } .closing
  | close : Moves cfg r exited s .closing { s with shuttingDown := true } (.bagging .swapping true)

theorem MiningPc.step_moves {cfg : Settings} {exited : Bool} {pc pc' : MiningPc}
    (h : pc.step cfg r exited s = some (t, pc')) : pc.Moves cfg r exited s t pc' := by
  unfold MiningPc.step at h
  split at h
  case h_1 | h_2 | h_3 => cases h
  case h_4 hit ending =>
    split at h
    next reason hreason =>
      obtain ⟨rfl, rfl⟩ := some_pair_inj h
      exact .bags hreason
    next hreason =>
      obtain ⟨rfl, rfl⟩ := some_pair_inj h
      exact .passes hreason
  case h_5 hit reason ending =>
    obtain ⟨hu, rfl⟩ := map_pair_eq_some h
    exact .queue hu
  case h_6 hit ending =>
    obtain ⟨rfl, rfl⟩ := some_pair_inj h
    exact .push
  case h_7 p =>
    obtain ⟨⟨u, p'⟩, hu, heq⟩ := Option.map_eq_some_iff.mp h
    have hmoves := PersistPc.step_moves hu
    cases p' with
    | outside =>
      obtain ⟨rfl, rfl⟩ := Prod.mk.inj heq
      exact .updated hmoves
    | _ =>
      obtain ⟨rfl, rfl⟩ := Prod.mk.inj heq
      exact .update hmoves (by simp)
  case h_8 =>
    split_ifs at h with hflag
    · obtain ⟨rfl, rfl⟩ := some_pair_inj h
      exact .skip hflag
    · obtain ⟨rfl, rfl⟩ := some_pair_inj h
      exact .shut (by simpa using hflag)
  case h_9 =>
    obtain ⟨rfl, rfl⟩ := some_pair_inj h
    exact .halt
  case h_10 g final =>
    obtain ⟨⟨u, g'⟩, hu, heq⟩ := Option.map_eq_some_iff.mp h
    have hmoves := Bagging.step_moves hu
    cases g' with
    | none =>
      obtain ⟨rfl, rfl⟩ := Prod.mk.inj heq
      exact .bagged hmoves
    | some g' =>
      obtain ⟨rfl, rfl⟩ := Prod.mk.inj heq
      exact .bag hmoves
  case h_11 final =>
    obtain ⟨hu, rfl⟩ := map_pair_eq_some h
    cases final with
    | false => exact .defer hu
    | true => exact .deferFinal hu
  case h_12 =>
    obtain ⟨hu, rfl⟩ := map_pair_eq_some h
    exact .save hu
  case h_13 final =>
    split_ifs at h with hstopped
    · obtain ⟨rfl, rfl⟩ := some_pair_inj h
      exact .stopped hstopped.1 hstopped.2
    · obtain ⟨rfl, rfl⟩ := some_pair_inj h
      exact .stop
  case h_14 final =>
    split_ifs at h with hjoined hexited
    · obtain ⟨rfl, rfl⟩ := some_pair_inj h
      exact .joined hjoined
    · obtain ⟨rfl, rfl⟩ := some_pair_inj h
      exact .join hexited
  case h_15 =>
    split_ifs at h with hfinalized
    · obtain ⟨rfl, rfl⟩ := some_pair_inj h
      exact .finalized hfinalized
    · obtain ⟨rfl, rfl⟩ := some_pair_inj h
      exact .finalize (by simpa using hfinalized)
  case h_16 =>
    obtain ⟨rfl, rfl⟩ := some_pair_inj h
    exact .close

inductive SubmitPc.Moves (cfg : Settings) (r : Readings) (s : Shared) :
    SubmitPc → Shared → SubmitPc → Prop where
  | wake : Moves cfg r s .waiting { s with liveSubmitQ := [] } (.swapped s.liveSubmitQ)
  | bags {batch : List LiveSubmitJob} (h : s.shuttingDown = true) :
      Moves cfg r s (.swapped batch) s (.bagging batch)
  | processes {batch : List LiveSubmitJob} (h : s.shuttingDown = false) :
      Moves cfg r s (.swapped batch) s (.processing batch)
  | bagged : Moves cfg r s (.bagging []) s .checking
  | bag {job : LiveSubmitJob} {batch : List LiveSubmitJob} {t : Shared}
      (h : queueHit s job.hit SHUTDOWN_PENDING_REASON r.stamp = some t) :
      Moves cfg r s (.bagging (job :: batch)) t (.bagging batch)
  | processed : Moves cfg r s (.processing []) s .servicing
  | holds {job : LiveSubmitJob} {batch : List LiveSubmitJob} {reason : Str}
      (h : liveSubmitReason cfg r s.shuttingDown job.hit = some reason) :
      Moves cfg r s (.processing (job :: batch)) s (.queueing job.hit reason batch)
  | submits {job : LiveSubmitJob} {batch : List LiveSubmitJob}
      (h : liveSubmitReason cfg r s.shuttingDown job.hit = none) :
      Moves cfg r s (.processing (job :: batch)) s (.submitting job.hit batch)
  | queue {hit : BlockHit} {reason : Str} {batch : List LiveSubmitJob} {t : Shared}
      (h : queueHit s hit reason r.stamp = some t) :
      Moves cfg r s (.queueing hit reason batch) t (.processing batch)
  | reject {hit : BlockHit} {a : SubmitResult} {batch : List LiveSubmitJob} {t : Shared}
      (h : (s.callStore fun b => recordRejection b hit a.status a.body "live".toList
        (if isDifficultyMismatch a.status a.body then "parked".toList else "resubmission".toList)
        r.stamp) = some t) :
      Moves cfg r s (.rejecting hit a batch) t (.processing batch)
  | service : Moves cfg r s .servicing s .checking
  | ends (h : s.submitWorkerRunning = false) :
      Moves cfg r s .checking s (.finalBagging .swapping)
  | waits (h : s.submitWorkerRunning = true) : Moves cfg r s .checking s .waiting
  | finalBag {g g' : Bagging} {t : Shared} (h : g.Moves r s t (some g')) :
      Moves cfg r s (.finalBagging g) t (.finalBagging g')
  | finalBagged {g : Bagging} {t : Shared} (h : g.Moves r s t none) :
      Moves cfg r s (.finalBagging g) t .finalDeferring
  | finalDefer {t : Shared} (h : (s.callStore fun b => deferAllToNextStart b r.minute) = some t) :
      Moves cfg r s .finalDeferring t .finalDeciding
  | finalFlush : Moves cfg r s .finalDeciding s .finalFlush
  | finalSkip : Moves cfg r s .finalDeciding s .exited
  | exit : Moves cfg r s .finalFlush s .exited

theorem SubmitPc.next_moves {cfg : Settings} {pc pc' : SubmitPc}
    (h : pc.next cfg r s = some (t, pc')) : pc.Moves cfg r s t pc' := by
  unfold SubmitPc.next at h
  split at h
  case h_1 =>
    obtain ⟨rfl, rfl⟩ := some_pair_inj h
    exact .wake
  case h_2 batch =>
    obtain ⟨rfl, rfl⟩ := some_pair_inj h
    split_ifs with hflag
    · exact .bags hflag
    · exact .processes (by simpa using hflag)
  case h_3 =>
    obtain ⟨rfl, rfl⟩ := some_pair_inj h
    exact .bagged
  case h_4 job batch =>
    obtain ⟨hu, rfl⟩ := map_pair_eq_some h
    exact .bag hu
  case h_5 =>
    obtain ⟨rfl, rfl⟩ := some_pair_inj h
    exact .processed
  case h_6 job batch =>
    split at h
    next reason hreason =>
      obtain ⟨rfl, rfl⟩ := some_pair_inj h
      exact .holds hreason
    next hreason =>
      obtain ⟨rfl, rfl⟩ := some_pair_inj h
      exact .submits hreason
  case h_7 hit reason batch =>
    obtain ⟨hu, rfl⟩ := map_pair_eq_some h
    exact .queue hu
  case h_8 hit a batch =>
    obtain ⟨hu, rfl⟩ := map_pair_eq_some h
    exact .reject hu
  case h_9 =>
    obtain ⟨rfl, rfl⟩ := some_pair_inj h
    exact .service
  case h_10 =>
    obtain ⟨rfl, rfl⟩ := some_pair_inj h
    split_ifs with hstopped
    · exact .ends hstopped
    · exact .waits (by simpa using hstopped)
  case h_11 g =>
    obtain ⟨⟨u, g'⟩, hu, heq⟩ := Option.map_eq_some_iff.mp h
    have hmoves := Bagging.step_moves hu
    cases g' with
    | none =>
      obtain ⟨rfl, rfl⟩ := Prod.mk.inj heq
      exact .finalBagged hmoves
    | some g' =>
      obtain ⟨rfl, rfl⟩ := Prod.mk.inj heq
      exact .finalBag hmoves
  case h_12 =>
    obtain ⟨hu, rfl⟩ := map_pair_eq_some h
    exact .finalDefer hu
  case h_13 =>
    split_ifs at h
    · obtain ⟨rfl, rfl⟩ := some_pair_inj h
      exact .finalFlush
    · obtain ⟨rfl, rfl⟩ := some_pair_inj h
      exact .finalSkip
  case h_14 =>
    obtain ⟨rfl, rfl⟩ := some_pair_inj h
    exact .exit
  all_goals cases h

inductive SubmitPc.Steps (cfg : Settings) (s : Shared) :
    SubmitEvent → SubmitPc → Shared → SubmitPc → Prop where
  | next {r : Readings} {pc pc' : SubmitPc} {t : Shared} (h : pc.Moves cfg r s t pc') :
      Steps cfg s (.next r) pc t pc'
  | accepted {a : SubmitResult} {hit : BlockHit} {batch : List LiveSubmitJob} (h : a.ok = true) :
      Steps cfg s (.answer a) (.submitting hit batch)
        { s with accepted := hit.hashStr :: s.accepted } (.processing batch)
  | held {a : SubmitResult} {hit : BlockHit} {batch : List LiveSubmitJob} {reason : Str}
      (hok : a.ok = false) (h : answerReason a = some reason) :
      Steps cfg s (.answer a) (.submitting hit batch) s (.queueing hit reason batch)
  | rejected {a : SubmitResult} {hit : BlockHit} {batch : List LiveSubmitJob}
      (hok : a.ok = false) (h : answerReason a = none) :
      Steps cfg s (.answer a) (.submitting hit batch) s (.rejecting hit a batch)
  | flush {minute : ℕ} {netM defaultM fetch skip : ℤ} :
      Steps cfg s (.flush minute netM defaultM fetch skip) .servicing s
        (.flushing false (listFlushBatch s.store minute netM defaultM fetch skip) [])
  | finalFlush {minute : ℕ} {netM defaultM fetch skip : ℤ} :
      Steps cfg s (.flush minute netM defaultM fetch skip) .finalFlush s
        (.flushing true (listFlushBatch s.store minute netM defaultM fetch skip) [])
  | flushAccepted {pb : PendingBlock} {a : SubmitResult} {final : Bool}
      {listed : List PendingBlock} {ids : List ℤ} (hlisted : pb ∈ listed) (hok : a.ok = true) :
      Steps cfg s (.flushAnswer pb a) (.flushing final listed ids)
        { s with accepted := pb.hit.hashStr :: s.accepted }
        (.flushing final listed (ids ++ [pb.id]))
  | remove {final : Bool} {listed : List PendingBlock} {ids : List ℤ} {t : Shared}
      (h : (s.callStore fun b => markSubmittedMany b ids) = some t) :
      Steps cfg s .flushRemove (.flushing final listed ids) t (.flushing final listed [])
  | flushEnd {listed : List PendingBlock} :
      Steps cfg s .flushEnd (.flushing false listed []) s .servicing
  | finalEnd {listed : List PendingBlock} :
      Steps cfg s .flushEnd (.flushing true listed []) s .exited

/-- Every listed block has a form that can be submitted, so none is given up for want of one. -/
theorem SubmitPc.step_steps {cfg : Settings} {pc pc' : SubmitPc} {e : SubmitEvent}
    (h : pc.step cfg e s = some (t, pc')) : SubmitPc.Steps cfg s e pc t pc' := by
  unfold SubmitPc.step at h
  split at h
  case h_1 => exact .next (SubmitPc.next_moves h)
  case h_2 a hit batch =>
    split_ifs at h with hok
    · obtain ⟨rfl, rfl⟩ := some_pair_inj h
      exact .accepted hok
    · split at h
      next reason hreason =>
        obtain ⟨rfl, rfl⟩ := some_pair_inj h
        exact .held (by simpa using hok) hreason
      next hreason =>
        obtain ⟨rfl, rfl⟩ := some_pair_inj h
        exact .rejected (by simpa using hok) hreason
  case h_3 =>
    obtain ⟨rfl, rfl⟩ := some_pair_inj h
    exact .flush
  case h_4 =>
    obtain ⟨rfl, rfl⟩ := some_pair_inj h
    exact .finalFlush
  case h_5 pb a final listed ids =>
    split_ifs at h with hok
    obtain ⟨rfl, rfl⟩ := some_pair_inj h
    exact .flushAccepted hok.1 hok.2
  case h_6 pb m final listed ids =>
    split_ifs at h with hnone
    exact absurd (Option.isNone_iff_eq_none.mp hnone) (submitForm_ne_none cfg pb.hit m)
  case h_7 final listed ids =>
    obtain ⟨hu, rfl⟩ := map_pair_eq_some h
    exact .remove hu
  case h_8 final listed =>
    obtain ⟨rfl, rfl⟩ := some_pair_inj h
    cases final with
    | false => exact .flushEnd
    | true => exact .finalEnd
  case h_9 => cases h

inductive HandoffWorld.Moves (cfg : Settings) (w : HandoffWorld) :
    HandoffAction → HandoffWorld → Prop where
  | hit {raw : BlockHit} {r : Readings} {ending : Bool} (hpc : w.mining = .handling ending) :
      Moves cfg w (.hit raw r) { w with
        shared := (receiveHit cfg raw r ending w.shared).1
        mining := (receiveHit cfg raw r ending w.shared).2 }
  | update (hpc : w.mining = .looping) (hflag : w.shared.shuttingDown = false) :
      Moves cfg w .update { w with mining := .updating .outside }
  | leaveLoop {deadline : Bool} (hpc : w.mining = .looping)
      (h : w.shared.running = false ∨ deadline = true) :
      Moves cfg w (.leaveLoop deadline) { w with mining := .exited }
  | drained (hpc : w.mining = .draining) :
      Moves cfg w .drained { w with mining := .bagging .swapping false }
  | mining {r : Readings} {t : Shared} {pc : MiningPc}
      (h : w.mining.step cfg r (w.worker matches .exited) w.shared = some (t, pc)) :
      Moves cfg w (.mining r) { w with shared := t, mining := pc }
  | worker {e : SubmitEvent} {t : Shared} {pc : SubmitPc}
      (h : w.worker.step cfg e w.shared = some (t, pc)) :
      Moves cfg w (.worker e) { w with shared := t, worker := pc }
  | persist {r : Readings} {t : Shared} {p : PersistPc}
      (h : w.persister.step r w.shared = some (t, p)) :
      Moves cfg w (.persist r) { w with shared := t, persister := p }
  | requestStop : Moves cfg w .requestStop { w with shared := { w.shared with running := false } }
  | note {op : StoreOp} (hop : op.isNote = true) :
      Moves cfg w (.note op)
        { w with shared := { w.shared with store := (op.exec w.shared.store).1 } }

theorem HandoffWorld.step_moves {cfg : Settings} {w w' : HandoffWorld} {a : HandoffAction}
    (h : w.step cfg a = some w') : w.Moves cfg a w' := by
  cases a with
  | hit raw r =>
    simp only [HandoffWorld.step] at h
    split at h
    next hpc =>
      obtain rfl := Option.some.inj h
      exact .hit hpc
    next hpc =>
      obtain rfl := Option.some.inj h
      exact .hit hpc
    next => cases h
  | update =>
    simp only [HandoffWorld.step] at h
    split at h
    next hpc =>
      split_ifs at h with hflag
      obtain rfl := Option.some.inj h
      exact .update hpc (by simpa using hflag)
    next => cases h
  | leaveLoop deadline =>
    simp only [HandoffWorld.step] at h
    split at h
    next hpc =>
      split_ifs at h with hstop
      obtain rfl := Option.some.inj h
      exact .leaveLoop hpc hstop
    next => cases h
  | drained =>
    simp only [HandoffWorld.step] at h
    split at h
    next hpc =>
      obtain rfl := Option.some.inj h
      exact .drained hpc
    next => cases h
  | mining r =>
    obtain ⟨⟨t, pc⟩, hstep, rfl⟩ := Option.map_eq_some_iff.mp h
    exact .mining hstep
  | worker e =>
    obtain ⟨⟨t, pc⟩, hstep, rfl⟩ := Option.map_eq_some_iff.mp h
    exact .worker hstep
  | persist r =>
    obtain ⟨⟨t, p⟩, hstep, rfl⟩ := Option.map_eq_some_iff.mp h
    exact .persist hstep
  | requestStop =>
    obtain rfl := Option.some.inj h
    exact .requestStop
  | note op =>
    simp only [HandoffWorld.step] at h
    split_ifs at h with hop
    obtain rfl := Option.some.inj h
    exact .note hop

end XnMiner

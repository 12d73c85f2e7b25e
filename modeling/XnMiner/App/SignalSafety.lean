import XnMiner.App.LockScopes

/-! # Where a signal may interrupt a thread

`handle_signal` bags the live queue on the thread that the signal interrupts. It ends if and
only if that thread is outside every scope of the mutexes that the handler locks.
-/
namespace XnMiner.LockScopes
open Locks Transitions

/-- The order in which the mutexes are nested. -/
def Mutex.order (m : Mutex) : ℕ :=
  match m with
  | .state => 0
  | .dashboard | .wallet | .localStats | .xbs | .poller | .paper | .bagForward | .worker
  | .lane _ => 1
  | .persist => 2
  | .submit | .store | .metrics | .logger => 3

theorem threadCode_ordered (t : Thread) : (threadCode t).ordered Mutex.order 0 := by
  cases t with
  | mining => decide
  | submitWorker => decide
  | submitTask i =>
    have htask : submitTask.ordered Mutex.order 0 := by decide
    exact htask
  | laneWorker i =>
    revert i
    decide
  | networkPoller => decide
  | lastblockPoller => decide
  | bagForwarder => decide
  | woodyminer => decide
  | xenblockscan => decide

theorem bagLiveQueueToStore_ordered (jobs : ℕ) :
    (bagLiveQueueToStore (some jobs)).ordered Mutex.order 3 := by
  have hjob : (seq [BlockStore.enqueue, MetricsTracker.recordEnqueued]).ordered Mutex.order 3 := by
    decide
  have heach := hjob.times jobs
  have hsync : (seq [BlockStore.pendingCount, MetricsTracker.syncPending]).ordered
      Mutex.order 3 := by decide
  have hany : (Batch.ifAny (some jobs)
      (seq [BlockStore.pendingCount, MetricsTracker.syncPending])).ordered Mutex.order 3 := by
    cases jobs with
    | zero => trivial
    | succ jobs => exact hsync
  exact ⟨by decide, heach, hany, trivial⟩

theorem handleSignal_ordered (jobs : ℕ) : (handleSignal jobs).ordered Mutex.order 2 := by
  have hbag := bagLiveQueueToStore_ordered jobs
  have hrest : (seq [BlockStore.deferAllToNextStart, BlockStore.pendingCount, log]).ordered
      Mutex.order 3 := by decide
  exact ⟨le_refl 2, hbag, hrest⟩

def handlerMutexes : List Mutex := [.persist, .submit, .store, .metrics, .logger]

theorem mem_handlerMutexes_iff (m : Mutex) : m ∈ handlerMutexes ↔ 2 ≤ m.order := by
  cases m <;> simp [handlerMutexes, Mutex.order]

theorem handleSignal_needs {m : Mutex} (hm : m ∈ handlerMutexes) : (handleSignal 1).needs m := by
  simp only [handlerMutexes, List.mem_cons, List.not_mem_nil, or_false] at hm
  rcases hm with rfl | rfl | rfl | rfl | rfl
  · exact .inl rfl
  · exact .inr (.inl (.inl (.inl rfl)))
  · exact .inr (.inr (.inl (.inl rfl)))
  · exact .inr (.inl (.inr (.inr (.inl (.inr (.inl (.inl rfl)))))))
  · exact .inr (.inr (.inr (.inr (.inl (.inl rfl)))))

/-- With an empty live queue too, the handler writes to the log. -/
theorem handleSignal_needs_logger (jobs : ℕ) : (handleSignal jobs).needs .logger :=
  .inr (.inr (.inr (.inr (.inl (.inl rfl)))))

def Outside (k : List (Frame Mutex)) : Prop := ∀ m ∈ held k, m ∉ handlerMutexes

/-- Signals arrive only at threads that are outside. -/
def signalsOutside (s : Thread → List (Frame Mutex)) (a : Event Thread) : Prop :=
  match a with
  | .go _ _ => True
  | .signal t _ => Outside (s t)

theorem outside_iff (k : List (Frame Mutex)) : Outside k ↔ Clear Mutex.order 2 k := by
  unfold Outside Clear
  simp only [mem_handlerMutexes_iff, not_le]

theorem signalsOutside_eq : signalsOutside = clearSignals Mutex.order 2 := by
  funext s a
  cases a with
  | go t n => rfl
  | signal t n => exact propext (outside_iff (s t))

/-- A handler ends whatever the live queue holds if and only if the thread it interrupts, be it
in another handler, is outside. -/
theorem signal_terminates_iff {s : Thread → List (Frame Mutex)}
    (hs : (process.restrict signalsOutside).Reachable s) (t : Thread) :
    Terminates (process.restrict signalsOutside) handleSignal s t ↔ Outside (s t) := by
  rw [outside_iff]
  rw [signalsOutside_eq] at hs ⊢
  have hneeds : ∃ jobs, ∀ m, 2 ≤ Mutex.order m → (handleSignal jobs).needs m :=
    ⟨1, fun m hm => handleSignal_needs ((mem_handlerMutexes_iff m).mpr hm)⟩
  exact terminates_iff threadCode_ordered handleSignal_ordered hneeds hs t

def miningAt (k : List (Frame Mutex)) : Thread → List (Frame Mutex) :=
  Function.update (fun t => [.run (threadCode t)]) .mining k

def toStateScope : List ℕ := 1 :: List.replicate 22 0

/-- The state is locked there, which does not keep the handler from its end. -/
theorem signal_in_state_scope : ∃ k, runSteps alone [.run mainThread] toStateScope = some k ∧
    Mutex.state ∈ held k ∧
    Terminates (process.restrict signalsOutside) handleSignal (miningAt k) .mining := by
  obtain ⟨k, hk⟩ := Option.isSome_iff_exists.mp
    (by decide : (runSteps alone [.run mainThread] toStateScope).isSome = true)
  have hheld : (runSteps alone [.run mainThread] toStateScope).map held = some [Mutex.state] := by
    decide
  rw [hk, Option.map_some, Option.some.injEq] at hheld
  have hreach : (process.restrict signalsOutside).Reachable (miningAt k) :=
    reachable_alone (fun _ _ _ => trivial) hk
  refine ⟨k, hk, by simp [hheld], (signal_terminates_iff hreach .mining).mpr ?_⟩
  intro m hm
  rw [miningAt, Function.update_self, hheld] at hm
  rw [List.mem_singleton.mp hm]
  decide

/-- One step later the thread is in `SessionLogger::write`, and the handler waits for its mutex. -/
theorem signal_in_write : ∃ k, runSteps alone [.run mainThread] (toStateScope ++ [0]) = some k ∧
    process.Reachable (miningAt k) ∧ Mutex.logger ∈ held k ∧
    ¬ Terminates process handleSignal (miningAt k) .mining := by
  obtain ⟨k, hk⟩ := Option.isSome_iff_exists.mp
    (by decide : (runSteps alone [.run mainThread] (toStateScope ++ [0])).isSome = true)
  have hheld : (runSteps alone [.run mainThread] (toStateScope ++ [0])).map held =
      some [Mutex.logger, Mutex.state] := by decide
  rw [hk, Option.map_some, Option.some.injEq] at hheld
  have hreach : (process.restrict signalsOutside).Reachable (miningAt k) :=
    reachable_alone (fun _ _ _ => trivial) hk
  have hlogger : Mutex.logger ∈ held (miningAt k .mining) := by
    rw [miningAt, Function.update_self, hheld]
    exact List.mem_cons_self
  refine ⟨k, hk, hreach.of_restrict, by simp [hheld], ?_⟩
  exact not_terminates (fun _ _ _ h => h) hlogger (handleSignal_needs_logger 0)

end XnMiner.LockScopes

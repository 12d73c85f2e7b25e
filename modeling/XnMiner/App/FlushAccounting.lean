import XnMiner.App.FlushWave
import XnMiner.Queue.FreshIds
import XnMiner.Queue.EnqueueThrows

/-! # What a flush wave removes

The blocks of the bag are those it had at the start and those other threads have added,
less the ones removed so far. Only the ids in the answers of a sub-wave are removed.
-/
namespace XnMiner
open TextCodec Actions

/-- All that the wave serialises is valid UTF-8. -/
structure FlushEnv.Prints (env : FlushEnv) (b : BlockStore) : Prop where
  bag : ∀ pb ∈ b.pending, pb.prints
  enqueues : ∀ k, ∀ e ∈ env.enqueues k, e.hit.utf8 = true ∧ validUtf8 e.reason = true
  answers : ∀ hit, validUtf8 (env.respond hit).body = true
  stamps : ∀ k, validUtf8 (env.stamp k) = true

def acceptedIds (env : FlushEnv) (items : List WorkItem) : List ℤ :=
  (items.filter fun item => (env.respond item.hit).ok).map WorkItem.id

def FlushWorld.present (b : BlockStore) (s : FlushWorld) : List PendingBlock :=
  b.pending ++ s.enqueued

def WorkItem.submits (cfg : Settings) (item : WorkItem) (pb : PendingBlock) : Prop :=
  pb.id = item.id ∧ ∃ m, submitForm cfg pb.hit m = some item.hit

/-- Which ids are removed, which blocks were listed and which items were sent. -/
structure FlushStage where
  removed : List ℤ := []
  listed : List PendingBlock := []
  sent : List WorkItem := []

structure FlushInv (env : FlushEnv) (b : BlockStore) (g : FlushStage)
    (s : FlushWorld) : Prop where
  kept : s.store.pending.map blockHit =
    ((s.present b).filter fun pb => pb.id ∉ g.removed).map blockHit
  ids_lt : ∀ pb ∈ s.present b, pb.id < s.store.nextId
  nodup : ((s.present b).map PendingBlock.id).Nodup
  removed_mem : ∀ id ∈ g.removed, id ∈ (s.present b).map PendingBlock.id
  listed_mem : ∀ pb ∈ g.listed, blockHit pb ∈ (s.present b).map blockHit
  sent_eq : s.sent = g.sent
  prints : env.Prints b → ∀ pb ∈ s.store.pending, pb.prints

variable {cfg : Settings} {env : FlushEnv} {b : BlockStore} {g : FlushStage} {s : FlushWorld}

/-- One enqueue adds its block, if any, at the end. -/
theorem Enqueue.run_cases (e : Enqueue) (b : BlockStore) :
    (e.adds b = [] ∧ (e.run b).pending = b.pending ∧ b.nextId ≤ (e.run b).nextId) ∨
    (e.adds b = [freshBlock b e.hit e.reason] ∧
      (e.run b).pending = b.pending ++ [freshBlock b e.hit e.reason] ∧
      (e.run b).nextId = b.nextId + 1) := by
  unfold Enqueue.run Enqueue.adds loggedByEnqueue
  have hcases := enqueue_cases b e.hit e.reason e.queuedAt
  generalize enqueue b e.hit e.reason e.queuedAt = effect at hcases
  cases hcases with
  | duplicate hd =>
    rw [if_pos hd]
    exact .inl ⟨rfl, rfl, le_refl _⟩
  | unprinted hd ht =>
    rw [if_neg hd, if_pos ht]
    exact .inl ⟨rfl, rfl, by simp only [claimId]; omega⟩
  | added hd ht =>
    rw [if_neg hd, if_neg (by simp [ht])]
    exact .inr ⟨rfl, rfl, rfl⟩

/-- Other threads add blocks with fresh ids at the end. -/
theorem FlushInv.add (h : FlushInv env b g s) {store : BlockStore} {added : List PendingBlock}
    (hpending : store.pending = s.store.pending ++ added) (hnext : s.store.nextId ≤ store.nextId)
    (hids : ∀ pb ∈ added, s.store.nextId ≤ pb.id ∧ pb.id < store.nextId)
    (hnodup : (added.map PendingBlock.id).Nodup)
    (hprints : env.Prints b → ∀ pb ∈ added, pb.prints) :
    FlushInv env b g { s with store, enqueued := s.enqueued ++ added } := by
  have hpresent : FlushWorld.present b { s with store, enqueued := s.enqueued ++ added } =
      s.present b ++ added := (List.append_assoc ..).symm
  have hold : ∀ id ∈ (s.present b).map PendingBlock.id, id < s.store.nextId := by
    intro id hid
    obtain ⟨pb, hpb, rfl⟩ := List.mem_map.mp hid
    exact h.ids_lt pb hpb
  constructor
  · have hnew : (added.filter fun pb => pb.id ∉ g.removed) = added := by
      rw [List.filter_eq_self]
      intro pb hpb
      simp only [decide_eq_true_eq]
      intro hin
      have := hold _ (h.removed_mem _ hin)
      have := (hids pb hpb).1
      omega
    rw [hpresent, List.filter_append, hnew, List.map_append, ← h.kept, hpending, List.map_append]
  · rw [hpresent]
    intro pb hpb
    rcases List.mem_append.mp hpb with hpb | hpb
    · exact lt_of_lt_of_le (h.ids_lt pb hpb) hnext
    · exact (hids pb hpb).2
  · rw [hpresent, List.map_append, List.nodup_append]
    refine ⟨h.nodup, hnodup, ?_⟩
    intro i hi j hj
    obtain ⟨pb, hpb, rfl⟩ := List.mem_map.mp hj
    have := hold i hi
    have := (hids pb hpb).1
    omega
  · rw [hpresent, List.map_append]
    exact fun id hid => List.mem_append_left _ (h.removed_mem id hid)
  · rw [hpresent, List.map_append]
    exact fun pb hpb => List.mem_append_left _ (h.listed_mem pb hpb)
  · exact h.sent_eq
  · intro hp pb hpb
    rw [hpending] at hpb
    rcases List.mem_append.mp hpb with hpb | hpb
    · exact h.prints hp pb hpb
    · exact hprints hp pb hpb

theorem FlushInv.enqueueAll (h : FlushInv env b g s) (es : List Enqueue)
    (hes : env.Prints b → ∀ e ∈ es, e.hit.utf8 = true ∧ validUtf8 e.reason = true) :
    FlushInv env b g { s with
      store := (enqueueAll es s.store).1, enqueued := s.enqueued ++ (enqueueAll es s.store).2 } := by
  induction es generalizing s with
  | nil => simpa [XnMiner.enqueueAll] using h
  | cons e es ih =>
    have hone : FlushInv env b g
        { s with store := e.run s.store, enqueued := s.enqueued ++ e.adds s.store } := by
      rcases e.run_cases s.store with ⟨hadds, hpending, hnext⟩ | ⟨hadds, hpending, hnext⟩
      · rw [hadds]
        exact h.add (by simpa using hpending) hnext (by simp) (by simp) (by simp)
      · rw [hadds]
        refine h.add hpending (by omega) ?_ (by simp) ?_
        · simp only [List.mem_singleton, forall_eq, freshBlock]
          omega
        · intro hp
          simpa [PendingBlock.prints, freshBlock] using hes hp e (.head _)
    have := ih hone fun hp e' he' => hes hp e' (.tail _ he')
    simpa only [XnMiner.enqueueAll, List.append_assoc] using this

theorem FlushInv.interfere (h : FlushInv env b g s) : FlushInv env b g (s.interfere env) := by
  have := h.enqueueAll (env.enqueues s.clock) fun hp => hp.enqueues s.clock
  exact ⟨this.kept, this.ids_lt, this.nodup, this.removed_mem, this.listed_mem, this.sent_eq,
    this.prints⟩

/-- Nothing but the bag's clock-free members takes part in the invariant. -/
theorem FlushInv.of_eq (h : FlushInv env b g s) {t : FlushWorld} (hstore : t.store = s.store)
    (henqueued : t.enqueued = s.enqueued) (hsent : t.sent = s.sent) : FlushInv env b g t := by
  have hpresent : t.present b = s.present b := by rw [FlushWorld.present, henqueued]; rfl
  obtain ⟨hkept, hids, hnodup, hremoved, hlisted, hs, hprints⟩ := h
  exact ⟨by rw [hstore, hpresent, hkept], by rwa [hstore, hpresent], by rwa [hpresent],
    by rwa [hpresent], by rwa [hpresent], hsent.trans hs, by rwa [hstore]⟩

structure Annotates (before after : BlockStore) : Prop where
  blocks : after.pending.map blockHit = before.pending.map blockHit
  nextId_eq : after.nextId = before.nextId
  prints : (∀ pb ∈ before.pending, pb.prints) → ∀ pb ∈ after.pending, pb.prints

theorem FlushInv.annotate (h : FlushInv env b g s) {store : BlockStore}
    (ha : Annotates s.store store) : FlushInv env b g { s with store } where
  kept := ha.blocks.trans h.kept
  ids_lt := fun pb hpb => (h.ids_lt pb hpb).trans_eq ha.nextId_eq.symm
  nodup := h.nodup
  removed_mem := h.removed_mem
  listed_mem := h.listed_mem
  sent_eq := h.sent_eq
  prints := fun hp => ha.prints (h.prints hp)

theorem Annotates.dirty {before after : BlockStore} (h : Annotates before after) (n : ℕ) :
    Annotates before { after with dirtyOps := n } := ⟨h.blocks, h.nextId_eq, h.prints⟩

theorem mem_modifyFirst {α : Type} {p : α → Bool} {f : α → α} {xs : List α} {y : α}
    (h : y ∈ modifyFirst p f xs) : y ∈ xs ∨ ∃ x ∈ xs, y = f x := by
  induction xs with
  | nil => cases h
  | cons x xs ih =>
    rw [modifyFirst] at h
    split_ifs at h with hp
    · rcases List.mem_cons.mp h with rfl | h
      · exact .inr ⟨x, .head _, rfl⟩
      · exact .inl (.tail _ h)
    · rcases List.mem_cons.mp h with rfl | h
      · exact .inl (.head _)
      · rcases ih h with h | ⟨x', hx', rfl⟩
        · exact .inl (.tail _ h)
        · exact .inr ⟨x', .tail _ hx', rfl⟩

theorem annotates_setReason (b : BlockStore) (id : ℤ) {reason : Str} (h : validUtf8 reason = true) :
    Annotates b (setReason b id reason) where
  blocks := by
    dsimp only [setReason]
    exact map_modifyFirst (by exact fun _ => rfl) b.pending
  nextId_eq := rfl
  prints := by
    intro hall pb hpb
    rcases mem_modifyFirst hpb with hpb | ⟨q, hq, rfl⟩
    · exact hall pb hpb
    · exact ⟨(hall q hq).1, h⟩

theorem validUtf8_deferReason (minute : ℕ) (pb : PendingBlock) :
    validUtf8 (deferReason minute pb) = true := by
  unfold deferReason
  split_ifs <;> decide

theorem annotates_deferAll (b : BlockStore) (minute : ℕ) : Annotates b (deferAll b minute) where
  blocks := by simp [deferAll, Function.comp_def, blockHit]
  nextId_eq := rfl
  prints := by
    intro hall pb hpb
    obtain ⟨q, hq, rfl⟩ := List.mem_map.mp hpb
    exact ⟨(hall q hq).1, validUtf8_deferReason minute q⟩

theorem enter_triple : Triple (¬ env.Prints b) (FlushInv env b g) (enter env)
    fun a s => a = s ∧ FlushInv env b g s :=
  (Triple.update fun _ h => h.interfere).bind fun _ => .look

/-- What the wave asks of an operation it calls. -/
theorem callStore_triple {α : Type} {op : BlockStore → Effect α} {g' : FlushStage}
    (hstore : ∀ s, FlushInv env b g s →
      FlushInv env b g' { s with store := (op s.store).store })
    (hreturns : ∀ s, FlushInv env b g s → env.Prints b → (op s.store).result ≠ none) :
    Triple (¬ env.Prints b) (FlushInv env b g) (callStore env op)
      fun _ => FlushInv env b g' := by
  refine enter_triple.bind fun a => Triple.bind (Q := fun _ t => FlushInv env b g' t ∧
    (env.Prints b → (op a.store).result ≠ none)) ?_ fun _ => ?_
  · refine .update ?_
    rintro s ⟨rfl, h⟩
    exact ⟨hstore a h, hreturns a h⟩
  · refine .lift (fun _ _ _ h => h.1) ?_
    intro hnone s h hprints
    exact h.2 hprints hnone

/-- The invariants of all stages. -/
abbrev FlushKeeps {α : Type} (env : FlushEnv) (b : BlockStore)
    (x : Action FlushWorld α) : Prop := Keeps (¬ env.Prints b) (FlushInv env b) x

theorem keeps_enter : FlushKeeps env b (enter env) := fun _ => enter_triple.post fun _ _ h => h.2

theorem keeps_setOracle (f : OracleState → OracleState) : FlushKeeps env b (setOracle f) :=
  .update fun _ _ h => h.of_eq rfl rfl rfl

theorem keeps_setDrain (f : DrainState → DrainState) : FlushKeeps env b (setDrain f) :=
  .update fun _ _ h => h.of_eq rfl rfl rfl

theorem keeps_markPendingReason (id : ℤ) {reason : Str} (h : validUtf8 reason = true) :
    FlushKeeps env b (callStore env fun st => markPendingReason st id reason) := by
  intro g
  refine callStore_triple (fun s hi => ?_) fun s hi hp => ?_
  · obtain ⟨n, hn⟩ := markPendingReason_store s.store id reason
    exact hi.annotate (hn ▸ (annotates_setReason s.store id h).dirty n)
  · have := maybeSaveUnlocked_returns (b := markDirtyUnlocked (setReason s.store id reason))
      ((annotates_setReason s.store id h).prints (hi.prints hp))
    simp [markPendingReason, this]

theorem keeps_deferAllToNextStart (minute : ℕ) :
    FlushKeeps env b (callStore env fun st => deferAllToNextStart st minute) := by
  intro g
  refine callStore_triple (fun s hi => ?_) fun s hi hp => ?_
  · obtain ⟨n, hn⟩ := deferAllToNextStart_store s.store minute
    exact hi.annotate (hn ▸ (annotates_deferAll s.store minute).dirty n)
  · have := saveDbUnlocked_returns (b := markDirtyUnlocked (deferAll s.store minute))
      ((annotates_deferAll s.store minute).prints (hi.prints hp))
    simp [deferAllToNextStart, this]

structure FlushSections (env : FlushEnv) (K : ∀ {α : Type}, Action FlushWorld α → Prop) : Prop
    extends Compositional K where
  enter : K (XnMiner.enter env)
  setOracle : ∀ f, K (XnMiner.setOracle f)
  setDrain : ∀ f, K (XnMiner.setDrain f)

section Sections
variable {K : ∀ {α : Type}, Action FlushWorld α → Prop}

theorem FlushSections.flushAllowed (h : FlushSections env K) : K (flushAllowed cfg env) :=
  h.bind h.enter fun _ => h.pure _

theorem FlushSections.flushBlocked (h : FlushSections env K) : K (flushBlocked cfg env) :=
  h.bind h.flushAllowed fun _ =>
    h.ite (h.pure _) (h.ite (h.pure _) (h.bind h.enter fun _ => h.pure _))

theorem FlushSections.refreshWithoutReplan (h : FlushSections env K) (blocking : Bool) :
    K (refreshWithoutReplan cfg env blocking) := by
  refine h.bind h.enter fun s => h.bind h.enter fun s' => ?_
  cases dedupePoll s'.oracle blocking (env.poll s.clock) with
  | none => exact h.pure _
  | some o =>
    refine h.bind (h.setOracle _) fun _ => h.bind h.enter fun _ => ?_
    cases (env.poll s.clock).difficulty with
    | some raw => exact h.bind (h.setOracle _) fun _ => h.pure _
    | none => exact h.bind (h.setOracle _) fun _ => h.bind h.enter fun _ => h.pure _

theorem FlushSections.refreshPaper (h : FlushSections env K) : K (refreshPaper env) := by
  refine h.bind h.enter fun s => ?_
  cases (env.paper s.clock).bind fun st => (claimPaper s.oracle st).map fun o => (st, o) with
  | none => exact h.pure _
  | some r => exact h.bind (h.setOracle _) fun _ => h.bind h.enter fun _ => h.setOracle _

theorem FlushSections.lastGoodMatches (h : FlushSections env K) : K (lastGoodMatches cfg env) :=
  h.bind h.flushAllowed fun _ => h.ite (h.pure _)
    (h.bind h.enter fun _ => h.bind h.enter fun _ => h.pure _)

theorem FlushSections.rotateAfterHold (h : FlushSections env K) (onShutdown draining : Bool)
    (tally : Tally) (work : List WorkItem) :
    K (rotateAfterHold env onShutdown draining tally work) :=
  h.ite (h.bind h.enter fun _ => h.bind (h.setOracle _) fun _ => h.setDrain _) (h.pure _)

end Sections

theorem keeps_sections : FlushSections env (FlushKeeps env b) :=
  ⟨Keeps.compositional, keeps_enter, keeps_setOracle, keeps_setDrain⟩

end XnMiner

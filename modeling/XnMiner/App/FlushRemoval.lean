import XnMiner.App.FlushAccounting

/-! # A flush removes what the pool accepted

The items of a wave are blocks of the bag, each submitted once. A sub-wave removes the
accepted ones after all its answers are settled.
-/
namespace XnMiner
open TextCodec Actions

variable {cfg : Settings} {env : FlushEnv} {b : BlockStore} {g : FlushStage} {s : FlushWorld}

theorem submitForm_ne_none (cfg : Settings) (hit : BlockHit) (m : ℤ) : submitForm cfg hit m ≠ none := by
  unfold submitForm
  split_ifs with h
  · simp
  · rw [prepareHitForSubmit_bare (by simpa using h)]
    simp

/-- The items are blocks of a list, each at most once. -/
structure WorkOf (cfg : Settings) (listed : List PendingBlock) (work : List WorkItem) : Prop where
  ids : (work.map WorkItem.id).Sublist (listed.map PendingBlock.id)
  submits : ∀ item ∈ work, ∃ pb ∈ listed, item.submits cfg pb

theorem WorkOf.pass {listed : List PendingBlock} {work : List WorkItem} (h : WorkOf cfg listed work)
    (more : List PendingBlock) : WorkOf cfg (listed ++ more) work where
  ids := by
    rw [List.map_append]
    exact h.ids.trans (List.sublist_append_left ..)
  submits := fun item hitem =>
    let ⟨pb, hpb, hsub⟩ := h.submits item hitem
    ⟨pb, List.mem_append_left _ hpb, hsub⟩

theorem WorkOf.take {listed : List PendingBlock} {work : List WorkItem} (h : WorkOf cfg listed work)
    {pb : PendingBlock} {m : ℤ} {hit : BlockHit} (hform : submitForm cfg pb.hit m = some hit) :
    WorkOf cfg (listed ++ [pb]) (work ++ [{ id := pb.id, hit }]) where
  ids := by
    rw [List.map_append, List.map_append]
    exact h.ids.append (List.Sublist.refl _)
  submits := by
    intro item hitem
    rcases List.mem_append.mp hitem with hitem | hitem
    · exact (h.pass [pb]).submits item hitem
    · obtain rfl := List.mem_singleton.mp hitem
      exact ⟨pb, by simp, rfl, m, hform⟩

/-- Building the work list removes nothing: every hit can be assembled. -/
theorem buildWork_triple (onShutdown : Bool) (wave netM : ℤ) (pending : List PendingBlock)
    {listed : List PendingBlock} {work : List WorkItem} (hwork : WorkOf cfg listed work) :
    Triple (¬ env.Prints b) (FlushInv env b g) (buildWork cfg env onShutdown wave netM work pending)
      fun out s => WorkOf cfg (listed ++ pending) out ∧ FlushInv env b g s := by
  induction pending generalizing listed work with
  | nil => exact .pure fun s hs => ⟨hwork.pass [], hs⟩
  | cons pb rest ih =>
    have hsplit : listed ++ pb :: rest = (listed ++ [pb]) ++ rest := by simp
    rw [buildWork, hsplit]
    refine enter_triple.bind fun s => .pre ?_ (fun _ h => h.2)
    refine .ite (fun _ => ih (hwork.pass [pb])) fun _ => .ite (fun _ => ih (hwork.pass [pb])) fun _ => ?_
    cases hform : submitForm cfg pb.hit
        (pb.hit.memoryCost.getD (miningDifficulty cfg env s.clock)) with
    | none => exact (submitForm_ne_none cfg _ _ hform).elim
    | some hit =>
      refine .ite (fun _ => .pure fun s hs => ⟨?_, hs⟩) fun _ => ih (hwork.take hform)
      exact (hwork.take hform).pass rest

@[simp] theorem acceptedIds_nil (env : FlushEnv) : acceptedIds env [] = [] := rfl

theorem acceptedIds_append (env : FlushEnv) (xs ys : List WorkItem) :
    acceptedIds env (xs ++ ys) = acceptedIds env xs ++ acceptedIds env ys := by
  simp [acceptedIds]

theorem acceptedIds_sublist (env : FlushEnv) (items : List WorkItem) :
    (acceptedIds env items).Sublist (items.map WorkItem.id) := List.filter_sublist.map _

theorem keeps_logRejection {hit : BlockHit} (hhit : env.Prints b → hit.utf8 = true) (status : ℤ)
    (k : ℕ) (body : Str) (hbody : env.Prints b → validUtf8 body = true) :
    FlushKeeps env b (callStore env fun st =>
      logRejection st hit status body "flush".toList (env.stamp k)) := by
  intro g
  refine callStore_triple (fun s hi => ?_) fun s hi hp => ?_
  · exact hi.of_eq (appendLine_store ..) rfl rfl
  · have hok : utf8Ok (rejectionRecord hit status body "flush".toList (env.stamp k)) = true := by
      rw [utf8Ok_rejectionRecord, hhit hp, hbody hp, hp.stamps]
      decide
    rw [logRejection, appendLine, dump, if_pos hok]
    simp

/-- One answer adds the item's id to the accepted ones exactly if the pool took it. -/
theorem settleItem_triple (onShutdown draining : Bool) (tally : Tally) (accepted : List ℤ)
    {item : WorkItem} (hitem : env.Prints b → item.hit.utf8 = true) :
    Triple (¬ env.Prints b) (FlushInv env b g)
      (settleItem cfg env onShutdown draining tally accepted item)
      fun r s => (r.2 = accepted ++ acceptedIds env [item] ∧
        r.1.flushed = tally.flushed + (acceptedIds env [item]).length) ∧ FlushInv env b g s := by
  have hnone : (env.respond item.hit).ok ≠ true → acceptedIds env [item] = [] := by
    intro h
    simp [acceptedIds, h]
  refine .ite (fun hok => ?_) fun hok => ?_
  · have hone : acceptedIds env [item] = [item.id] := by simp [acceptedIds, hok]
    rw [hone]
    refine ((keeps_setDrain _).onlyIf g).bind fun _ => (keeps_enter g).bind fun _ =>
      (keeps_setOracle _ g).bind fun _ => .pure fun s hs => ⟨⟨rfl, rfl⟩, hs⟩
  · rw [hnone hok, List.append_nil]
    refine .ite (fun _ => .ite (fun _ => .pure fun s hs => ⟨⟨rfl, rfl⟩, hs⟩) fun _ => ?_) fun _ =>
      .ite (fun _ => ?_) fun _ => ?_
    · exact (keeps_enter g).bind fun _ => (keeps_setOracle _ g).bind fun _ =>
        (keeps_markPendingReason _ (by decide) g).bind fun _ => .pure fun s hs => ⟨⟨rfl, rfl⟩, hs⟩
    · exact ((keeps_markPendingReason _ (by decide)).onlyIf g).bind fun _ =>
        .pure fun s hs => ⟨⟨rfl, rfl⟩, hs⟩
    · exact (Keeps.look g).bind fun _ =>
        (keeps_logRejection hitem _ _ _ (fun hp => hp.answers _) g).bind fun _ =>
        (keeps_markPendingReason _ (by decide) g).bind fun _ => .pure fun s hs => ⟨⟨rfl, rfl⟩, hs⟩

theorem settleItems_triple (onShutdown draining : Bool) {items : List WorkItem}
    (hitems : env.Prints b → ∀ item ∈ items, item.hit.utf8 = true) (tally : Tally)
    (accepted : List ℤ) :
    Triple (¬ env.Prints b) (FlushInv env b g)
      (settleItems cfg env onShutdown draining tally accepted items)
      fun r s => (r.2 = accepted ++ acceptedIds env items ∧
        r.1.flushed = tally.flushed + (acceptedIds env items).length) ∧ FlushInv env b g s := by
  induction items generalizing tally accepted with
  | nil => exact .pure fun s hs => ⟨⟨(List.append_nil _).symm, rfl⟩, hs⟩
  | cons item rest ih =>
    have hcons : acceptedIds env (item :: rest) =
        acceptedIds env [item] ++ acceptedIds env rest := acceptedIds_append env [item] rest
    refine (settleItem_triple onShutdown draining tally accepted
      fun hp => hitems hp item (.head _)).bind fun r => ?_
    intro s ⟨⟨hacc, hflushed⟩, hs⟩
    refine (ih (fun hp x hx => hitems hp x (.tail _ hx)) r.1 r.2).post ?_ s hs
    rintro r' t ⟨⟨hacc', hflushed'⟩, ht⟩
    refine ⟨⟨?_, ?_⟩, ht⟩
    · rw [hacc', hacc, hcons, List.append_assoc]
    · rw [hflushed', hflushed, hcons, List.length_append]
      omega

theorem map_blockHit_filter (blocks : List PendingBlock) (ids : List ℤ) :
    (blocks.filter fun pb => pb.id ∉ ids).map blockHit =
      (blocks.map blockHit).filter fun p => p.1 ∉ ids := by
  rw [List.filter_map]
  rfl

theorem filter_removed_append (blocks : List PendingBlock) (removed ids : List ℤ) :
    (blocks.filter fun pb => pb.id ∉ removed ++ ids) =
      (blocks.filter fun pb => pb.id ∉ removed).filter fun pb => pb.id ∉ ids := by
  rw [List.filter_filter]
  refine List.filter_congr fun pb _ => ?_
  simp only [List.mem_append, not_or, Bool.decide_and]
  exact Bool.and_comm _ _

theorem FlushInv.remove {listed : List PendingBlock} {sent : List WorkItem} {removed ids : List ℤ}
    (h : FlushInv env b { removed, listed, sent } s)
    (hids : ∀ id ∈ ids, id ∈ listed.map PendingBlock.id) (n : ℕ) :
    FlushInv env b { removed := removed ++ ids, listed, sent }
      { s with store := { eraseIds s.store ids with dirtyOps := n } } where
  kept := by
    change (eraseIds s.store ids).pending.map blockHit =
      ((s.present b).filter fun pb => pb.id ∉ removed ++ ids).map blockHit
    rw [eraseIds_pending, map_blockHit_filter, h.kept, ← map_blockHit_filter,
      ← filter_removed_append]
  ids_lt := fun pb hpb => (h.ids_lt pb hpb).trans_eq (eraseIds_nextId s.store ids).symm
  nodup := h.nodup
  removed_mem := by
    intro id hid
    rcases List.mem_append.mp hid with hid | hid
    · exact h.removed_mem id hid
    · obtain ⟨pb, hpb, rfl⟩ := List.mem_map.mp (hids id hid)
      obtain ⟨q, hq, heq⟩ := List.mem_map.mp (h.listed_mem pb hpb)
      exact List.mem_map.mpr ⟨q, hq, congrArg Prod.fst heq⟩
  listed_mem := h.listed_mem
  sent_eq := h.sent_eq
  prints := by
    intro hp pb hpb
    change pb ∈ (eraseIds s.store ids).pending at hpb
    rw [eraseIds_pending] at hpb
    exact h.prints hp pb (List.mem_filter.mp hpb).1

/-- The end of a sub-wave takes the accepted blocks out of the bag. -/
theorem markSubmittedMany_triple {listed : List PendingBlock} {sent : List WorkItem}
    {removed ids : List ℤ} (hids : ∀ id ∈ ids, id ∈ listed.map PendingBlock.id) :
    Triple (¬ env.Prints b) (FlushInv env b { removed, listed, sent })
      (callStore env fun st => markSubmittedMany st ids)
      fun _ => FlushInv env b { removed := removed ++ ids, listed, sent } := by
  refine callStore_triple (fun s hi => ?_) fun s hi hp => ?_
  · obtain ⟨n, hn⟩ := markSubmittedMany_store s.store ids
    rw [hn]
    exact hi.remove hids n
  · unfold markSubmittedMany
    split_ifs
    · simp
    · have := saveDbUnlocked_returns (b := markDirtyUnlocked (eraseIds s.store ids))
        ((hi.remove hids 0).prints hp)
      simp [this]

/-- All answers of a sub-wave are settled, and its accepted blocks are removed. -/
theorem subWave_triple (onShutdown draining : Bool) (tally : Tally) {items : List WorkItem}
    {listed : List PendingBlock} {sent : List WorkItem} {removed : List ℤ}
    (hitems : env.Prints b → ∀ item ∈ items, item.hit.utf8 = true)
    (hids : ∀ item ∈ items, item.id ∈ listed.map PendingBlock.id) :
    Triple (¬ env.Prints b) (FlushInv env b { removed, listed, sent })
      (subWave cfg env onShutdown draining tally items)
      fun r s => r.flushed = tally.flushed + (acceptedIds env items).length ∧
        FlushInv env b { removed := removed ++ acceptedIds env items, listed
                         sent := sent ++ items } s := by
  have haccepted : ∀ id ∈ acceptedIds env items, id ∈ listed.map PendingBlock.id := by
    intro id hid
    obtain ⟨item, hitem, rfl⟩ := List.mem_map.mp ((acceptedIds_sublist env items).subset hid)
    exact hids item hitem
  refine Triple.bind (Q := fun _ => FlushInv env b { removed, listed, sent := sent ++ items })
    (.update fun s hs => ?_) fun _ => ?_
  · exact ⟨hs.kept, hs.ids_lt, hs.nodup, hs.removed_mem, hs.listed_mem,
      congrArg (· ++ items) hs.sent_eq, hs.prints⟩
  · refine (settleItems_triple onShutdown draining hitems tally []).bind fun r => ?_
    intro s ⟨⟨hr, hflushed⟩, hs⟩
    rw [List.nil_append] at hr
    rw [hr]
    refine Triple.ite (fun hnil => .pure fun s hs => ?_) (fun _ => ?_) s hs
    · exact ⟨hflushed, by simpa [hnil] using hs⟩
    · exact (markSubmittedMany_triple haccepted).bind fun _ => .pure fun s hs => ⟨hflushed, hs⟩

theorem ascii_base64Char (n : ℕ) : (base64Char n).toNat < 0x80 := by
  have hall : ∀ k < 64, (kBase64Chars.getD k 'A').toNat < 0x80 := by decide +kernel
  exact hall (n % 64) (Nat.mod_lt _ (by decide))

theorem ascii_base64Encode (bytes : List ℕ) : ∀ c ∈ base64Encode bytes, c.toNat < 0x80 := by
  induction bytes using base64Encode.induct with
  | case1 => simp [base64Encode]
  | case2 => simp [base64Encode, ascii_base64Char]
  | case3 => simp [base64Encode, ascii_base64Char]
  | case4 a b c rest ih => simpa [base64Encode, ascii_base64Char] using ih

theorem ascii_natText (n : ℕ) : ∀ c ∈ natText n, c.toNat < 0x80 := by
  intro c hc
  have h := isDigit_of_mem_natText hc
  simp only [Char.isDigit, Bool.and_eq_true, decide_eq_true_eq] at h
  have hle : c.toNat ≤ '9'.toNat := h.2
  exact lt_of_le_of_lt hle (by decide)

theorem validUtf8_encode (saltHex : Str) (m t p : ℕ) (digest : Str) :
    validUtf8 (encodeArgon2idPhc saltHex m t p digest) = validUtf8 digest := by
  refine validUtf8_ascii_append ?_ digest
  have hlit : ["$argon2id$v=19$m=".toList, ",t=".toList, ",p=".toList, "$".toList].all
      (fun lit => lit.all fun c => decide (c.toNat < 0x80)) = true := by decide
  simp only [List.all_eq_true, decide_eq_true_eq] at hlit
  simp only [List.mem_append]
  rintro c ((((((((h | h) | h) | h) | h) | h) | h) | h) | h)
  all_goals first
    | exact ascii_natText _ c h
    | exact ascii_base64Encode _ c h
    | exact hlit _ (by simp) c h

theorem utf8_submitForm {hit out : BlockHit} {m : ℤ} (hhit : hit.utf8 = true)
    (h : submitForm cfg hit m = some out) : out.utf8 = true := by
  unfold submitForm at h
  split_ifs at h with hencoded
  · exact Option.some.inj h ▸ hhit
  · rw [prepareHitForSubmit_bare (by simpa using hencoded), Option.some.injEq] at h
    have htype : ∀ hash type, validUtf8 (classifyBlock hash type) = true := by
      intro hash type
      have hall : ∀ t ∈ ["XUNI".toList, "XBLK".toList, "XNM".toList, "OTHER".toList],
          validUtf8 t = true := by decide
      exact hall _ (classifyBlock_mem hash type)
    subst h
    simp only [BlockHit.utf8, Bool.and_eq_true] at hhit ⊢
    rw [validUtf8_encode]
    exact ⟨⟨⟨⟨hhit.1.1.1.1, hhit.1.1.1.2⟩, htype _ _⟩, hhit.1.2⟩, hhit.2⟩

/-- The first sub-waves are the beginning of the work list. -/
theorem take_chunks_flatten {α : Type} (parallel k : ℕ) (work : List α)
    (hk : k ≤ (chunks parallel work).length) :
    ((chunks parallel work).take k).flatten = work.take (k * parallel) := by
  rw [chunks, List.length_map, List.length_range] at hk
  rw [chunks, ← List.map_take, List.take_range, Nat.min_eq_left hk]
  induction k with
  | zero => simp
  | succ k ih =>
    rw [List.range_succ, List.map_append, List.flatten_append, ih (by omega), Nat.succ_mul,
      List.take_add]
    simp

theorem chunks_flatten {α : Type} (parallel : ℕ) (work : List α) : (chunks parallel work).flatten =
    work.take ((work.length + parallel - 1) / parallel * parallel) := by
  have hcount : (chunks parallel work).length = (work.length + parallel - 1) / parallel := by
    rw [chunks, List.length_map, List.length_range]
  rw [← hcount, ← take_chunks_flatten parallel _ work le_rfl, List.take_length]

theorem chunks_flatten_sublist {α : Type} (parallel : ℕ) (work : List α) :
    (chunks parallel work).flatten.Sublist work := by
  rw [chunks_flatten]
  exact List.take_sublist _ _

/-- The sub-waves send a part of the work list, and remove what of it was accepted. -/
theorem subWaves_triple (onShutdown draining : Bool) {work : List (List WorkItem)}
    {listed : List PendingBlock}
    (hitems : env.Prints b → ∀ item ∈ work.flatten, item.hit.utf8 = true)
    (hids : ∀ item ∈ work.flatten, item.id ∈ listed.map PendingBlock.id) (tally : Tally)
    {sent : List WorkItem} {removed : List ℤ} :
    Triple (¬ env.Prints b) (FlushInv env b { removed, listed, sent })
      (subWaves cfg env onShutdown draining tally work)
      fun r s => ∃ part, part.Sublist work.flatten ∧
        r.flushed = tally.flushed + (acceptedIds env part).length ∧
        FlushInv env b { removed := removed ++ acceptedIds env part, listed
                         sent := sent ++ part } s := by
  induction work generalizing tally sent removed with
  | nil => exact .pure fun s hs => ⟨[], List.nil_sublist _, rfl, by simpa using hs⟩
  | cons items rest ih =>
    rw [List.flatten_cons] at hitems hids ⊢
    refine .ite (fun _ => .pure fun s hs => ?_) fun _ => ?_
    · exact ⟨[], List.nil_sublist _, rfl, by simpa using hs⟩
    · refine (subWave_triple onShutdown draining tally
        (fun hp x hx => hitems hp x (List.mem_append_left _ hx))
        fun x hx => hids x (List.mem_append_left _ hx)).bind fun r => ?_
      intro s ⟨hflushed, hs⟩
      refine (ih (fun hp x hx => hitems hp x (List.mem_append_right _ hx))
        (fun x hx => hids x (List.mem_append_right _ hx)) r).post ?_ s hs
      rintro r' t ⟨part, hpart, hflushed', ht⟩
      refine ⟨items ++ part, (List.Sublist.refl _).append hpart, ?_, ?_⟩
      · rw [hflushed', hflushed, acceptedIds_append, List.length_append]
        omega
      · simpa only [acceptedIds_append, List.append_assoc] using ht

structure FlushDone (cfg : Settings) (env : FlushEnv) (b : BlockStore) (n : ℕ) (s : FlushWorld) :
    Prop where
  inv : ∃ listed, FlushInv env b { removed := acceptedIds env s.sent, listed, sent := s.sent } s ∧
    WorkOf cfg listed s.sent ∧ (listed.map PendingBlock.id).Nodup
  count : n = (acceptedIds env s.sent).length

theorem FlushInv.list (h : FlushInv env b {} s) {listed : List PendingBlock}
    (hlisted : ∀ pb ∈ listed, pb ∈ s.store.pending) : FlushInv env b { listed } s where
  kept := h.kept
  ids_lt := h.ids_lt
  nodup := h.nodup
  removed_mem := h.removed_mem
  listed_mem := by
    intro pb hpb
    have hmem := List.mem_map_of_mem (f := blockHit) (hlisted pb hpb)
    rw [h.kept] at hmem
    simpa using hmem
  sent_eq := h.sent_eq
  prints := h.prints

theorem FlushInv.ids_nodup (h : FlushInv env b {} s) :
    (s.store.pending.map PendingBlock.id).Nodup := by
  have hids : s.store.pending.map PendingBlock.id = (s.present b).map PendingBlock.id := by
    have := congrArg (List.map Prod.fst) h.kept
    simpa [Function.comp_def, blockHit] using this
  exact hids ▸ h.nodup

theorem FlushInv.done_unsent {listed : List PendingBlock} (h : FlushInv env b { listed } s)
    (hnodup : (listed.map PendingBlock.id).Nodup) : FlushDone cfg env b 0 s := by
  have hsent : s.sent = [] := h.sent_eq
  refine ⟨⟨listed, ?_, ?_, hnodup⟩, ?_⟩
  · rw [hsent]
    exact h
  · rw [hsent]
    exact ⟨List.nil_sublist _, by simp⟩
  · rw [hsent]
    rfl

theorem sendListed_triple (onShutdown draining : Bool) (wave netM : ℤ)
    {listed : List PendingBlock} (hnodup : (listed.map PendingBlock.id).Nodup)
    (hprints : env.Prints b → ∀ pb ∈ listed, pb.prints) :
    Triple (¬ env.Prints b) (FlushInv env b { listed })
      (sendListed cfg env onShutdown draining wave netM listed) (FlushDone cfg env b) := by
  unfold sendListed
  cases listed.getLast? with
  | none => exact .pure fun s hs => hs.done_unsent hnodup
  | some lastBlock =>
    have hstart : WorkOf cfg [] [] := ⟨List.Sublist.refl _, by simp⟩
    refine (buildWork_triple onShutdown wave netM listed hstart).bind fun work => ?_
    rintro s ⟨hwork, hs⟩
    rw [List.nil_append] at hwork
    have hpart := chunks_flatten_sublist (waveParallel cfg onShutdown draining) work
    have hitems : env.Prints b →
        ∀ item ∈ (chunks (waveParallel cfg onShutdown draining) work).flatten,
          item.hit.utf8 = true := by
      intro hp item hitem
      obtain ⟨pb, hpb, -, m, hform⟩ := hwork.submits item (hpart.subset hitem)
      exact utf8_submitForm (hprints hp pb hpb).1 hform
    have hids : ∀ item ∈ (chunks (waveParallel cfg onShutdown draining) work).flatten,
        item.id ∈ listed.map PendingBlock.id := by
      intro item hitem
      obtain ⟨pb, hpb, hid, -⟩ := hwork.submits item (hpart.subset hitem)
      exact List.mem_map.mpr ⟨pb, hpb, hid⟩
    refine Triple.ite (fun _ => ?_) (fun _ => ?_) s hs
    · exact (keeps_setDrain _ _).bind fun _ => .pure fun s hs => hs.done_unsent hnodup
    · refine ((keeps_setDrain _).onlyIf _).bind fun _ =>
        (subWaves_triple onShutdown draining hitems hids {}).bind fun tally => ?_
      rintro s ⟨part, hsub, hcount, hs⟩
      refine (((keeps_sections.rotateAfterHold onShutdown draining tally work) _).bind fun _ =>
        .pure fun s hs => ?_) s hs
      have hsent : s.sent = part := hs.sent_eq
      refine ⟨⟨listed, ?_, ⟨?_, ?_⟩, hnodup⟩, ?_⟩
      · rw [hsent]
        exact hs
      · rw [hsent]
        exact ((hsub.trans hpart).map _).trans hwork.ids
      · rw [hsent]
        exact fun item hitem => hwork.submits item ((hsub.trans hpart).subset hitem)
      · rw [hsent, hcount]
        exact Nat.zero_add _

theorem sendWave_triple (onShutdown : Bool) :
    Triple (¬ env.Prints b) (FlushInv env b {}) (sendWave cfg env onShutdown)
      (FlushDone cfg env b) := by
  refine (keeps_enter {}).bind fun _ => .ite (fun _ => .pure fun s hs => hs.done_unsent (by simp))
    fun _ => (keeps_enter {}).bind fun _ => (keeps_enter {}).bind fun _ =>
      enter_triple.bind fun a => ?_
  rintro s ⟨rfl, hs⟩
  refine sendListed_triple _ _ _ _ ?_ ?_ a (hs.list fun pb hpb => mem_pending_of_mem_batch hpb)
  · exact nodup_listFlushBatch hs.ids_nodup _ _ _ _ _
  · exact fun hp pb hpb => hs.prints hp pb (mem_pending_of_mem_batch hpb)

theorem tryFlushPending_triple (onShutdown : Bool) :
    Triple (¬ env.Prints b) (FlushInv env b {}) (tryFlushPending cfg env onShutdown)
      fun n s => FlushDone cfg env b n s := by
  have hnothing : Triple (¬ env.Prints b) (FlushInv env b {}) (pure 0)
      fun n s => FlushDone cfg env b n s := .pure fun s hs => hs.done_unsent (by simp)
  refine Triple.bind (Keeps.ite (.pure _) keeps_sections.flushBlocked {}) fun _ => .ite (fun _ => hnothing)
    fun _ => (keeps_sections.refreshWithoutReplan _ {}).bind fun _ => (keeps_sections.refreshPaper {}).bind fun _ =>
    .ite (fun _ => (keeps_enter {}).bind fun _ => (keeps_deferAllToNextStart _ {}).bind fun _ =>
      hnothing) fun _ => ?_
  refine Triple.bind (Keeps.ite (.pure _) keeps_sections.lastGoodMatches {}) fun _ =>
    .ite (fun _ => hnothing) fun _ => ?_
  exact Triple.bind (Keeps.ite (.pure _) keeps_sections.flushAllowed {}) fun _ =>
    .ite (fun _ => hnothing) fun _ => sendWave_triple onShutdown

def flushStart (b : BlockStore) (o : OracleState) (d : DrainState) : FlushWorld :=
  { store := b, oracle := o, drain := d }

theorem FlushInv.start {b : BlockStore} (h : IdInv b) (env : FlushEnv) (o : OracleState)
    (d : DrainState) : FlushInv env b {} (flushStart b o d) where
  kept := by simp [FlushWorld.present, flushStart]
  ids_lt := by
    intro pb hpb
    rw [FlushWorld.present, flushStart, List.append_nil] at hpb
    exact h.ids_lt pb hpb
  nodup := by
    rw [FlushWorld.present, flushStart, List.append_nil]
    exact h.ids_nodup
  removed_mem := by simp
  listed_mem := by simp
  sent_eq := rfl
  prints := fun hp => hp.bag

/-- Distinct ids that are taken out are so many blocks fewer. -/
theorem length_filter_add {blocks : List PendingBlock} {ids : List ℤ}
    (hblocks : (blocks.map PendingBlock.id).Nodup) (hids : ids.Nodup)
    (hmem : ∀ id ∈ ids, id ∈ blocks.map PendingBlock.id) :
    (blocks.filter fun pb => pb.id ∉ ids).length + ids.length = blocks.length := by
  have hout : ((blocks.filter fun pb => pb.id ∈ ids).map PendingBlock.id).Perm ids := by
    rw [List.perm_ext_iff_of_nodup ((List.filter_sublist.map _).nodup hblocks) hids]
    intro id
    constructor
    · intro h
      obtain ⟨pb, hpb, rfl⟩ := List.mem_map.mp h
      exact of_decide_eq_true (List.mem_filter.mp hpb).2
    · intro h
      obtain ⟨pb, hpb, rfl⟩ := List.mem_map.mp (hmem id h)
      exact List.mem_map.mpr ⟨pb, List.mem_filter.mpr ⟨hpb, decide_eq_true h⟩, rfl⟩
  have hlen := hout.length_eq
  rw [List.length_map] at hlen
  have hsplit := (List.filter_append_perm (fun pb : PendingBlock => decide (pb.id ∈ ids))
    blocks).length_eq
  have hnot : (blocks.filter fun pb => !decide (pb.id ∈ ids)) =
      blocks.filter fun pb => pb.id ∉ ids := by
    refine List.filter_congr fun pb _ => ?_
    simp
  rw [List.length_append, hlen, hnot] at hsplit
  omega

/-- A flush that returns has taken out exactly the blocks that the pool accepted, and its
value is their number. Each was submitted once, in its submit form. It returns if all it
serialises is valid UTF-8, and every hit has a submit form. Every bag from files of the store has
distinct ids that are used up; a file of another origin may repeat them. -/
theorem flush_removes_accepted (cfg : Settings) (env : FlushEnv) (onShutdown : Bool) (b : BlockStore)
    (o : OracleState) (d : DrainState) (hb : IdInv b) :
    (∀ n s, tryFlushPending cfg env onShutdown (flushStart b o d) = (s, some n) →
      s.store.pending.map blockHit = ((b.pending ++ s.enqueued).filter fun pb =>
        pb.id ∉ acceptedIds env s.sent).map blockHit ∧
      s.store.pending.length + n = (b.pending ++ s.enqueued).length ∧
      (s.sent.map WorkItem.id).Nodup ∧
      ∀ item ∈ s.sent, ∃ pb ∈ b.pending ++ s.enqueued, item.submits cfg pb) ∧
    (env.Prints b → (tryFlushPending cfg env onShutdown (flushStart b o d)).2 ≠ none) ∧
    ∀ hit m, submitForm cfg hit m ≠ none := by
  have hrun : Triple (¬ env.Prints b) (FlushInv env b {}) (tryFlushPending cfg env onShutdown)
      fun n s => FlushDone cfg env b n s := tryFlushPending_triple onShutdown
  have hrun := hrun _ (FlushInv.start hb env o d)
  refine ⟨fun n s hr => ?_, fun hp hnone => ?_, submitForm_ne_none cfg⟩
  · obtain ⟨⟨listed, hinv, hwork, hnodup⟩, rfl⟩ := hrun.1 n s hr
    have hsent : (s.sent.map WorkItem.id).Nodup := hwork.ids.nodup hnodup
    have haccepted : (acceptedIds env s.sent).Nodup := (acceptedIds_sublist env s.sent).nodup hsent
    refine ⟨hinv.kept, ?_, hsent, ?_⟩
    · have hlen := congrArg List.length hinv.kept
      rw [List.length_map, List.length_map] at hlen
      rw [hlen]
      exact length_filter_add hinv.nodup haccepted hinv.removed_mem
    · intro item hitem
      obtain ⟨pb, hpb, hid, m, hform⟩ := hwork.submits item hitem
      obtain ⟨q, hq, hkey⟩ := List.mem_map.mp (hinv.listed_mem pb hpb)
      obtain ⟨hqid, hqhit⟩ := Prod.mk.inj hkey
      exact ⟨q, hq, hqid.trans hid, m, hqhit ▸ hform⟩
  · exact hrun.2 _ (Prod.ext rfl hnone) hp

def digestHit (name : Str) : BlockHit :=
  { key := name, hashStr := "XEN11".toList ++ name, blockType := "XNM".toList
    memoryCost := some 100 }

def flushBag : BlockStore :=
  addLoaded (addLoaded {} { id := 1, hit := digestHit "a".toList })
    { id := 2, hit := digestHit "b".toList }

theorem flushBag_inv : IdInv flushBag := by
  refine ((IdInv.empty 1).addLoaded ?_).addLoaded ?_
  · simp
  · simp [addLoaded]

/-- The pool takes the first, and a third hit is enqueued while the answers come in. -/
def flushEnv : FlushEnv where
  now _ := 100
  minute _ := 30
  stamp _ := []
  poll _ := {}
  paper _ := none
  enqueues k := if k = 12 then [{ hit := digestHit "c".toList, reason := [], queuedAt := [] }] else []
  oracleMoves _ o := o
  engineDifficulty _ := 100
  draining _ := false
  respond hit := if hit.key = "a".toList then { status := 200, body := [] }
    else { status := 401, body := [] }

def flushRun : FlushWorld × Option ℕ :=
  tryFlushPending {} flushEnv false
    (flushStart flushBag { networkOk := true, networkDifficulty := some 100 } {})

theorem flush_removes_accepted_run : flushRun.2 = some 1 ∧ flushRun.1.enqueued.length = 1 ∧
    flushRun.1.store.pending.length = 2 := by
  have hreturns : flushRun.2 = some 1 := by decide +kernel
  have hadded : flushRun.1.enqueued.length = 1 := by decide +kernel
  have hcount := ((flush_removes_accepted {} flushEnv false flushBag _ {} flushBag_inv).1 1
    flushRun.1 (Prod.ext rfl hreturns)).2.1
  rw [List.length_append, hadded] at hcount
  refine ⟨hreturns, hadded, ?_⟩
  have hbag : flushBag.pending.length = 2 := rfl
  omega

end XnMiner

import XnMiner.Lists.Chunks
import XnMiner.System.WorkerPool
import XnMiner.Vendor.KeyGenerator

/-! # The pool that generates keys

All lanes share a pool of workers. A call of `fill` cuts its arena into pieces, one for each worker
at most, and waits until all of them are filled. Arenas lie in one memory of characters.
-/
namespace XnMiner
open TextCodec Pools Chunks Transitions

/-- A call with something to fill. All callers ask for keys of the length that workers generate. -/
structure KeygenRequest where
  arena : ℕ
  count : ℕ
  keyLength : ℕ
  keyPrefix : Str
  count_pos : 0 < count
  keyLength_eq : keyLength = HashApi.kHashApiKeyLength

structure KeygenJob where
  dst : ℕ
  count : ℕ
  keyPrefix : Str

namespace KeygenPool

def kDefaultThreads : ℤ := 4

def kMinThreads : ℤ := 2

def threadCount (logical threads : ℤ) : ℕ :=
  let logical := if logical < 1 then 2 else logical
  let cap := max kMinThreads logical
  (max kMinThreads (min cap (if 0 < threads then threads else kDefaultThreads))).toNat

section Fill
variable (threads : ℕ) (c : KeygenRequest)

def use : ℕ := max 1 (min (max 1 threads) c.count)

def chunk : ℕ := chunkSize c.count (use threads c)

def piece (t : ℕ) : KeygenJob :=
  let start := t * chunk threads c
  let stop := min c.count (start + chunk threads c)
  ⟨c.arena + start * c.keyLength, stop - start, c.keyPrefix⟩

/-- The last pieces can be empty. -/
def jobs : List KeygenJob :=
  (List.range (use threads c)).filterMap fun t =>
    if c.count ≤ t * chunk threads c then none else some (piece threads c t)

/-- The count that the pieces leave, of as many as there may be. -/
def remaining : ℤ :=
  use threads c - (List.range (use threads c)).countP fun t => c.count ≤ t * chunk threads c

end Fill

def storeKeys (dst totalLength : ℕ) (keys : List Str) (memory : ℕ → Char) (a : ℕ) : Char :=
  if dst ≤ a ∧ a < dst + keys.length * totalLength then
    (keys.getD ((a - dst) / totalLength) []).getD ((a - dst) % totalLength) '0'
  else memory a

def readText (memory : ℕ → Char) (a length : ℕ) : Str :=
  (List.range length).map fun i => memory (a + i)

section Pool
variable {G : Type} (next : G → BitVec 32 × G)

def runJob (j : KeygenJob) (s : RandomHexKeyGenerator G × (ℕ → Char)) :
    RandomHexKeyGenerator G × (ℕ → Char) :=
  if j.count = 0 then s
  else
    let gen := s.1.setPrefix j.keyPrefix
    let filled := gen.fillMany next j.count
    (filled.2, storeKeys j.dst gen.totalLength filled.1 s.2)

def arenaEnd (c : KeygenRequest) : ℕ := c.arena + c.count * c.keyLength

def work : Work KeygenRequest KeygenJob (RandomHexKeyGenerator G) (ℕ → Char) where
  jobs := jobs
  count := remaining
  run := runJob next
  fresh owns := ∃ logical threads, owns.length = threadCount logical threads ∧
    ∀ own ∈ owns, own.keyPrefix = [] ∧ own.totalLength = 64
  apart c d := arenaEnd c ≤ d.arena ∨ arenaEnd d ≤ c.arena
  spares c memory memory' := ∀ a, c.arena ≤ a → a < arenaEnd c → memory' a = memory a

end Pool

section Pieces
variable {threads : ℕ} {c : KeygenRequest} {j : KeygenJob}

theorem use_pos (threads : ℕ) (c : KeygenRequest) : 0 < use threads c :=
  Nat.lt_of_lt_of_le Nat.one_pos (Nat.le_max_left _ _)

theorem of_mem_jobs (h : j ∈ jobs threads c) : ∃ start, j.dst = c.arena + start * c.keyLength ∧
    0 < j.count ∧ start + j.count ≤ c.count ∧ j.keyPrefix = c.keyPrefix := by
  obtain ⟨t, -, ht⟩ := List.mem_filterMap.mp h
  split at ht
  next => cases ht
  next hlt =>
    obtain rfl := Option.some.inj ht
    have hchunk : 0 < chunk threads c := by
      by_contra hzero
      have hcover := le_mul_chunkSize (n := c.count) (use_pos threads c)
      have hpos := c.count_pos
      rw [← chunk, Nat.eq_zero_of_not_pos hzero] at hcover
      omega
    exact ⟨t * chunk threads c, rfl, by simp only [piece]; omega, by simp only [piece]; omega, rfl⟩

theorem exists_job {i : ℕ} (hi : i < c.count) : ∃ j ∈ jobs threads c, ∃ k < j.count,
    c.arena + i * c.keyLength = j.dst + k * c.keyLength := by
  obtain ⟨t, ht, hmem⟩ := exists_chunk (use_pos threads c) hi
  rw [Chunks.chunk, List.mem_range'_1, chunkEnd, ← chunk] at hmem
  refine ⟨piece threads c t, List.mem_filterMap.mpr ⟨t, List.mem_range.mpr ht, if_neg (by omega)⟩,
    i - t * chunk threads c, by simp only [piece]; omega, ?_⟩
  rw [piece, Nat.add_assoc, ← Nat.add_mul, Nat.add_sub_cancel' hmem.1]

theorem remaining_eq : remaining threads c = ((jobs threads c).length : ℤ) := by
  have hsum : ∀ (l : List ℕ) (f : ℕ → KeygenJob) (p : ℕ → Prop) [DecidablePred p],
      (l.filterMap fun t => if p t then none else some (f t)).length + l.countP p = l.length := by
    intro l f p _
    induction l with
    | nil => rfl
    | cons t l ih =>
      rw [List.filterMap_cons, List.countP_cons]
      by_cases ht : p t <;> simp [ht] <;> omega
  have h := hsum (List.range (use threads c)) (piece threads c)
    fun t => c.count ≤ t * chunk threads c
  rw [List.length_range] at h
  rw [remaining, jobs]
  omega

end Pieces

theorem readText_storeKeys {dst totalLength k : ℕ} {keys : List Str} {memory : ℕ → Char}
    (hkeys : ∀ key ∈ keys, key.length = totalLength) (hk : k < keys.length) :
    readText (storeKeys dst totalLength keys memory) (dst + k * totalLength) totalLength =
      keys[k] := by
  have hlength := hkeys _ (List.getElem_mem hk)
  apply List.ext_getElem
  · rw [readText, List.length_map, List.length_range, hlength]
  · intro i hi hi'
    rw [hlength] at hi'
    have hroom := Nat.mul_le_mul_right totalLength (Nat.succ_le_of_lt hk)
    rw [Nat.succ_mul] at hroom
    have hdiv : (dst + k * totalLength + i - dst) / totalLength = k := by
      rw [Nat.add_assoc, Nat.add_sub_cancel_left, Nat.mul_comm, Nat.mul_add_div (by omega),
        Nat.div_eq_of_lt hi', Nat.add_zero]
    have hmod : (dst + k * totalLength + i - dst) % totalLength = i := by
      rw [Nat.add_assoc, Nat.add_sub_cancel_left, Nat.mul_comm, Nat.mul_add_mod,
        Nat.mod_eq_of_lt hi']
    simp only [readText, List.getElem_map, List.getElem_range, storeKeys, hdiv, hmod]
    rw [if_pos (by omega), List.getD_eq_getElem _ _ hk, List.getD_eq_getElem]

theorem storeKeys_of_outside {dst totalLength a : ℕ} {keys : List Str} {memory : ℕ → Char}
    (h : a < dst ∨ dst + keys.length * totalLength ≤ a) :
    storeKeys dst totalLength keys memory a = memory a := if_neg (by omega)

theorem readText_congr {memory memory' : ℕ → Char} {a length : ℕ}
    (h : ∀ b, a ≤ b → b < a + length → memory' b = memory b) :
    readText memory' a length = readText memory a length :=
  List.map_congr_left fun i hi => h _ (by omega) (by have := List.mem_range.mp hi; omega)

section Laws
variable {G : Type} {next : G → BitVec 32 × G}

def Fit (own : RandomHexKeyGenerator G) : Prop := own.totalLength = 64

def Filled (c : KeygenRequest) (memory : ℕ → Char) (i : ℕ) : Prop :=
  IsKey (lower c.keyPrefix) c.keyLength
    (readText memory (c.arena + i * c.keyLength) c.keyLength)

theorem Filled.of_agree {c : KeygenRequest} {memory memory' : ℕ → Char} {i : ℕ}
    (h : Filled c memory i) (hagree : ∀ b, c.arena + i * c.keyLength ≤ b →
      b < c.arena + i * c.keyLength + c.keyLength → memory' b = memory b) :
    Filled c memory' i := by
  rw [Filled, readText_congr hagree]
  exact h

def Owns (c : KeygenRequest) (j : KeygenJob) (i : ℕ) : Prop :=
  ∃ k < j.count, c.arena + i * c.keyLength = j.dst + k * c.keyLength

/-- Each slot is filled already, or in one of the jobs. -/
def Left (c : KeygenRequest) (P : KeygenJob → Prop) (memory : ℕ → Char) : Prop :=
  ∀ i < c.count, Filled c memory i ∨ ∃ j, P j ∧ Owns c j i

/-- A job fills its slots, and writes nothing else. -/
theorem runJob_spec (next : G → BitVec 32 × G) (j : KeygenJob) {own : RandomHexKeyGenerator G}
    (hfit : Fit own) (memory : ℕ → Char) :
    (∀ k < j.count, IsKey (lower j.keyPrefix) 64
      (readText (runJob next j (own, memory)).2 (j.dst + k * 64) 64)) ∧
    (∀ a, a < j.dst ∨ j.dst + j.count * 64 ≤ a → (runJob next j (own, memory)).2 a = memory a) ∧
      Fit (runJob next j (own, memory)).1 := by
  by_cases hzero : j.count = 0
  · rw [runJob, if_pos hzero, hzero]
    exact ⟨fun k hk => absurd hk (Nat.not_lt_zero k), fun a _ => rfl, hfit⟩
  · have hlength := (own.setPrefix j.keyPrefix).length_fillMany next j.count
    have htotal : (own.setPrefix j.keyPrefix).totalLength = 64 := hfit
    have hkeys : ∀ key ∈ ((own.setPrefix j.keyPrefix).fillMany next j.count).1,
        IsKey (lower j.keyPrefix) 64 key := fun key hkey => by
      have hkey := RandomHexKeyGenerator.fillMany_isKey hkey
      rwa [htotal] at hkey
    rw [runJob, if_neg hzero]
    simp only [htotal]
    refine ⟨fun k hk => ?_, fun a ha => storeKeys_of_outside (by rwa [hlength]), ?_⟩
    · rw [← hlength] at hk
      rw [readText_storeKeys (fun key hkey => (hkeys key hkey).1) hk]
      exact hkeys _ (List.getElem_mem hk)
    · rw [RandomHexKeyGenerator.fillMany, if_neg hzero]
      exact hfit

theorem keyLength_eq (c : KeygenRequest) : c.keyLength = 64 := c.keyLength_eq

theorem lawful : Lawful (work next) Fit Left where
  count n c _ := remaining_eq
  fresh owns h own hown := by
    obtain ⟨-, -, -, howns⟩ := h
    exact (howns own hown).2
  fit_run j own memory hfit := (runJob_spec next j hfit memory).2.2
  left_mono c memory P P' hmono h i hi := (h i hi).imp_right fun ⟨j, hj, howns⟩ =>
    ⟨j, hmono j hj, howns⟩
  left_jobs n c memory _ i hi := by
    obtain ⟨j, hj, howns⟩ := exists_job hi
    exact Or.inr ⟨j, hj, howns⟩
  left_run n c j own memory P P' hj hfit hmono h i hi := by
    obtain ⟨hkeys, houtside, -⟩ := runJob_spec next j hfit memory
    obtain ⟨start, hdst, hpos, hroom, hprefix⟩ := of_mem_jobs hj
    have hlength := keyLength_eq c
    by_cases hown : Owns c j i
    · obtain ⟨k, hk, haddress⟩ := hown
      left
      rw [Filled, haddress, hlength, ← hprefix]
      exact hkeys k hk
    · rcases h i hi with hfilled | ⟨j', hj', howns⟩
      · left
        -- a slot that is not in the job lies before or behind it
        have haway : i < start ∨ start + j.count ≤ i := by
          by_contra hin
          refine hown ⟨i - start, by omega, ?_⟩
          rw [hdst, Nat.add_assoc, ← Nat.add_mul, Nat.add_sub_cancel' (by omega)]
        refine hfilled.of_agree fun b hb hb' => houtside b ?_
        rw [hdst]
        rw [hlength] at hb hb' ⊢
        omega
      · rcases hmono j' hj' with rfl | hrest
        · exact absurd howns hown
        · exact Or.inr ⟨j', hrest, howns⟩
  left_spares c memory memory' P hspares h i hi := by
    refine (h i hi).imp_left fun hfilled => ?_
    have hroom := Nat.mul_le_mul_right c.keyLength (Nat.succ_le_of_lt hi)
    rw [Nat.succ_mul] at hroom
    exact hfilled.of_agree fun b hb hb' => hspares b (by omega) (by rw [arenaEnd]; omega)
  spares_refl c memory a _ _ := rfl
  spares_run n c d j own memory hj hfit hapart a ha ha' := by
    obtain ⟨-, houtside, -⟩ := runJob_spec next j hfit memory
    obtain ⟨start, hdst, hpos, hroom, -⟩ := of_mem_jobs hj
    have hapart : arenaEnd c ≤ d.arena ∨ arenaEnd d ≤ c.arena := hapart
    have hend := Nat.mul_le_mul_right 64 hroom
    rw [Nat.add_mul] at hend
    rw [arenaEnd, keyLength_eq c] at hapart
    refine houtside a ?_
    rw [hdst, keyLength_eq c]
    omega

end Laws

section Callers
variable {G : Type} {next : G → BitVec 32 × G}
  {p q : Pool KeygenRequest KeygenJob (RandomHexKeyGenerator G) (ℕ → Char)}

/-- The text of a slot that is filled for hex digits is a key that the miner hands on. -/
theorem Filled.isHex64Key {c : KeygenRequest} {memory : ℕ → Char} {i : ℕ} (h : Filled c memory i)
    (hhex : HashApi.isHexString (lower c.keyPrefix) = true) :
    isHex64Key (readText memory (c.arena + i * c.keyLength) c.keyLength) = true := by
  have hkey : IsKey (lower c.keyPrefix) 64
      (readText memory (c.arena + i * c.keyLength) c.keyLength) := keyLength_eq c ▸ h
  exact hkey.isHex64Key hhex

/-- However calls and workers take turns: when a call returns, each slot of its arena holds a key
with its prefix, of 64 hex digits for a prefix of hex digits, and no worker has a job of it left. -/
theorem filled_of_return (h : (machine (work next)).Reachable p) {k : ℕ}
    (hreturn : Step (work next) p (.ret k) q) : ∃ c, p.calls[k]? = some c ∧
      (∀ i < c.request.count, Filled c.request q.shared i ∧
        (HashApi.isHexString (lower c.request.keyPrefix) = true → isHex64Key (readText q.shared
          (c.request.arena + i * c.request.keyLength) c.request.keyLength) = true)) ∧
      ∀ t ∈ q.unrun ++ q.uncounted, t.call ≠ k := by
  cases hreturn with
  | @ret _ c hcall hwaits hdone =>
    obtain ⟨hfilled, hnone⟩ := Pool.done_of_remaining lawful h hcall hdone
    refine ⟨c, hcall, fun i hi => ?_, hnone⟩
    have hslot : Filled c.request p.shared i :=
      (hfilled hwaits i hi).resolve_right fun ⟨j, hj, _⟩ => hj
    exact ⟨hslot, hslot.isHex64Key⟩

/-- The frame of a call that has returned is still used by one worker at most: the one that
counted the last job down, for the mutex and the condition variable of the call. -/
theorem frame_of_returned (h : (machine (work next)).Reachable p) {k : ℕ}
    {c : Call KeygenRequest} (hcall : p.calls[k]? = some c) (hreturned : c.returned = true) :
    (∀ t ∈ p.unrun ++ p.uncounted, t.call ≠ k) ∧ p.notifiers k ≤ 1 :=
  Pool.reach_of_returned lawful h hcall hreturned

/-- The pool writes to no arena that has nothing to do with the calls under way. -/
theorem untouched (h : (machine (work next)).Reachable p) {a : Action KeygenRequest _ _}
    (ha : a.internal = true) (hstep : Step (work next) p a q) {d : KeygenRequest}
    (hapart : ∀ c ∈ p.calls, c.returned = false →
      arenaEnd c.request ≤ d.arena ∨ arenaEnd d ≤ c.request.arena) :
    ∀ b, d.arena ≤ b → b < arenaEnd d → q.shared b = p.shared b :=
  hstep.spares lawful h ha hapart

def threeKeys : KeygenRequest := ⟨0, 3, 64, "AB".toList, by decide, rfl⟩

def oneKey : KeygenRequest := ⟨500, 1, 64, [], by decide, rfl⟩

def countUp (g : BitVec 32) : BitVec 32 × BitVec 32 := (g, g + 1)

/-- Two workers start, two callers ask for keys, and the workers serve the first one. Worker 1
counts the last job down, and the job of the second call is still queued. -/
theorem threeKeys_served : ∃ p, (machine (work countUp)).Reachable p ∧
    p.calls = [⟨threeKeys, 0, false⟩, ⟨oneKey, 1, false⟩] ∧ p.notifiers 0 = 1 := by
  have hstart : (machine (work countUp)).Reachable { shared := fun _ => ' ' } :=
    .start ⟨rfl, rfl, rfl⟩
  have hworkers := hstart.next (@Step.restart _ _ _ _ _ _ [⟨[], 64, 0⟩, ⟨[], 64, 7⟩] (by simp)
    rfl ⟨2, 2, rfl, by simp⟩)
  have hfirst := hworkers.next (.call threeKeys (by simp) (by simp))
  have hsecond := hfirst.next (.call oneKey (by simp)
    (by simp [work, arenaEnd, threeKeys, oneKey]))
  have htaken := hsecond.next (@Step.take _ _ _ _ _ _ [] _ _ _ _ rfl rfl)
  have hboth := htaken.next (@Step.take _ _ _ _ _ _ [_] _ _ _ _ rfl rfl)
  have hrun := hboth.next (@Step.run _ _ _ _ _ _ [_] _ _ _ rfl)
  have hruns := hrun.next (@Step.run _ _ _ _ _ _ [] _ _ _ rfl)
  have hcounted := hruns.next (@Step.finish _ _ _ _ _ _ [] _ _ _ _ rfl rfl)
  exact ⟨_, hcounted.next (@Step.finish _ _ _ _ _ _ [_] _ _ _ _ rfl rfl), rfl, rfl⟩

theorem filled_of_return_threeKeys : ∃ p q, Step (work countUp) p (.ret 0) q ∧
    ∃ c, p.calls[0]? = some c ∧ c.request = threeKeys ∧
      (∀ i < 3, isHex64Key (readText q.shared (i * 64) 64) = true) ∧
      ∀ t ∈ q.unrun ++ q.uncounted, t.call ≠ 0 := by
  obtain ⟨p, hp, hcalls, -⟩ := threeKeys_served
  have hcall : p.calls[0]? = some ⟨threeKeys, 0, false⟩ := by rw [hcalls]; rfl
  have hreturn : Step (work countUp) p (.ret 0) _ := .ret hcall rfl (Int.le_refl 0)
  obtain ⟨c, hc, hfilled, hnone⟩ := filled_of_return hp hreturn
  obtain rfl := Option.some.inj (hcall.symm.trans hc)
  refine ⟨p, _, hreturn, _, hc, rfl, fun i hi => ?_, hnone⟩
  have hkey := (hfilled i hi).2 (by decide)
  rwa [show threeKeys.arena + i * threeKeys.keyLength = i * 64 from Nat.zero_add _] at hkey

/-- The first call returns before it is notified. -/
theorem frame_of_returned_threeKeys : ∃ q : Pool KeygenRequest KeygenJob
    (RandomHexKeyGenerator (BitVec 32)) (ℕ → Char), (machine (work countUp)).Reachable q ∧
      q.notifiers 0 = 1 ∧ (∀ t ∈ q.unrun ++ q.uncounted, t.call ≠ 0) ∧ q.notifiers 0 ≤ 1 := by
  obtain ⟨p, hp, hcalls, hnotifier⟩ := threeKeys_served
  have hcall : p.calls[0]? = some ⟨threeKeys, 0, false⟩ := by rw [hcalls]; rfl
  have hreturned := hp.next (.ret hcall rfl (Int.le_refl 0))
  have hcall' : (p.calls.set 0 ⟨threeKeys, 0, true⟩)[0]? = some ⟨threeKeys, 0, true⟩ := by
    rw [hcalls]
    rfl
  exact ⟨_, hreturned, hnotifier, frame_of_returned hreturned hcall' rfl⟩

end Callers

end KeygenPool

end XnMiner

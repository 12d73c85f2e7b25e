import XnMiner.System.Machine
import Mathlib.Algebra.BigOperators.Group.List.Basic
import Mathlib.Algebra.GroupWithZero.Nat
import Mathlib.Tactic.Common

/-! # Pools of workers

A call is cut into jobs, which go to a queue that all calls share. Workers take them from the
front. The call waits until the last of its jobs has been counted down.
-/
namespace Pools
open Transitions

structure Task (J : Type) where
  job : J
  call : ℕ

/-- The last job of a call is followed by a notification. -/
inductive Phase (J : Type)
  | waiting
  | running (t : Task J)
  | finishing (t : Task J)
  | notifying (call : ℕ)

structure Worker (J ω : Type) where
  phase : Phase J
  own : ω

structure Call (κ : Type) where
  request : κ
  remaining : ℤ
  returned : Bool := false

structure Pool (κ J ω σ : Type) where
  queue : List (Task J) := []
  workers : List (Worker J ω) := []
  calls : List (Call κ) := []
  shared : σ

variable {κ J ω σ : Type}

/-- What a pool is for. Calls may be under way together when they are apart, and a call is left
alone by changes that spare it. -/
structure Work (κ J ω σ : Type) where
  /-- The jobs for a number of workers. -/
  jobs : ℕ → κ → List J
  /-- The count at the start. -/
  count : ℕ → κ → ℤ
  run : J → ω × σ → ω × σ
  fresh : List ω → Prop
  apart : κ → κ → Prop
  spares : κ → σ → σ → Prop

inductive Action (κ ω σ : Type)
  | call (c : κ)
  | work (worker : ℕ)
  | ret (call : ℕ)
  | restart (owns : List ω)
  | others (shared : σ)

def Action.internal (a : Action κ ω σ) : Bool :=
  match a with
  | .work _ | .ret _ => true
  | .call _ | .restart _ | .others _ => false

section Steps
variable (w : Work κ J ω σ)

inductive Step : Pool κ J ω σ → Action κ ω σ → Pool κ J ω σ → Prop where
  | call {p : Pool κ J ω σ} (c : κ) (hworkers : p.workers ≠ [])
      (hapart : ∀ d ∈ p.calls, d.returned = false → w.apart c d.request ∧ w.apart d.request c) :
      Step p (.call c) { p with
        queue := p.queue ++ (w.jobs p.workers.length c).map fun j => ⟨j, p.calls.length⟩
        calls := p.calls ++ [⟨c, w.count p.workers.length c, false⟩] }
  | take {p : Pool κ J ω σ} {before after : List (Worker J ω)} {own : ω} {t : Task J}
      {queue : List (Task J)} (hworker : p.workers = before ++ ⟨.waiting, own⟩ :: after)
      (hqueue : p.queue = t :: queue) :
      Step p (.work before.length)
        { p with workers := before ++ ⟨.running t, own⟩ :: after, queue := queue }
  | run {p : Pool κ J ω σ} {before after : List (Worker J ω)} {own : ω} {t : Task J}
      (hworker : p.workers = before ++ ⟨.running t, own⟩ :: after) :
      Step p (.work before.length) { p with
        workers := before ++ ⟨.finishing t, (w.run t.job (own, p.shared)).1⟩ :: after
        shared := (w.run t.job (own, p.shared)).2 }
  | finish {p : Pool κ J ω σ} {before after : List (Worker J ω)} {own : ω} {t : Task J} {c : Call κ}
      (hworker : p.workers = before ++ ⟨.finishing t, own⟩ :: after)
      (hcall : p.calls[t.call]? = some c) :
      Step p (.work before.length) { p with
        workers := before ++
          ⟨if c.remaining = 1 then .notifying t.call else .waiting, own⟩ :: after
        calls := p.calls.set t.call { c with remaining := c.remaining - 1 } }
  | notify {p : Pool κ J ω σ} {before after : List (Worker J ω)} {own : ω} {k : ℕ}
      -- it locks a mutex of the call, which may have returned in the meantime
      (hworker : p.workers = before ++ ⟨.notifying k, own⟩ :: after) :
      Step p (.work before.length) { p with workers := before ++ ⟨.waiting, own⟩ :: after }
  | ret {p : Pool κ J ω σ} {k : ℕ} {c : Call κ} (hcall : p.calls[k]? = some c)
      (hwaits : c.returned = false) (hdone : c.remaining ≤ 0) :
      Step p (.ret k) { p with calls := p.calls.set k { c with returned := true } }
  | restart {p : Pool κ J ω σ} {owns : List ω} (hidle : ∀ v ∈ p.workers, v.phase = .waiting)
      (hqueue : p.queue = []) (hfresh : w.fresh owns) :
      Step p (.restart owns) { p with workers := owns.map fun own => ⟨.waiting, own⟩ }
  | others {p : Pool κ J ω σ} {shared : σ}
      (hspares : ∀ c ∈ p.calls, c.returned = false → w.spares c.request p.shared shared) :
      Step p (.others shared) { p with shared := shared }

def machine : Machine (Pool κ J ω σ) (Action κ ω σ) where
  init p := p.queue = [] ∧ p.workers = [] ∧ p.calls = []
  step := Step w

end Steps

def Phase.running? (ph : Phase J) : List (Task J) :=
  match ph with
  | .running t => [t]
  | _ => []

def Phase.finishing? (ph : Phase J) : List (Task J) :=
  match ph with
  | .finishing t => [t]
  | _ => []

namespace Pool
variable (p : Pool κ J ω σ)

def unrun : List (Task J) := p.queue ++ p.workers.flatMap (·.phase.running?)

def uncounted : List (Task J) := p.workers.flatMap (·.phase.finishing?)

/-- The tasks of a call that it waits for. -/
def outstanding (k : ℕ) : ℕ :=
  p.unrun.countP (·.call = k) + p.uncounted.countP (·.call = k)

end Pool

/-- What the operations of a pool have to keep. `left c P s` says that in `s` nothing is left to do
for `c` but the jobs in `P`, and `fit` is what workers know of their own states. -/
structure Lawful (w : Work κ J ω σ) (fit : ω → Prop) (left : κ → (J → Prop) → σ → Prop) :
    Prop where
  count : ∀ n c, 0 < n → w.count n c = ((w.jobs n c).length : ℤ)
  fresh : ∀ owns, w.fresh owns → ∀ own ∈ owns, fit own
  fit_run : ∀ j own s, fit own → fit (w.run j (own, s)).1
  left_mono : ∀ c s, ∀ P P' : J → Prop, (∀ j, P j → P' j) → left c P s → left c P' s
  left_jobs : ∀ n c s, 0 < n → left c (· ∈ w.jobs n c) s
  left_run : ∀ n c j own s, ∀ P P' : J → Prop, j ∈ w.jobs n c → fit own →
    (∀ i, P i → i = j ∨ P' i) → left c P s → left c P' (w.run j (own, s)).2
  left_spares : ∀ c s s', ∀ P : J → Prop, w.spares c s s' → left c P s → left c P s'
  spares_refl : ∀ c s, w.spares c s s
  spares_run : ∀ n c d j own s, j ∈ w.jobs n c → fit own → w.apart c d →
    w.spares d s (w.run j (own, s)).2

structure Pool.Inv (w : Work κ J ω σ) (fit : ω → Prop) (left : κ → (J → Prop) → σ → Prop)
    (p : Pool κ J ω σ) : Prop where
  owner : ∀ t ∈ p.unrun ++ p.uncounted, ∃ c : Call κ, p.calls[t.call]? = some c ∧
    ∃ n, t.job ∈ w.jobs n c.request
  remaining : ∀ (k : ℕ) (c : Call κ), p.calls[k]? = some c → c.remaining = (p.outstanding k : ℤ)
  returned : ∀ (k : ℕ) (c : Call κ), p.calls[k]? = some c → c.returned = true → c.remaining = 0
  left : ∀ (k : ℕ) (c : Call κ), p.calls[k]? = some c → c.returned = false →
    left c.request (fun j => ⟨j, k⟩ ∈ p.unrun) p.shared
  apart : ∀ (k l : ℕ) (c d : Call κ), k ≠ l → p.calls[k]? = some c → p.calls[l]? = some d →
    c.returned = false → d.returned = false → w.apart c.request d.request
  fit : ∀ v ∈ p.workers, fit v.own

section Invariant
variable {w : Work κ J ω σ} {fit : ω → Prop} {left : κ → (J → Prop) → σ → Prop}
  {p q : Pool κ J ω σ} {before after : List (Worker J ω)} {own : ω} {t : Task J}

theorem fit_replace {v : Worker J ω} {ph : Phase J} (h : ∀ u ∈ before ++ v :: after, fit u.own)
    (hown : fit own) : ∀ u ∈ before ++ ⟨ph, own⟩ :: after, fit u.own := by
  simp only [List.forall_mem_append, List.forall_mem_cons] at h ⊢
  exact ⟨h.1, hown, h.2.2⟩

theorem getElem?_set_eq_some {α : Type} {l : List α} {k : ℕ} {a b : α} (hk : l[k]? = some a)
    {i : ℕ} {x : α} : (l.set k b)[i]? = some x ↔ i = k ∧ x = b ∨ i ≠ k ∧ l[i]? = some x := by
  rw [List.getElem?_set]
  by_cases heq : k = i
  · subst heq
    simp [(List.getElem?_eq_some_iff.mp hk).1, eq_comm]
  · simp [heq, Ne.symm heq]

/-- The task of one worker, and those of the others. -/
theorem unrun_perm {v : Worker J ω} (hworker : p.workers = before ++ v :: after) :
    p.unrun.Perm (v.phase.running? ++
      (p.queue ++ (before ++ after).flatMap (·.phase.running?))) := by
  rw [Pool.unrun, hworker, List.flatMap_append, List.flatMap_append, List.flatMap_cons]
  exact ((List.perm_append_comm_assoc _ _ _).append_left _).trans
    (List.perm_append_comm_assoc _ _ _)

theorem uncounted_perm {v : Worker J ω} (hworker : p.workers = before ++ v :: after) :
    p.uncounted.Perm (v.phase.finishing? ++ (before ++ after).flatMap (·.phase.finishing?)) := by
  rw [Pool.uncounted, hworker, List.flatMap_append, List.flatMap_append, List.flatMap_cons]
  exact List.perm_append_comm_assoc _ _ _

theorem Pool.Inv.rearrange (h : p.Inv w fit left) (hunrun : q.unrun.Perm p.unrun)
    (huncounted : q.uncounted.Perm p.uncounted) (hcalls : q.calls = p.calls)
    (hshared : q.shared = p.shared) (hfit : ∀ v ∈ q.workers, fit v.own) :
    q.Inv w fit left where
  owner t ht := by
    rw [hcalls]
    exact h.owner t ((hunrun.append huncounted).mem_iff.mp ht)
  remaining k c hc := by
    rw [hcalls] at hc
    rw [h.remaining k c hc, Pool.outstanding, Pool.outstanding, hunrun.countP_eq,
      huncounted.countP_eq]
  returned k c hc := h.returned k c (hcalls ▸ hc)
  left k c hc hwaits := by
    rw [hcalls] at hc
    simp only [hshared, hunrun.mem_iff]
    exact h.left k c hc hwaits
  apart k l c d hne hc hd := h.apart k l c d hne (hcalls ▸ hc) (hcalls ▸ hd)
  fit := hfit

theorem Pool.Inv.take (h : p.Inv w fit left) {queue : List (Task J)}
    (hworker : p.workers = before ++ ⟨.waiting, own⟩ :: after) (hqueue : p.queue = t :: queue) :
    Pool.Inv w fit left
      { p with workers := before ++ ⟨.running t, own⟩ :: after, queue := queue } := by
  refine h.rearrange ?_ ?_ rfl rfl ?_
  · refine (unrun_perm rfl).trans (List.Perm.trans ?_ (unrun_perm hworker).symm)
    rw [hqueue]
    rfl
  · refine (uncounted_perm rfl).trans (List.Perm.trans ?_ (uncounted_perm hworker).symm)
    rfl
  · exact fit_replace (hworker ▸ h.fit) (h.fit ⟨.waiting, own⟩ (by simp [hworker]))

theorem Pool.Inv.notify (h : p.Inv w fit left) {k : ℕ}
    (hworker : p.workers = before ++ ⟨.notifying k, own⟩ :: after) :
    Pool.Inv w fit left { p with workers := before ++ ⟨.waiting, own⟩ :: after } := by
  refine h.rearrange ?_ ?_ rfl rfl ?_
  · refine (unrun_perm rfl).trans (List.Perm.trans ?_ (unrun_perm hworker).symm)
    rfl
  · refine (uncounted_perm rfl).trans (List.Perm.trans ?_ (uncounted_perm hworker).symm)
    rfl
  · exact fit_replace (hworker ▸ h.fit) (h.fit ⟨.notifying k, own⟩ (by simp [hworker]))

theorem Pool.Inv.restart (hw : Lawful w fit left) (h : p.Inv w fit left) {owns : List ω}
    (hidle : ∀ v ∈ p.workers, v.phase = .waiting) (hfresh : w.fresh owns) :
    Pool.Inv w fit left { p with workers := owns.map fun own => ⟨.waiting, own⟩ } := by
  have hnone : ∀ f : Phase J → List (Task J), f .waiting = [] →
      p.workers.flatMap (fun v => f v.phase) = [] := fun f hf =>
    List.flatMap_eq_nil_iff.mpr fun v hv => by rw [hidle v hv, hf]
  have hnew : ∀ f : Phase J → List (Task J), f .waiting = [] →
      (owns.map fun own => (⟨.waiting, own⟩ : Worker J ω)).flatMap (fun v => f v.phase) = [] :=
    fun f hf => List.flatMap_eq_nil_iff.mpr fun v hv => by
      obtain ⟨own, -, rfl⟩ := List.mem_map.mp hv
      exact hf
  refine h.rearrange ?_ ?_ rfl rfl ?_
  · simp only [Pool.unrun, hnone Phase.running? rfl, hnew Phase.running? rfl]
    rfl
  · simp only [Pool.uncounted, hnone Phase.finishing? rfl, hnew Phase.finishing? rfl]
    rfl
  · intro v hv
    obtain ⟨own, hown, rfl⟩ := List.mem_map.mp hv
    exact hw.fresh owns hfresh own hown

theorem Pool.Inv.others (hw : Lawful w fit left) (h : p.Inv w fit left) {shared : σ}
    (hspares : ∀ c ∈ p.calls, c.returned = false → w.spares c.request p.shared shared) :
    Pool.Inv w fit left { p with shared := shared } where
  owner := h.owner
  remaining := h.remaining
  returned := h.returned
  left k c hc hwaits := hw.left_spares _ _ _ _ (hspares c (List.mem_of_getElem? hc) hwaits)
    (h.left k c hc hwaits)
  apart := h.apart
  fit := h.fit

theorem Pool.Inv.waits (h : p.Inv w fit left) {c : Call κ} (ht : t ∈ p.unrun ++ p.uncounted)
    (hc : p.calls[t.call]? = some c) : c.returned = false ∧ 0 < c.remaining := by
  have hpos : 0 < p.outstanding t.call := by
    rw [Pool.outstanding, ← List.countP_append, List.countP_pos_iff]
    exact ⟨t, ht, decide_eq_true rfl⟩
  have hremaining := h.remaining _ c hc
  refine ⟨?_, by omega⟩
  by_contra hreturned
  have hzero := h.returned _ c hc (by simpa using hreturned)
  omega

/-- A call keeps its request, and its count goes with its open tasks. -/
theorem Pool.Inv.setCall (h : p.Inv w fit left) {k : ℕ} {c : Call κ} (c' : Call κ)
    (hcall : p.calls[k]? = some c) (hrequest : c'.request = c.request)
    (hwaits : c'.returned = false → c.returned = false)
    (hreturned : c'.returned = true → c'.remaining = 0) (hcalls : q.calls = p.calls.set k c')
    (hunrun : q.unrun.Perm p.unrun) (huncounted : q.uncounted ⊆ p.uncounted)
    (hsame : ∀ l, l ≠ k → q.outstanding l = p.outstanding l)
    (hcount : c'.remaining = (q.outstanding k : ℤ)) (hshared : q.shared = p.shared)
    (hfit : ∀ v ∈ q.workers, fit v.own) : q.Inv w fit left where
  owner t ht := by
    have hmem : t ∈ p.unrun ++ p.uncounted := List.mem_append.mpr
      ((List.mem_append.mp ht).imp hunrun.mem_iff.mp (@huncounted t))
    obtain ⟨d, hd, hjob⟩ := h.owner t hmem
    rw [hcalls]
    by_cases heq : t.call = k
    · rw [heq, hcall] at hd
      obtain rfl := Option.some.inj hd
      exact ⟨c', (getElem?_set_eq_some hcall).mpr (Or.inl ⟨heq, rfl⟩), hrequest ▸ hjob⟩
    · exact ⟨d, (getElem?_set_eq_some hcall).mpr (Or.inr ⟨heq, hd⟩), hjob⟩
  remaining l d hd := by
    rw [hcalls] at hd
    rcases (getElem?_set_eq_some hcall).mp hd with ⟨rfl, rfl⟩ | ⟨hne, hd⟩
    · exact hcount
    · rw [hsame l hne]
      exact h.remaining l d hd
  returned l d hd hret := by
    rw [hcalls] at hd
    rcases (getElem?_set_eq_some hcall).mp hd with ⟨rfl, rfl⟩ | ⟨hne, hd⟩
    · exact hreturned hret
    · exact h.returned l d hd hret
  left l d hd hwait := by
    rw [hcalls] at hd
    simp only [hunrun.mem_iff, hshared]
    rcases (getElem?_set_eq_some hcall).mp hd with ⟨rfl, rfl⟩ | ⟨hne, hd⟩
    · rw [hrequest]
      exact h.left l c hcall (hwaits hwait)
    · exact h.left l d hd hwait
  apart l m d e hne hd he hdw hew := by
    rw [hcalls] at hd he
    rcases (getElem?_set_eq_some hcall).mp hd with ⟨rfl, rfl⟩ | ⟨hl, hd'⟩ <;>
      rcases (getElem?_set_eq_some hcall).mp he with ⟨rfl, rfl⟩ | ⟨hm, he'⟩
    · exact absurd rfl hne
    · rw [hrequest]
      exact h.apart l m c e hne hcall he' (hwaits hdw) hew
    · rw [hrequest]
      exact h.apart l m d c hne hd' hcall hdw (hwaits hew)
    · exact h.apart l m d e hne hd' he' hdw hew
  fit := hfit

theorem Pool.Inv.ret (h : p.Inv w fit left) {k : ℕ} {c : Call κ} (hcall : p.calls[k]? = some c)
    (hdone : c.remaining ≤ 0) :
    Pool.Inv w fit left { p with calls := p.calls.set k { c with returned := true } } := by
  have hcount := h.remaining k c hcall
  refine h.setCall { c with returned := true } hcall rfl (fun hf => nomatch hf) (fun _ => ?_)
    rfl (List.Perm.refl _) (List.Subset.refl _) (fun _ _ => rfl) hcount rfl h.fit
  show c.remaining = 0
  omega

theorem Pool.Inv.finish (h : p.Inv w fit left) {c : Call κ} {ph : Phase J}
    (hworker : p.workers = before ++ ⟨.finishing t, own⟩ :: after)
    (hcall : p.calls[t.call]? = some c) (hph : ph.running? = [] ∧ ph.finishing? = []) :
    Pool.Inv w fit left { p with
      workers := before ++ ⟨ph, own⟩ :: after
      calls := p.calls.set t.call { c with remaining := c.remaining - 1 } } := by
  have hopen : t ∈ p.uncounted := by
    rw [Pool.uncounted, hworker]
    simp [Phase.finishing?]
  obtain ⟨hwaits, -⟩ := h.waits (List.mem_append_right _ hopen) hcall
  have hcount := h.remaining _ c hcall
  obtain ⟨q, hq⟩ : ∃ q : Pool κ J ω σ, q = { p with
      workers := before ++ ⟨ph, own⟩ :: after
      calls := p.calls.set t.call { c with remaining := c.remaining - 1 } } := ⟨_, rfl⟩
  have hworker' : q.workers = before ++ ⟨ph, own⟩ :: after := by rw [hq]
  have hunrun : q.unrun.Perm p.unrun := by
    refine (unrun_perm hworker').trans (List.Perm.trans ?_ (unrun_perm hworker).symm)
    rw [hph.1, hq]
    rfl
  have huncounted : p.uncounted.Perm (t :: q.uncounted) := by
    refine (uncounted_perm hworker).trans (List.Perm.trans ?_ ((uncounted_perm hworker').cons t).symm)
    rw [hph.2]
    rfl
  have hsplit : ∀ l, p.outstanding l = q.outstanding l + if t.call = l then 1 else 0 := by
    intro l
    simp only [Pool.outstanding, hunrun.countP_eq, huncounted.countP_eq, List.countP_cons,
      decide_eq_true_eq]
    omega
  rw [← hq]
  refine h.setCall { c with remaining := c.remaining - 1 } hcall rfl id
    (fun hf => absurd hf (by simp [hwaits])) (by rw [hq]) hunrun
    (fun u hu => huncounted.symm.subset (List.mem_cons_of_mem _ hu)) (fun l hne => ?_) ?_
    (by rw [hq]) ?_
  · have h' := hsplit l
    rw [if_neg (Ne.symm hne)] at h'
    exact h'.symm
  · have h' := hsplit t.call
    rw [if_pos rfl] at h'
    show c.remaining - 1 = _
    omega
  · rw [hworker']
    exact fit_replace (hworker ▸ h.fit) (h.fit ⟨.finishing t, own⟩ (by simp [hworker]))

theorem Pool.Inv.run (hw : Lawful w fit left) (h : p.Inv w fit left)
    (hworker : p.workers = before ++ ⟨.running t, own⟩ :: after) :
    Pool.Inv w fit left { p with
      workers := before ++ ⟨.finishing t, (w.run t.job (own, p.shared)).1⟩ :: after
      shared := (w.run t.job (own, p.shared)).2 } := by
  obtain ⟨q, hq⟩ : ∃ q : Pool κ J ω σ, q = { p with
      workers := before ++ ⟨.finishing t, (w.run t.job (own, p.shared)).1⟩ :: after
      shared := (w.run t.job (own, p.shared)).2 } := ⟨_, rfl⟩
  have hworker' : q.workers =
      before ++ ⟨.finishing t, (w.run t.job (own, p.shared)).1⟩ :: after := by rw [hq]
  have hcalls : q.calls = p.calls := by rw [hq]
  have hunrun : p.unrun.Perm (t :: q.unrun) := by
    refine (unrun_perm hworker).trans (List.Perm.trans ?_ ((unrun_perm hworker').cons t).symm)
    rw [hq]
    rfl
  have huncounted : q.uncounted.Perm (t :: p.uncounted) := by
    refine (uncounted_perm hworker').trans (List.Perm.trans ?_ ((uncounted_perm hworker).cons t).symm)
    rfl
  have hfit : fit own := h.fit ⟨.running t, own⟩ (by simp [hworker])
  have hmem : ∀ u, u ∈ q.unrun ++ q.uncounted ↔ u ∈ p.unrun ++ p.uncounted := by
    intro u
    rw [List.mem_append, List.mem_append, hunrun.mem_iff, huncounted.mem_iff, List.mem_cons,
      List.mem_cons]
    tauto
  obtain ⟨c, hc, n, hjob⟩ := h.owner t (List.mem_append_left _ (hunrun.symm.subset List.mem_cons_self))
  obtain ⟨hwaits, -⟩ := h.waits (List.mem_append_left _ (hunrun.symm.subset List.mem_cons_self)) hc
  rw [← hq]
  refine ⟨fun u hu => ?_, fun k d hd => ?_, fun k d hd => ?_, fun k d hd hdw => ?_,
    fun k l d e hne hd he => ?_, ?_⟩
  · rw [hcalls]
    exact h.owner u ((hmem u).mp hu)
  · rw [hcalls] at hd
    rw [h.remaining k d hd, Pool.outstanding, Pool.outstanding, hunrun.countP_eq,
      huncounted.countP_eq, List.countP_cons, List.countP_cons]
    omega
  · exact h.returned k d (hcalls ▸ hd)
  · rw [hcalls] at hd
    have hbefore := h.left k d hd hdw
    have hshared : q.shared = (w.run t.job (own, p.shared)).2 := by rw [hq]
    rw [hshared]
    by_cases heq : k = t.call
    · subst heq
      rw [hc] at hd
      obtain rfl := Option.some.inj hd
      refine hw.left_run n _ _ _ _ _ _ hjob hfit (fun j hj => ?_) hbefore
      exact (List.mem_cons.mp (hunrun.subset hj)).imp_left (congrArg Task.job)
    · have hspares := hw.spares_run n c.request d.request t.job own p.shared hjob hfit
        (h.apart _ _ _ _ (Ne.symm heq) hc hd hwaits hdw)
      refine hw.left_spares _ _ _ _ hspares (hw.left_mono _ _ _ _ (fun j hj => ?_) hbefore)
      rcases List.mem_cons.mp (hunrun.subset hj) with rfl | hrest
      · exact absurd rfl heq
      · exact hrest
  · exact h.apart k l d e hne (hcalls ▸ hd) (hcalls ▸ he)
  · rw [hworker']
    exact fit_replace (hworker ▸ h.fit) (hw.fit_run _ _ _ hfit)

theorem Pool.Inv.call (hw : Lawful w fit left) (h : p.Inv w fit left) {c : κ}
    (hworkers : p.workers ≠ [])
    (hapart : ∀ d ∈ p.calls, d.returned = false → w.apart c d.request ∧ w.apart d.request c) :
    Pool.Inv w fit left { p with
      queue := p.queue ++ (w.jobs p.workers.length c).map fun j => ⟨j, p.calls.length⟩
      calls := p.calls ++ [⟨c, w.count p.workers.length c, false⟩] } := by
  obtain ⟨q, hq⟩ : ∃ q : Pool κ J ω σ, q = { p with
      queue := p.queue ++ (w.jobs p.workers.length c).map fun j => ⟨j, p.calls.length⟩
      calls := p.calls ++ [⟨c, w.count p.workers.length c, false⟩] } := ⟨_, rfl⟩
  have hpos : 0 < p.workers.length := List.length_pos_iff.mpr hworkers
  have hunrun : q.unrun.Perm
      (((w.jobs p.workers.length c).map fun j => ⟨j, p.calls.length⟩) ++ p.unrun) := by
    simp only [Pool.unrun, hq, List.append_assoc]
    exact List.perm_append_comm_assoc _ _ _
  have huncounted : q.uncounted = p.uncounted := by
    rw [hq]
    rfl
  have hnew : ∀ k d, q.calls[k]? = some d → k = p.calls.length ∧
      d = ⟨c, w.count p.workers.length c, false⟩ ∨ k < p.calls.length ∧ p.calls[k]? = some d := by
    intro k d hd
    rw [hq] at hd
    rcases Nat.lt_trichotomy k p.calls.length with hlt | heq | hgt
    · rw [List.getElem?_append_left hlt] at hd
      exact Or.inr ⟨hlt, hd⟩
    · rw [heq, List.getElem?_concat_length] at hd
      exact Or.inl ⟨heq, (Option.some.inj hd).symm⟩
    · rw [List.getElem?_eq_none (by simp; omega)] at hd
      cases hd
  have hold : ∀ t ∈ p.unrun ++ p.uncounted, t.call < p.calls.length := fun t ht => by
    obtain ⟨d, hd, -⟩ := h.owner t ht
    exact (List.getElem?_eq_some_iff.mp hd).1
  rw [← hq]
  refine ⟨fun t ht => ?_, fun k d hd => ?_, fun k d hd hret => ?_, fun k d hd hwaits => ?_,
    fun k l d e hne hd he hdw hew => ?_, by rw [hq]; exact h.fit⟩
  · have hmem := List.mem_append.mp ht
    rw [hunrun.mem_iff, List.mem_append, or_assoc, huncounted, ← List.mem_append] at hmem
    rcases hmem with hmem | hmem
    · obtain ⟨j, hj, rfl⟩ := List.mem_map.mp hmem
      exact ⟨_, by rw [hq]; exact List.getElem?_concat_length, _, hj⟩
    · obtain ⟨d, hd, hjob⟩ := h.owner t hmem
      exact ⟨d, by rw [hq]; exact (List.getElem?_append_left (hold t hmem)).trans hd, hjob⟩
  · rw [Pool.outstanding, hunrun.countP_eq, List.countP_append, List.countP_map, huncounted,
      Nat.add_assoc, ← Pool.outstanding]
    rcases hnew k d hd with ⟨rfl, rfl⟩ | ⟨hlt, hd⟩
    · have hnone : p.outstanding p.calls.length = 0 := by
        rw [Pool.outstanding, ← List.countP_append, List.countP_eq_zero]
        exact fun t ht heq => absurd (hold t ht) (by simp only [decide_eq_true_eq] at heq; omega)
      have hall : ∀ l : List J, l.countP ((fun t : Task J => decide (t.call = p.calls.length)) ∘
          fun j => ⟨j, p.calls.length⟩) = l.length := fun l =>
        List.countP_eq_length.mpr fun j _ => decide_eq_true rfl
      rw [hnone, hall]
      exact hw.count _ _ hpos
    · have hnone : ∀ l : List J, l.countP ((fun t : Task J => decide (t.call = k)) ∘
          fun j => ⟨j, p.calls.length⟩) = 0 := fun l =>
        List.countP_eq_zero.mpr fun j _ heq => absurd (of_decide_eq_true heq) (Nat.ne_of_gt hlt)
      rw [hnone, Nat.zero_add]
      exact h.remaining k d hd
  · rcases hnew k d hd with ⟨rfl, rfl⟩ | ⟨-, hd⟩
    · cases hret
    · exact h.returned k d hd hret
  · have hshared : q.shared = p.shared := by rw [hq]
    rw [hshared]
    rcases hnew k d hd with ⟨rfl, rfl⟩ | ⟨-, hd⟩
    · refine hw.left_mono _ _ _ _ (fun j hj => ?_) (hw.left_jobs _ _ _ hpos)
      exact hunrun.symm.subset (List.mem_append_left _ (List.mem_map_of_mem hj))
    · exact hw.left_mono _ _ _ _ (fun j hj => hunrun.symm.subset (List.mem_append_right _ hj))
        (h.left k d hd hwaits)
  · rcases hnew k d hd with ⟨rfl, rfl⟩ | ⟨-, hd⟩ <;> rcases hnew l e he with ⟨rfl, rfl⟩ | ⟨-, he⟩
    · exact absurd rfl hne
    · exact (hapart e (List.mem_of_getElem? he) hew).1
    · exact (hapart d (List.mem_of_getElem? hd) hdw).2
    · exact h.apart k l d e hne hd he hdw hew

theorem Pool.Inv.step (hw : Lawful w fit left) (h : p.Inv w fit left) {a : Action κ ω σ}
    (hstep : Step w p a q) : q.Inv w fit left := by
  cases hstep with
  | call c hworkers hapart => exact h.call hw hworkers hapart
  | take hworker hqueue => exact h.take hworker hqueue
  | run hworker => exact h.run hw hworker
  | finish hworker hcall =>
    refine h.finish hworker hcall ?_
    split <;> exact ⟨rfl, rfl⟩
  | notify hworker => exact h.notify hworker
  | ret hcall _ hdone => exact h.ret hcall hdone
  | restart hidle _ hfresh => exact h.restart hw hidle hfresh
  | others hspares => exact h.others hw hspares

theorem Pool.inv_of_reachable (hw : Lawful w fit left) (h : (machine w).Reachable p) :
    p.Inv w fit left := by
  refine Machine.Reachable.invariant (M := machine w) (fun s hs => ?_)
    (fun s a t _ hs hstep => hs.step hw hstep) h
  obtain ⟨hqueue, hworkers, hcalls⟩ := hs
  refine ⟨fun t ht => ?_, fun k c hc => ?_, fun k c hc => ?_, fun k c hc => ?_,
    fun k l c d _ hc => ?_, fun v hv => ?_⟩
  · simp [Pool.unrun, Pool.uncounted, hqueue, hworkers] at ht
  · simp [hcalls] at hc
  · simp [hcalls] at hc
  · simp [hcalls] at hc
  · simp [hcalls] at hc
  · simp [hworkers] at hv

/-- A call whose count is down to zero is done, and none of its jobs is open. -/
theorem Pool.done_of_remaining (hw : Lawful w fit left) (h : (machine w).Reachable p) {k : ℕ}
    {c : Call κ} (hcall : p.calls[k]? = some c) (hdone : c.remaining ≤ 0) :
    (c.returned = false → left c.request (fun _ => False) p.shared) ∧
      ∀ t ∈ p.unrun ++ p.uncounted, t.call ≠ k := by
  have hinv := inv_of_reachable hw h
  have hnone : ∀ t ∈ p.unrun ++ p.uncounted, t.call ≠ k := by
    rintro t ht rfl
    have hpos := (hinv.waits ht hcall).2
    omega
  refine ⟨fun hwaits => ?_, hnone⟩
  exact hw.left_mono _ _ _ _ (fun j hj => hnone _ (List.mem_append_left _ hj) rfl)
    (hinv.left k c hcall hwaits)

/-- The steps of the pool leave alone whatever is apart from the calls under way. -/
theorem Step.spares (hw : Lawful w fit left) (h : (machine w).Reachable p) {a : Action κ ω σ}
    (ha : a.internal = true) (hstep : Step w p a q) {d : κ}
    (hapart : ∀ c ∈ p.calls, c.returned = false → w.apart c.request d) :
    w.spares d p.shared q.shared := by
  have hinv := Pool.inv_of_reachable hw h
  cases hstep with
  | call | restart | others => cases ha
  | take | finish | notify | ret => exact hw.spares_refl _ _
  | @run _ _ own t hworker =>
    have hopen : t ∈ p.unrun ++ p.uncounted := List.mem_append_left _
      ((unrun_perm hworker).symm.subset (List.mem_append_left _ (List.mem_singleton_self t)))
    obtain ⟨c, hc, n, hjob⟩ := hinv.owner t hopen
    exact hw.spares_run n c.request d _ _ _ hjob (hinv.fit ⟨.running t, own⟩ (by simp [hworker]))
      (hapart c (List.mem_of_getElem? hc) (hinv.waits hopen hc).1)

def Phase.notifies (k : ℕ) (ph : Phase J) : Bool :=
  match ph with
  | .notifying l => l = k
  | .waiting | .running _ | .finishing _ => false

def Pool.notifiers (p : Pool κ J ω σ) (k : ℕ) : ℕ := p.workers.countP (·.phase.notifies k)

theorem notifiers_eq {v : Worker J ω} (hworker : p.workers = before ++ v :: after) (k : ℕ) :
    p.notifiers k =
      (before ++ after).countP (·.phase.notifies k) + if v.phase.notifies k then 1 else 0 := by
  rw [Pool.notifiers, hworker, List.countP_append, List.countP_cons, List.countP_append]
  omega

/-- Only a call that is counted down is notified, and by one worker. -/
def Pool.notifiedLast (p : Pool κ J ω σ) : Prop :=
  ∀ k, p.notifiers k = 0 ∨
    p.notifiers k = 1 ∧ ∃ c : Call κ, p.calls[k]? = some c ∧ c.remaining = 0

theorem Pool.notifiedLast.of_le (h : p.notifiedLast) (hle : ∀ k, q.notifiers k ≤ p.notifiers k)
    (hcalls : ∀ (k : ℕ) (c : Call κ), p.calls[k]? = some c →
      ∃ d : Call κ, q.calls[k]? = some d ∧ d.remaining = c.remaining) : q.notifiedLast := by
  intro k
  have hk := hle k
  rcases h k with hnone | ⟨hone, c, hc, hzero⟩
  · left
    omega
  · obtain ⟨d, hd, hsame⟩ := hcalls k c hc
    by_cases hnone : q.notifiers k = 0
    · exact .inl hnone
    · exact .inr ⟨by omega, d, hd, hsame.trans hzero⟩

theorem Pool.notifiedLast.finish (hi : p.Inv w fit left) (h : p.notifiedLast) {c : Call κ}
    (hworker : p.workers = before ++ ⟨.finishing t, own⟩ :: after)
    (hcall : p.calls[t.call]? = some c) :
    Pool.notifiedLast { p with
      workers := before ++ ⟨if c.remaining = 1 then .notifying t.call else .waiting, own⟩ :: after
      calls := p.calls.set t.call { c with remaining := c.remaining - 1 } } := by
  have hopen : t ∈ p.uncounted := by
    rw [Pool.uncounted, hworker]
    simp [Phase.finishing?]
  obtain ⟨-, hpos⟩ := hi.waits (List.mem_append_right _ hopen) hcall
  intro k
  have hbefore := notifiers_eq hworker k
  have hafter := notifiers_eq (p := { p with
    workers := before ++ ⟨if c.remaining = 1 then .notifying t.call else .waiting, own⟩ :: after
    calls := p.calls.set t.call { c with remaining := c.remaining - 1 } }) rfl k
  have hquiet : (Phase.finishing t).notifies k = false := rfl
  rw [hquiet, if_neg Bool.false_ne_true, Nat.add_zero] at hbefore
  rw [← hbefore] at hafter
  by_cases hk : k = t.call
  · subst hk
    -- a call that still waits for this task has not been notified before
    have hnone : p.notifiers t.call = 0 := by
      rcases h t.call with hnone | ⟨-, d, hd, hzero⟩
      · exact hnone
      · obtain rfl := Option.some.inj (hcall.symm.trans hd)
        omega
    by_cases hlast : c.remaining = 1
    · refine .inr ⟨by simpa [hnone, hlast, Phase.notifies] using hafter, _,
        (getElem?_set_eq_some hcall).mpr (.inl ⟨rfl, rfl⟩), ?_⟩
      show c.remaining - 1 = 0
      omega
    · left
      simpa [hnone, hlast, Phase.notifies] using hafter
  · have hsame : (if c.remaining = 1 then .notifying t.call else .waiting : Phase J).notifies k =
        false := by
      split
      · exact decide_eq_false (Ne.symm hk)
      · rfl
    rw [hsame, if_neg Bool.false_ne_true, Nat.add_zero] at hafter
    rcases h k with hnone | ⟨hone, d, hd, hzero⟩
    · exact .inl (hafter.trans hnone)
    · exact .inr ⟨hafter.trans hone, d, (getElem?_set_eq_some hcall).mpr (.inr ⟨hk, hd⟩), hzero⟩

theorem Pool.notifiedLast.step (hi : p.Inv w fit left) (h : p.notifiedLast) {a : Action κ ω σ}
    (hstep : Step w p a q) : q.notifiedLast := by
  have hkept : ∀ (k : ℕ) (c : Call κ), p.calls[k]? = some c →
      ∃ d : Call κ, p.calls[k]? = some d ∧ d.remaining = c.remaining := fun k c hc => ⟨c, hc, rfl⟩
  cases hstep with
  | call c =>
    refine h.of_le (fun _ => Nat.le_refl _) fun k d hd => ⟨d, ?_, rfl⟩
    exact (List.getElem?_append_left (List.getElem?_eq_some_iff.mp hd).1).trans hd
  | take hworker =>
    refine h.of_le (fun k => ?_) hkept
    rw [notifiers_eq hworker, notifiers_eq rfl]
    exact Nat.le_refl _
  | run hworker =>
    refine h.of_le (fun k => ?_) hkept
    rw [notifiers_eq hworker, notifiers_eq rfl]
    exact Nat.le_refl _
  | finish hworker hcall => exact h.finish hi hworker hcall
  | notify hworker =>
    refine h.of_le (fun k => ?_) hkept
    rw [notifiers_eq hworker, notifiers_eq rfl]
    exact Nat.add_le_add_left (Nat.zero_le _) _
  | @ret k c hcall =>
    refine h.of_le (fun _ => Nat.le_refl _) fun l d hd => ?_
    by_cases hl : l = k
    · subst hl
      obtain rfl := Option.some.inj (hcall.symm.trans hd)
      exact ⟨_, (getElem?_set_eq_some hcall).mpr (.inl ⟨rfl, rfl⟩), rfl⟩
    · exact ⟨d, (getElem?_set_eq_some hcall).mpr (.inr ⟨hl, hd⟩), rfl⟩
  | @restart owns =>
    intro k
    left
    rw [Pool.notifiers, List.countP_eq_zero]
    intro v hv
    obtain ⟨own, -, rfl⟩ := List.mem_map.mp hv
    exact Bool.false_ne_true
  | others => exact h

/-- Nothing reaches a call that has returned, but for one worker that is to notify it. -/
theorem Pool.reach_of_returned (hw : Lawful w fit left) (h : (machine w).Reachable p) {k : ℕ}
    {c : Call κ} (hcall : p.calls[k]? = some c) (hreturned : c.returned = true) :
    (∀ t ∈ p.unrun ++ p.uncounted, t.call ≠ k) ∧ p.notifiers k ≤ 1 := by
  have hzero := (inv_of_reachable hw h).returned k c hcall hreturned
  refine ⟨(done_of_remaining hw h hcall (Int.le_of_eq hzero)).2, ?_⟩
  have hlast : p.notifiedLast := by
    refine Machine.Reachable.invariant (M := machine w) (fun s hs k => ?_)
      (fun s a t hs hi hstep => hi.step (inv_of_reachable hw hs) hstep) h
    obtain ⟨-, hworkers, -⟩ := hs
    exact .inl (by rw [Pool.notifiers, hworkers, List.countP_nil])
  rcases hlast k with hnone | ⟨hone, -⟩ <;> omega

end Invariant

end Pools

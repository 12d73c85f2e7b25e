import Mathlib.Tactic.TypeStar

/-! # Actions on a state that may throw

An exception keeps the state it was thrown in. A triple says what holds after an action
that returns; `excuse` is what an action that throws has to show.
-/
namespace Actions

def Action (σ α : Type) : Type := σ → σ × Option α

variable {σ α β : Type}

instance : Monad (Action σ) where
  pure a := fun s => (s, some a)
  bind x f := fun s => match x s with
    | (t, some a) => f a t
    | (t, none) => (t, none)

def look : Action σ σ := fun s => (s, some s)

def update (f : σ → σ) : Action σ Unit := fun s => (f s, some ())

def lift (o : Option α) : Action σ α := fun s => (s, o)

def onlyIf (c : Prop) [Decidable c] (x : Action σ Unit) : Action σ Unit :=
  if c then x else pure ()

/-- From `P` the action returns with `Q`, or throws and has the excuse. -/
def Triple (excuse : Prop) (P : σ → Prop) (x : Action σ α) (Q : α → σ → Prop) : Prop :=
  ∀ s, P s → (∀ a t, x s = (t, some a) → Q a t) ∧ (∀ t, x s = (t, none) → excuse)

variable {excuse : Prop} {P : σ → Prop} {Q : α → σ → Prop} {R : β → σ → Prop}

theorem Triple.of_returns {x : Action σ α} {f : σ → σ} {v : σ → α}
    (hx : ∀ s, x s = (f s, some (v s))) (h : ∀ s, P s → Q (v s) (f s)) : Triple excuse P x Q := by
  intro s hs
  constructor
  · intro a t heq
    rw [hx, Prod.mk.injEq, Option.some.injEq] at heq
    exact heq.1 ▸ heq.2 ▸ h s hs
  · intro t heq
    rw [hx, Prod.mk.injEq] at heq
    exact absurd heq.2 (by simp)

theorem Triple.anything (x : Action σ α) : Triple True P x fun _ _ => True :=
  fun _ _ => ⟨fun _ _ _ => trivial, fun _ _ => trivial⟩

theorem Triple.pure {a : α} (h : ∀ s, P s → Q a s) :
    Triple excuse P (Pure.pure a : Action σ α) Q :=
  .of_returns (f := id) (v := fun _ => a) (fun _ => rfl) h

theorem Triple.look : Triple excuse P Actions.look fun a s => a = s ∧ P s :=
  .of_returns (f := id) (v := id) (fun _ => rfl) fun _ hs => ⟨rfl, hs⟩

theorem Triple.update {f : σ → σ} {Q : Unit → σ → Prop} (h : ∀ s, P s → Q () (f s)) :
    Triple excuse P (Actions.update f) Q :=
  .of_returns (v := fun _ => ()) (fun _ => rfl) h

theorem Triple.lift {o : Option α} (hreturns : ∀ a, o = some a → ∀ s, P s → Q a s)
    (hthrows : o = none → ∀ s, P s → excuse) : Triple excuse P (Actions.lift o) Q := by
  intro s hs
  constructor
  · intro a t heq
    obtain ⟨rfl, ho⟩ := Prod.mk.inj heq
    exact hreturns a ho s hs
  · intro t heq
    exact hthrows (Prod.mk.inj heq).2 s hs

theorem bind_apply (x : Action σ α) (f : α → Action σ β) (s : σ) :
    (x >>= f) s = match x s with
      | (t, some a) => f a t
      | (t, none) => (t, none) := rfl

theorem bind_returns {x : Action σ α} {f : α → Action σ β} {s t : σ} {a : α}
    (h : x s = (t, some a)) : (x >>= f) s = f a t := by rw [bind_apply, h]

theorem bind_throws {x : Action σ α} {f : α → Action σ β} {s t : σ} (h : x s = (t, none)) :
    (x >>= f) s = (t, none) := by rw [bind_apply, h]

theorem map_id_apply (x : Action σ α) (s : σ) : (id <$> x) s = x s := by
  change (match x s with
    | (t, some a) => (t, some a)
    | (t, none) => (t, none)) = x s
  rcases x s with ⟨t, _ | a⟩ <;> rfl

theorem bind_assoc_apply {γ : Type} (x : Action σ α) (f : α → Action σ β) (g : β → Action σ γ)
    (s : σ) : (x >>= f >>= g) s = (x >>= fun a => f a >>= g) s := by
  simp only [bind_apply]
  rcases x s with ⟨t, _ | a⟩ <;> rfl

instance : LawfulMonad (Action σ) :=
  .mk' _ (fun x => funext (map_id_apply x)) (fun _ _ => rfl)
    fun x f g => funext (bind_assoc_apply x f g)

theorem ite_bind {c : Prop} [Decidable c] (x y : Action σ α) (k : α → Action σ β) :
    (if c then x else y) >>= k = if c then x >>= k else y >>= k := by
  split <;> rfl

theorem Triple.bind {x : Action σ α} {f : α → Action σ β} (hx : Triple excuse P x Q)
    (hf : ∀ a, Triple excuse (Q a) (f a) R) : Triple excuse P (x >>= f) R := by
  intro s hs
  obtain ⟨hreturns, hthrows⟩ := hx s hs
  rw [bind_apply]
  rcases hr : x s with ⟨t, _ | a⟩
  · refine ⟨fun b t' heq => ?_, fun _ _ => hthrows t hr⟩
    cases (Prod.mk.inj heq).2
  · exact hf a t (hreturns a t hr)

theorem Triple.post {x : Action σ α} {Q' : α → σ → Prop} (hx : Triple excuse P x Q)
    (h : ∀ a s, Q a s → Q' a s) : Triple excuse P x Q' := fun s hs =>
  ⟨fun a t heq => h a t ((hx s hs).1 a t heq), (hx s hs).2⟩

theorem Triple.pre {x : Action σ α} {P' : σ → Prop} (hx : Triple excuse P x Q)
    (h : ∀ s, P' s → P s) : Triple excuse P' x Q := fun s hs => hx s (h s hs)

theorem Triple.ite {c : Prop} [Decidable c] {x y : Action σ α}
    (hx : c → Triple excuse P x Q) (hy : ¬ c → Triple excuse P y Q) :
    Triple excuse P (if c then x else y) Q := by
  split
  · exact hx ‹_›
  · exact hy ‹_›

structure Compositional (K : ∀ {α : Type}, Action σ α → Prop) : Prop where
  pure : ∀ {α : Type} (a : α), K (Pure.pure a)
  bind : ∀ {α β : Type} {x : Action σ α} {f : α → Action σ β}, K x → (∀ a, K (f a)) → K (x >>= f)

theorem Compositional.ite {K : ∀ {α : Type}, Action σ α → Prop} (_ : Compositional K) {c : Prop}
    [Decidable c] {x y : Action σ α} (hx : K x) (hy : K y) : K (if c then x else y) := by
  split
  · exact hx
  · exact hy

/-- The action keeps every member of a family of invariants. -/
def Keeps {ι : Type*} (excuse : Prop) (I : ι → σ → Prop) (x : Action σ α) : Prop :=
  ∀ i, Triple excuse (I i) x fun _ => I i

section Keeps
variable {ι : Type*} {I : ι → σ → Prop}

theorem Keeps.pure (a : α) : Keeps excuse I (Pure.pure a : Action σ α) :=
  fun _ => .pure fun _ hs => hs

theorem Keeps.bind {x : Action σ α} {f : α → Action σ β} (hx : Keeps excuse I x)
    (hf : ∀ a, Keeps excuse I (f a)) : Keeps excuse I (x >>= f) :=
  fun i => (hx i).bind fun a => hf a i

theorem Keeps.compositional : Compositional (σ := σ) (Keeps excuse I) := ⟨Keeps.pure, Keeps.bind⟩

theorem Keeps.ite {c : Prop} [Decidable c] {x y : Action σ α} (hx : Keeps excuse I x)
    (hy : Keeps excuse I y) : Keeps excuse I (if c then x else y) := Keeps.compositional.ite hx hy

theorem Keeps.onlyIf {c : Prop} [Decidable c] {x : Action σ Unit} (hx : Keeps excuse I x) :
    Keeps excuse I (Actions.onlyIf c x) := .ite hx (.pure ())

theorem Keeps.look : Keeps excuse I Actions.look := fun _ => Triple.look.post fun _ _ h => h.2

theorem Keeps.update {f : σ → σ} (h : ∀ i s, I i s → I i (f s)) :
    Keeps excuse I (Actions.update f) := fun i => .update (h i)

end Keeps

/-- The action does not change what `f` reads, also when it throws. -/
def Leaves (f : σ → β) (x : Action σ α) : Prop := ∀ s, f (x s).1 = f s

section Leaves
variable {γ : Type} {f : σ → γ}

theorem Leaves.pure (a : α) : Leaves f (Pure.pure a : Action σ α) := fun _ => rfl

theorem Leaves.look : Leaves f (Actions.look : Action σ σ) := fun _ => rfl

theorem Leaves.lift (o : Option α) : Leaves f (Actions.lift o : Action σ α) := fun _ => rfl

theorem Leaves.update {g : σ → σ} (h : ∀ s, f (g s) = f s) : Leaves f (Actions.update g) := h

theorem Leaves.bind {x : Action σ α} {k : α → Action σ β} (hx : Leaves f x)
    (hk : ∀ a, Leaves f (k a)) : Leaves f (x >>= k) := by
  intro s
  have hfirst := hx s
  rw [bind_apply]
  rcases hr : x s with ⟨t, _ | a⟩ <;> rw [hr] at hfirst
  · exact hfirst
  · exact (hk a t).trans hfirst

theorem Leaves.compositional : Compositional (σ := σ) (Leaves f) := ⟨Leaves.pure, Leaves.bind⟩

theorem Leaves.ite {c : Prop} [Decidable c] {x y : Action σ α} (hx : Leaves f x)
    (hy : Leaves f y) : Leaves f (if c then x else y) := Leaves.compositional.ite hx hy

theorem Leaves.onlyIf {c : Prop} [Decidable c] {x : Action σ Unit} (hx : Leaves f x) :
    Leaves f (Actions.onlyIf c x) := .ite hx (.pure ())

end Leaves

end Actions

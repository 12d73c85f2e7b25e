import Mathlib.Tactic.TypeStar

/-! # Programs that choose and throw

A program reads and writes a state. At some points something that it does not control decides how
it goes on, and it may throw. The weakest precondition of a program speaks about all its ends.
-/
namespace Choices

/-- The states in which a program can end, with what it returns or throws. -/
def Program (ε σ α : Type) : Type := σ → σ → Except ε α → Prop

variable {ε σ τ α β : Type}

instance : Monad (Program ε σ) where
  pure a := fun s t o => t = s ∧ o = .ok a
  bind x f := fun s t o =>
    (∃ e, x s t (.error e) ∧ o = .error e) ∨ ∃ u a, x s u (.ok a) ∧ f a u t o

def look : Program ε σ σ := fun s t o => t = s ∧ o = .ok s

def update (f : σ → σ) : Program ε σ Unit := fun s t o => t = f s ∧ o = .ok ()

def fails : Program ε σ α := fun s t o => t = s ∧ ∃ e, o = .error e

def choose (p : α → Prop) : Program ε σ α := fun s t o => t = s ∧ ∃ a, p a ∧ o = .ok a

def alter (r : σ → σ → Prop) : Program ε σ Unit := fun s t o => r s t ∧ o = .ok ()

def check : Program ε σ Unit := fun s t o => t = s ∧ (o = .ok () ∨ ∃ e, o = .error e)

def catching (x : Program ε σ α) (handler : ε → Program ε σ α) : Program ε σ α :=
  fun s t o => (∃ a, x s t (.ok a) ∧ o = .ok a) ∨ ∃ u e, x s u (.error e) ∧ handler e u t o

def focus (part : σ → τ) (put : τ → σ → σ) (x : Program ε τ α) : Program ε σ α :=
  fun s t o => ∃ p, x (part s) p o ∧ t = put p s

/-- A program on a part that has to be there; otherwise anything may follow. -/
def onSome (x : Program ε τ α) : Program ε (Option τ) α := fun s t o =>
  match s with
  | none => True
  | some p => ∃ q, x p q o ∧ t = some q

/-- However the program goes on from `s`, it returns with `Q` or throws with `E`. -/
def wp (x : Program ε σ α) (Q : α → σ → Prop) (E : ε → σ → Prop) (s : σ) : Prop :=
  ∀ t o, x s t o → match o with
    | .ok a => Q a t
    | .error e => E e t

variable {x : Program ε σ α} {f : α → Program ε σ β} {Q Q' : α → σ → Prop} {R : β → σ → Prop}
  {E E' : ε → σ → Prop} {s : σ}

@[simp] theorem wp_pure {a : α} : wp (pure a : Program ε σ α) Q E s ↔ Q a s := by
  constructor
  · intro h
    exact h s (.ok a) ⟨rfl, rfl⟩
  · rintro h t o ⟨rfl, rfl⟩
    exact h

@[simp] theorem wp_bind : wp (x >>= f) R E s ↔ wp x (fun a t => wp (f a) R E t) E s := by
  constructor
  · intro h t o hx
    cases o with
    | ok a => exact fun u o hf => h u o (Or.inr ⟨t, a, hx, hf⟩)
    | error e => exact h t (.error e) (Or.inl ⟨e, hx, rfl⟩)
  · rintro h t o (⟨e, hx, rfl⟩ | ⟨u, a, hx, hf⟩)
    · exact h t (.error e) hx
    · exact h u (.ok a) hx t o hf

@[simp] theorem wp_look {Q : σ → σ → Prop} : wp (look : Program ε σ σ) Q E s ↔ Q s s := by
  constructor
  · intro h
    exact h s (.ok s) ⟨rfl, rfl⟩
  · rintro h t o ⟨rfl, rfl⟩
    exact h

@[simp] theorem wp_update {g : σ → σ} {Q : Unit → σ → Prop} :
    wp (update g : Program ε σ Unit) Q E s ↔ Q () (g s) := by
  constructor
  · intro h
    exact h _ (.ok ()) ⟨rfl, rfl⟩
  · rintro h t o ⟨rfl, rfl⟩
    exact h

@[simp] theorem wp_fails : wp (fails : Program ε σ α) Q E s ↔ ∀ e, E e s := by
  constructor
  · intro h e
    exact h s (.error e) ⟨rfl, e, rfl⟩
  · rintro h t o ⟨rfl, e, rfl⟩
    exact h e

@[simp] theorem wp_choose {p : α → Prop} :
    wp (choose p : Program ε σ α) Q E s ↔ ∀ a, p a → Q a s := by
  constructor
  · intro h a ha
    exact h s (.ok a) ⟨rfl, a, ha, rfl⟩
  · rintro h t o ⟨rfl, a, ha, rfl⟩
    exact h a ha

@[simp] theorem wp_alter {r : σ → σ → Prop} {Q : Unit → σ → Prop} :
    wp (alter r : Program ε σ Unit) Q E s ↔ ∀ t, r s t → Q () t := by
  constructor
  · intro h t ht
    exact h t (.ok ()) ⟨ht, rfl⟩
  · rintro h t o ⟨ht, rfl⟩
    exact h t ht

@[simp] theorem wp_check {Q : Unit → σ → Prop} :
    wp (check : Program ε σ Unit) Q E s ↔ Q () s ∧ ∀ e, E e s := by
  constructor
  · intro h
    exact ⟨h s (.ok ()) ⟨rfl, Or.inl rfl⟩, fun e => h s (.error e) ⟨rfl, Or.inr ⟨e, rfl⟩⟩⟩
  · rintro ⟨hq, he⟩ t o ⟨rfl, rfl | ⟨e, rfl⟩⟩
    · exact hq
    · exact he e

@[simp] theorem wp_catching {handler : ε → Program ε σ α} :
    wp (catching x handler) Q E s ↔ wp x Q (fun e t => wp (handler e) Q E t) s := by
  constructor
  · intro h t o hx
    cases o with
    | ok a => exact h t (.ok a) (Or.inl ⟨a, hx, rfl⟩)
    | error e => exact fun u o hu => h u o (Or.inr ⟨t, e, hx, hu⟩)
  · rintro h t o (⟨a, hx, rfl⟩ | ⟨u, e, hx, hu⟩)
    · exact h t (.ok a) hx
    · exact h u (.error e) hx t o hu

@[simp] theorem wp_focus {part : σ → τ} {put : τ → σ → σ} {y : Program ε τ α} :
    wp (focus part put y) Q E s ↔
      wp y (fun a p => Q a (put p s)) (fun e p => E e (put p s)) (part s) := by
  constructor
  · intro h p o hy
    have hend := h _ o ⟨p, hy, rfl⟩
    cases o <;> exact hend
  · rintro h t o ⟨p, hy, rfl⟩
    have hend := h p o hy
    cases o <;> exact hend

@[simp] theorem wp_onSome {y : Program ε τ α} {p : τ} {Q : α → Option τ → Prop}
    {E : ε → Option τ → Prop} :
    wp (onSome y) Q E (some p) ↔ wp y (fun a q => Q a (some q)) (fun e q => E e (some q)) p := by
  constructor
  · intro h q o hy
    have hend := h _ o ⟨q, hy, rfl⟩
    cases o <;> exact hend
  · rintro h t o ⟨q, hy, rfl⟩
    have hend := h q o hy
    cases o <;> exact hend

theorem wp_ite {c : Prop} [Decidable c] {y : Program ε σ α} :
    wp (if c then x else y) Q E s ↔ (c → wp x Q E s) ∧ (¬c → wp y Q E s) := by
  split
  next h => exact ⟨fun hx => ⟨fun _ => hx, fun hn => absurd h hn⟩, fun hx => hx.1 h⟩
  next h => exact ⟨fun hy => ⟨fun hc => absurd hc h, fun _ => hy⟩, fun hy => hy.2 h⟩

theorem wp_mono (h : wp x Q E s) (hq : ∀ a t, Q a t → Q' a t) (he : ∀ e t, E e t → E' e t) :
    wp x Q' E' s := by
  intro t o hx
  have hend := h t o hx
  cases o with
  | ok a => exact hq a t hend
  | error e => exact he e t hend

theorem wp_and (h : wp x Q E s) (h' : wp x Q' E' s) :
    wp x (fun a t => Q a t ∧ Q' a t) (fun e t => E e t ∧ E' e t) s := by
  intro t o hx
  have hend := h t o hx
  have hend' := h' t o hx
  cases o with
  | ok a => exact ⟨hend, hend'⟩
  | error e => exact ⟨hend, hend'⟩

/-- What a weakest precondition says of one run. -/
theorem wp_returns {a : α} {t : σ} (h : wp x Q E s) (hx : x s t (.ok a)) : Q a t := h t (.ok a) hx

/-- One way for the program to go on from `s` returns with `Q`. -/
def may (x : Program ε σ α) (Q : α → σ → Prop) (s : σ) : Prop := ∃ t a, x s t (.ok a) ∧ Q a t

@[simp] theorem may_pure {a : α} : may (pure a : Program ε σ α) Q s ↔ Q a s := by
  constructor
  · rintro ⟨_, _, ⟨rfl, ha⟩, h⟩
    cases ha
    exact h
  · exact fun h => ⟨s, a, ⟨rfl, rfl⟩, h⟩

@[simp] theorem may_bind : may (x >>= f) R s ↔ may x (fun a t => may (f a) R t) s := by
  constructor
  · rintro ⟨t, b, ⟨e, _, he⟩ | ⟨u, a, hx, hf⟩, hr⟩
    · cases he
    · exact ⟨u, a, hx, t, b, hf, hr⟩
  · rintro ⟨u, a, hx, t, b, hf, hr⟩
    exact ⟨t, b, Or.inr ⟨u, a, hx, hf⟩, hr⟩

@[simp] theorem may_look {Q : σ → σ → Prop} : may (look : Program ε σ σ) Q s ↔ Q s s := by
  constructor
  · rintro ⟨_, _, ⟨rfl, ha⟩, h⟩
    cases ha
    exact h
  · exact fun h => ⟨s, s, ⟨rfl, rfl⟩, h⟩

@[simp] theorem may_update {g : σ → σ} {Q : Unit → σ → Prop} :
    may (update g : Program ε σ Unit) Q s ↔ Q () (g s) :=
  ⟨fun ⟨_, _, ⟨ht, _⟩, h⟩ => ht ▸ h, fun h => ⟨g s, (), ⟨rfl, rfl⟩, h⟩⟩

@[simp] theorem may_check {Q : Unit → σ → Prop} :
    may (check : Program ε σ Unit) Q s ↔ Q () s :=
  ⟨fun ⟨_, _, ⟨ht, _⟩, h⟩ => ht ▸ h, fun h => ⟨s, (), ⟨rfl, Or.inl rfl⟩, h⟩⟩

@[simp] theorem may_choose {p : α → Prop} :
    may (choose p : Program ε σ α) Q s ↔ ∃ a, p a ∧ Q a s := by
  constructor
  · rintro ⟨_, _, ⟨rfl, a, hp, ha⟩, h⟩
    cases ha
    exact ⟨_, hp, h⟩
  · rintro ⟨a, hp, h⟩
    exact ⟨s, a, ⟨rfl, a, hp, rfl⟩, h⟩

@[simp] theorem may_alter {r : σ → σ → Prop} {Q : Unit → σ → Prop} :
    may (alter r : Program ε σ Unit) Q s ↔ ∃ t, r s t ∧ Q () t :=
  ⟨fun ⟨t, _, ⟨hr, _⟩, h⟩ => ⟨t, hr, h⟩, fun ⟨t, hr, h⟩ => ⟨t, (), ⟨hr, rfl⟩, h⟩⟩

theorem may_catching {handler : ε → Program ε σ α} (h : may x Q s) :
    may (catching x handler) Q s :=
  h.imp fun _ h => h.imp fun b h => ⟨Or.inl ⟨b, h.1, rfl⟩, h.2⟩

@[simp] theorem may_focus {part : σ → τ} {put : τ → σ → σ} {y : Program ε τ α} :
    may (focus part put y) Q s ↔ may y (fun a p => Q a (put p s)) (part s) := by
  constructor
  · rintro ⟨_, a, ⟨p, hy, rfl⟩, h⟩
    exact ⟨p, a, hy, h⟩
  · rintro ⟨p, a, hy, h⟩
    exact ⟨_, a, ⟨p, hy, rfl⟩, h⟩

@[simp] theorem may_onSome {y : Program ε τ α} {p : τ} {Q : α → Option τ → Prop} :
    may (onSome y) Q (some p) ↔ may y (fun a q => Q a (some q)) p := by
  constructor
  · rintro ⟨_, a, ⟨q, hy, rfl⟩, h⟩
    exact ⟨q, a, hy, h⟩
  · rintro ⟨q, a, hy, h⟩
    exact ⟨_, a, ⟨q, hy, rfl⟩, h⟩

theorem may_ite {c : Prop} [Decidable c] {y : Program ε σ α} :
    may (if c then x else y) Q s ↔ (c → may x Q s) ∧ (¬c → may y Q s) := by
  split
  next h => exact ⟨fun hx => ⟨fun _ => hx, fun hn => absurd h hn⟩, fun hx => hx.1 h⟩
  next h => exact ⟨fun hy => ⟨fun hc => absurd hc h, fun _ => hy⟩, fun hy => hy.2 h⟩

theorem may_mono (h : may x Q s) (hq : ∀ a t, Q a t → Q' a t) : may x Q' s :=
  h.imp fun t h => h.imp fun a h => ⟨h.1, hq a t h.2⟩

/-- What a program can do, it does as its weakest precondition says. -/
theorem may_and_wp (h : may x Q s) (hx : wp x Q' E s) : may x (fun a t => Q a t ∧ Q' a t) s :=
  h.imp fun t h => h.imp fun _ h => ⟨h.1, h.2, hx t _ h.1⟩

end Choices

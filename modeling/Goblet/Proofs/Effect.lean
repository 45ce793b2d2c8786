/-!
# Computations with a state that may fail

`Triple P x Q E` says what the state satisfies after `x` is carried out in a state that satisfies `P`: `Q`, together
with the result, if `x` succeeds, and `E`, together with the error, if it fails. There is one rule for each way to build
a computation (`Triple.seq`, `Triple.read`, `Triple.write`, `Triple.update`, `Triple.raise`).

A computation that is known to succeed is taken apart by `seq_ok`, and one without a state by `bind_ok`.
-/

namespace Goblet

variable {ε σ α β : Type} {b : β} {e : ε} {a : α} {s t : σ}
variable {f : α → EStateM ε σ β} {x : EStateM ε σ α}

/-- What holds after `x` where `P` holds before: `Q` if it succeeds, `E` if it fails. -/
def Triple (P : σ → Prop) (x : EStateM ε σ α) (Q : α → σ → Prop) (E : ε → σ → Prop) : Prop :=
  ∀ s, P s → match x s with
    | .ok a t => Q a t
    | .error e t => E e t

namespace Triple

variable {P P' : σ → Prop} {Q Q' : α → σ → Prop} {E E' : ε → σ → Prop} {x : EStateM ε σ α}
variable {R : β → σ → Prop}

theorem ret (h : ∀ s, P s → Q a s) : Triple P (pure a : EStateM ε σ α) Q E := h

theorem raise (h : ∀ s, P s → E e s) : Triple P (throw e : EStateM ε σ α) Q E := h

theorem raise_seq (h : ∀ s, P s → E e s) : Triple P (throw e >>= f) R E := h

theorem seq (hx : Triple P x Q E) (hf : ∀ a, Triple (Q a) (f a) R E) :
    Triple P (x >>= f) R E := by
  intro s hs
  have h := hx s hs
  show match EStateM.bind x f s with
    | .ok a t => R a t
    | .error e t => E e t
  unfold EStateM.bind
  cases hr : x s with
  | ok a t => rw [hr] at h; exact hf a t h
  | error e t => rw [hr] at h; exact h

theorem map {f : α → β} (hx : Triple P x (fun a => R (f a)) E) : Triple P (f <$> x) R E := by
  intro s hs
  have h := hx s hs
  show match EStateM.map f x s with
    | .ok a t => R a t
    | .error e t => E e t
  unfold EStateM.map
  cases hr : x s <;> (rw [hr] at h; exact h)

theorem ite {c : Prop} [Decidable c] {y : EStateM ε σ α} (hx : c → Triple P x Q E) (hy : ¬c → Triple P y Q E) :
    Triple P (if c then x else y) Q E := by
  split
  · exact hx ‹_›
  · exact hy ‹_›

theorem weaken (h : Triple P' x Q' E') (hP : ∀ s, P s → P' s) (hQ : ∀ a s, Q' a s → Q a s)
    (hE : ∀ e s, E' e s → E e s) :
    Triple P x Q E := by
  intro s hs
  have := h s (hP s hs)
  cases hr : x s with
  | ok a t => rw [hr] at this; exact hQ _ _ this
  | error e t => rw [hr] at this; exact hE _ _ this

theorem read {f : σ → EStateM ε σ α} (h : ∀ s, P s → Triple (· = s) (f s) Q E) : Triple P (get >>= f) Q E :=
  fun s hs => h s hs s rfl

theorem write {t : σ} {R : PUnit → σ → Prop} (h : ∀ s, P s → R ⟨⟩ t) : Triple P (set t : EStateM ε σ PUnit) R E := h

theorem update {f : σ → σ} {R : PUnit → σ → Prop} (h : ∀ s, P s → R ⟨⟩ (f s)) :
    Triple P (modify f : EStateM ε σ PUnit) R E := h

theorem exchange {f : σ → α × σ} (h : ∀ s, P s → Q (f s).1 (f s).2) : Triple P (modifyGet f : EStateM ε σ α) Q E := h

/-- From a fixed state on, a computation does what it does wherever `P` holds. -/
theorem fixed {s : σ} (h : Triple P x Q E) (hs : P s) : Triple (· = s) x Q E := fun _ ht => ht ▸ h s hs

end Triple

/-- A computation succeeds. It stands by itself, so that its cases can be told apart. -/
abbrev Ran (x : EStateM ε σ α) (s : σ) (a : α) (t : σ) : Prop := x s = .ok a t

theorem ran (h : x s = .ok a t) : Ran x s a t := h

theorem seq_ok : (x >>= f) s = .ok b t ↔ ∃ a u, x s = .ok a u ∧ Ran (f a) u b t := by
  show EStateM.bind x f s = .ok b t ↔ _
  unfold EStateM.bind
  cases hr : x s with
  | ok a u => exact ⟨fun h => ⟨a, u, rfl, h⟩, fun ⟨_, _, h, h'⟩ => by cases h; exact h'⟩
  | error e u => exact ⟨nofun, fun ⟨_, _, h, _⟩ => (nomatch h)⟩

/-- A sequence that succeeds is taken apart, with what is known of its first part. -/
theorem seq_by {R : α → σ → Prop} (hx : ∀ {a u}, x s = .ok a u → R a u) (h : (x >>= f) s = .ok b t) :
    ∃ a u, R a u ∧ Ran (f a) u b t := by
  obtain ⟨a, u, ha, hb⟩ := seq_ok.mp h
  exact ⟨a, u, hx ha, hb⟩

theorem modify_run (f : σ → σ) (s : σ) : (modify f : EStateM ε σ PUnit) s = .ok ⟨⟩ (f s) := rfl

theorem modifyGet_run (f : σ → α × σ) (s : σ) : (modifyGet f : EStateM ε σ α) s = .ok (f s).1 (f s).2 := rfl

theorem seq_eq (h : x s = .ok a t) : (x >>= f) s = f a t := by
  show EStateM.bind x f s = _
  simp only [EStateM.bind, h]

theorem get_seq {f : σ → EStateM ε σ α} {s : σ} : (get >>= f) s = f s s := rfl

theorem seq_error (h : x s = .error e t) : (x >>= f) s = .error e t := by
  show EStateM.bind x f s = _
  simp only [EStateM.bind, h]

/-- A sequence without a state that succeeds consists of two computations that succeed. -/
theorem bind_ok {x : Except ε α} {f : α → Except ε β} :
    (x >>= f) = .ok b ↔ ∃ a, x = .ok a ∧ f a = .ok b := by
  cases x with
  | ok a => exact ⟨fun h => ⟨a, rfl, h⟩, fun ⟨_, h, h'⟩ => by cases h; exact h'⟩
  | error e => exact ⟨nofun, fun ⟨_, h, _⟩ => (nomatch h)⟩

end Goblet

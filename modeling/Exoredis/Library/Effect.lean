import Mathlib

/-!
# Fallible computations on a state

`Effect σ ε α` is a computation that reads and writes a state of type `σ` and
ends either in a value or in a fault of type `ε`. The laws below evaluate a
computation on a state, and `bind_eq_ok_iff` reads a finished computation
backwards: it splits a successful run of `x >>= f` at the state between the two
halves.

`Preserves x I` says that a successful run of `x` keeps the state predicate
`I`. It is closed under sequencing, branching and iteration over a list, so an
invariant of a composed computation is assembled from those of its parts.
`Faults x P` says that `x` can only fail with faults that satisfy `P`. Both are
classes of computations closed under sequencing (`Sequential`), so one proof about a
composed computation serves both.
`Yields x P` says that every result of `x` satisfies `P`.
`Lockstep R S x y` compares two computations from states that `R` relates.
-/

abbrev Effect (σ ε : Type) := StateT σ (Except ε)

namespace Effect

variable {σ ε α β : Type}

@[simp] theorem pure_run (a : α) (s : σ) :
    (pure a : Effect σ ε α) s = .ok (a, s) := rfl

theorem bind_run (x : Effect σ ε α) (f : α → Effect σ ε β) (s : σ) :
    (x >>= f) s = match x s with
      | .ok (a, s') => f a s'
      | .error e => .error e := by
  simp only [bind, StateT.bind, Except.bind]
  cases x s <;> rfl

theorem bind_run_ok {x : Effect σ ε α} {f : α → Effect σ ε β} {s s' : σ} {a : α}
    (h : x s = .ok (a, s')) : (x >>= f) s = f a s' := by
  rw [bind_run, h]

theorem bind_run_error {x : Effect σ ε α} {f : α → Effect σ ε β} {s : σ} {e : ε}
    (h : x s = .error e) : (x >>= f) s = .error e := by
  rw [bind_run, h]

/-- A successful run of a sequence passes through a state between its halves. -/
theorem bind_eq_ok_iff {x : Effect σ ε α} {f : α → Effect σ ε β} {s t : σ} {b : β} :
    (x >>= f) s = .ok (b, t) ↔ ∃ a s', x s = .ok (a, s') ∧ f a s' = .ok (b, t) := by
  rw [bind_run]
  constructor
  · intro h
    cases hx : x s with
    | error e => simp [hx] at h
    | ok p => exact ⟨p.1, p.2, rfl, by simpa [hx] using h⟩
  · rintro ⟨a, s', hx, hf⟩
    rw [hx]
    exact hf

/-- A sequence fails in its first half, or in the second. -/
theorem bind_eq_error_iff {x : Effect σ ε α} {f : α → Effect σ ε β} {s : σ} {e : ε} :
    (x >>= f) s = .error e ↔
      x s = .error e ∨ ∃ a s', x s = .ok (a, s') ∧ f a s' = .error e := by
  rw [bind_run]
  cases x s with
  | error e' => simp
  | ok p =>
      obtain ⟨a, s'⟩ := p
      simp

/-- A run of which a part is known. -/
theorem exists_of_map_eq_ok {x : Effect σ ε α} {s : σ} {g : α × σ → β} {b : β}
    (h : (x s).map g = .ok b) : ∃ a t, x s = .ok (a, t) ∧ g (a, t) = b := by
  cases hrun : x s with
  | error e =>
      rw [hrun] at h
      cases h
  | ok p =>
      rw [hrun] at h
      cases h
      exact ⟨p.1, p.2, rfl, rfl⟩

@[simp] theorem map_run (g : α → β) (x : Effect σ ε α) (s : σ) :
    (g <$> x) s = (x s).map fun p => (g p.1, p.2) := by
  simp only [Functor.map, StateT.map, bind, Except.bind, Except.map]
  cases x s <;> rfl

@[simp] theorem throw_run (e : ε) (s : σ) :
    (throw e : Effect σ ε α) s = .error e := rfl

@[simp] theorem get_run (s : σ) : (get : Effect σ ε σ) s = .ok (s, s) := rfl

@[simp] theorem set_run (s t : σ) : (set t : Effect σ ε PUnit) s = .ok (⟨⟩, t) := rfl

@[simp] theorem modify_run (g : σ → σ) (s : σ) :
    (modify g : Effect σ ε PUnit) s = .ok (⟨⟩, g s) := rfl

@[simp] theorem ite_run (c : Prop) [Decidable c] (x y : Effect σ ε α) (s : σ) :
    (if c then x else y) s = if c then x s else y s := by
  split <;> rfl

/-! ## Sequencing -/

/-- A class of computations that is closed under sequencing. What follows `x` only
has to be in the class for the results that `x` can have. -/
structure Sequential (C : ∀ α : Type, Effect σ ε α → Prop) : Prop where
  pure : ∀ {α : Type} (a : α), C α (pure a)
  bind : ∀ {α β : Type} {x : Effect σ ε α} {f : α → Effect σ ε β}, C α x →
    (∀ a, (∃ s t, x s = .ok (a, t)) → C β (f a)) → C β (x >>= f)

theorem Sequential.seq {C : ∀ α : Type, Effect σ ε α → Prop} (h : Sequential C)
    {x : Effect σ ε α} {f : α → Effect σ ε β} (hx : C α x) (hf : ∀ a, C β (f a)) :
    C β (x >>= f) :=
  h.bind hx fun a _ => hf a

/-! ## Invariants -/

/-- Every successful run of `x` keeps `I`. -/
def Preserves (x : Effect σ ε α) (I : σ → Prop) : Prop :=
  ∀ s a t, I s → x s = .ok (a, t) → I t

variable {I : σ → Prop}

theorem preserves_pure (a : α) : Preserves (pure a : Effect σ ε α) I := by
  intro s b t hs h
  simp only [pure_run, Except.ok.injEq, Prod.mk.injEq] at h
  exact h.2 ▸ hs

theorem preserves_throw (e : ε) : Preserves (throw e : Effect σ ε α) I := by
  intro s b t _ h
  simp at h

theorem preserves_modify {g : σ → σ} (hg : ∀ s, I s → I (g s)) :
    Preserves (modify g : Effect σ ε PUnit) I := by
  intro s a t hs h
  simp only [modify_run, Except.ok.injEq, Prod.mk.injEq] at h
  exact h.2 ▸ hg s hs

theorem sequential_preserves : Sequential fun α (x : Effect σ ε α) => Preserves x I where
  pure := preserves_pure
  bind := by
    intro α β x f hx hf s b t hs h
    obtain ⟨a, s', h₁, h₂⟩ := bind_eq_ok_iff.1 h
    exact hf a ⟨s, s', h₁⟩ s' b t (hx s a s' hs h₁) h₂

/-! ## Faults -/

/-- Every fault of `x` satisfies `P`. -/
def Faults (x : Effect σ ε α) (P : ε → Prop) : Prop :=
  ∀ s e, x s = .error e → P e

theorem sequential_faults {P : ε → Prop} :
    Sequential fun α (x : Effect σ ε α) => Faults x P where
  pure := by
    intro α a s e h
    cases h
  bind := by
    intro α β x f hx hf s e h
    rw [bind_run] at h
    cases hrun : x s with
    | error e' =>
        rw [hrun] at h
        cases h
        exact hx s e hrun
    | ok p =>
        rw [hrun] at h
        exact hf p.1 ⟨s, p.2, hrun⟩ p.2 e h

/-! ## Results -/

/-- Every result of `x` satisfies `P`. -/
def Yields (x : Effect σ ε α) (P : α → Prop) : Prop :=
  ∀ s a t, x s = .ok (a, t) → P a

theorem yields_pure {P : α → Prop} {a : α} (h : P a) : Yields (pure a : Effect σ ε α) P := by
  intro s b t hrun
  cases hrun
  exact h

theorem yields_throw {P : α → Prop} (e : ε) : Yields (throw e : Effect σ ε α) P := by
  intro s a t hrun
  cases hrun

theorem yields_bind {P : α → Prop} {Q : β → Prop} {x : Effect σ ε α} {f : α → Effect σ ε β}
    (hx : Yields x P) (hf : ∀ a, P a → Yields (f a) Q) : Yields (x >>= f) Q := by
  intro s b t hrun
  obtain ⟨a, s', h₁, h₂⟩ := bind_eq_ok_iff.1 hrun
  exact hf a (hx s a s' h₁) s' b t h₂

/-- Nothing is asked of the result on the way. -/
theorem yields_seq {Q : β → Prop} {x : Effect σ ε α} {f : α → Effect σ ε β}
    (hf : ∀ a, Yields (f a) Q) : Yields (x >>= f) Q :=
  @yields_bind σ ε α β (fun _ => True) Q x f (fun _ _ _ _ => trivial) fun a _ => hf a

/-! ## Two computations side by side -/

/-- From related states both computations fail alike, or both end with related
results and in related states. -/
def Lockstep (R : σ → σ → Prop) (S : α → α → Prop) (x y : Effect σ ε α) : Prop :=
  ∀ s t, R s t → (∃ e, x s = .error e ∧ y t = .error e) ∨
    ∃ a b s' t', x s = .ok (a, s') ∧ y t = .ok (b, t') ∧ S a b ∧ R s' t'

variable {R : σ → σ → Prop} {S : α → α → Prop} {T : β → β → Prop}

theorem lockstep_pure {a b : α} (h : S a b) :
    Lockstep R S (pure a : Effect σ ε α) (pure b) :=
  fun s t hR => .inr ⟨a, b, s, t, rfl, rfl, h, hR⟩

theorem lockstep_throw (e : ε) : Lockstep R S (throw e : Effect σ ε α) (throw e) :=
  fun _ _ _ => .inl ⟨e, rfl, rfl⟩

theorem lockstep_bind {x y : Effect σ ε α} {f g : α → Effect σ ε β} (hx : Lockstep R S x y)
    (hf : ∀ a b, S a b → Lockstep R T (f a) (g b)) : Lockstep R T (x >>= f) (y >>= g) := by
  intro s t hR
  rcases hx s t hR with ⟨e, hs, ht⟩ | ⟨a, b, s', t', hs, ht, hab, hR'⟩
  · exact .inl ⟨e, bind_run_error hs, bind_run_error ht⟩
  · rw [bind_run_ok hs, bind_run_ok ht]
    exact hf a b hab s' t' hR'

end Effect

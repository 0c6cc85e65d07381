import Mathlib

/-!
# Runs of a machine

A machine takes an input to an output and a next state, or it fails. A property
that every step keeps holds at the end of every run (`run_invariant`), and a
machine whose steps follow those of an abstract one writes the same outputs over
every run (`run_simulates`). States with the same outputs at every step have the
same outputs over every run (`run_agree`). An abstract machine may fail where nothing is asked of the other
one (`run_follows`). An observer of the inputs and the outputs may
keep a record of its own of what the state holds (`run_observes`).

The first two rules carry a condition on the steps. `Meets C` asks `C` of every step
of a run, in terms of the state before the step and its input, so that it can tell
the runs on which a machine is right from the others.
-/

/-- A step on an input, with the output and the next state. -/
abbrev Machine (σ ι ω ε : Type) := σ → ι → Except ε (ω × σ)

namespace Machine

variable {σ ι ω ε α : Type} (m : Machine σ ι ω ε)

/-- The outputs of a run and its last state. -/
def run : σ → List ι → Except ε (List ω × σ)
  | s, [] => .ok ([], s)
  | s, i :: is =>
      match m s i with
      | .error e => .error e
      | .ok (o, t) => (run t is).map fun p => (o :: p.1, p.2)

/-- Every step of the run from `s` meets `C`. -/
def Meets (C : σ → ι → Prop) : σ → List ι → Prop
  | _, [] => True
  | s, i :: is => C s i ∧ ∀ o t, m s i = .ok (o, t) → Meets C t is

instance decidableMeets (C : σ → ι → Prop) [∀ s i, Decidable (C s i)] :
    ∀ s is, Decidable (m.Meets C s is)
  | _, [] => .isTrue trivial
  | s, i :: is =>
      have : Decidable (∀ o t, m s i = .ok (o, t) → m.Meets C t is) :=
        match m s i with
        | .error _ => .isTrue (by simp)
        | .ok (o, t) =>
            have := decidableMeets C t is
            decidable_of_iff (m.Meets C t is)
              ⟨fun h o' t' ht => by simp_all, fun h => h o t rfl⟩
      inferInstanceAs (Decidable (_ ∧ _))

/-- The outputs and the last state of a machine that never fails. -/
def runTotal (a : α → ι → ω × α) : α → List ι → List ω × α
  | x, [] => ([], x)
  | x, i :: is => ((a x i).1 :: (runTotal a (a x i).2 is).1, (runTotal a (a x i).2 is).2)

/-- What an observer of the inputs and the outputs of a run keeps. -/
def observe (a : α → ι → ω → α) : α → List ι → List ω → α
  | x, i :: is, o :: os => observe a (a x i o) is os
  | x, _, _ => x

variable {m} {C : σ → ι → Prop}

theorem map_eq_ok_iff {β : Type} {x : Except ε α} {f : α → β} {b : β} :
    x.map f = .ok b ↔ ∃ a, x = .ok a ∧ f a = b := by
  cases x <;> simp [Except.map]

theorem run_cons_ok_iff {s t : σ} {i : ι} {is : List ι} {os : List ω} :
    m.run s (i :: is) = .ok (os, t) ↔
      ∃ o s' os', m s i = .ok (o, s') ∧ m.run s' is = .ok (os', t) ∧ os = o :: os' := by
  rw [run]
  constructor
  · intro h
    cases hm : m s i with
    | error e => simp [hm] at h
    | ok p =>
        obtain ⟨o, s'⟩ := p
        cases hr : m.run s' is with
        | error e => simp [hm, hr, Except.map] at h
        | ok q =>
            simp only [hm, hr, Except.map, Except.ok.injEq, Prod.mk.injEq] at h
            exact ⟨o, s', q.1, rfl, by rw [← h.2, hr], h.1.symm⟩
  · rintro ⟨o, s', os', hm, hr, rfl⟩
    rw [hm]
    simp only [hr]
    rfl

theorem run_append {s t : σ} {is js : List ι} {os : List ω} :
    m.run s (is ++ js) = .ok (os, t) ↔
      ∃ s' os₁ os₂, m.run s is = .ok (os₁, s') ∧ m.run s' js = .ok (os₂, t) ∧
        os = os₁ ++ os₂ := by
  induction is generalizing s os with
  | nil => simp [run]
  | cons i is ih =>
      rw [List.cons_append, run_cons_ok_iff]
      constructor
      · rintro ⟨o, s', os', hm, hr, rfl⟩
        obtain ⟨s'', os₁, os₂, h₁, h₂, rfl⟩ := ih.1 hr
        exact ⟨s'', o :: os₁, os₂, run_cons_ok_iff.2 ⟨o, s', os₁, hm, h₁, rfl⟩, h₂, rfl⟩
      · rintro ⟨s'', os₁, os₂, h₁, h₂, rfl⟩
        obtain ⟨o, s', os', hm, hr, rfl⟩ := run_cons_ok_iff.1 h₁
        exact ⟨o, s', os' ++ os₂, hm, ih.2 ⟨s'', os', os₂, hr, h₂, rfl⟩, rfl⟩

theorem run_append_of_ok {s t : σ} {is js : List ι} {os : List ω} (h : m.run s is = .ok (os, t)) :
    m.run s (is ++ js) = (m.run t js).map fun p => (os ++ p.1, p.2) := by
  cases hj : m.run t js with
  | ok p => exact run_append.2 ⟨t, os, p.1, h, hj, rfl⟩
  | error e =>
      induction is generalizing s os with
      | nil =>
          cases h
          exact hj
      | cons i is ih =>
          obtain ⟨o, s', os', hm, hr, rfl⟩ := run_cons_ok_iff.1 h
          rw [List.cons_append, run, hm]
          simp only [ih hr]
          rfl

theorem run_map {κ : Type} (f : κ → ι) (s : σ) (ks : List κ) :
    m.run s (ks.map f) = Machine.run (fun s k => m s (f k)) s ks := by
  induction ks generalizing s with
  | nil => rfl
  | cons k ks ih =>
      rw [List.map_cons, run, run]
      cases m s (f k) with
      | error e => rfl
      | ok p =>
          dsimp only
          rw [ih]

theorem meets_of_forall (h : ∀ s i, C s i) (s : σ) (is : List ι) : m.Meets C s is := by
  induction is generalizing s with
  | nil => trivial
  | cons i is ih => exact ⟨h s i, fun _ t _ => ih t⟩

theorem meets_append {s s' : σ} {is js : List ι} {os : List ω}
    (h : m.Meets C s (is ++ js)) (hr : m.run s is = .ok (os, s')) :
    m.Meets C s is ∧ m.Meets C s' js := by
  induction is generalizing s os with
  | nil =>
      simp only [run, Except.ok.injEq, Prod.mk.injEq] at hr
      exact ⟨trivial, hr.2 ▸ h⟩
  | cons i is ih =>
      obtain ⟨o, t, os', hm, hr, -⟩ := run_cons_ok_iff.1 hr
      refine ⟨⟨h.1, fun o' t' hm' => ?_⟩, (ih (h.2 o t hm) hr).2⟩
      obtain ⟨rfl, rfl⟩ : o = o' ∧ t = t' := by
        simpa [hm] using hm'
      exact (ih (h.2 o t hm) hr).1

/-- What every step that meets `C` keeps holds at the end of every run whose
steps meet it. -/
theorem run_invariant {I : σ → Prop}
    (hstep : ∀ s i o t, I s → C s i → m s i = .ok (o, t) → I t)
    {s t : σ} {is : List ι} {os : List ω} (hs : I s) (hC : m.Meets C s is)
    (h : m.run s is = .ok (os, t)) : I t := by
  induction is generalizing s os with
  | nil =>
      simp only [run, Except.ok.injEq, Prod.mk.injEq] at h
      exact h.2 ▸ hs
  | cons i is ih =>
      obtain ⟨o, s', os', hm, hr, -⟩ := run_cons_ok_iff.1 h
      exact ih (hstep s i o s' hs hC.1 hm) (hC.2 o s' hm) hr

/-- What every step keeps between the state and what is observed holds at the end of
every run. -/
theorem run_observes {R : σ → α → Prop} {a : α → ι → ω → α}
    (hstep : ∀ s x i o t, R s x → C s i → m s i = .ok (o, t) → R t (a x i o))
    {s t : σ} {x : α} {is : List ι} {os : List ω} (hR : R s x) (hC : m.Meets C s is)
    (h : m.run s is = .ok (os, t)) : R t (observe a x is os) := by
  induction is generalizing s x os with
  | nil =>
      simp only [run, Except.ok.injEq, Prod.mk.injEq] at h
      obtain ⟨rfl, rfl⟩ := h
      exact hR
  | cons i is ih =>
      obtain ⟨o, s', os', hm, hr, rfl⟩ := run_cons_ok_iff.1 h
      exact ih (hstep s x i o s' hR hC.1 hm) (hC.2 o s' hm) hr

/-- What every output of a step has, every output of a run has. -/
theorem run_outputs {Q : ω → Prop} (hstep : ∀ s i o t, m s i = .ok (o, t) → Q o) {s t : σ}
    {is : List ι} {os : List ω} (h : m.run s is = .ok (os, t)) : ∀ o ∈ os, Q o := by
  induction is generalizing s os with
  | nil =>
      cases h
      exact fun o ho => absurd ho List.not_mem_nil
  | cons i is ih =>
      obtain ⟨o, s', os', hm, hr, rfl⟩ := run_cons_ok_iff.1 h
      exact List.forall_mem_cons.2 ⟨hstep s i o s' hm, ih hr⟩

/-- If every step that meets `C` ends, with the output of the abstract step and
in a state that still corresponds, so does every run whose steps meet it. -/
theorem run_simulates {R : σ → α → Prop} {a : α → ι → ω × α}
    (hstep : ∀ s x i, R s x → C s i → ∃ t, m s i = .ok ((a x i).1, t) ∧ R t (a x i).2)
    {s : σ} {x : α} {is : List ι} (hR : R s x) (hC : m.Meets C s is) :
    ∃ t, m.run s is = .ok ((runTotal a x is).1, t) ∧ R t (runTotal a x is).2 := by
  induction is generalizing s x with
  | nil => exact ⟨s, rfl, hR⟩
  | cons i is ih =>
      obtain ⟨s', hm, hR'⟩ := hstep s x i hR hC.1
      obtain ⟨t, hr, hRt⟩ := ih hR' (hC.2 _ s' hm)
      exact ⟨t, run_cons_ok_iff.2 ⟨_, s', _, hm, hr, rfl⟩, hRt⟩

/-- If every step of another machine that does not fail is followed on the inputs that stand
for its own, so is every run of it. -/
theorem run_follows {κ ε' : Type} {R : σ → α → Prop} {P : ι → κ → Prop} {a : Machine α κ ω ε'}
    (hstep : ∀ s x i k o y, R s x → P i k → a x k = .ok (o, y) → ∃ t, m s i = .ok (o, t) ∧ R t y)
    {s : σ} {x y : α} {is : List ι} {ks : List κ} {os : List ω} (hR : R s x)
    (hP : List.Forall₂ P is ks) (h : a.run x ks = .ok (os, y)) :
    ∃ t, m.run s is = .ok (os, t) ∧ R t y := by
  induction hP generalizing s x os with
  | nil =>
      cases h
      exact ⟨s, rfl, hR⟩
  | cons hik _ ih =>
      obtain ⟨o, x', os', ha, hr, rfl⟩ := run_cons_ok_iff.1 h
      obtain ⟨s', hm, hR'⟩ := hstep s x _ _ o x' hR hik ha
      obtain ⟨t, hrun, hRt⟩ := ih hR' hr
      exact ⟨t, run_cons_ok_iff.2 ⟨o, s', os', hm, hrun, rfl⟩, hRt⟩

/-- If the inputs with `P` have the same outcome in related states, runs on such
inputs from related states have the same outputs, or fail alike. -/
theorem run_agree {R : σ → σ → Prop} {P : ι → Prop}
    (hstep : ∀ s t i, R s t → P i → (∃ e, m s i = .error e ∧ m t i = .error e) ∨
      ∃ o s' t', m s i = .ok (o, s') ∧ m t i = .ok (o, t') ∧ R s' t')
    {s t : σ} {is : List ι} (hR : R s t) (hP : ∀ i ∈ is, P i) :
    (m.run s is).map Prod.fst = (m.run t is).map Prod.fst := by
  induction is generalizing s t with
  | nil => rfl
  | cons i is ih =>
      rw [run, run]
      rcases hstep s t i hR (hP i List.mem_cons_self) with
        ⟨e, hs, ht⟩ | ⟨o, s', t', hs, ht, hR'⟩
      · rw [hs, ht]
      · have hrest := ih hR' fun j hj => hP j (List.mem_cons_of_mem _ hj)
        simp only [hs, ht]
        cases hrs : m.run s' is <;> cases hrt : m.run t' is <;>
          simp_all [Except.map]

end Machine

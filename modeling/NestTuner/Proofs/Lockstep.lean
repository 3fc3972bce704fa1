import NestTuner.Proofs.Results

/-!
Two computations side by side. Both trap in the same way, or both return and their values are
related. With states, a relation between these is kept from one step to the next. States are stacked
in different ways, so a computation is seen as a function of all of them together. A coupling is
any relation between computations that is kept when they go on; simulation is one.
-/

namespace NestTuner

/-- Both trap in the same way, or both return and the values are related. -/
inductive Same {α β : Type} (R : α → β → Prop) : Checked α → Checked β → Prop
  | trapped (trap : Trap) : Same R (.error trap) (.error trap)
  | returned {a : α} {b : β} (related : R a b) : Same R (.ok a) (.ok b)

namespace Same

variable {α β γ δ : Type} {R : α → β → Prop} {S : γ → δ → Prop}

theorem rfl {x : Checked α} : Same Eq x x := by
  cases x with
  | error trap => exact .trapped trap
  | ok a => exact .returned (Eq.refl a)

theorem of_ok {x : Checked α} {y : Checked β} {a : α} {b : β} (hx : x = .ok a) (hy : y = .ok b)
    (h : R a b) : Same R x y := by
  rw [hx, hy]
  exact .returned h

theorem imp {R' : α → β → Prop} {x : Checked α} {y : Checked β} (h : Same R x y)
    (hR : ∀ a b, R a b → R' a b) : Same R' x y := by
  cases h with
  | trapped trap => exact .trapped trap
  | returned related => exact .returned (hR _ _ related)

theorem imp_of_ok {R' : α → β → Prop} {x : Checked α} {y : Checked β} (h : Same R x y)
    (hR : ∀ a b, x = .ok a → R a b → R' a b) : Same R' x y := by
  cases h with
  | trapped trap => exact .trapped trap
  | returned related => exact .returned (hR _ _ (Eq.refl _) related)

theorem exists_of_ok {a : α} {y : Checked β} (h : Same R (.ok a) y) : ∃ b, y = .ok b ∧ R a b := by
  cases h with
  | returned related => exact ⟨_, Eq.refl _, related⟩

theorem exists_of_ok_right {x : Checked α} {b : β} (h : Same R x (.ok b)) :
    ∃ a, x = .ok a ∧ R a b := by
  cases h with
  | returned related => exact ⟨_, Eq.refl _, related⟩

theorem and_of_ok {P : β → Prop} {x : Checked α} {y : Checked β} (h : Same R x y)
    (hP : ∀ b, y = .ok b → P b) : Same (fun a b => R a b ∧ P b) x y := by
  cases h with
  | trapped trap => exact .trapped trap
  | returned related => exact .returned ⟨related, hP _ (Eq.refl _)⟩

theorem bind {x : Checked α} {y : Checked β} {f : α → Checked γ} {g : β → Checked δ}
    (h : Same R x y) (hfg : ∀ a b, R a b → Same S (f a) (g b)) : Same S (x >>= f) (y >>= g) := by
  cases h with
  | trapped trap => exact .trapped trap
  | returned related => exact hfg _ _ related

theorem of_map {f : α → γ} {g : β → δ} {x : Checked α} {y : Checked β}
    (h : Same S (x.map f) (y.map g)) : Same (fun a b => S (f a) (g b)) x y := by
  cases x with
  | error trap =>
    cases y with
    | error trap' =>
      cases h
      exact .trapped trap
    | ok b => cases h
  | ok a =>
    cases y with
    | error trap => cases h
    | ok b =>
      cases h with
      | returned related => exact .returned related

theorem foldlM {f : α → γ → Checked α} {g : β → γ → Checked β} {xs : List γ} {a : α} {b : β}
    (hab : R a b) (hfg : ∀ x a b, R a b → Same R (f a x) (g b x)) :
    Same R (xs.foldlM f a) (xs.foldlM g b) := by
  induction xs generalizing a b with
  | nil => exact .returned hab
  | cons x rest ih =>
    rw [List.foldlM_cons, List.foldlM_cons]
    exact (hfg x a b hab).bind fun a b hab => ih hab

theorem mapM {f : γ → Checked α} {g : γ → Checked β} {xs : List γ}
    (hfg : ∀ x, Same R (f x) (g x)) : Same (List.Forall₂ R) (xs.mapM f) (xs.mapM g) := by
  induction xs with
  | nil => exact .returned .nil
  | cons x rest ih =>
    rw [List.mapM_cons, List.mapM_cons]
    exact (hfg x).bind fun a b hab => ih.bind fun as bs hrest => .returned (.cons hab hrest)

end Same

/-- A computation is a function of a state that may trap. -/
class Stateful (m : Type → Type) [Monad m] [MonadExceptOf Trap m] (σ : outParam Type) where
  run {α : Type} : m α → σ → Checked (α × σ)
  run_pure {α : Type} (a : α) (s : σ) : run (pure a) s = .ok (a, s)
  run_bind {α β : Type} (x : m α) (f : α → m β) (s : σ) :
    run (x >>= f) s = run x s >>= fun r => run (f r.1) r.2
  run_throw {α : Type} (trap : Trap) (s : σ) : run (throw trap : m α) s = .error trap

instance : Stateful Checked Unit where
  run x _ := do return (← x, ())
  run_pure _ _ := rfl
  run_bind x f s := by cases x <;> rfl
  run_throw _ _ := rfl

/-- One more state on top. -/
instance {ρ σ : Type} {m : Type → Type} [Monad m] [LawfulMonad m] [MonadExceptOf Trap m]
    [Stateful m σ] : Stateful (StateT ρ m) (ρ × σ) where
  run x s := do
    let r ← Stateful.run (x.run s.1) s.2
    return (r.1.1, (r.1.2, r.2))
  run_pure a s := by
    rw [StateT.run_pure, Stateful.run_pure]
    rfl
  run_bind x f s := by
    rw [StateT.run_bind, Stateful.run_bind]
    cases Stateful.run (x.run s.1) s.2 <;> rfl
  run_throw {α} trap s := by
    have hthrow : (throw trap : StateT ρ m α).run s.1 = throw trap >>= fun a => pure (a, s.1) := rfl
    rw [hthrow, Stateful.run_bind, Stateful.run_throw]
    rfl

namespace Stateful

variable {ρ σ α : Type} {m : Type → Type} [Monad m] [LawfulMonad m] [MonadExceptOf Trap m]
  [Stateful m σ]

/-- A computation with all its states as one. -/
def flat (x : m α) : StateT σ Checked α :=
  fun s => run x s

theorem run_lift (x : m α) (s : ρ × σ) :
    run (StateT.lift x : StateT ρ m α) s = run x s.2 >>= fun r => .ok (r.1, (s.1, r.2)) := by
  have hlift : (StateT.lift x : StateT ρ m α).run s.1 = x >>= fun a => pure (a, s.1) := rfl
  simp only [run, hlift, run_bind, run_pure]
  cases run x s.2 <;> rfl

theorem run_get (s : ρ × σ) : run (get : StateT ρ m ρ) s = .ok (s.1, s) := by
  have hget : (get : StateT ρ m ρ).run s.1 = pure (s.1, s.1) := rfl
  simp only [run, hget, run_pure]
  rfl

theorem run_modify (f : ρ → ρ) (s : ρ × σ) :
    run (modify f : StateT ρ m PUnit) s = .ok ((), (f s.1, s.2)) := by
  have hmodify : (modify f : StateT ρ m PUnit).run s.1 = pure ((), f s.1) := rfl
  simp only [run, hmodify, run_pure]
  rfl

end Stateful

/-- A relation between computations of two kinds, given one between their values. It relates what
is returned at once and what is thrown, and goes on from related values. -/
structure Coupling (m n : Type → Type) [Monad m] [MonadExceptOf Trap m] [Monad n]
    [MonadExceptOf Trap n] where
  Rel {α β : Type} : (α → β → Prop) → m α → n β → Prop
  rel_pure {α β : Type} {R : α → β → Prop} {a : α} {b : β} : R a b → Rel R (pure a) (pure b)
  rel_bind {α β γ δ : Type} {R : α → β → Prop} {S : γ → δ → Prop} {x : m α} {y : n β}
    {f : α → m γ} {g : β → n δ} : Rel R x y → (∀ a b, R a b → Rel S (f a) (g b)) →
      Rel S (x >>= f) (y >>= g)
  rel_throw {α β : Type} {R : α → β → Prop} (trap : Trap) :
    Rel R (throw trap : m α) (throw trap : n β)

section Simulation

variable {m n : Type → Type} [Monad m] [MonadExceptOf Trap m] [Monad n] [MonadExceptOf Trap n]
  {α β γ δ : Type} {R : α → β → Prop} {S : γ → δ → Prop}

namespace Coupling

variable (C : Coupling m n)

theorem liftExcept {x : Checked α} {y : Checked β} (h : Same R x y) :
    C.Rel R (liftExcept x : m α) (liftExcept y : n β) := by
  cases h with
  | trapped trap => exact C.rel_throw trap
  | returned related => exact C.rel_pure related

theorem mapM [LawfulMonad m] [LawfulMonad n] {f : γ → m α} {g : δ → n β} {xs : List γ} {ys : List δ}
    (h : List.Forall₂ S xs ys) (hfg : ∀ x y, S x y → C.Rel R (f x) (g y)) :
    C.Rel (List.Forall₂ R) (xs.mapM f) (ys.mapM g) := by
  induction h with
  | nil => exact C.rel_pure .nil
  | cons hfirst _ ih =>
    rw [List.mapM_cons, List.mapM_cons]
    refine C.rel_bind (hfg _ _ hfirst) fun a b hab => ?_
    exact C.rel_bind ih fun as bs hrest => C.rel_pure (.cons hab hrest)

end Coupling

variable {σ τ : Type} [Stateful m σ] [Stateful n τ] {I : σ → τ → Prop}

/-- From related states both trap in the same way, or both return related values and states. -/
def Simulates (I : σ → τ → Prop) (R : α → β → Prop) (x : m α) (y : n β) : Prop :=
  ∀ s t, I s t → Same (fun p q => R p.1 q.1 ∧ I p.2 q.2) (Stateful.run x s) (Stateful.run y t)

namespace Simulates

theorem pure {a : α} {b : β} (h : R a b) : Simulates I R (pure a : m α) (pure b : n β) := by
  intro s t hst
  rw [Stateful.run_pure, Stateful.run_pure]
  exact .returned ⟨h, hst⟩

theorem bind {x : m α} {y : n β} {f : α → m γ} {g : β → n δ} (h : Simulates I R x y)
    (hfg : ∀ a b, R a b → Simulates I S (f a) (g b)) : Simulates I S (x >>= f) (y >>= g) := by
  intro s t hst
  rw [Stateful.run_bind, Stateful.run_bind]
  exact (h s t hst).bind fun p q hpq => hfg p.1 q.1 hpq.1 p.2 q.2 hpq.2

theorem throw (trap : Trap) : Simulates I R (throw trap : m α) (throw trap : n β) := by
  intro s t _
  rw [Stateful.run_throw, Stateful.run_throw]
  exact .trapped trap

/-- Simulation along a relation between the states. -/
def coupling (I : σ → τ → Prop) : Coupling m n :=
  ⟨Simulates I, pure, bind, throw⟩

end Simulates

end Simulation

section Single

variable {σ τ : Type} {α β : Type}

theorem Stateful.run_single (x : StateT σ Checked α) (s : σ) :
    run x (s, ()) = (x.run s).map fun r => (r.1, (r.2, ())) := by
  simp only [run]
  cases x.run s <;> rfl

theorem simulates_flat {m : Type → Type} [Monad m] [LawfulMonad m] [MonadExceptOf Trap m]
    [Stateful m σ] {R : α → α → Prop} (hR : ∀ a, R a a) (x : m α) :
    Simulates (fun s t => t = (s, ())) R x (Stateful.flat x) := by
  rintro s t rfl
  have hflat : (Stateful.flat x).run s = Stateful.run x s := rfl
  rw [Stateful.run_single, hflat]
  cases Stateful.run x s with
  | error trap => exact .trapped trap
  | ok r => exact .returned ⟨hR r.1, rfl⟩

/-- With one state on each side. -/
theorem Simulates.same {I : σ × Unit → τ × Unit → Prop} {R : α → β → Prop} {x : StateT σ Checked α}
    {y : StateT τ Checked β} (h : Simulates I R x y) {s : σ} {t : τ} (hst : I (s, ()) (t, ())) :
    Same (fun p q => R p.1 q.1) (x.run s) (y.run t) := by
  have hsame := h (s, ()) (t, ()) hst
  rw [Stateful.run_single, Stateful.run_single] at hsame
  exact hsame.of_map.imp fun p q hpq => hpq.1

end Single

end NestTuner

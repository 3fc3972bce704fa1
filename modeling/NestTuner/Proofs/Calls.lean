import NestTuner.Proofs.Lockstep
import NestTuner.Proofs.Runs

/-!
The kernels that a search asks its evaluator about: the states of the nodes of its tree, in order,
once for each node. Which were asked about is read off the state of the computation, in whatever way
the evaluator keeps it there.
-/

namespace NestTuner

/-- The kernels of the nodes, in order. -/
def Tree.states (t : Tree) : List Kernel :=
  t.nodes.toList.map Node.state

namespace Tree

variable {t t' : Tree}

theorem states_eq (t : Tree) : t.states = t.labels.map Label.state := by
  rw [labels, List.map_map]
  rfl

theorem states_addChild {parent id : Nat} {e : Edit} {k : Kernel}
    (h : t.addChild parent e k = .ok (t', id)) : t'.states = t.states ++ [k] := by
  obtain ⟨l, -, hlabels, -⟩ := addChild_eq_ok h
  rw [states_eq, hlabels, List.map_append, ← states_eq]
  rfl

theorem states_record {id : Nat} {o : Outcome} {written : Bool}
    (h : t.record id o = .ok (t', written)) : t'.states = t.states := by
  obtain ⟨n, hn, h⟩ := bind_eq_ok.mp h
  split at h
  case isTrue =>
    obtain ⟨rfl, -⟩ := Prod.mk.inj (Except.ok.inj h)
    rfl
  case isFalse =>
    obtain ⟨rfl, -⟩ := Prod.mk.inj (Except.ok.inj h)
    exact map_set_same (get_eq_ok.mp hn) rfl

end Tree

namespace Beam

theorem states_recordAll {t : Tree} {best : Nat × Cost} {entries : List (Node × Outcome)}
    {r : Tree × (Nat × Cost)} (h : recordAll t best entries = .ok r) : r.1.states = t.states := by
  induction entries generalizing t best with
  | nil => rw [← Except.ok.inj h]
  | cons entry rest ih =>
    obtain ⟨n, o⟩ := entry
    rw [recordAll_cons] at h
    obtain ⟨⟨next, written⟩, hrecord, h⟩ := bind_eq_ok.mp h
    rw [ih h, Tree.states_record hrecord]

theorem states_expanded {deduplicate : Bool} {actions : List Action} {frontier : List Nat}
    {x x' : Expansion}
    (h : frontier.foldlM (Expansion.expandNode deduplicate actions) x = .ok x') :
    ∃ new, x'.tree.states = x.tree.states ++ new := by
  have htakes := Expansion.takes_of_ok h
  clear h
  induction htakes with
  | refl => exact ⟨[], (List.append_nil _).symm⟩
  | tail _ htake ih =>
    obtain ⟨new, hnew⟩ := ih
    obtain ⟨_, _, _, _, _, _, _, habsorbs⟩ := htake
    cases habsorbs with
    | refused => exact ⟨new, hnew⟩
    | defective => exact ⟨new, hnew⟩
    | repeated => exact ⟨new, hnew⟩
    | @added k _ _ _ _ _ grown =>
      exact ⟨new ++ [k], by rw [Tree.states_addChild grown, hnew, List.append_assoc]⟩

/-- The kernels that a search with a given answer asks about. -/
def asked (root : Kernel) : Except SearchError Exploration → List Kernel
  | .ok x => x.tree.states
  | .error (.baselineFailed _) => [root]
  | .error _ => []

end Beam

section Asks

variable {m : Type → Type} [Monad m] [MonadExceptOf Trap m] {σ : Type} [Stateful m σ]
  {L : σ → List Kernel → Prop} {α β : Type} {P : α → List Kernel → Prop}
  {Q : β → List Kernel → Prop}

/-- The state tells which kernels were asked about. Whenever the computation returns, its value is
related to those that it asked about itself. -/
def Asks (L : σ → List Kernel → Prop) (x : m α) (P : α → List Kernel → Prop) : Prop :=
  ∀ s before, L s before → ∀ r, Stateful.run x s = .ok r →
    ∃ new, L r.2 (before ++ new) ∧ P r.1 new

namespace Asks

theorem imp {P' : α → List Kernel → Prop} {x : m α} (hx : Asks L x P)
    (h : ∀ a new, P a new → P' a new) : Asks L x P' := by
  intro s before hs r hr
  obtain ⟨new, hnew, ha⟩ := hx s before hs r hr
  exact ⟨new, hnew, h _ _ ha⟩

theorem pure {a : α} (h : P a []) : Asks L (pure a : m α) P := by
  intro s before hs r hr
  rw [Stateful.run_pure] at hr
  obtain rfl := Except.ok.inj hr
  exact ⟨[], by rwa [List.append_nil], h⟩

theorem bind {x : m α} {f : α → m β} (hx : Asks L x P)
    (hf : ∀ a asked, P a asked → Asks L (f a) fun b new => Q b (asked ++ new)) :
    Asks L (x >>= f) Q := by
  intro s before hs r hr
  rw [Stateful.run_bind] at hr
  obtain ⟨next, hnext, hr⟩ := bind_eq_ok.mp hr
  obtain ⟨asked, hasked, ha⟩ := hx s before hs next hnext
  obtain ⟨new, hnew, hb⟩ := hf next.1 asked ha next.2 _ hasked r hr
  exact ⟨asked ++ new, by rwa [← List.append_assoc], hb⟩

theorem liftExcept {x : Checked α} (h : ∀ a, x = .ok a → P a []) :
    Asks L (liftExcept x : m α) P := by
  cases x with
  | error trap =>
    intro s before _ r hr
    have hthrow : Stateful.run (throw trap : m α) s = .ok r := hr
    rw [Stateful.run_throw] at hthrow
    cases hthrow
  | ok a => exact pure (h a rfl)

end Asks

variable [LawfulMonad m] {evaluator : Evaluator m}
  (hevaluator : ∀ k, Asks L (evaluator.evaluate k) fun _ new => new = [k])
include hevaluator

theorem Asks.mapM (nodes : List Node) :
    Asks L (nodes.mapM fun n => evaluator.evaluate n.state) fun _ new =>
      new = nodes.map Node.state := by
  induction nodes with
  | nil => exact pure rfl
  | cons n nodes ih =>
    rw [List.mapM_cons]
    refine (hevaluator n.state).bind fun o asked hasked => ?_
    refine ih.bind fun os rest hrest => pure ?_
    rw [hasked, hrest, List.append_nil, List.map_cons, List.singleton_append]

namespace Beam

variable {b : Beam} {actions : List Action} {elapsed now : m Duration}

/-- A level asks about the nodes that it makes. -/
theorem step_asks (helapsed : Asks L elapsed fun _ new => new = []) (depth : Nat) (p : Progress) :
    Asks L (b.step actions evaluator elapsed depth p) fun p' new =>
      p'.tree.states = p.tree.states ++ new := by
  unfold step
  refine (Asks.liftExcept (P := fun x new => (∃ added, x.tree.states = p.tree.states ++ added) ∧
    new = []) fun x hx => ⟨states_expanded hx, rfl⟩).bind ?_
  rintro x _ ⟨⟨added, hadded⟩, rfl⟩
  have hcreated : (x.tree.nodes.toList.drop p.tree.size).map Node.state = added := by
    rw [List.map_drop]
    show x.tree.states.drop p.tree.size = added
    rw [hadded]
    exact List.drop_left' (by simp [Tree.states, Tree.size])
  refine (Asks.mapM hevaluator _).bind fun outcomes asked hasked => ?_
  rw [hcreated] at hasked
  refine (Asks.liftExcept (P := fun r new => r.1.states = x.tree.states ∧ new = [])
    fun r hr => ⟨states_recordAll hr, rfl⟩).bind ?_
  rintro r _ ⟨hr, rfl⟩
  refine helapsed.bind fun time _ htime => Asks.pure ?_
  simp only [hr, hadded, hasked, htime, List.nil_append, List.append_nil]

theorem descend_asks (helapsed : Asks L elapsed fun _ new => new = []) (levels depth : Nat)
    (p : Progress) :
    Asks L (b.descend actions evaluator elapsed levels depth p) fun r new =>
      r.1.tree.states = p.tree.states ++ new := by
  induction levels generalizing depth p with
  | zero => exact Asks.pure (List.append_nil _).symm
  | succ levels ih =>
    unfold descend
    refine helapsed.bind fun time _ htime => ?_
    rw [htime]
    split
    case isTrue => exact Asks.pure (List.append_nil _).symm
    case isFalse =>
      refine (step_asks hevaluator helapsed depth p).bind fun next asked hnext => ?_
      split
      case isTrue => exact Asks.pure (by rw [hnext, List.nil_append, List.append_nil])
      case isFalse =>
        refine (ih (depth + 1) next).imp fun r new hr => ?_
        rw [hr, hnext, List.nil_append, List.append_assoc]

/-- A search asks about the root and, if that has a cost, about every other node of its tree. -/
theorem explore_asks (hnow : Asks L now fun _ new => new = []) (root : Kernel) :
    Asks L (b.explore root actions evaluator now) fun r new => new = asked root r := by
  unfold explore
  split
  case h_1 => exact Asks.pure rfl
  case h_2 =>
    split
    case h_1 => exact Asks.pure rfl
    case h_2 =>
      refine hnow.bind fun start _ hstart => ?_
      have helapsed : Asks L (do return (← now).since start : m Duration) fun _ new => new = [] :=
        hnow.bind fun _ _ htime => Asks.pure (by rw [htime, List.append_nil])
      refine (hevaluator root).bind fun o _ hroot => ?_
      cases o with
      | failed failure => exact Asks.pure (by rw [hstart, hroot]; rfl)
      | measured baseline =>
        refine (Asks.liftExcept (P := fun r new => r.1.states = [root] ∧ new = [])
          fun r hr => ⟨Tree.states_record hr, rfl⟩).bind ?_
        rintro r _ ⟨hr, rfl⟩
        refine (descend_asks hevaluator helapsed b.maxDepth 1 _).bind fun final rest hfinal => ?_
        refine helapsed.bind fun time _ htime => ?_
        refine (Asks.liftExcept (P := fun x new => x.tree = final.1.tree ∧ new = [])
          fun x hx => ⟨?_, rfl⟩).bind ?_
        · obtain ⟨-, best, hbest⟩ := concludes_of_ok hx
          exact hbest.tree
        · rintro x _ ⟨hx, rfl⟩
          refine Asks.pure ?_
          simp only [asked, hx, hfinal, hr, hstart, hroot, htime, List.nil_append, List.append_nil]

end Beam

end Asks

namespace Evaluator

variable {m : Type → Type} [Monad m] [LawfulMonad m] [MonadExceptOf Trap m] {σ α : Type}
  [Stateful m σ]

/-- An evaluator that notes the kernels it is asked about. -/
def noting {m : Type → Type} [Monad m] (inner : Evaluator m) : Evaluator (StateT (List Kernel) m) :=
  ⟨fun k => do
    modify (· ++ [k])
    StateT.lift (inner.evaluate k), inner.reentrant, inner.scope⟩

theorem run_noting (inner : Evaluator m) (k : Kernel) (s : List Kernel × σ) :
    Stateful.run (inner.noting.evaluate k) s =
      Stateful.run (inner.evaluate k) s.2 >>= fun r => .ok (r.1, (s.1 ++ [k], r.2)) := by
  have hnoting : inner.noting.evaluate k = (modify (· ++ [k]) : StateT (List Kernel) m PUnit) >>=
    fun _ => StateT.lift (inner.evaluate k) := rfl
  rw [hnoting, Stateful.run_bind, Stateful.run_modify]
  exact Stateful.run_lift _ _

theorem noting_asks (inner : Evaluator m) (k : Kernel) :
    Asks (fun s asked => s.1 = asked) (inner.noting.evaluate k) fun _ new => new = [k] := by
  intro s before hs r hr
  rw [run_noting] at hr
  obtain ⟨next, -, hr⟩ := bind_eq_ok.mp hr
  obtain rfl := Except.ok.inj hr
  exact ⟨[k], by rw [hs], rfl⟩

theorem lift_asks (x : m α) :
    Asks (fun s asked => s.1 = asked) (StateT.lift x : StateT (List Kernel) m α)
      fun _ new => new = [] := by
  intro s before hs r hr
  rw [Stateful.run_lift] at hr
  obtain ⟨next, -, hr⟩ := bind_eq_ok.mp hr
  obtain rfl := Except.ok.inj hr
  exact ⟨[], by rw [hs, List.append_nil], rfl⟩

/-- Taking notes changes nothing else. -/
theorem noting_simulates (inner : Evaluator m) (k : Kernel) :
    Simulates (fun s t => t.2 = s) Eq (inner.evaluate k) (inner.noting.evaluate k) := by
  rintro s t rfl
  rw [run_noting]
  cases Stateful.run (inner.evaluate k) t.2 with
  | error trap => exact .trapped trap
  | ok r => exact .returned ⟨rfl, rfl⟩

theorem lift_simulates (x : m α) :
    Simulates (fun s t => t.2 = s) (fun _ _ => True) x
      (StateT.lift x : StateT (List Kernel) m α) := by
  rintro s t rfl
  rw [Stateful.run_lift]
  cases Stateful.run x t.2 with
  | error trap => exact .trapped trap
  | ok r => exact .returned ⟨trivial, rfl⟩

end Evaluator

end NestTuner

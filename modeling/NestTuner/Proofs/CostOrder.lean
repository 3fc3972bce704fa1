import NestTuner.Proofs.Simulation

/-!
The course of a search depends on the order of the costs alone. Two functions that cost the same
kernels and compare any two of them alike lead it to the same tree, the same frontiers and the same
best history, whatever the costs are and why the other kernels fail.
-/

namespace NestTuner

def Level.counts (l : Level) : List Nat :=
  [l.depth, l.candidates, l.rejected, l.duplicates, l.defects, l.evaluated, l.failed, l.frontier]

def Stats.counts (s : Stats) : List Nat :=
  [s.nodes, s.evaluated, s.failed, s.rejected, s.duplicates, s.defects, s.levels]

/-- Two searches make the same nodes and keep, count and choose the same. -/
structure Exploration.SameCourse (x y : Exploration) : Prop where
  nodes : x.tree.nodes.toList.map (fun n => (n.id, n.parent, n.children, n.history, n.state)) =
    y.tree.nodes.toList.map fun n => (n.id, n.parent, n.children, n.history, n.state)
  failures : x.tree.nodes.toList.map Node.failed = y.tree.nodes.toList.map Node.failed
  frontiers : x.frontiers = y.frontiers
  bestHistory : x.result.bestHistory = y.result.bestHistory
  bestState : x.result.bestState = y.result.bestState
  termination : x.result.termination = y.result.termination
  levels : x.result.levels.map Level.counts = y.result.levels.map Level.counts
  stats : x.result.stats.counts = y.result.stats.counts

theorem Exploration.Alike.sameCourse {Q : Outcome → Outcome → Prop} (hQ : Orderly Q)
    {x y : Exploration} (h : x.Alike Q y) : x.SameCourse y where
  nodes := map_eq_of_forall₂ h.tree.nodes fun n n' hn => by rw [← hn.same]
  failures := map_eq_of_forall₂ h.tree.nodes fun n n' hn => by
    unfold Node.failed
    have houtcome := hn.outcome
    generalize n.outcome = o at houtcome
    generalize n'.outcome = o' at houtcome
    cases houtcome with
    | none => rfl
    | some ho => exact hQ.isFailed _ _ ho
  frontiers := h.frontiers
  bestHistory := h.bestHistory
  bestState := h.bestState
  termination := h.termination
  levels := map_eq_of_forall₂ h.levels fun l l' hl => by rw [← hl.same]; rfl
  stats := by
    rw [← h.stats]
    rfl

/-- The outcomes that two functions give for one kernel. -/
def OutcomesOf (f g : Kernel → Outcome) (o o' : Outcome) : Prop :=
  ∃ k, o = f k ∧ o' = g k

theorem orderly_outcomesOf {f g : Kernel → Outcome}
    (hsuccess : ∀ k, (f k).isFailed = (g k).isFailed)
    (horder : ∀ k k' a c a' c', f k = .measured a → f k' = .measured c → g k = .measured a' →
      g k' = .measured c' → a.lt c = a'.lt c') : Orderly (OutcomesOf f g) where
  isFailed := by
    rintro o o' ⟨k, rfl, rfl⟩
    exact hsuccess k
  lt := by
    rintro a a' c c' ⟨k, ha, ha'⟩ ⟨k', hc, hc'⟩
    exact horder k k' a c a' c' ha.symm hc.symm ha'.symm hc'.symm

/-- Clocks that go on agree on nothing but that. -/
theorem Returns.simulates {σ τ α β : Type} {x : StateT σ Checked α} {y : StateT τ Checked β}
    (hx : Returns x fun _ => True) (hy : Returns y fun _ => True) :
    Simulates (fun _ _ => True) (fun _ _ => True) x y := by
  intro s t _
  obtain ⟨a, s', ha, -⟩ := hx s.1
  obtain ⟨c, t', hc, -⟩ := hy t.1
  simp only [Stateful.run, ha, hc]
  exact .returned ⟨trivial, trivial⟩

namespace Beam

variable {σ τ : Type} {f g : Kernel → Outcome}

/-- Searches by functions that cost the same kernels and order them alike take the same course: both
end in the same trap, or are refused for the same reason, or both have a root that fails, or both
have results that differ in costs, reasons and times alone. -/
theorem explore_cost_order (b : Beam) (root : Kernel) (actions : List Action)
    {now : StateT σ Checked Duration} {now' : StateT τ Checked Duration}
    (hbudget : b.budgetMillis = none) (hnow : Returns now fun _ => True)
    (hnow' : Returns now' fun _ => True) (hsuccess : ∀ k, (f k).isFailed = (g k).isFailed)
    (horder : ∀ k k' a c a' c', f k = .measured a → f k' = .measured c → g k = .measured a' →
      g k' = .measured c' → a.lt c = a'.lt c') (s : σ) (t : τ) :
    Same (fun r r' => Answers (fun _ _ => True) Exploration.SameCourse r.1 r'.1)
      ((b.explore root actions (.ofFunction f) now).run s)
      ((b.explore root actions (.ofFunction g) now').run t) := by
  have hQ := orderly_outcomesOf hsuccess horder
  have hevaluator : ∀ k, Simulates (fun _ _ => True) (OutcomesOf f g)
      ((Evaluator.ofFunction f).evaluate k : StateT σ Checked Outcome)
      ((Evaluator.ofFunction g).evaluate k : StateT τ Checked Outcome) :=
    fun k => Simulates.pure ⟨k, rfl, rfl⟩
  have hclocks := hnow.simulates hnow'
  refine Same.imp (Simulates.same (explore_simulates hQ hevaluator hbudget hclocks root) trivial) ?_
  intro r r' hanswers
  exact hanswers.imp (fun _ _ _ => trivial) fun x y hxy => hxy.sameCourse hQ

/-- The order of `countLoops` with other costs, and another reason to fail. -/
def weighLoops (k : Kernel) : Outcome :=
  if k.nest.depth < 5 then .measured ⟨UInt64.ofNat (1000 - k.nest.depth * k.nest.depth)⟩
  else .failed (.compilation "deep")

theorem explore_cost_order_glance :
    ∃ x y, Yields (glance.explore (Kernel.matmul "square" 8 8 8) moves (.ofFunction countLoops)
        (pure .zero : StateT Unit Checked Duration)) (.ok x) ∧
      Yields (glance.explore (Kernel.matmul "square" 8 8 8) moves (.ofFunction weighLoops)
        (pure .zero : StateT Unit Checked Duration)) (.ok y) ∧ x.SameCourse y := by
  obtain ⟨x, s, s', hx⟩ := exists_explore glance (Kernel.matmul "square" 8 8 8) moves countLoops rfl
    (by cbv) (Kernel.extentOf_lt_of_forall (by decide) (by decide)) rfl
  have hsuccess : ∀ k, (countLoops k).isFailed = (weighLoops k).isFailed := by
    intro k
    unfold countLoops weighLoops
    split <;> rfl
  have horder : ∀ k k' a c a' c', countLoops k = .measured a → countLoops k' = .measured c →
      weighLoops k = .measured a' → weighLoops k' = .measured c' → a.lt c = a'.lt c' := by
    have hdepths : ∀ i < 5, ∀ j < 5,
        Cost.lt ⟨UInt64.ofNat (9 - i)⟩ ⟨UInt64.ofNat (9 - j)⟩ =
          Cost.lt ⟨UInt64.ofNat (1000 - i * i)⟩ ⟨UInt64.ofNat (1000 - j * j)⟩ := by decide
    unfold countLoops weighLoops
    intro k k' a c a' c' ha hc ha' hc'
    split at ha
    case isFalse => cases ha
    case isTrue hk =>
      split at hc
      case isFalse => cases hc
      case isTrue hk' =>
        rw [if_pos hk] at ha'
        rw [if_pos hk'] at hc'
        rw [← Outcome.measured.inj ha, ← Outcome.measured.inj hc, ← Outcome.measured.inj ha',
          ← Outcome.measured.inj hc']
        exact hdepths _ hk _ hk'
  have hclock : Returns (pure .zero : StateT Unit Checked Duration) fun _ => True :=
    Returns.pure trivial
  have hsame := explore_cost_order glance (Kernel.matmul "square" 8 8 8) moves rfl hclock hclock
    hsuccess horder s s
  rw [hx] at hsame
  obtain ⟨⟨r, t⟩, hy, hanswers⟩ := hsame.exists_of_ok
  obtain ⟨y, rfl, hcourse⟩ := hanswers.exists_of_ok
  exact ⟨x, y, ⟨s, s', hx⟩, ⟨s, t, hy⟩, hcourse⟩

end Beam

end NestTuner

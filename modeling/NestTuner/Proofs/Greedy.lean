import NestTuner.Proofs.Lockstep
import NestTuner.Proofs.Sweeps

/-!
A beam of width one that does not deduplicate is a greedy descent. The descent stands at a single
variant and moves to the first of the cheapest among its children, as long as there is one with a
cost. It remembers the cheapest variant that it has come across, which need not be one that it has
moved to. It has no tree, no numbers of nodes and no sort.
-/

namespace NestTuner

/-- The cheaper of a variant so far, if there is one, and another; of equal costs the one so far. -/
def Variant.cheaper (f : Kernel → Outcome) (old : Option (Variant × Cost)) (v : Variant) :
    Option (Variant × Cost) :=
  match f v.state with
  | .measured cost => if old.all fun best => cost.lt best.2 then some (v, cost) else old
  | .failed _ => old

/-- Where a descent stands, the cheapest variant it has come across, and where each of its rounds
has moved. -/
structure Descent where
  current : Variant
  best : Option (Variant × Cost)
  moves : List (Option Kernel)

namespace Descent

def start (root : Kernel) (baseline : Cost) : Descent :=
  ⟨⟨[], root⟩, some (⟨[], root⟩, baseline), []⟩

/-- At most `n` rounds. -/
def run (actions : List Action) (f : Kernel → Outcome) : Nat → Descent → Checked Descent
  | 0, s => return s
  | n + 1, s => do
    let candidates ← Action.expandAll actions s.current.state
    let children := (candidates.filterMap Candidate.legal?).map s.current.child
    let best := children.foldl (Variant.cheaper f) s.best
    match children.foldl (Variant.cheaper f) none with
    | none => return ⟨s.current, best, s.moves ++ [none]⟩
    | some (v, _) => run actions f n ⟨v, best, s.moves ++ [some v.state]⟩

end Descent

namespace Variant

variable {f : Kernel → Outcome} {vs : List Variant} {v w : Variant} {cost : Cost}
  {old : Option (Variant × Cost)}

theorem measured_iff : v.measured f = true ↔ ∃ cost, f v.state = .measured cost := by
  unfold measured
  cases f v.state <;> simp [Outcome.isFailed]

theorem rank_of_measured (h : f v.state = .measured cost) : v.rank f = cost.rank := by
  rw [rank, h]
  rfl

namespace Foremost

theorem keep (h : Foremost f vs v) (hw : w.measured f = true → v.rank f ≤ w.rank f) :
    Foremost f (vs ++ [w]) v := by
  refine ⟨fun u hu hmeasured => ?_, ?_⟩
  · rcases List.mem_append.mp hu with hu | hu
    · exact h.least u hu hmeasured
    · obtain rfl := List.mem_singleton.mp hu
      exact hw hmeasured
  · rw [List.find?_append, h.first, Option.some_or]

theorem replace (hv : v.measured f = true)
    (h : ∀ w ∈ vs, w.measured f = true → v.rank f < w.rank f) : Foremost f (vs ++ [v]) v := by
  refine ⟨fun w hw hmeasured => ?_, ?_⟩
  · rcases List.mem_append.mp hw with hw | hw
    · exact (h w hw hmeasured).le
    · rw [List.mem_singleton.mp hw]
  · have hnone : vs.find? (fun w => w.measured f && w.rank f == v.rank f) = none := by
      refine List.find?_eq_none.mpr fun w hw hsame => ?_
      rw [Bool.and_eq_true, beq_iff_eq] at hsame
      have hlt := h w hw hsame.1
      omega
    rw [List.find?_append, hnone, Option.none_or]
    simp [hv]

/-- The head of the sorted list is the first of the cheapest. -/
theorem of_cheapestFirst {rest : List Variant} (h : cheapestFirst f vs = v :: rest) :
    Foremost f vs v := by
  have hsorted := cheapestFirst_sorted f vs
  rw [h, List.pairwise_cons] at hsorted
  refine ⟨fun w hw hmeasured => ?_, ?_⟩
  · have hmem := mem_cheapestFirst.mpr ⟨hw, hmeasured⟩
    rw [h] at hmem
    rcases List.mem_cons.mp hmem with rfl | hmem
    · exact Int.le_refl _
    · exact hsorted.1 w hmem
  · have hfilter := filter_cheapestFirst f vs (v.rank f)
    rw [h, List.filter_cons_of_pos (by simp), List.filter_filter] at hfilter
    have hsame : vs.filter (fun w => w.measured f && w.rank f == v.rank f) =
        vs.filter fun w => decide (w.rank f = v.rank f) && w.measured f :=
      List.filter_congr fun w _ => Bool.and_comm ..
    rw [← List.head?_filter, hsame, ← hfilter]
    rfl

end Foremost

/-- A variant with its cost is the first of the cheapest, or none has a cost. -/
def IsBest (f : Kernel → Outcome) (vs : List Variant) : Option (Variant × Cost) → Prop
  | some (v, cost) => Foremost f vs v ∧ f v.state = .measured cost
  | none => ∀ v ∈ vs, v.measured f = false

namespace IsBest

theorem cheaper (h : IsBest f vs old) (v : Variant) : IsBest f (vs ++ [v]) (v.cheaper f old) := by
  unfold Variant.cheaper
  split
  case h_1 cost hcost =>
    have hmeasured : v.measured f = true := measured_iff.mpr ⟨cost, hcost⟩
    have hrank := rank_of_measured hcost
    obtain _ | ⟨u, least⟩ := old
    · refine ⟨.replace hmeasured fun w hw hmeasured => ?_, hcost⟩
      rw [h w hw] at hmeasured
      cases hmeasured
    · have hleast := rank_of_measured h.2
      simp only [Option.all_some, Cost.lt_iff]
      split
      case isTrue hlt =>
        refine ⟨.replace hmeasured fun w hw hmeasured => ?_, hcost⟩
        have hle := h.1.least w hw hmeasured
        omega
      case isFalse hlt => exact ⟨h.1.keep fun _ => by omega, h.2⟩
  case h_2 failure hfailure =>
    have hfails : v.measured f = false := by
      rw [measured, hfailure]
      rfl
    obtain _ | ⟨u, least⟩ := old
    · intro w hw
      rcases List.mem_append.mp hw with hw | hw
      · exact h w hw
      · rwa [List.mem_singleton.mp hw]
    · exact ⟨h.1.keep fun hmeasured => by simp [hfails] at hmeasured, h.2⟩

theorem foldl (h : IsBest f vs old) (ws : List Variant) :
    IsBest f (vs ++ ws) (ws.foldl (Variant.cheaper f) old) := by
  induction ws generalizing vs old with
  | nil => rwa [List.append_nil]
  | cons w rest ih =>
    rw [List.append_cons]
    exact ih (h.cheaper w)

theorem eq_some (h : IsBest f vs old) (hv : Foremost f vs v) (hcost : f v.state = .measured cost) :
    old = some (v, cost) := by
  obtain _ | ⟨u, least⟩ := old
  · have hfails := h v hv.mem.1
    rw [hv.mem.2] at hfails
    cases hfails
  · obtain rfl := h.1.unique hv
    rw [Outcome.measured.inj (h.2.symm.trans hcost)]

/-- A beam of width one keeps the best. -/
theorem take_cheapestFirst (h : IsBest f vs old) :
    (cheapestFirst f vs).take 1 = old.toList.map Prod.fst := by
  cases hsorted : cheapestFirst f vs with
  | nil =>
    obtain _ | ⟨v, cost⟩ := old
    · rfl
    · have hmem := mem_cheapestFirst.mpr h.1.mem
      rw [hsorted] at hmem
      cases hmem
  | cons v rest =>
    have hforemost := Foremost.of_cheapestFirst hsorted
    obtain ⟨cost, hcost⟩ := measured_iff.mp hforemost.mem.2
    rw [h.eq_some hforemost hcost]
    rfl

end IsBest

end Variant

/-- The states of the nodes with some numbers. -/
def Tree.statesAt (t : Tree) (ids : List Nat) : List Kernel :=
  ids.filterMap fun id => (t.get? id).map Node.state

/-- The states of each frontier. -/
def Exploration.frontierStates (x : Exploration) : List (List Kernel) :=
  x.frontiers.map x.tree.statesAt

namespace Beam

variable {σ : Type} {b : Beam} {root : Kernel} {actions : List Action} {f : Kernel → Outcome}
  {d : Nat} {p p' : Progress} {w : Sweep}

/-- The nodes with some numbers have some states. -/
def Shows (t : Tree) (ids : List Nat) (states : List Kernel) : Prop :=
  List.Forall₂ (fun id k => ∃ l, t.labels[id]? = some l ∧ l.state = k) ids states

theorem Shows.statesAt_eq {t : Tree} {ids : List Nat} {states : List Kernel}
    (h : Shows t ids states) : t.statesAt ids = states := by
  unfold Shows at h
  induction h with
  | nil => rfl
  | cons hfirst _ ih =>
    obtain ⟨l, hl, rfl⟩ := hfirst
    rw [Tree.labels_getElem?] at hl
    obtain ⟨n, hn, rfl⟩ := Option.map_eq_some_iff.mp hl
    have hget : (t.get? _).map Node.state = some n.state := congrArg (Option.map Node.state) hn
    rw [Tree.statesAt, List.filterMap_cons, hget]
    exact congrArg (n.state :: ·) ih

theorem Shows.mono {t t' : Tree} {new : List Label} (hlabels : t'.labels = t.labels ++ new)
    {ids : List Nat} {states : List Kernel} (h : Shows t ids states) : Shows t' ids states := by
  refine h.imp fun id k hk => ?_
  obtain ⟨l, hl, hstate⟩ := hk
  rw [hlabels]
  exact ⟨l, getElem?_append_of_eq_some hl new, hstate⟩

theorem Follows.shows (h : Follows p w) :
    Shows p.tree p.frontier (w.frontier.map Variant.state) := by
  obtain ⟨parents, hparents, hfrontier⟩ := h.frontier
  rw [← hfrontier, List.map_map, Shows, List.forall₂_map_right_iff]
  exact hparents.imp fun id l hl => ⟨l, hl, rfl⟩

theorem Follows.isEmpty_eq (h : Follows p w) : p.frontier.isEmpty = w.frontier.isEmpty := by
  obtain ⟨parents, hparents, hfrontier⟩ := h.frontier
  rw [← hfrontier, Bool.eq_iff_iff, List.isEmpty_iff, List.isEmpty_iff, List.map_eq_nil_iff,
    ← List.length_eq_zero_iff, ← List.length_eq_zero_iff, hparents.length_eq]

/-- A sweep of width one from a single variant moves to the best of its offspring. -/
theorem Sweep.next_single (hwidth : b.width = 1) (hall : b.deduplicate = false) {v : Variant}
    (hw : w.frontier = [v]) : w.next b actions f = ⟨w.variants ++ v.offspring actions,
      ((v.offspring actions).foldl (Variant.cheaper f) none).toList.map Prod.fst⟩ := by
  have hfound : w.found b.deduplicate actions = v.offspring actions := by
    rw [found, hall, Variant.novel_false, hw, List.flatMap_singleton]
  have hnone : Variant.IsBest f [] none := fun _ hu => by cases hu
  have hbest := hnone.foldl (v.offspring actions)
  rw [List.nil_append] at hbest
  rw [next, hfound, hwidth, hbest.take_cheapestFirst]

/-- A progress and a descent have come across the same variants and moved to the same states. -/
structure Mirrors (f : Kernel → Outcome) (p : Progress) (w : Sweep)
    (best : Option (Variant × Cost)) (moves : List (Option Kernel)) : Prop where
  follows : Follows p w
  best : Variant.IsBest f w.variants best
  moves : List.Forall₂ (fun front move => Shows p.tree front move.toList) p.frontiers moves

/-- One level and one round keep up with each other. -/
theorem Mirrors.stage (hwidth : b.width = 1) (hall : b.deduplicate = false)
    {best : Option (Variant × Cost)} {moves : List (Option Kernel)} (h : Mirrors f p w best moves)
    {v : Variant} (hw : w.frontier = [v]) (hp : Grown root actions p.tree.labels)
    {x : Expansion} {outcomes : List Outcome} {level : Level}
    (hstage : Stage b actions (.ofFunction f : Evaluator (StateT σ Checked)) d p x outcomes level
      p') :
    Mirrors f p' (w.next b actions f) ((v.offspring actions).foldl (Variant.cheaper f) best)
      (moves ++ [((v.offspring actions).foldl (Variant.cheaper f) none).map (·.1.state)]) := by
  obtain ⟨new, hgrows⟩ := hstage.grows hp
  have hfollows := h.follows.stage hstage hp
  refine ⟨hfollows, ?_, ?_⟩
  · rw [Sweep.next_single hwidth hall hw]
    exact h.best.foldl _
  · rw [hstage.frontiers]
    refine List.rel_append (h.moves.imp fun _ _ hshows => hshows.mono hgrows.labels) (.cons ?_ .nil)
    have hshows := hfollows.shows
    rw [Sweep.next_single hwidth hall hw, List.map_map] at hshows
    rw [Option.toList_map]
    exact hshows

/-- A frontier of one variant is expanded by the candidates of that variant. -/
theorem Follows.expanded_eq (h : Follows p w) {v : Variant} (hw : w.frontier = [v])
    (actions : List Action) (deduplicate : Bool) : ∃ id l, p.tree.labels[id]? = some l ∧
      p.frontier.foldlM (Expansion.expandNode deduplicate actions) (.ofTree p.tree) = (do
        let candidates ← Action.expandAll actions v.state
        candidates.foldlM (Expansion.absorb deduplicate id) (.ofTree p.tree)) := by
  obtain ⟨parents, hparents, hfrontier⟩ := h.frontier
  rw [hw] at hfrontier
  obtain ⟨l, rfl, rfl⟩ := List.map_eq_singleton_iff.mp hfrontier
  obtain ⟨id, hid⟩ : ∃ id, p.frontier = [id] := List.length_eq_one_iff.mp hparents.length_eq
  rw [hid] at hparents ⊢
  obtain ⟨hl, -⟩ := List.forall₂_cons.mp hparents
  refine ⟨id, l, hl, ?_⟩
  rw [List.foldlM_cons, Expansion.expandNode_eq (x := .ofTree p.tree) hl]
  exact bind_pure _

/-- A level from a frontier of one variant traps where the expansion of that variant does. -/
theorem step_lockstep (hfollows : Follows p w) {v : Variant} (hw : w.frontier = [v])
    (hp : Grown root actions p.tree.labels) {elapsed : StateT σ Checked Duration}
    (helapsed : Returns elapsed fun _ => True) (t : σ) :
    Same (fun r candidates => candidates.filterMap Candidate.legal? =
        Action.successors actions v.state ∧ ∃ x outcomes level, Stage b actions
          (.ofFunction f : Evaluator (StateT σ Checked)) d p x outcomes level r.1)
      ((b.step actions (.ofFunction f) elapsed d p).run t) (Action.expandAll actions v.state) := by
  obtain ⟨id, l, hl, hexpanded⟩ := hfollows.expanded_eq hw actions b.deduplicate
  cases hcandidates : Action.expandAll actions v.state with
  | error trap =>
    rw [hcandidates] at hexpanded
    rw [step, hexpanded]
    exact .trapped trap
  | ok candidates =>
    rw [hcandidates] at hexpanded
    obtain ⟨x, hx⟩ := Expansion.absorbed_of_label (x := .ofTree p.tree) candidates hl
    have hreturns : Returns (b.step actions (.ofFunction f) elapsed d p) fun _ => True :=
      step_returns_of_expanded (fun _ => Returns.pure trivial) helapsed hp (hexpanded.trans hx) d
    obtain ⟨p', t', hrun, -⟩ := hreturns t
    rw [hrun]
    exact .returned ⟨Action.filterMap_legal?_of_expandAll hcandidates, stage_of_step ⟨t, t', hrun⟩⟩

section Lockstep

variable (hwidth : b.width = 1) (hall : b.deduplicate = false) (hbudget : b.budgetMillis = none)
include hwidth hall hbudget

/-- Level by level the beam does what the descent does round by round. -/
theorem descend_lockstep {elapsed : StateT σ Checked Duration}
    (helapsed : Returns elapsed fun _ => True) {n : Nat} {s : Descent}
    (hp : Sound root actions (.ofFunction f : Evaluator (StateT σ Checked)) d p)
    (hmirrors : Mirrors f p w s.best s.moves) (hw : w.frontier = [s.current]) (t : σ) :
    Same (fun r s' => (∃ d, Sound root actions (.ofFunction f : Evaluator (StateT σ Checked)) d
        r.1.1) ∧ ∃ w, Mirrors f r.1.1 w s'.best s'.moves)
      ((b.descend actions (.ofFunction f) elapsed n (d + 1) p).run t) (s.run actions f n) := by
  -- By induction on the rounds that are left, with the sweep that both sides follow.
  induction n generalizing d p w s t with
  | zero => exact .returned ⟨⟨d, hp⟩, w, hmirrors⟩
  | succ n ih =>
    obtain ⟨time, t', htime, -⟩ := helapsed t
    rw [descend, StateT.run_bind, htime]
    simp only [hbudget, Option.any_none, Bool.false_eq_true, if_false]
    refine Same.bind (x := (b.step actions (.ofFunction f) elapsed (d + 1) p).run t')
      (step_lockstep hmirrors.follows hw hp.grown helapsed t') fun r candidates hr => ?_
    obtain ⟨hlegal, x, outcomes, level, hstage⟩ := hr
    obtain ⟨new, hgrows⟩ := hstage.grows hp.grown
    have hp' := hp.grows hgrows
    have hmirrors' := hmirrors.stage hwidth hall hw hp.grown hstage
    have hnext : w.next b actions f = _ := Sweep.next_single hwidth hall hw
    have hempty := hmirrors'.follows.isEmpty_eq
    have hchildren : (candidates.filterMap Candidate.legal?).map s.current.child =
        s.current.offspring actions := congrArg (List.map s.current.child) hlegal
    rw [hnext] at hempty
    simp only [hchildren]
    cases hchoice : (s.current.offspring actions).foldl (Variant.cheaper f) none with
    | none =>
      rw [hchoice] at hempty hmirrors'
      rw [hempty]
      exact .returned ⟨⟨d + 1, hp'⟩, _, hmirrors'⟩
    | some choice =>
      rw [hchoice] at hempty hmirrors' hnext
      rw [hempty]
      exact ih hp' hmirrors' (congrArg Sweep.frontier hnext) r.2

theorem explore_lockstep (hvalid : b.validate = .ok ()) (hroot : root.checkLegality = .ok ())
    {baseline : Cost} (hf : f root = .measured baseline) {now : StateT σ Checked Duration}
    (hnow : Returns now fun _ => True) (t : σ) :
    Same (fun r s => ∃ x p w, r.1 = .ok x ∧ x.tree = p.tree ∧ x.frontiers = p.frontiers ∧
        Mirrors f p w s.best s.moves)
      ((b.explore root actions (.ofFunction f) now).run t)
      ((Descent.start root baseline).run actions f b.maxDepth) := by
  obtain ⟨start, t', hstart, -⟩ := hnow t
  have helapsed : Returns (do return (← now).since start) fun _ => True :=
    hnow.bind fun time _ _ => Returns.pure trivial
  have hevaluate : ((Evaluator.ofFunction f).evaluate root : StateT σ Checked Outcome) =
      pure (.measured baseline) := congrArg pure hf
  have hmirrors : Mirrors f (.start root baseline) (.start root) (Descent.start root baseline).best
      (Descent.start root baseline).moves := by
    have hforemost : Variant.Foremost f ([] ++ [⟨[], root⟩]) ⟨[], root⟩ :=
      .replace (Variant.measured_iff.mpr ⟨baseline, hf⟩) fun w hw => by cases hw
    exact ⟨⟨Tree.linked_root .., rfl, [⟨0, none, [], root⟩], .cons rfl .nil, rfl⟩,
      ⟨hforemost, hf⟩, .nil⟩
  have hsound : Sound root actions (.ofFunction f : Evaluator (StateT σ Checked)) 0
      (.start root baseline) := .start ⟨t, t, by rw [hevaluate]; rfl⟩
  have hsame := descend_lockstep hwidth hall hbudget helapsed (n := b.maxDepth) hsound hmirrors rfl
    t'
  rw [explore, hvalid, hroot, StateT.run_bind, hstart, ← bind_pure (Descent.run ..)]
  simp only [hevaluate]
  refine hsame.bind fun r s hr => ?_
  obtain ⟨⟨p, termination⟩, t'⟩ := r
  obtain ⟨⟨d, hfinal⟩, w, hmirrors⟩ := hr
  have hconclude : Returns (do
      let time ← (do return (← now).since start)
      return Except.ok (← liftExcept (conclude p baseline termination time)) :
        StateT σ Checked (Except SearchError Exploration)) fun y =>
      ∃ x, y = .ok x ∧ x.tree = p.tree ∧ x.frontiers = p.frontiers := by
    refine helapsed.bind fun time _ _ => ?_
    obtain ⟨x, hx⟩ := conclude_of_sound hfinal baseline termination time
    obtain ⟨-, best, hbest⟩ := concludes_of_ok hx
    refine (Returns.liftExcept (P := (· = x)) hx rfl).bind fun y _ hy => ?_
    exact Returns.pure ⟨y, rfl, hy ▸ hbest.tree, hy ▸ hbest.frontiers⟩
  obtain ⟨y, t'', hy, x, rfl, htree, hfrontiers⟩ := hconclude t'
  exact Same.of_ok hy rfl ⟨x, p, w, rfl, htree, hfrontiers, hmirrors⟩

end Lockstep

/-- A search by a beam of width one is a greedy descent: both end in the same trap, or they have the
same best history, state and cost and go through the same states. From a legal root that has a cost
the search comes to a result, at least if no extent is the largest word. -/
theorem explore_greedy (b : Beam) (root : Kernel) (actions : List Action) (f : Kernel → Outcome)
    {baseline : Cost} {now : StateT σ Checked Duration} (hvalid : b.validate = .ok ())
    (hwidth : b.width = 1) (hall : b.deduplicate = false) (hbudget : b.budgetMillis = none)
    (hroot : root.checkLegality = .ok ()) (hf : f root = .measured baseline)
    (hnow : Returns now fun _ => True) :
    ((∀ i, root.extentOf i < Word.largest) →
      Returns (b.explore root actions (.ofFunction f) now) fun r => ∃ x, r = .ok x) ∧
    ∀ t, Same (fun r s => ∃ x, r.1 = .ok x ∧
        s.best = some (⟨x.result.bestHistory, x.result.bestState⟩, x.result.bestCost) ∧
        x.frontierStates = s.moves.map Option.toList)
      ((b.explore root actions (.ofFunction f) now).run t)
      ((Descent.start root baseline).run actions f b.maxDepth) := by
  have hmeasured : (f root).isFailed = false := by
    rw [hf]
    rfl
  refine ⟨fun hfits => explore_ofFunction_returns hvalid hroot hfits hmeasured hnow, fun t => ?_⟩
  refine (explore_lockstep hwidth hall hbudget hvalid hroot hf hnow t).imp_of_ok ?_
  rintro ⟨r, t'⟩ s hrun ⟨x, p, w, rfl, htree, hfrontiers, hmirrors⟩
  obtain ⟨_, _, _, _, hexplores⟩ := explores_of_ok ⟨t, t', hrun⟩
  obtain ⟨hforemost, hcost⟩ := hexplores.foremost
  rw [htree, hmirrors.follows.variants] at hforemost
  refine ⟨x, rfl, hmirrors.best.eq_some hforemost hcost, ?_⟩
  rw [Exploration.frontierStates, htree, hfrontiers]
  exact map_eq_of_forall₂ hmirrors.moves fun _ _ hshows => hshows.statesAt_eq

/-- Two levels of width one. -/
def plunge : Beam :=
  ⟨1, 2, none, .serial, none, false⟩

theorem explore_greedy_plunge :
    ∃ x s, Yields (plunge.explore (Kernel.matmul "square" 8 8 8) moves (.ofFunction countLoops)
        (pure .zero : StateT Unit Checked Duration)) (.ok x) ∧
      (Descent.start (Kernel.matmul "square" 8 8 8) ⟨UInt64.ofNat 6⟩).run moves countLoops 2 =
        .ok s ∧
      s.best = some (⟨x.result.bestHistory, x.result.bestState⟩, x.result.bestCost) ∧
      x.frontierStates = s.moves.map Option.toList := by
  have hclock : Returns (pure .zero : StateT Unit Checked Duration) fun _ => True :=
    Returns.pure trivial
  have hcost : countLoops (Kernel.matmul "square" 8 8 8) = .measured ⟨UInt64.ofNat 6⟩ := rfl
  obtain ⟨hreturns, hsame⟩ := explore_greedy plunge (Kernel.matmul "square" 8 8 8) moves countLoops
    rfl rfl rfl rfl (by cbv) hcost hclock
  obtain ⟨_, t, hx, x, rfl⟩ := hreturns (Kernel.extentOf_lt_of_forall (by decide) (by decide)) ()
  have hsame := hsame ()
  rw [hx] at hsame
  obtain ⟨s, hs, y, hy, hbest, hstates⟩ := hsame.exists_of_ok
  obtain rfl := Except.ok.inj hy
  exact ⟨x, s, ⟨(), t, hx⟩, hs, hbest, hstates⟩

end Beam

end NestTuner

import NestTuner.Proofs.Runs

/-!
Accepted edits that are defects. An edit that a legal nest accepts leaves a legal nest unless it
displaces the parallel loop, so a search counts defects for no other reason. From a root whose
outermost levels are free of ties no state gets that far, and every level of every run counts none.
-/

namespace NestTuner

/-- No state of the tree has a tie on an outermost level. -/
theorem Grown.topUntied {root : Kernel} {actions : List Action} {labels : List Label}
    (h : Grown root actions labels) (hroot : root.checkLegality = .ok ())
    (hfits : ∀ i, root.extentOf i < Word.largest) (huntied : root.TopUntied) :
    ∀ l ∈ labels, l.state.TopUntied := by
  induction h with
  | root =>
    intro l hl
    rwa [List.mem_singleton.mp hl]
  | child rooted found step ih =>
    intro l hl
    rcases List.mem_append.mp hl with hl | hl
    · exact ih l hl
    · rw [List.mem_singleton.mp hl]
      have hmem := List.mem_of_getElem? found
      have hlegal := Kernel.checkLegality_eq_ok.mp (Grown.legal rooted hroot hmem)
      have hextents := Grown.extentOf_lt rooted hfits hmem
      exact (hlegal.apply hextents (ih _ hmem) step.2.1).2.1

namespace Beam

/-- A candidate that is taken in is no defect if its parent has no tie. -/
theorem Expansion.Takes.defects_eq {deduplicate : Bool} {actions : List Action}
    {frontier : List Nat} {x x' : Expansion} (h : Takes deduplicate actions frontier x x')
    (hsafe : ∀ l ∈ x.tree.labels, ∀ e k, l.state.apply e = .ok k → k.checkLegality = .ok ()) :
    x'.defects = x.defects := by
  obtain ⟨id, hid, l, c, hl, hproposed, hverdict, habsorbs⟩ := h
  cases habsorbs with
  | refused => rfl
  | defective accepted illegal =>
    have hlegal := hsafe l (List.mem_of_getElem? hl) c.edit _ (hverdict _ accepted)
    rw [hlegal] at illegal
    cases illegal
  | repeated => rfl
  | added => rfl

theorem expanded_defects {deduplicate : Bool} {root : Kernel} {actions : List Action}
    {frontier : List Nat} {t : Tree} (ht : Grown root actions t.labels)
    (hsafe : ∀ labels, Grown root actions labels → ∀ l ∈ labels, ∀ e k,
      l.state.apply e = .ok k → k.checkLegality = .ok ()) {x : Expansion}
    (h : frontier.foldlM (Expansion.expandNode deduplicate actions) (.ofTree t) = .ok x) :
    x.defects = 0 := by
  have htakes := Expansion.takes_of_ok h
  -- The tree has to be known to have grown for each candidate, so the induction carries it along.
  have hboth : (∃ new, Extends root actions frontier t x.tree new) ∧ x.defects = 0 := by
    clear h
    induction htakes with
    | refl => exact ⟨⟨[], .refl ht⟩, rfl⟩
    | tail _ htake ih =>
      obtain ⟨⟨new, hnew⟩, hzero⟩ := ih
      refine ⟨htake.extends hnew, ?_⟩
      rw [htake.defects_eq (hsafe _ hnew.grown), hzero]
  exact hboth.2

variable {σ : Type} {b : Beam} {root : Kernel} {actions : List Action}
  {evaluator : Evaluator (StateT σ Checked)}

theorem Reaches.defects_eq_zero {baseline : Cost} {d : Nat} {p : Progress}
    (h : Reaches b actions evaluator (.start root baseline) d p)
    (hmeasured : Yields (evaluator.evaluate root) (.measured baseline))
    (hsafe : ∀ labels, Grown root actions labels → ∀ l ∈ labels, ∀ e k,
      l.state.apply e = .ok k → k.checkLegality = .ok ()) :
    ∀ level ∈ p.levels, level.defects = 0 := by
  induction h with
  | start =>
    intro level hlevel
    cases hlevel
  | level reached _ stage ih =>
    intro level hlevel
    rw [stage.levels] at hlevel
    rcases List.mem_append.mp hlevel with hlevel | hlevel
    · exact ih level hlevel
    · rw [List.mem_singleton.mp hlevel, stage.summary]
      exact expanded_defects (reached.sound hmeasured).grown hsafe stage.expanded

/-- What becomes of the legality of an accepted edit. It is lost where the parallel loop is
displaced, and only there. From a root whose outermost levels are free of ties no level of a search
counts a defect, whatever the actions, the evaluator and the clock. -/
theorem explore_without_defects {root : Kernel} (hroot : root.checkLegality = .ok ())
    (hfits : ∀ it ∈ root.iterators, it.extent < Word.largest) :
    (∀ e k, root.apply e = .ok k → (k.checkLegality = .ok () ↔ ¬ root.Displaces e)) ∧
      (root.TopUntied → ∀ {σ : Type} (b : Beam) (actions : List Action)
        (evaluator : Evaluator (StateT σ Checked)) (now : StateT σ Checked Duration)
        (x : Exploration), Yields (b.explore root actions evaluator now) (.ok x) →
          ∀ level ∈ x.result.levels, level.defects = 0) := by
  have hlegal := Kernel.checkLegality_eq_ok.mp hroot
  have hextents := Kernel.extentOf_lt_of_forall hfits (by decide)
  constructor
  · intro e k hk
    obtain ⟨loops, haccepts, rfl⟩ := Kernel.accepts_of_apply hk
    rw [Kernel.checkLegality_eq_ok, hlegal.accepts_iff hextents haccepts]
  · intro huntied σ b actions evaluator now x hx
    obtain ⟨baseline, d, p, best, hexplores⟩ := explores_of_ok hx
    rw [hexplores.concluded.levels]
    refine hexplores.reached.defects_eq_zero hexplores.measured ?_
    intro labels hlabels l hl e k hk
    have hstate := Kernel.checkLegality_eq_ok.mp (hlabels.legal hroot hl)
    exact Kernel.checkLegality_eq_ok.mpr (hstate.apply (hlabels.extentOf_lt hextents hl)
      (hlabels.topUntied hroot hextents huntied l hl) hk).1

theorem explore_without_defects_default :
    ∃ x, Yields (Beam.default.explore (Kernel.matmul "square" 8 8 8) Action.defaults
        (.ofFunction countLoops) (pure .zero : StateT Unit Checked Duration)) (.ok x) ∧
      (∀ level ∈ x.result.levels, level.defects = 0) ∧
      ∀ e k, (Kernel.matmul "square" 8 8 8).apply e = .ok k → k.checkLegality = .ok () := by
  have hroot : (Kernel.matmul "square" 8 8 8).checkLegality = .ok () := by cbv
  have huntied : (Kernel.matmul "square" 8 8 8).TopUntied :=
    Kernel.topUntied_of_forall (by decide)
  obtain ⟨hedits, hruns⟩ := explore_without_defects hroot (by decide)
  obtain ⟨x, hx⟩ := exists_explore .default _ Action.defaults countLoops rfl hroot
    (Kernel.extentOf_lt_of_forall (by decide) (by decide)) rfl
  refine ⟨x, hx, hruns huntied _ _ _ _ x hx, fun e k hk => (hedits e k hk).mpr fun hdisplaces => ?_⟩
  have hunmarked : ∀ l ∈ (Kernel.matmul "square" 8 8 8).nest.loops, l.parallel = false := by decide
  cases e with
  | tile i size =>
    obtain ⟨l, -, first, hfirst, hparallel, -⟩ := hdisplaces
    rw [hunmarked first hfirst] at hparallel
    cases hparallel
  | interchange permutation => exact hdisplaces
  | parallelize i => exact hdisplaces
  | vectorize width => exact hdisplaces

open Kernel in
/-- Tiling the longer of two loops that tie is accepted, and leaves an illegal nest. -/
theorem explore_tied_defect : tied.checkLegality = .ok () ∧
    (∀ it ∈ tied.iterators, it.extent < Word.largest) ∧
      (∃ k, tied.apply (.tile 1 2) = .ok k ∧ k.checkLegality = .error (.misplacedParallel 0)) ∧
      ∃ x, Yields (glance.explore tied [.tiling [2] none] (.ofFunction countLoops)
        (pure .zero : StateT Unit Checked Duration)) (.ok x) ∧
          ∃ level ∈ x.result.levels, level.defects = 1 := by
  have hroot : tied.checkLegality = .ok () := by cbv
  refine ⟨hroot, by decide, ⟨_, by cbv, by cbv⟩, ?_⟩
  obtain ⟨x, hx⟩ := exists_explore glance tied [.tiling [2] none] countLoops rfl hroot
    (Kernel.extentOf_lt_of_forall (by decide) (by decide)) rfl
  obtain ⟨baseline, d, p, best, hexplores⟩ := explores_of_ok hx
  obtain ⟨e, outcomes, level, hstage⟩ := hexplores.first rfl rfl rfl
  obtain ⟨e', he', hdefects⟩ : ∃ e', [0].foldlM (Expansion.expandNode false [.tiling [2] none])
      (.ofTree (Progress.start tied ⟨7⟩).tree) = .ok e' ∧ e'.defects = 1 := ⟨_, by cbv, by cbv⟩
  obtain rfl := Except.ok.inj (hstage.expanded.symm.trans he')
  refine ⟨x, hx, level, ?_, by rw [hstage.summary]; exact hdefects⟩
  rw [hexplores.concluded.levels, hstage.levels]
  exact List.mem_append_right _ (List.mem_singleton_self level)

end Beam

end NestTuner

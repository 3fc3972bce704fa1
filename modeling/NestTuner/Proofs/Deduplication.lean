import NestTuner.Proofs.Illegality
import NestTuner.Proofs.Novelty

/-!
What deduplication costs: nothing, as long as the beam keeps every node. The tree then has each nest
once, namely those that accepted edits attain within the depth of the search, each at the least
depth at which they do. The first of the cheapest variants is the first of its nest, so it is the
same one with deduplication and without.
-/

namespace NestTuner

namespace Beam

/-- Kernels that proposals lead to which are accepted one after another, each kernel on the way
having a cost. -/
inductive Attains (actions : List Action) (f : Kernel → Outcome) (root : Kernel) :
    Nat → Kernel → Prop
  | root : Attains actions f root 0 root
  | edit {d : Nat} {k k' : Kernel} {e : Edit} (attained : Attains actions f root d k)
      (measured : (f k).isFailed = false) (proposed : Action.Proposed actions k e)
      (accepted : k.apply e = .ok k') : Attains actions f root (d + 1) k'

variable {b : Beam} {root k : Kernel} {actions : List Action} {f : Kernel → Outcome} {d n : Nat}

theorem Attains.ofRoot (h : Attains actions f root d k) : k = { root with nest := k.nest } := by
  induction h with
  | root => rfl
  | edit _ _ _ accepted ih =>
    obtain ⟨loops, -, rfl⟩ := Kernel.accepts_of_apply accepted
    rw [ih]

/-- What is not legal has become so for good. -/
theorem Attains.legal_or_displaced (h : Attains actions f root d k) (hroot : root.Legal) :
    k.Legal ∨ k.Displaced := by
  induction h with
  | root => exact Or.inl hroot
  | edit _ _ _ accepted ih => exact (Kernel.Legal.or_displaced_apply ih accepted).1

namespace Sweep

/-- Sweeps only add variants. -/
theorem variants_iterate_of_le (b : Beam) (actions : List Action) (f : Kernel → Outcome)
    (s : Sweep) {i n : Nat} (h : i ≤ n) :
    ((Sweep.next b actions f)^[i] s).variants <+: ((Sweep.next b actions f)^[n] s).variants := by
  induction n, h using Nat.le_induction with
  | base => exact List.prefix_rfl
  | succ n _ ih =>
    rw [Function.iterate_succ_apply']
    exact ih.trans (List.prefix_append ..)

/-- Every variant that is found is attained, and legal. -/
theorem attains_of_mem (hroot : root.checkLegality = .ok ()) (hf : (f root).isFailed = false)
    {v : Variant} (hv : v ∈ ((Sweep.next b actions f)^[n] (.start root)).variants) :
    Attains actions f root v.history.length v.state ∧ v.state.checkLegality = .ok () := by
  induction n generalizing v with
  | zero =>
    obtain rfl := List.mem_singleton.mp hv
    exact ⟨.root, hroot⟩
  | succ n ih =>
    rw [Function.iterate_succ_apply'] at hv
    rcases List.mem_append.mp hv with hv | hv
    · exact ih hv
    · obtain ⟨u, hu, e, hhistory, hproposed, happly, hlegal⟩ := exists_of_found hv
      obtain ⟨hmem, hmeasured, -⟩ := (Layered.iterate hf b actions n).frontier u hu
      rw [hhistory, List.length_append, List.length_singleton]
      exact ⟨.edit (ih hmem).1 (by simpa [Variant.measured] using hmeasured) hproposed happly,
        hlegal⟩

/-- Without deduplication and with room for all, every legal kernel that is attained is found, at
the depth where it is attained. -/
theorem exists_of_attains (hall : b.deduplicate = false) (hroot : root.Legal)
    (hroomy : ∀ i < n, ((Sweep.next b actions f)^[i] (.start root)).Roomy b actions)
    (h : Attains actions f root d k) (hk : k.Legal) (hd : d ≤ n) :
    ∃ v ∈ ((Sweep.next b actions f)^[d] (.start root)).variants, v.state = k ∧
      v.history.length = d ∧ (v.measured f = true →
        v ∈ ((Sweep.next b actions f)^[d] (.start root)).frontier) := by
  induction h with
  | root =>
    exact ⟨⟨[], root⟩, List.mem_singleton_self _, rfl, rfl, fun _ => List.mem_singleton_self _⟩
  | @edit d k k' e attained measured proposed accepted ih =>
    have hstart := attained.legal_or_displaced hroot
    have hbefore := (Kernel.Legal.or_displaced_apply hstart accepted).2 hk
    obtain ⟨v, -, hstate, hlength, hfrontier⟩ := ih hbefore (by omega)
    have hv := hfrontier (by simpa [Variant.measured, hstate] using measured)
    have hfound : v.child (e, k') ∈
        ((Sweep.next b actions f)^[d] (.start root)).found b.deduplicate actions := by
      rw [found, hall, Variant.novel_false]
      refine List.mem_flatMap.mpr ⟨v, hv, List.mem_map_of_mem (Action.mem_successors.mpr ?_)⟩
      rw [hstate]
      exact ⟨proposed, accepted, Kernel.checkLegality_eq_ok.mpr hk⟩
    rw [Function.iterate_succ_apply']
    refine ⟨v.child (e, k'), List.mem_append_right _ hfound, rfl, ?_, fun hmeasured => ?_⟩
    · rw [Variant.child, List.length_append, hlength, List.length_singleton]
    · rw [(hroomy d (by omega)).frontier_next]
      exact Variant.mem_cheapestFirst.mpr ⟨hfound, hmeasured⟩

section Whole

variable (hall : b.deduplicate = false) (hroot : root.checkLegality = .ok ())
  (hf : (f root).isFailed = false)
  (hroomy : ∀ i < n, ((Sweep.next b actions f)^[i] (.start root)).Roomy b actions)
include hall hroot hf hroomy

/-- The nests that are found are the legal ones that are attained. -/
theorem mem_nests_iff (nest : Nest) :
    nest ∈ ((Sweep.next b actions f)^[n] (.start root)).variants.map Variant.nest ↔
      ∃ d ≤ n, ∃ k, Attains actions f root d k ∧ k.checkLegality = .ok () ∧ k.nest = nest := by
  constructor
  · intro h
    obtain ⟨v, hv, rfl⟩ := List.mem_map.mp h
    obtain ⟨hattains, hlegal⟩ := attains_of_mem hroot hf hv
    exact ⟨_, (Layered.iterate hf b actions n).depth_le v hv, v.state, hattains, hlegal, rfl⟩
  · rintro ⟨d, hd, k, hattains, hlegal, rfl⟩
    obtain ⟨v, hv, rfl, -⟩ := exists_of_attains hall (Kernel.checkLegality_eq_ok.mp hroot) hroomy
      hattains (Kernel.checkLegality_eq_ok.mp hlegal) hd
    exact List.mem_map_of_mem
      ((variants_iterate_of_le b actions f (.start root) hd).subset hv)

/-- The first variant of a nest has the least depth at which the nest is attained. -/
theorem length_le_of_attains {v : Variant}
    (hv : v ∈ Variant.novel true [] ((Sweep.next b actions f)^[n] (.start root)).variants)
    (h : Attains actions f root d k) (hnest : k.nest = v.nest) : v.history.length ≤ d := by
  have hlayered := Layered.iterate hf b actions n
  have hmem := (Variant.novel_sublist ..).subset hv
  by_cases hd : d ≤ n
  · have hstate : k = v.state := by rw [h.ofRoot, hlayered.ofRoot v hmem, hnest]
    have hlegal := (attains_of_mem hroot hf hmem).2
    rw [← hstate, Kernel.checkLegality_eq_ok] at hlegal
    obtain ⟨w, hw, hwstate, hlength, -⟩ :=
      exists_of_attains hall (Kernel.checkLegality_eq_ok.mp hroot) hroomy h hlegal hd
    have hsame : v.nest = w.nest := by rw [← hnest, ← hwstate, Variant.nest]
    rw [← hlength]
    rcases Variant.first_of_novel hlayered.sorted hv
      ((variants_iterate_of_le b actions f (.start root) hd).subset hw) hsame with rfl | hle
    · exact Nat.le_refl _
    · exact hle
  · have hle := hlayered.depth_le v hmem
    omega

end Whole

end Sweep

end Beam

namespace Variant

variable {root : Kernel} {f : Kernel → Outcome} {vs : List Variant} {v : Variant}

/-- The first of the cheapest variants is the first of its nest. -/
theorem Foremost.novel (h : Foremost f vs v) (hvs : ∀ v ∈ vs, v.OfRoot root) :
    Foremost f (Variant.novel true [] vs) v := by
  refine ⟨fun w hw => h.least w ((novel_sublist true [] vs).subset hw), ?_⟩
  have hfirst := h.first
  rw [← List.head?_filter] at hfirst ⊢
  rw [filter_novel]
  · cases hfilter : vs.filter (fun w => w.measured f && w.rank f == v.rank f) with
    | nil =>
      rw [hfilter] at hfirst
      cases hfirst
    | cons u rest =>
      rw [hfilter] at hfirst
      rw [novel_cons, if_neg List.not_mem_nil]
      exact hfirst
  · intro u hu w hw hnest
    rw [measured_eq (hvs u hu) (hvs w hw) hnest, rank_eq (hvs u hu) (hvs w hw) hnest]

end Variant

/-- No depth of a tree has more nodes than a width. -/
def Tree.Narrow (t : Tree) (width : Nat) : Prop :=
  ∀ depth, t.nodes.toList.countP (·.depth == depth) ≤ width

theorem Tree.narrow_of_size_le {t : Tree} {width : Nat} (h : t.size ≤ width) : t.Narrow width :=
  fun _ => List.countP_le_length.trans h

theorem Tree.countP_variants (t : Tree) (depth : Nat) :
    (t.labels.map Label.variant).countP (·.history.length == depth) =
      t.nodes.toList.countP (·.depth == depth) := by
  rw [labels, List.map_map, List.countP_map]
  rfl

namespace Beam

variable {σ τ : Type} {b : Beam} {root : Kernel} {actions : List Action} {f : Kernel → Outcome}

/-- If the tree is narrow, the beam kept all that its sweeps found. -/
theorem Explores.roomy {x : Exploration} {baseline : Cost} {d : Nat} {p : Progress} {best : Node}
    (h : Explores b root actions (.ofFunction f : Evaluator (StateT σ Checked)) x baseline d p best)
    (hbudget : b.budgetMillis = none) (hnarrow : x.tree.Narrow b.width) {i : Nat}
    (hi : i < b.maxDepth) : ((Sweep.next b actions f)^[i] (.start root)).Roomy b actions := by
  have hlayered := Sweep.Layered.iterate h.root_measured b actions i
  have hsub :=
    (Sweep.variants_iterate_of_le b actions f (.start root) (Nat.succ_le_of_lt hi)).sublist
  rw [Function.iterate_succ_apply', ← h.variants_eq hbudget] at hsub
  have hcount := ((List.sublist_append_right ..).trans hsub).countP_le
    (p := fun v => v.history.length == i + 1)
  rw [Tree.countP_variants, List.countP_eq_length.mpr fun v hv => by simp [(hlayered.found hv).2]]
    at hcount
  exact hcount.trans (hnarrow (i + 1))

/-- What a search that deduplicates has of one that does not: each nest once, namely the legal ones
that are attained within the depth of the search, each at its least depth, and the same best cost by
the same history. -/
structure Lossless (b : Beam) (actions : List Action) (f : Kernel → Outcome) (root : Kernel)
    (x y : Exploration) : Prop where
  once : (x.tree.nodes.toList.map (·.state.nest)).Nodup
  attained : ∀ nest, (∃ n ∈ x.tree.nodes, n.state.nest = nest) ↔ ∃ d ≤ b.maxDepth, ∃ k,
    Attains actions f root d k ∧ k.checkLegality = .ok () ∧ k.nest = nest
  shortest : ∀ n ∈ x.tree.nodes, Attains actions f root n.depth n.state ∧
    ∀ d k, Attains actions f root d k → k.nest = n.state.nest → n.depth ≤ d
  bestCost : x.result.bestCost = y.result.bestCost
  bestHistory : x.result.bestHistory = y.result.bestHistory

theorem lossless_of_narrow {now : StateT σ Checked Duration} {now' : StateT τ Checked Duration}
    {x y : Exploration} (hbudget : b.budgetMillis = none)
    (hx : Yields ({ b with deduplicate := true }.explore root actions (.ofFunction f) now) (.ok x))
    (hy : Yields ({ b with deduplicate := false }.explore root actions (.ofFunction f) now')
      (.ok y))
    (hnarrow : x.tree.Narrow b.width) (hnarrow' : y.tree.Narrow b.width) :
    Lossless b actions f root x y := by
  obtain ⟨_, _, _, _, hx⟩ := explores_of_ok hx
  obtain ⟨_, _, _, _, hy⟩ := explores_of_ok hy
  have hf := hy.root_measured
  have hroomy := fun i (hi : i < b.maxDepth) => hy.roomy hbudget hnarrow' hi
  obtain ⟨old, hmatches⟩ := Sweep.Matches.iterate rfl rfl hf
    (fun i hi => hx.roomy hbudget hnarrow hi) hroomy
  have hwhole := hy.variants_eq hbudget
  have hfirsts := hmatches.variants
  rw [← hwhole, ← hx.variants_eq hbudget] at hfirsts
  have hlayered := Sweep.Layered.iterate hf { b with deduplicate := false } actions b.maxDepth
  have hroots : ∀ v ∈ y.tree.labels.map Label.variant, v.OfRoot root := by
    rw [hwhole]
    exact hlayered.ofRoot
  have hnests : x.tree.nodes.toList.map (·.state.nest) =
      (x.tree.labels.map Label.variant).map Variant.nest := by
    rw [Tree.labels, List.map_map, List.map_map]
    rfl
  obtain ⟨hforemost, hcost⟩ := hx.foremost
  obtain ⟨hforemost', hcost'⟩ := hy.foremost
  have hsame := hforemost'.novel hroots
  rw [← hfirsts] at hsame
  obtain ⟨hhistory, hstate⟩ := Variant.mk.inj (hforemost.unique hsame)
  rw [hstate, hcost'] at hcost
  refine ⟨?_, fun nest => ?_, fun n hn => ?_, (Outcome.measured.inj hcost).symm, hhistory⟩
  · rw [hnests, hfirsts]
    exact Variant.nodup_novel ..
  · rw [← Sweep.mem_nests_iff rfl hy.legal hf hroomy, ← hwhole, ← Variant.mem_nests_novel,
      ← hfirsts, ← hnests]
    simp
  · have hmem : n.label.variant ∈ x.tree.labels.map Label.variant :=
      List.mem_map_of_mem (Tree.label_mem hn)
    rw [hfirsts, hwhole] at hmem
    refine ⟨(Sweep.attains_of_mem hy.legal hf ((Variant.novel_sublist ..).subset hmem)).1, ?_⟩
    intro d k hattains hnest
    exact Sweep.length_le_of_attains rfl hy.legal hf hroomy hmem hattains hnest

/-- Deduplication loses nothing if the beam keeps every node. From a legal root that has a cost both
searches come to a result, at least if no extent is the largest word. -/
theorem explore_deduplicated (b : Beam) (root : Kernel) (actions : List Action)
    (f : Kernel → Outcome) {now : StateT σ Checked Duration} {now' : StateT τ Checked Duration}
    (hvalid : b.validate = .ok ()) (hbudget : b.budgetMillis = none)
    (hroot : root.checkLegality = .ok ()) (hf : (f root).isFailed = false)
    (hnow : Returns now fun _ => True) (hnow' : Returns now' fun _ => True) :
    ((∀ i, root.extentOf i < Word.largest) →
      Returns ({ b with deduplicate := true }.explore root actions (.ofFunction f) now)
        (fun r => ∃ x, r = .ok x) ∧
      Returns ({ b with deduplicate := false }.explore root actions (.ofFunction f) now')
        (fun r => ∃ y, r = .ok y)) ∧
    ∀ x y,
      Yields ({ b with deduplicate := true }.explore root actions (.ofFunction f) now) (.ok x) →
      Yields ({ b with deduplicate := false }.explore root actions (.ofFunction f) now') (.ok y) →
      x.tree.Narrow b.width → y.tree.Narrow b.width → Lossless b actions f root x y := by
  refine ⟨fun hfits => ⟨?_, ?_⟩, fun x y hx hy => lossless_of_narrow hbudget hx hy⟩
  · exact explore_ofFunction_returns hvalid hroot hfits hf hnow
  · exact explore_ofFunction_returns hvalid hroot hfits hf hnow'

/-- Two levels of swaps, with room for all. -/
def reordering : Beam :=
  ⟨16, 2, none, .serial, none, false⟩

theorem explore_deduplicated_reordering :
    ∃ x y, Yields ({ reordering with deduplicate := true }.explore (Kernel.matmul "square" 8 8 8)
        [.interchange none] (.ofFunction countLoops) (pure .zero : StateT Unit Checked Duration))
        (.ok x) ∧
      Yields (reordering.explore (Kernel.matmul "square" 8 8 8) [.interchange none]
        (.ofFunction countLoops) (pure .zero : StateT Unit Checked Duration)) (.ok y) ∧
      x.tree.size = 6 ∧ y.tree.size = 13 ∧
      Lossless reordering [.interchange none] countLoops (Kernel.matmul "square" 8 8 8) x y := by
  have hclock : Returns (pure .zero : StateT Unit Checked Duration) fun _ => True :=
    Returns.pure trivial
  have hlegal : (Kernel.matmul "square" 8 8 8).checkLegality = .ok () := by cbv
  have hfits : ∀ i, (Kernel.matmul "square" 8 8 8).extentOf i < Word.largest :=
    Kernel.extentOf_lt_of_forall (by decide) (by decide)
  obtain ⟨hreturns, hlossless⟩ := explore_deduplicated reordering (Kernel.matmul "square" 8 8 8)
    [.interchange none] countLoops rfl rfl hlegal rfl hclock hclock
  obtain ⟨⟨_, s, hx, x, rfl⟩, ⟨_, s', hy, y, rfl⟩⟩ := (hreturns hfits).imp (· ()) (· ())
  obtain ⟨_, _, _, _, hexplores⟩ := explores_of_ok ⟨(), s, hx⟩
  obtain ⟨_, _, _, _, hexplores'⟩ := explores_of_ok ⟨(), s', hy⟩
  -- A swap leaves the number of loops as it is, so the sort by cost changes nothing.
  have hdepths : ∀ deduplicate, (Sweep.found deduplicate [.interchange none]
      (.start (Kernel.matmul "square" 8 8 8))).map (·.state.nest.depth) = [3, 3, 3] := by
    intro deduplicate
    cases deduplicate <;> cbv
  have hsorted : ∀ deduplicate, Variant.cheapestFirst countLoops (Sweep.found deduplicate
      [.interchange none] (.start (Kernel.matmul "square" 8 8 8))) =
        Sweep.found deduplicate [.interchange none] (.start (Kernel.matmul "square" 8 8 8)) := by
    intro deduplicate
    refine Variant.cheapestFirst_eq_self (c := ⟨UInt64.ofNat 6⟩) fun v hv => ?_
    have hdepth : v.state.nest.depth ∈ [3, 3, 3] := hdepths deduplicate ▸ List.mem_map_of_mem hv
    obtain hdepth : v.state.nest.depth = 3 := by simpa using hdepth
    simp [countLoops, hdepth]
  have hsize : x.tree.size = 6 := by
    rw [← Tree.length_labels, ← List.length_map Label.variant, hexplores.variants_eq rfl]
    show (Sweep.next _ _ _ (Sweep.next _ _ _ (.start _))).variants.length = 6
    simp only [Sweep.next, hsorted]
    cbv
  have hsize' : y.tree.size = 13 := by
    rw [← Tree.length_labels, ← List.length_map Label.variant, hexplores'.variants_eq rfl]
    show (Sweep.next _ _ _ (Sweep.next _ _ _ (.start _))).variants.length = 13
    simp only [Sweep.next, hsorted]
    cbv
  have hnarrow : x.tree.Narrow reordering.width := Tree.narrow_of_size_le (by rw [hsize]; decide)
  have hnarrow' : y.tree.Narrow reordering.width := Tree.narrow_of_size_le (by rw [hsize']; decide)
  exact ⟨x, y, ⟨(), s, hx⟩, ⟨(), s', hy⟩, hsize, hsize',
    hlossless x y ⟨(), s, hx⟩ ⟨(), s', hy⟩ hnarrow hnarrow'⟩

end Beam

end NestTuner

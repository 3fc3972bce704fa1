import NestTuner.Proofs.Best
import NestTuner.Proofs.Offspring

/-!
Which nodes survive a level. The nodes of a depth that have a cost are ranked: cheaper first, then
older. A frontier is the beginning of that ranking, as long as the beam is wide. Every node below
the root has its parent in the frontier one level up, and without deduplication a node of a frontier
that is expanded has one child for each successor of its state, in their order.
-/

namespace NestTuner

theorem Cost.rank_injective {a c : Cost} (h : a.rank = c.rank) : a = c := by
  obtain ⟨⟨a⟩⟩ := a
  obtain ⟨⟨c⟩⟩ := c
  have hbits : a.toNat = c.toNat := by
    have ha := a.isLt
    have hc := c.isLt
    simp only [rank, UInt64.toNat] at h
    split at h <;> split at h <;> omega
  rw [BitVec.eq_of_toNat_eq hbits]

theorem Cost.lt_iff {a c : Cost} : a.lt c = true ↔ a.rank < c.rank := by
  simp [Cost.lt]

namespace Beam

/-- Cheaper, or as cheap and older. -/
def Precedes (a b : Cost × Nat) : Prop :=
  a.1.lt b.1 = true ∨ a.1 = b.1 ∧ a.2 < b.2

theorem ranksBefore_trans (a b c : Cost × Nat) (hab : ranksBefore a b = true)
    (hbc : ranksBefore b c = true) : ranksBefore a c = true := by
  simp only [ranksBefore, Bool.or_eq_true, Bool.and_eq_true, Cost.lt_iff, Cost.le_iff,
    decide_eq_true_eq] at *
  omega

theorem ranksBefore_total (a b : Cost × Nat) : (ranksBefore a b || ranksBefore b a) = true := by
  simp only [ranksBefore, Bool.or_eq_true, Bool.and_eq_true, Cost.lt_iff, Cost.le_iff,
    decide_eq_true_eq]
  omega

/-- Of two nodes, the one that ranks before the other precedes it. -/
theorem precedes_of_ranksBefore {a b : Cost × Nat} (h : ranksBefore a b = true)
    (hne : a.2 ≠ b.2) : Precedes a b := by
  simp only [ranksBefore, Bool.or_eq_true, Bool.and_eq_true, Cost.lt_iff, Cost.le_iff,
    decide_eq_true_eq] at h
  unfold Precedes
  rw [Cost.lt_iff]
  by_cases hlt : a.1.rank < b.1.rank
  · exact Or.inl hlt
  · exact Or.inr ⟨Cost.rank_injective (by omega), by omega⟩

theorem Precedes.le {a b : Cost × Nat} (h : Precedes a b) : a.1.le b.1 = true := by
  rw [Cost.le_iff]
  rcases h with h | ⟨h, -⟩
  · exact (Cost.lt_iff.mp h).le
  · rw [h]

end Beam

namespace Tree

/-- The nodes of a depth that have a cost, listed with it: cheaper first, then older. -/
structure Ranking (t : Tree) (depth : Nat) (ranked : List (Cost × Nat)) : Prop where
  mem_iff : ∀ c id, (c, id) ∈ ranked ↔
    ∃ n, t.get? id = some n ∧ n.depth = depth ∧ n.cost? = some c
  sorted : ranked.Pairwise Beam.Precedes

/-- A node with a cost, seen in the labels and the outcomes. -/
theorem exists_get?_iff {t : Tree} {id depth : Nat} {c : Cost} :
    (∃ n, t.get? id = some n ∧ n.depth = depth ∧ n.cost? = some c) ↔
      (∃ l, t.labels[id]? = some l ∧ l.history.length = depth) ∧
        t.outcomes[id]? = some (some (.measured c)) := by
  constructor
  · rintro ⟨n, hn, hdepth, hcost⟩
    refine ⟨⟨n.label, label_of_get? hn, hdepth⟩, ?_⟩
    rw [outcome_of_get? hn, Node.cost?_eq_some.mp hcost]
  · rintro ⟨⟨l, hl, hdepth⟩, houtcome⟩
    rw [labels_getElem?] at hl
    obtain ⟨n, hn, rfl⟩ := Option.map_eq_some_iff.mp hl
    rw [outcomes_getElem?, hn] at houtcome
    exact ⟨n, hn, hdepth, Node.cost?_eq_some.mpr (Option.some.inj houtcome)⟩

namespace Ranking

variable {t : Tree} {depth : Nat} {ranked : List (Cost × Nat)}

/-- A node is listed once. -/
theorem nodup (h : t.Ranking depth ranked) : (ranked.map (·.2)).Nodup := by
  refine List.pairwise_map.mpr (List.Pairwise.imp_of_mem ?_ h.sorted)
  intro a b ha hb hab hid
  obtain ⟨n, hn, -, hc⟩ := (h.mem_iff a.1 a.2).mp ha
  obtain ⟨m, hm, -, hc'⟩ := (h.mem_iff b.1 b.2).mp hb
  rw [hid, hm] at hn
  obtain rfl := Option.some.inj hn
  have hcost : a.1 = b.1 := Option.some.inj (hc.symm.trans hc')
  rcases hab with hlt | ⟨-, hlt⟩
  · rw [Cost.lt_iff, hcost] at hlt
    omega
  · omega

end Ranking

/-- A frontier is the beginning of a ranking. So it is sorted like it, names no node twice and none
that failed, and what it leaves out of that depth is not cheaper than what it keeps. -/
structure TopRanked (t : Tree) (width depth : Nat) (ranked : List (Cost × Nat))
    (frontier : List Nat) : Prop where
  ranking : t.Ranking depth ranked
  first : frontier = (ranked.take width).map (·.2)
  length : frontier.length = min width ranked.length
  nodup : frontier.Nodup
  measured : ∀ id ∈ frontier, ∃ n, t.get? id = some n ∧ n.depth = depth ∧ n.failed = false
  cheapest : ∀ id ∈ frontier, ∀ other, other ∉ frontier → ∀ m n c c', t.get? id = some m →
    t.get? other = some n → n.depth = depth → m.cost? = some c → n.cost? = some c' →
      c.le c' = true

/-- What is taken from a sorted list comes before what is left of it. -/
theorem Ranking.topRanked {t : Tree} {depth : Nat} {ranked : List (Cost × Nat)}
    (h : t.Ranking depth ranked) (width : Nat) :
    t.TopRanked width depth ranked ((ranked.take width).map (·.2)) := by
  have hmem : ∀ id ∈ (ranked.take width).map (·.2), ∃ c, (c, id) ∈ ranked.take width := by
    intro id hid
    obtain ⟨⟨c, i⟩, hi, rfl⟩ := List.mem_map.mp hid
    exact ⟨c, hi⟩
  refine ⟨h, rfl, by simp, ?_, ?_, ?_⟩
  · exact h.nodup.sublist ((List.take_sublist width ranked).map _)
  · intro id hid
    obtain ⟨c, hc⟩ := hmem id hid
    obtain ⟨n, hn, hdepth, hcost⟩ := (h.mem_iff c id).mp (List.mem_of_mem_take hc)
    refine ⟨n, hn, hdepth, ?_⟩
    rw [Node.failed, Node.cost?_eq_some.mp hcost]
    rfl
  · intro id hid other hother m n c c' hm hn hdepth hc hc'
    obtain ⟨c₁, hkept⟩ := hmem id hid
    obtain ⟨m', hm', -, hc₁⟩ := (h.mem_iff c₁ id).mp (List.mem_of_mem_take hkept)
    obtain rfl := Option.some.inj (hm.symm.trans hm')
    obtain rfl := Option.some.inj (hc.symm.trans hc₁)
    have hleft : (c', other) ∈ ranked.drop width := by
      have hranked := (h.mem_iff c' other).mpr ⟨n, hn, hdepth, hc'⟩
      rw [← List.take_append_drop width ranked] at hranked
      rcases List.mem_append.mp hranked with htaken | hleft
      · exact absurd (List.mem_map_of_mem htaken) hother
      · exact hleft
    have hsorted := h.sorted
    rw [← List.take_append_drop width ranked, List.pairwise_append] at hsorted
    exact (hsorted.2.2 _ hkept _ hleft).le

end Tree

namespace Beam

variable {σ : Type} {b : Beam} {root : Kernel} {actions : List Action}
  {evaluator : Evaluator (StateT σ Checked)} {d : Nat} {p p' : Progress} {x : Expansion}
  {new : List Label} {outcomes : List Outcome} {level : Level}

/-- Selection looks at the identifiers and the outcomes alone. -/
theorem select_eq (width : Nat) (entries : List (Node × Outcome)) : select width entries =
    ((((entries.map fun e => (e.1.id, e.2)).filterMap fun e =>
      e.2.cost?.map fun cost => (cost, e.1)).mergeSort ranksBefore).take width).map (·.2) := by
  rw [List.filterMap_map]
  rfl

theorem mem_costed {first : Nat} {c : Cost} {id : Nat} :
    (c, id) ∈ ((List.range' first outcomes.length).zip outcomes).filterMap
        (fun e => e.2.cost?.map fun cost => (cost, e.1)) ↔
      first ≤ id ∧ outcomes[id - first]? = some (.measured c) := by
  have hcost : ∀ o : Outcome, o.cost? = some c ↔ o = .measured c := by
    intro o
    cases o <;> simp [Outcome.cost?]
  simp only [List.mem_filterMap, Option.map_eq_some_iff, Prod.mk.injEq, Prod.exists]
  constructor
  · rintro ⟨i, o, hmem, cost, ho, rfl, rfl⟩
    obtain ⟨j, hj⟩ := List.getElem?_of_mem hmem
    obtain ⟨hrange, houtcome⟩ := List.getElem?_zip_eq_some.mp hj
    obtain ⟨hlt, hi⟩ := List.getElem?_eq_some_iff.mp hrange
    rw [List.getElem_range'] at hi
    obtain rfl := (hcost o).mp ho
    refine ⟨by omega, ?_⟩
    rw [show i - first = j by omega, houtcome]
  · rintro ⟨hle, houtcome⟩
    have hlt := (List.getElem?_eq_some_iff.mp houtcome).1
    refine ⟨id, .measured c, List.mem_of_getElem? (i := id - first) ?_, c, rfl, rfl, rfl⟩
    refine List.getElem?_zip_eq_some.mpr ⟨?_, houtcome⟩
    rw [List.getElem?_range' hlt]
    simp only [Option.some.injEq]
    omega

/-- The costs of the new nodes in the order of selection. -/
theorem Stage.exists_ranked (h : Stage b actions evaluator (d + 1) p x outcomes level p')
    (hnew : Extends root actions p.frontier p.tree x.tree new) : ∃ ranked : List (Cost × Nat),
      p'.frontier = (ranked.take b.width).map (·.2) ∧ ranked.Pairwise Precedes ∧
        ∀ c id, (c, id) ∈ ranked ↔
          p.tree.size ≤ id ∧ outcomes[id - p.tree.size]? = some (.measured c) := by
  have hlength : (created p x).length = outcomes.length := h.evaluated.length_eq
  have hids : ((created p x).zip outcomes).map (fun e => (e.1.id, e.2)) =
      (List.range' p.tree.size outcomes.length).zip outcomes := by
    have hcreated : (created p x).map (·.id) = List.range' p.tree.size outcomes.length := by
      have hlabels := hnew.ids
      rw [← hnew.created, List.map_map, List.length_map, hlength] at hlabels
      exact hlabels
    rw [← hcreated, ← List.map_id outcomes, List.zip_map, List.map_id]
    rfl
  refine ⟨_, by rw [h.frontier, select_eq, hids], ?_, fun c id => ?_⟩
  · refine List.Pairwise.imp₂ (fun a b hab hne => precedes_of_ranksBefore hab hne)
      (List.pairwise_mergeSort ranksBefore_trans ranksBefore_total _) ?_
    refine (List.Perm.pairwise_iff (fun hne => Ne.symm hne) (List.mergeSort_perm _ _)).mpr ?_
    have hfirst : ((List.range' p.tree.size outcomes.length).zip outcomes).Pairwise
        fun a b => a.1 ≠ b.1 := by
      rw [← List.pairwise_map, List.map_fst_zip (by simp)]
      exact List.nodup_range'
    refine List.pairwise_filterMap.mpr (hfirst.imp fun {e e'} hne c hc c' hc' => ?_)
    obtain ⟨_, -, rfl⟩ := Option.map_eq_some_iff.mp hc
    obtain ⟨_, -, rfl⟩ := Option.map_eq_some_iff.mp hc'
    exact hne
  · rw [List.mem_mergeSort, mem_costed]

/-- Deeper nodes do not change the ranking of a depth. -/
theorem Grows.ranking (h : Grows root actions evaluator p p' new outcomes)
    (hp : Sound root actions evaluator d p) {depth : Nat} (hdepth : depth ≤ d)
    {ranked : List (Cost × Nat)} (hranked : p.tree.Ranking depth ranked) :
    p'.tree.Ranking depth ranked := by
  refine ⟨fun c id => ?_, hranked.sorted⟩
  rw [hranked.mem_iff, Tree.exists_get?_iff, Tree.exists_get?_iff, h.labels, h.recorded]
  by_cases hid : id < p.tree.size
  · rw [List.getElem?_append_left (by simpa using hid),
      List.getElem?_append_left (by simpa using hid)]
  · rw [List.getElem?_eq_none (by simpa using hid)]
    constructor
    · rintro ⟨⟨l, hl, -⟩, -⟩
      cases hl
    · rintro ⟨⟨l, hl, hlength⟩, -⟩
      rw [List.getElem?_append_right (by simpa using hid)] at hl
      have hnew := h.depth hp (List.mem_of_getElem? hl)
      omega

/-- A level ranks its new nodes. -/
theorem Stage.topRanked (h : Stage b actions evaluator (d + 1) p x outcomes level p')
    (hp : Sound root actions evaluator d p) :
    ∃ ranked, p'.tree.TopRanked b.width (d + 1) ranked p'.frontier := by
  obtain ⟨new, hnew⟩ := extends_of_ok hp.grown h.expanded
  obtain ⟨ranked, hfrontier, hsorted, hmem⟩ := h.exists_ranked hnew
  obtain ⟨new', hgrows⟩ := h.grows hp.grown
  rw [hfrontier]
  refine ⟨ranked, Tree.Ranking.topRanked ⟨fun c id => ?_, hsorted⟩ b.width⟩
  rw [hmem, Tree.exists_get?_iff, hgrows.labels, hgrows.recorded]
  constructor
  · rintro ⟨hle, houtcome⟩
    have hlt := (List.getElem?_eq_some_iff.mp houtcome).1
    rw [List.getElem?_append_right (by simpa using hle),
      List.getElem?_append_right (by simpa using hle), Tree.length_labels, Tree.length_outcomes,
      List.getElem?_map, houtcome]
    have hlt' : id - p.tree.size < new'.length := by
      rw [hgrows.evaluated.length_eq]
      exact hlt
    exact ⟨⟨_, List.getElem?_eq_getElem hlt', hgrows.depth hp (List.getElem_mem hlt')⟩, rfl⟩
  · rintro ⟨⟨l, hl, hlength⟩, houtcome⟩
    have hle : p.tree.size ≤ id := by
      by_contra hlt
      rw [List.getElem?_append_left (by simpa using hlt)] at hl
      have hold := hp.depth_le l (List.mem_of_getElem? hl)
      omega
    rw [List.getElem?_append_right (by simpa using hle), Tree.length_outcomes,
      List.getElem?_map] at houtcome
    obtain ⟨o, ho, hmeasured⟩ := Option.map_eq_some_iff.mp houtcome
    exact ⟨hle, ho.trans (congrArg some (Option.some.inj hmeasured))⟩

section Blocks

variable {labels : List Label} {frontier : List Nat} {blocks : List (List Label)} {id : Nat}

theorem filter_blocks_eq_nil (h : List.Forall₂ (fun id block => ∃ l, labels[id]? = some l ∧
    Expansion.Bears false actions id l block) frontier blocks) (hid : id ∉ frontier) :
    (blocks.flatten.filter fun m => m.parent == some id) = [] := by
  induction h with
  | nil => rfl
  | @cons i block _ _ hfirst _ ih =>
    obtain ⟨m, -, hparents, -⟩ := hfirst
    rw [List.mem_cons, not_or] at hid
    rw [List.flatten_cons, List.filter_append, ih hid.2, List.append_nil]
    refine List.filter_eq_nil_iff.mpr fun m hm => ?_
    simp [hparents m hm, Ne.symm hid.1]

/-- Each node of a frontier bears its own block. -/
theorem filter_blocks (h : List.Forall₂ (fun id block => ∃ l, labels[id]? = some l ∧
    Expansion.Bears false actions id l block) frontier blocks) (hnodup : frontier.Nodup)
    (hid : id ∈ frontier) {l : Label} (hl : labels[id]? = some l) :
    (blocks.flatten.filter fun m => m.parent == some id).map Label.variant =
      l.variant.offspring actions := by
  induction h with
  | nil => cases hid
  | @cons i block rest blocks hfirst hrest ih =>
    obtain ⟨m, hm, hparents, hoffspring⟩ := hfirst
    obtain ⟨hi, hnodup⟩ := List.nodup_cons.mp hnodup
    rw [List.flatten_cons, List.filter_append]
    rcases List.mem_cons.mp hid with rfl | hid
    · obtain rfl := Option.some.inj (hl.symm.trans hm)
      have hall : (block.filter fun m => m.parent == some id) = block :=
        List.filter_eq_self.mpr fun m hm => by simp [hparents m hm]
      rw [filter_blocks_eq_nil hrest hi, List.append_nil, hall, hoffspring rfl]
    · have hne : i ≠ id := fun heq => hi (heq ▸ hid)
      have hnone : (block.filter fun m => m.parent == some id) = [] :=
        List.filter_eq_nil_iff.mpr fun m hm => by simp [hparents m hm, hne]
      rw [hnone, List.nil_append, ih hnodup hid]

end Blocks

/-- What a run keeps of its frontiers: the one it stands at, how each was chosen, and that parents
come from them. -/
structure Filed (b : Beam) (d : Nat) (p : Progress) : Prop where
  length : p.frontiers.length = d
  last : ([0] :: p.frontiers)[d]? = some p.frontier
  linked : p.tree.Linked
  ranked : ∀ i frontier, p.frontiers[i]? = some frontier →
    ∃ ranked, p.tree.TopRanked b.width (i + 1) ranked frontier
  parents : ∀ l ∈ p.tree.labels, ∀ i, l.history.length = i + 1 →
    ∃ front, ([0] :: p.frontiers)[i]? = some front ∧ ∃ id ∈ front, l.parent = some id

theorem Filed.start (b : Beam) (root : Kernel) (baseline : Cost) :
    Filed b 0 (.start root baseline) where
  length := rfl
  last := rfl
  linked := Tree.linked_root root _
  ranked := by
    intro i frontier h
    cases h
  parents := by
    intro l hl i hlength
    obtain rfl := List.mem_singleton.mp hl
    cases hlength

theorem Filed.nodup (h : Filed b d p) : p.frontier.Nodup := by
  have hlast := h.last
  cases d with
  | zero =>
    rw [← Option.some.inj hlast]
    exact List.nodup_singleton 0
  | succ d =>
    obtain ⟨ranked, hranked⟩ := h.ranked d p.frontier hlast
    exact hranked.nodup

/-- The nodes of a frontier are as deep as the frontier comes late. -/
theorem Filed.depth (h : Filed b d p) (hgrown : Grown root actions p.tree.labels) {i : Nat}
    {front : List Nat} (hfront : ([0] :: p.frontiers)[i]? = some front) {id : Nat}
    (hid : id ∈ front) : ∃ l, p.tree.labels[id]? = some l ∧ l.history.length = i := by
  cases i with
  | zero =>
    rw [← Option.some.inj hfront, List.mem_singleton] at hid
    rw [hid]
    exact ⟨_, hgrown.first, rfl⟩
  | succ i =>
    obtain ⟨ranked, htop⟩ := h.ranked i front hfront
    obtain ⟨n, hn, hdepth, -⟩ := htop.measured id hid
    exact ⟨n.label, Tree.label_of_get? hn, hdepth⟩

theorem Stage.frontiers_getElem? (h : Stage b actions evaluator d p x outcomes level p') {i : Nat}
    {front : List Nat} (hfront : ([0] :: p.frontiers)[i]? = some front) :
    ([0] :: p'.frontiers)[i]? = some front := by
  rw [h.frontiers, ← List.cons_append]
  exact getElem?_append_of_eq_some hfront _

theorem Filed.stage (hfiled : Filed b d p) (hp : Sound root actions evaluator d p)
    (h : Stage b actions evaluator (d + 1) p x outcomes level p') : Filed b (d + 1) p' := by
  obtain ⟨new, hgrows⟩ := h.grows hp.grown
  have hlength := hfiled.length
  refine ⟨?_, ?_, ?_, ?_, ?_⟩
  · rw [h.frontiers, List.length_append, hlength, List.length_singleton]
  · rw [h.frontiers, ← hlength, List.getElem?_cons_succ]
    exact List.getElem?_concat_length
  · exact recordAll_linked h.recorded (expanded_linked hp.grown hfiled.linked h.expanded)
  · intro i frontier hi
    rw [h.frontiers] at hi
    rcases getElem?_concat_eq_some hi with hi | ⟨rfl, rfl⟩
    · have hlt := (List.getElem?_eq_some_iff.mp hi).1
      obtain ⟨ranked, htop⟩ := hfiled.ranked i frontier hi
      rw [htop.first]
      exact ⟨ranked, (hgrows.ranking hp (by omega) htop.ranking).topRanked b.width⟩
    · rw [hlength]
      exact h.topRanked hp
  · intro l hl i hi
    rw [hgrows.labels] at hl
    rcases List.mem_append.mp hl with hl | hl
    · obtain ⟨front, hget, hparent⟩ := hfiled.parents l hl i hi
      exact ⟨front, h.frontiers_getElem? hget, hparent⟩
    · have hdepth := hgrows.depth hp hl
      obtain rfl : i = d := by omega
      exact ⟨p.frontier, h.frontiers_getElem? hfiled.last, hgrows.parents l hl⟩

theorem Reaches.filed {baseline : Cost} (h : Reaches b actions evaluator (.start root baseline) d p)
    (hmeasured : Yields (evaluator.evaluate root) (.measured baseline)) : Filed b d p := by
  induction h with
  | start => exact .start b root baseline
  | level reached _ stage ih => exact ih.stage (reached.sound hmeasured) stage

/-- The labels of the frontier. -/
theorem Sound.exists_parents (hp : Sound root actions evaluator d p) : ∃ parents,
    List.Forall₂ (fun id l => p.tree.labels[id]? = some l) p.frontier parents := by
  refine exists_forall₂ fun id hid => ?_
  obtain ⟨l, hl, -⟩ := hp.frontier id hid
  exact ⟨l, hl⟩

/-- The labels that name a node as their parent. -/
def borne (t : Tree) (id : Nat) : List Label :=
  t.labels.filter fun l => l.parent == some id

/-- A level adds nothing under nodes that are not in its frontier. -/
theorem Grows.borne_eq (h : Grows root actions evaluator p p' new outcomes) {id : Nat}
    (hid : id ∉ p.frontier) : borne p'.tree id = borne p.tree id := by
  have hnone : (new.filter fun l => l.parent == some id) = [] := by
    refine List.filter_eq_nil_iff.mpr fun l hl hparent => ?_
    obtain ⟨i, hi, hl⟩ := h.parents l hl
    rw [hl, beq_iff_eq, Option.some.injEq] at hparent
    exact hid (hparent ▸ hi)
  rw [borne, h.labels, List.filter_append, hnone, List.append_nil, borne]

/-- Without deduplication a level gives each node of its frontier the whole offspring. -/
theorem Stage.borne_eq (h : Stage b actions evaluator (d + 1) p x outcomes level p')
    (hall : b.deduplicate = false) (hp : Sound root actions evaluator d p) (hfiled : Filed b d p)
    {id : Nat} (hid : id ∈ p.frontier) {l : Label} (hl : p.tree.labels[id]? = some l) :
    (borne p'.tree id).map Label.variant = l.variant.offspring actions := by
  obtain ⟨new, hnew⟩ := extends_of_ok hp.grown h.expanded
  obtain ⟨hlabels, -, -⟩ := h.filled hnew
  obtain ⟨parents, hparents⟩ := hp.exists_parents
  have hexpanded := h.expanded
  rw [hall] at hexpanded
  obtain ⟨blocks, hblocks, hbears, -⟩ :=
    Expansion.exists_blocks hexpanded hfiled.linked.indexed hparents
  -- A label under the node would be one level deeper than the tree.
  have hnone : borne p.tree id = [] := by
    refine List.filter_eq_nil_iff.mpr fun m hm hparent => ?_
    obtain ⟨i, hi⟩ := List.getElem?_of_mem hm
    obtain ⟨l', hl', hdepth⟩ := hp.frontier id hid
    rcases hp.grown.cases_getElem? hi with ⟨rfl, -⟩ | ⟨parent, m', e, -, hm', hchild, -⟩
    · simp at hparent
    · rw [hchild, beq_iff_eq, Option.some.injEq] at hparent
      rw [hparent, hl'] at hm'
      obtain rfl := Option.some.inj hm'
      have hle := hp.depth_le m hm
      rw [hchild, List.length_append, hdepth, List.length_singleton] at hle
      omega
  rw [borne, hlabels, hblocks, List.filter_append]
  show ((borne p.tree id ++ _).map Label.variant) = _
  rw [hnone, List.nil_append]
  exact filter_blocks hbears hfiled.nodup hid hl

/-- Every node that has been expanded has its whole offspring. -/
theorem Reaches.borne_eq {baseline : Cost}
    (h : Reaches b actions evaluator (.start root baseline) d p)
    (hmeasured : Yields (evaluator.evaluate root) (.measured baseline))
    (hall : b.deduplicate = false) {i : Nat} (hi : i < d) {front : List Nat}
    (hfront : ([0] :: p.frontiers)[i]? = some front) {id : Nat} (hid : id ∈ front) {l : Label}
    (hl : p.tree.labels[id]? = some l) :
    (borne p.tree id).map Label.variant = l.variant.offspring actions := by
  induction h generalizing i front id l with
  | start => omega
  | @level d p p' x outcomes level reached _ stage ih =>
    have hsound := reached.sound hmeasured
    have hfiled := reached.filed hmeasured
    obtain ⟨new, hgrows⟩ := stage.grows hsound.grown
    have hlength : i < ([0] :: p.frontiers).length := by
      rw [List.length_cons, hfiled.length]
      exact hi
    rw [stage.frontiers, ← List.cons_append, List.getElem?_append_left hlength] at hfront
    obtain ⟨m, hm, hdepth⟩ := hfiled.depth hsound.grown hfront hid
    rw [hgrows.labels, List.getElem?_append_left (List.getElem?_eq_some_iff.mp hm).1] at hl
    by_cases hlast : i = d
    · subst hlast
      rw [← Option.some.inj (hfiled.last.symm.trans hfront)] at hid
      exact stage.borne_eq hall hsound hfiled hid hl
    · have hid' : id ∉ p.frontier := by
        intro hmem
        obtain ⟨m', hm', hdepth'⟩ := hsound.frontier id hmem
        obtain rfl := Option.some.inj (hm.symm.trans hm')
        omega
      rw [hgrows.borne_eq hid']
      exact ih (by omega) hfront hid hl

end Beam

/-- The children of a node are the given successors of its state, in order. -/
structure Tree.Bred (t : Tree) (n : Node) (successors : List (Edit × Kernel)) : Prop where
  sorted : n.children.Pairwise (· < ·)
  each : List.Forall₂ (fun id s => ∃ m, t.get? id = some m ∧ m.parent = some n.id ∧
    m.history = n.history ++ [s.1] ∧ m.state = s.2) n.children successors

namespace Beam

variable {σ : Type} {b : Beam} {root : Kernel} {actions : List Action}
  {evaluator : Evaluator (StateT σ Checked)}

/-- The labels that a node bears are its children. -/
theorem bred_of_borne {t : Tree} (hgrown : Grown root actions t.labels) (hlinked : t.Linked)
    {id : Nat} {n : Node} (hn : t.get? id = some n)
    (h : (borne t id).map Label.variant = n.label.variant.offspring actions) :
    t.Bred n (Action.successors actions n.state) := by
  have hid : n.id = id := hgrown.id_eq (Tree.label_of_get? hn)
  have hchildren : n.children = (borne t id).map (·.id) :=
    hlinked.children id n.children (Tree.children_of_get? hn)
  rw [← List.forall₂_eq_eq_eq, Variant.offspring, List.forall₂_map_left_iff,
    List.forall₂_map_right_iff] at h
  refine ⟨?_, ?_⟩
  · exact hlinked.sorted hgrown hn
  · rw [hchildren, List.forall₂_map_left_iff]
    have hboth := (List.forall₂_and_left _ _).mpr ⟨fun l (hl : l ∈ borne t id) => hl, h⟩
    refine hboth.imp fun l s ⟨hl, hvariant⟩ => ?_
    obtain ⟨hmem, hparent⟩ := List.mem_filter.mp hl
    obtain ⟨i, hi⟩ := List.getElem?_of_mem hmem
    rw [hgrown.id_eq hi]
    rw [Tree.labels_getElem?] at hi
    obtain ⟨m, hm, rfl⟩ := Option.map_eq_some_iff.mp hi
    refine ⟨m, hm, ?_, congrArg Variant.history hvariant, congrArg Variant.state hvariant⟩
    rw [hid]
    exact beq_iff_eq.mp hparent

/-- Without a time budget a search stops at its depth, or where a frontier is empty. -/
theorem Explores.lt_of_mem {x : Exploration} {baseline : Cost} {d : Nat} {p : Progress}
    {best : Node} (h : Explores b root actions evaluator x baseline d p best)
    (hbudget : b.budgetMillis = none) (hfiled : Filed b d p) {i : Nat} (hi : i < b.maxDepth)
    {front : List Nat} (hfront : ([0] :: p.frontiers)[i]? = some front) {id : Nat}
    (hid : id ∈ front) : i < d := by
  have hle := (List.getElem?_eq_some_iff.mp hfront).1
  rw [List.length_cons, hfiled.length] at hle
  by_contra hlt
  obtain rfl : i = d := by omega
  have hstopped := h.stopped
  generalize x.result.termination = termination at hstopped
  cases hstopped with
  | maxDepth deep _ => omega
  | emptyFrontier empty =>
    rw [hfiled.last, empty] at hfront
    rw [← Option.some.inj hfront] at hid
    cases hid
  | budgetExhausted limited => exact limited hbudget

/-- Which nodes a search keeps, where each comes from, and what becomes of those that are expanded:
every frontier is the beginning of the ranking of its depth, every parent is in the frontier before,
and without deduplication the children are all the successors. -/
theorem explore_ranked {now : StateT σ Checked Duration} {x : Exploration}
    (hbudget : b.budgetMillis = none)
    (h : Yields (b.explore root actions evaluator now) (.ok x)) :
    (∀ d frontier, x.frontiers[d]? = some frontier →
      ∃ ranked, x.tree.TopRanked b.width (d + 1) ranked frontier) ∧
    (∀ n ∈ x.tree.nodes, (n.depth = 1 → n.parent = some 0) ∧ ∀ d, n.depth = d + 2 →
      ∃ frontier, x.frontiers[d]? = some frontier ∧ ∃ id ∈ frontier, n.parent = some id) ∧
    (b.deduplicate = false → ∀ d < b.maxDepth, ∀ front, ([0] :: x.frontiers)[d]? = some front →
      ∀ id ∈ front, ∃ n, x.tree.get? id = some n ∧
        x.tree.Bred n (Action.successors actions n.state)) := by
  obtain ⟨baseline, d, p, best, hx⟩ := explores_of_ok h
  have hsound := hx.reached.sound hx.measured
  have hfiled := hx.reached.filed hx.measured
  rw [hx.concluded.frontiers, hx.concluded.tree]
  refine ⟨hfiled.ranked, ?_, ?_⟩
  · intro n hn
    refine ⟨fun hdepth => ?_, fun i hdepth => ?_⟩
    · obtain ⟨front, hfront, id, hid, hparent⟩ :=
        hfiled.parents n.label (Tree.label_mem hn) 0 hdepth
      rw [← Option.some.inj hfront, List.mem_singleton] at hid
      rw [← hid]
      exact hparent
    · exact hfiled.parents n.label (Tree.label_mem hn) (i + 1) hdepth
  · intro hall i hi front hfront id hid
    have hlt : i < d := hx.lt_of_mem hbudget hfiled hi hfront hid
    obtain ⟨l, hl, -⟩ := hfiled.depth hsound.grown hfront hid
    have hborne := hx.reached.borne_eq hx.measured hall hlt hfront hid hl
    rw [Tree.labels_getElem?] at hl
    obtain ⟨n, hn, rfl⟩ := Option.map_eq_some_iff.mp hl
    exact ⟨n, hn, bred_of_borne hsound.grown hfiled.linked hn hborne⟩

theorem explore_ranked_glance :
    ∃ x, Yields (glance.explore (Kernel.matmul "square" 8 8 8) moves (.ofFunction countLoops)
        (pure .zero : StateT Unit Checked Duration)) (.ok x) ∧
      (∃ frontier ranked, x.frontiers[0]? = some frontier ∧
        x.tree.TopRanked 2 1 ranked frontier) ∧
      (∀ n ∈ x.tree.nodes, n.depth = 1 → n.parent = some 0) ∧
      ∃ n, x.tree.get? 0 = some n ∧ n.children.length = 7 ∧
        x.tree.Bred n (Action.successors moves (Kernel.matmul "square" 8 8 8)) := by
  obtain ⟨x, hx⟩ := exists_explore glance (Kernel.matmul "square" 8 8 8) moves countLoops rfl
    (by cbv) (Kernel.extentOf_lt_of_forall (by decide) (by decide)) rfl
  obtain ⟨hranked, hparents, hbred⟩ := explore_ranked rfl hx
  obtain ⟨baseline, d, p, best, hexplores⟩ := explores_of_ok hx
  obtain ⟨e, outcomes, level, hstage⟩ := hexplores.first rfl rfl rfl
  have hfrontier : x.frontiers[0]? = some p.frontier := by
    rw [hexplores.concluded.frontiers, hstage.frontiers]
    rfl
  obtain ⟨ranked, htop⟩ := hranked 0 p.frontier hfrontier
  obtain ⟨n, hn, hchildren⟩ := hbred rfl 0 (by decide) [0] rfl 0 (List.mem_singleton_self 0)
  have hstate : n.state = Kernel.matmul "square" 8 8 8 := by
    have hfirst := (hexplores.reached.sound hexplores.measured).grown.first
    rw [hexplores.concluded.tree] at hn
    exact congrArg Label.state (Option.some.inj ((Tree.label_of_get? hn).symm.trans hfirst))
  rw [hstate] at hchildren
  refine ⟨x, hx, ⟨p.frontier, ranked, hfrontier, htop⟩, fun n hn => (hparents n hn).1, n, hn, ?_,
    hchildren⟩
  rw [hchildren.each.length_eq]
  cbv

end Beam

end NestTuner

import NestTuner.Proofs.Levels

/-!
What an expansion adds to the tree. The successors of a kernel are the legal kernels that accepted
proposals give, in the order of the proposals. A node that is expanded gets one child for each of
them, less those whose nest is known already if the search deduplicates. So the labels of a level
are a function of the labels of its frontier. What a tree keeps beside its labels follows from them:
the children of a node are the labels that name it as their parent, and the nests seen are theirs.
-/

namespace NestTuner

/-- The edit and the kernel of a candidate that was accepted and is legal. -/
def Candidate.legal? (c : Candidate) : Option (Edit × Kernel) :=
  match c.verdict with
  | .ok k => if k.checkLegality = .ok () then some (c.edit, k) else none
  | .error _ => none

namespace Action

/-- What becomes of a kernel by an edit, if it accepts the edit and stays legal. -/
def successor? (k : Kernel) (e : Edit) : Option (Edit × Kernel) :=
  match k.apply e with
  | .ok k' => if k'.checkLegality = .ok () then some (e, k') else none
  | .error _ => none

/-- The proposals that a kernel accepts and that leave it legal, in order, with what they leave. -/
def successors (actions : List Action) (k : Kernel) : List (Edit × Kernel) :=
  (actions.flatMap fun a => a.proposals k.nest.depth).filterMap (successor? k)

theorem successor?_eq_some {k : Kernel} {e : Edit} {s : Edit × Kernel} :
    successor? k e = some s ↔
      s.1 = e ∧ k.apply e = .ok s.2 ∧ s.2.checkLegality = .ok () := by
  obtain ⟨e', k'⟩ := s
  unfold successor?
  split
  case h_1 next hnext =>
    rw [Option.ite_none_right_eq_some, hnext]
    simp only [Option.some.injEq, Prod.mk.injEq, Except.ok.injEq]
    constructor
    · rintro ⟨hlegal, rfl, rfl⟩
      exact ⟨rfl, rfl, hlegal⟩
    · rintro ⟨rfl, rfl, hlegal⟩
      exact ⟨hlegal, rfl, rfl⟩
  case h_2 failure hfailure => simp [hfailure]

theorem mem_successors {actions : List Action} {k : Kernel} {s : Edit × Kernel} :
    s ∈ successors actions k ↔ Proposed actions k s.1 ∧ k.apply s.1 = .ok s.2 ∧
      s.2.checkLegality = .ok () := by
  simp only [successors, List.mem_filterMap, List.mem_flatMap, successor?_eq_some]
  constructor
  · rintro ⟨e, hproposed, rfl, happly, hlegal⟩
    exact ⟨hproposed, happly, hlegal⟩
  · rintro ⟨hproposed, happly, hlegal⟩
    exact ⟨s.1, hproposed, rfl, happly, hlegal⟩

theorem legal?_of_attempt {k : Kernel} {e : Edit} {c : Candidate} (h : attempt k e = .ok c) :
    c.legal? = successor? k e := by
  unfold attempt at h
  unfold successor?
  split at h
  case h_1 next hnext =>
    obtain rfl := Except.ok.inj h
    rw [hnext]
    rfl
  case h_2 reason hreason =>
    obtain rfl := Except.ok.inj h
    rw [hreason]
    rfl
  case h_3 => cases h

theorem filterMap_legal?_of_mapM {k : Kernel} {edits : List Edit} {cs : List Candidate}
    (h : edits.mapM (attempt k) = .ok cs) :
    cs.filterMap Candidate.legal? = edits.filterMap (successor? k) := by
  have hall := mapM_eq_ok.mp h
  clear h
  induction hall with
  | nil => rfl
  | cons hfirst _ ih => rw [List.filterMap_cons, List.filterMap_cons, legal?_of_attempt hfirst, ih]

/-- The candidates that are kept are the successors. -/
theorem filterMap_legal?_of_expandAll {actions : List Action} {k : Kernel} {cs : List Candidate}
    (h : expandAll actions k = .ok cs) :
    cs.filterMap Candidate.legal? = successors actions k := by
  obtain ⟨lists, hlists, hcs⟩ := bind_eq_ok.mp h
  obtain rfl := Except.ok.inj hcs
  have hall := mapM_eq_ok.mp hlists
  clear h hlists hcs
  unfold successors
  induction hall with
  | nil => rfl
  | cons hfirst _ ih =>
    rw [List.flatten_cons, List.flatMap_cons, List.filterMap_append, List.filterMap_append, ih,
      filterMap_legal?_of_mapM hfirst]

end Action

/-- A kernel with the history that leads to it. -/
structure Variant where
  history : List Edit
  state : Kernel

def Label.variant (l : Label) : Variant :=
  ⟨l.history, l.state⟩

namespace Variant

def nest (v : Variant) : Nest :=
  v.state.nest

/-- The variant after one more edit. -/
def child (v : Variant) (s : Edit × Kernel) : Variant :=
  ⟨v.history ++ [s.1], s.2⟩

/-- The variants one edit further on. -/
def offspring (actions : List Action) (v : Variant) : List Variant :=
  (Action.successors actions v.state).map v.child

/-- Drops what has a nest that was seen before, if asked for. -/
def novel (deduplicate : Bool) : List Nest → List Variant → List Variant
  | _, [] => []
  | seen, v :: rest =>
    if deduplicate && seen.contains v.nest then novel deduplicate seen rest
    else v :: novel deduplicate (seen ++ [v.nest]) rest

theorem novel_append (deduplicate : Bool) (seen : List Nest) (vs ws : List Variant) :
    novel deduplicate seen (vs ++ ws) = novel deduplicate seen vs ++
      novel deduplicate (seen ++ (novel deduplicate seen vs).map nest) ws := by
  induction vs generalizing seen with
  | nil => simp [novel]
  | cons v rest ih =>
    rw [List.cons_append, novel, novel]
    split
    case isTrue => exact ih seen
    case isFalse =>
      rw [ih, List.cons_append, List.map_cons, List.append_assoc, List.singleton_append]

/-- Without deduplication nothing is dropped. -/
@[simp] theorem novel_false (seen : List Nest) (vs : List Variant) : novel false seen vs = vs := by
  induction vs generalizing seen with
  | nil => rfl
  | cons v rest ih => simp [novel, ih]

end Variant

namespace Tree

def nests (t : Tree) : List Nest :=
  t.labels.map (·.variant.nest)

/-- The nests that are kept for look-ups are those of the nodes. -/
def Indexed (t : Tree) : Prop :=
  ∀ nest, nest ∈ t.seen ↔ nest ∈ t.nests

theorem Indexed.containsState_eq {t : Tree} (h : t.Indexed) (k : Kernel) :
    t.containsState k = t.nests.contains k.nest := by
  rw [Bool.eq_iff_iff, containsState, List.contains_iff_mem, List.contains_iff_mem, h]

theorem seen_of_addChild {t t' : Tree} {parent id : Nat} {e : Edit} {k : Kernel}
    (h : t.addChild parent e k = .ok (t', id)) : t'.seen = t.seen.insert k.nest := by
  obtain ⟨n, -, h⟩ := bind_eq_ok.mp h
  obtain ⟨rfl, -⟩ := Prod.mk.inj (Except.ok.inj h)
  rfl

theorem Indexed.addChild {t t' : Tree} {parent id : Nat} {e : Edit} {k : Kernel} (ht : t.Indexed)
    (h : t.addChild parent e k = .ok (t', id)) : t'.Indexed := by
  intro nest
  obtain ⟨l, -, hlabels, -⟩ := addChild_eq_ok h
  rw [seen_of_addChild h, List.mem_insert_iff, ht nest, nests, nests, hlabels, List.map_append,
    List.mem_append, or_comm]
  exact or_congr_right List.mem_singleton.symm

end Tree

namespace Beam

variable {deduplicate : Bool} {actions : List Action} {frontier : List Nat} {id : Nat}
  {x x' : Expansion} {c : Candidate} {l : Label}

namespace Expansion

theorem Absorbs.indexed (h : Absorbs deduplicate id x c x') (hx : x.tree.Indexed) :
    x'.tree.Indexed := by
  cases h with
  | refused => exact hx
  | defective => exact hx
  | repeated => exact hx
  | added _ _ _ grown => exact hx.addChild grown

/-- A candidate adds at most its own label. -/
theorem Absorbs.exists_new (h : Absorbs deduplicate id x c x') (hx : x.tree.Indexed)
    (hl : x.tree.labels[id]? = some l) : ∃ new : List Label,
      x'.tree.labels = x.tree.labels ++ new ∧ (∀ m ∈ new, m.parent = some id) ∧
        new.map Label.variant =
          Variant.novel deduplicate x.tree.nests (c.legal?.toList.map l.variant.child) := by
  cases h with
  | refused refused =>
    exact ⟨[], by simp, by simp, by simp [Candidate.legal?, refused, Variant.novel]⟩
  | defective accepted illegal =>
    exact ⟨[], by simp, by simp, by simp [Candidate.legal?, accepted, illegal, Variant.novel]⟩
  | @repeated k accepted legal known =>
    rw [hx.containsState_eq] at known
    have hknown :
        (deduplicate && x.tree.nests.contains (l.variant.child (c.edit, k)).nest) = true := known
    refine ⟨[], by simp, by simp, ?_⟩
    simp only [Candidate.legal?, accepted, legal, if_true, Option.toList_some, List.map_cons,
      List.map_nil, Variant.novel, hknown]
  | @added k tree place accepted legal new grown =>
    rw [hx.containsState_eq] at new
    have hnew : (deduplicate && x.tree.nests.contains (l.variant.child (c.edit, k)).nest) = false :=
      new
    obtain ⟨m, hm, hlabels, -⟩ := Tree.addChild_eq_ok grown
    obtain rfl := Option.some.inj (hl.symm.trans hm)
    refine ⟨[⟨x.tree.size, some id, l.history ++ [c.edit], k⟩], hlabels, by simp, ?_⟩
    simp only [Candidate.legal?, accepted, legal, if_true, Option.toList_some, List.map_cons,
      List.map_nil, Variant.novel, hnew, Bool.false_eq_true, if_false]
    rfl

theorem exists_new_of_absorb {cs : List Candidate}
    (h : cs.foldlM (absorb deduplicate id) x = .ok x') (hx : x.tree.Indexed)
    (hl : x.tree.labels[id]? = some l) : x'.tree.Indexed ∧ ∃ new : List Label,
      x'.tree.labels = x.tree.labels ++ new ∧ (∀ m ∈ new, m.parent = some id) ∧
        new.map Label.variant = Variant.novel deduplicate x.tree.nests
          ((cs.filterMap Candidate.legal?).map l.variant.child) := by
  induction cs generalizing x with
  | nil =>
    obtain rfl := Except.ok.inj h
    exact ⟨hx, [], by simp, by simp, rfl⟩
  | cons c rest ih =>
    rw [List.foldlM_cons] at h
    obtain ⟨y, hy, h⟩ := bind_eq_ok.mp h
    have habsorbs := absorbs_of_ok hy
    obtain ⟨new, hlabels, hparents, hnew⟩ := habsorbs.exists_new hx hl
    obtain ⟨hx', more, hlabels', hparents', hmore⟩ :=
      ih h (habsorbs.indexed hx) (habsorbs.labels_getElem? hl)
    have hnests : y.tree.nests = x.tree.nests ++ (new.map Label.variant).map Variant.nest := by
      rw [Tree.nests, hlabels, List.map_append, List.map_map]
      rfl
    refine ⟨hx', new ++ more, by rw [hlabels', hlabels, List.append_assoc], ?_, ?_⟩
    · intro m hm
      rcases List.mem_append.mp hm with hm | hm
      · exact hparents m hm
      · exact hparents' m hm
    · have hcut : ((c :: rest).filterMap Candidate.legal?).map l.variant.child =
          c.legal?.toList.map l.variant.child ++
            (rest.filterMap Candidate.legal?).map l.variant.child := by
        rw [← List.map_append]
        cases hc : c.legal? <;> simp [hc]
      rw [hcut, Variant.novel_append, ← hnew, ← hnests, ← hmore, List.map_append]

/-- The block of labels that a frontier node gets. -/
def Bears (deduplicate : Bool) (actions : List Action) (id : Nat) (l : Label)
    (block : List Label) : Prop :=
  (∀ m ∈ block, m.parent = some id) ∧
    (deduplicate = false → block.map Label.variant = l.variant.offspring actions)

theorem exists_new_of_expandNode (h : x.expandNode deduplicate actions id = .ok x')
    (hx : x.tree.Indexed) (hl : x.tree.labels[id]? = some l) :
    x'.tree.Indexed ∧ ∃ new : List Label,
      x'.tree.labels = x.tree.labels ++ new ∧ Bears deduplicate actions id l new ∧
        new.map Label.variant =
          Variant.novel deduplicate x.tree.nests (l.variant.offspring actions) := by
  rw [expandNode_eq hl] at h
  obtain ⟨cs, hcs, h⟩ := bind_eq_ok.mp h
  obtain ⟨hx', new, hlabels, hparents, hnew⟩ := exists_new_of_absorb h hx hl
  rw [Action.filterMap_legal?_of_expandAll hcs] at hnew
  refine ⟨hx', new, hlabels, ⟨hparents, fun hall => ?_⟩, hnew⟩
  subst hall
  rw [hnew, Variant.novel_false]
  rfl

/-- The labels that a frontier gets, block by block: all offspring, or what is novel of it. -/
theorem exists_blocks (h : frontier.foldlM (expandNode deduplicate actions) x = .ok x')
    (hx : x.tree.Indexed) {parents : List Label}
    (hparents : List.Forall₂ (fun id l => x.tree.labels[id]? = some l) frontier parents) :
    ∃ blocks : List (List Label), x'.tree.labels = x.tree.labels ++ blocks.flatten ∧
      List.Forall₂ (fun id block => ∃ l, x.tree.labels[id]? = some l ∧
        Bears deduplicate actions id l block) frontier blocks ∧
      blocks.flatten.map Label.variant = Variant.novel deduplicate x.tree.nests
        ((parents.map Label.variant).flatMap (Variant.offspring actions)) := by
  induction frontier generalizing x parents with
  | nil =>
    obtain rfl := Except.ok.inj h
    cases hparents
    exact ⟨[], by simp, .nil, rfl⟩
  | cons id rest ih =>
    cases hparents with
    | @cons _ l _ parents hl hrest =>
      rw [List.foldlM_cons] at h
      obtain ⟨y, hy, h⟩ := bind_eq_ok.mp h
      obtain ⟨hy', new, hlabels, hbears, hnew⟩ := exists_new_of_expandNode hy hx hl
      have hkeep : ∀ {i : Nat} {m : Label}, x.tree.labels[i]? = some m →
          y.tree.labels[i]? = some m := by
        intro i m hm
        rw [hlabels]
        exact getElem?_append_of_eq_some hm _
      obtain ⟨blocks, hlabels', hblocks, hmore⟩ := ih h hy' (hrest.imp fun _ _ hm => hkeep hm)
      have hnests : y.tree.nests = x.tree.nests ++ (new.map Label.variant).map Variant.nest := by
        rw [Tree.nests, hlabels, List.map_append, List.map_map]
        rfl
      refine ⟨new :: blocks, ?_, .cons ⟨l, hl, hbears⟩ ?_, ?_⟩
      · rw [hlabels', hlabels, List.flatten_cons, List.append_assoc]
      · -- The frontier was there before, so its labels are the ones before.
        refine List.forall₂_iff_get.mpr ⟨hblocks.length_eq, fun i hi hi' => ?_⟩
        obtain ⟨m, hm, hbears'⟩ := (List.forall₂_iff_get.mp hblocks).2 i hi hi'
        obtain ⟨m', hm'⟩ : ∃ m', x.tree.labels[rest.get ⟨i, hi⟩]? = some m' := by
          have hlength := hrest.length_eq
          exact ⟨_, (List.forall₂_iff_get.mp hrest).2 i hi (by omega)⟩
        obtain rfl := Option.some.inj (hm.symm.trans (hkeep hm'))
        exact ⟨m, hm', hbears'⟩
      · rw [List.flatten_cons, List.map_append, List.map_cons, List.flatMap_cons,
          Variant.novel_append, ← hnew, ← hnests, ← hmore]

end Expansion

end Beam

namespace Tree

def children (t : Tree) : List (List Nat) :=
  t.nodes.toList.map (·.children)

theorem children_of_get? {t : Tree} {i : Nat} {n : Node} (h : t.get? i = some n) :
    t.children[i]? = some n.children := by
  rw [children, List.getElem?_map, Array.getElem?_toList, show t.nodes[i]? = some n from h]
  rfl

/-- What a tree keeps twice agrees with its labels: the children of a node are the nodes that name
it as their parent, oldest first, and the nests are those of the nodes. -/
structure Linked (t : Tree) : Prop where
  children : ∀ i cs, t.children[i]? = some cs →
    cs = (t.labels.filter fun l => l.parent == some i).map (·.id)
  indexed : t.Indexed

theorem linked_root (root : Kernel) (o : Option Outcome) :
    Linked ⟨#[⟨0, none, [], [], root, o⟩], [root.nest]⟩ := by
  refine ⟨fun i cs hcs => ?_, fun nest => Iff.rfl⟩
  obtain ⟨hlt, rfl⟩ := List.getElem?_eq_some_iff.mp hcs
  obtain rfl : i = 0 := by simpa [children] using hlt
  rfl

@[simp] theorem length_children (t : Tree) : t.children.length = t.size := by
  simp [children, size]

/-- A child is listed under its parent, and has no children itself. -/
theorem children_of_addChild {t t' : Tree} {parent id : Nat} {e : Edit} {k : Kernel}
    (h : t.addChild parent e k = .ok (t', id)) : ∃ cs, t.children[parent]? = some cs ∧
      t'.children = t.children.set parent (cs ++ [t.size]) ++ [[]] := by
  obtain ⟨n, hn, h⟩ := bind_eq_ok.mp h
  obtain ⟨rfl, -⟩ := Prod.mk.inj (Except.ok.inj h)
  refine ⟨n.children, children_of_get? (get_eq_ok.mp hn), ?_⟩
  rw [children, Array.toList_push, List.map_append, map_set]
  rfl

section Rooted

variable {root : Kernel} {Step : Kernel → Edit → Kernel → Prop} {t : Tree}

theorem Linked.sorted (h : t.Linked) (hrooted : Rooted root Step t.labels) {i : Nat} {n : Node}
    (hn : t.get? i = some n) : n.children.Pairwise (· < ·) := by
  rw [h.children i _ (children_of_get? hn), List.pairwise_map]
  exact hrooted.pairwise_id.sublist List.filter_sublist

/-- No label names a node that is not there. -/
theorem filter_parent_size (h : Rooted root Step t.labels) :
    (t.labels.filter fun l => l.parent == some t.size) = [] := by
  refine List.filter_eq_nil_iff.mpr fun l hl hparent => ?_
  obtain ⟨i, hi⟩ := List.getElem?_of_mem hl
  have hlt := (List.getElem?_eq_some_iff.mp hi).1
  rw [length_labels] at hlt
  rcases h.cases_getElem? hi with ⟨rfl, -⟩ | ⟨p, _, _, hp, _, hchild, _⟩
  · simp at hparent
  · rw [hchild] at hparent
    simp only [beq_iff_eq, Option.some.injEq] at hparent
    omega

theorem Linked.addChild (ht : t.Linked) (hrooted : Rooted root Step t.labels) {t' : Tree}
    {parent id : Nat} {e : Edit} {k : Kernel} (h : t.addChild parent e k = .ok (t', id)) :
    t'.Linked := by
  obtain ⟨l, -, hlabels, -⟩ := addChild_eq_ok h
  obtain ⟨old, hold, hchildren⟩ := children_of_addChild h
  have hlt := (List.getElem?_eq_some_iff.mp hold).1
  refine ⟨fun i cs hcs => ?_, ht.indexed.addChild h⟩
  rw [hlabels, List.filter_append]
  rw [hchildren] at hcs
  rcases getElem?_concat_eq_some hcs with hcs | ⟨rfl, rfl⟩
  · by_cases hi : i = parent
    · subst hi
      rw [List.getElem?_set_self hlt] at hcs
      rw [← Option.some.inj hcs, ht.children i old hold]
      simp
    · rw [List.getElem?_set_ne (Ne.symm hi)] at hcs
      rw [ht.children i cs hcs, List.filter_cons_of_neg (by simpa using Ne.symm hi)]
      simp
  · rw [length_children] at hlt
    rw [List.length_set, length_children, filter_parent_size hrooted,
      List.filter_cons_of_neg (by simpa using hlt.ne)]
    rfl

end Rooted

theorem children_of_record {t t' : Tree} {id : Nat} {o : Outcome} {written : Bool}
    (h : t.record id o = .ok (t', written)) :
    t'.children = t.children ∧ t'.labels = t.labels ∧ t'.seen = t.seen := by
  obtain ⟨n, hn, ⟨-, rfl, -⟩ | ⟨-, rfl, -⟩⟩ := record_cases h
  · exact ⟨rfl, rfl, rfl⟩
  · exact ⟨map_set_same hn rfl, map_set_same hn rfl, rfl⟩

theorem Linked.record {t t' : Tree} {id : Nat} {o : Outcome} {written : Bool} (ht : t.Linked)
    (h : t.record id o = .ok (t', written)) : t'.Linked := by
  obtain ⟨hchildren, hlabels, hseen⟩ := children_of_record h
  refine ⟨fun i cs hcs => ?_, fun nest => ?_⟩
  · rw [hlabels]
    exact ht.children i cs (hchildren ▸ hcs)
  · rw [hseen, ht.indexed, nests, nests, hlabels]

end Tree

namespace Beam

variable {deduplicate : Bool} {root : Kernel} {actions : List Action} {frontier : List Nat}

theorem Expansion.Takes.linked {x x' : Expansion} (h : Takes deduplicate actions frontier x x')
    (hgrown : Grown root actions x.tree.labels) (hx : x.tree.Linked) : x'.tree.Linked := by
  obtain ⟨id, hid, l, c, hl, hproposed, hverdict, habsorbs⟩ := h
  cases habsorbs with
  | refused => exact hx
  | defective => exact hx
  | repeated => exact hx
  | added _ _ _ grown => exact hx.addChild hgrown grown

theorem expanded_linked {t : Tree} (ht : Grown root actions t.labels) (hlinked : t.Linked)
    {x : Expansion}
    (h : frontier.foldlM (Expansion.expandNode deduplicate actions) (.ofTree t) = .ok x) :
    x.tree.Linked := by
  have htakes := Expansion.takes_of_ok h
  have hboth : (∃ new, Extends root actions frontier t x.tree new) ∧ x.tree.Linked := by
    clear h
    induction htakes with
    | refl => exact ⟨⟨[], .refl ht⟩, hlinked⟩
    | tail _ htake ih =>
      obtain ⟨⟨new, hnew⟩, hx⟩ := ih
      exact ⟨htake.extends hnew, htake.linked hnew.grown hx⟩
  exact hboth.2

theorem recordAll_linked {t t' : Tree} {best best' : Nat × Cost} {entries : List (Node × Outcome)}
    (h : recordAll t best entries = .ok (t', best')) (ht : t.Linked) : t'.Linked := by
  induction entries generalizing t best with
  | nil =>
    obtain ⟨rfl, -⟩ := Prod.mk.inj (Except.ok.inj h)
    exact ht
  | cons entry rest ih =>
    obtain ⟨n, o⟩ := entry
    rw [recordAll_cons] at h
    obtain ⟨⟨next, written⟩, hrecord, h⟩ := bind_eq_ok.mp h
    exact ih h (ht.record hrecord)

end Beam

end NestTuner

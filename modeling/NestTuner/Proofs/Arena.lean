import NestTuner.Proofs.Offspring

/-!
The nodes of a search tree form a tree under any operations, whatever edits and states they bring.
Parent links, lists of children, histories and the nests kept for look-ups say the same thing more
than once; each operation keeps them in agreement. Parent links lead to smaller places, so the walk
up from a node ends at the root. The first outcome of a node is its only one.
-/

namespace NestTuner

/-- What a node was made from: its parent, the last edit and the state. -/
def Label.origin (l : Label) : Option Nat × Option Edit × Kernel :=
  (l.parent, l.history.getLast?, l.state)

namespace Tree

/-- A change of a tree. -/
inductive Operation where
  | addChild (parent : Nat) (edit : Edit) (state : Kernel)
  | record (id : Nat) (outcome : Outcome)

namespace Operation

/-- The node that has to be there. -/
def target : Operation → Nat
  | addChild parent _ _ => parent
  | record id _ => id

/-- What the new nodes are made from. -/
def origins : Operation → List (Option Nat × Option Edit × Kernel)
  | addChild parent edit state => [(some parent, some edit, state)]
  | record _ _ => []

/-- Each operation is about a node that is there when its turn comes, in a tree that has `size`
nodes before. -/
def Known : Nat → List Operation → Prop
  | _, [] => True
  | size, op :: rest => op.target < size ∧ Known (size + op.origins.length) rest

instance decidableKnown : (size : Nat) → (ops : List Operation) → Decidable (Known size ops)
  | _, [] => inferInstanceAs (Decidable True)
  | size, op :: rest =>
    have := decidableKnown (size + op.origins.length) rest
    inferInstanceAs (Decidable (_ ∧ _))

end Operation

def perform (t : Tree) : Operation → Checked Tree
  | .addChild parent edit state => do return (← t.addChild parent edit state).1
  | .record id outcome => do return (← t.record id outcome).1

/-- The tree after operations, one after another. -/
def performAll (t : Tree) (ops : List Operation) : Checked Tree :=
  ops.foldlM perform t

/-- The places from the root down to a node, along the parent links. -/
structure Ancestry (t : Tree) (id : Nat) (path : List Nat) : Prop where
  first : path.head? = some 0
  last : path.getLast? = some id
  linked : path.IsChain fun parent child => ∃ n, t.get? child = some n ∧ n.parent = some parent
  increasing : path.Pairwise (· < ·)

/-- The links of a tree are those of a tree, and everything kept twice agrees. -/
structure Consistent (t : Tree) : Prop where
  placed : ∀ i n, t.get? i = some n → n.id = i
  root : ∃ n, t.get? 0 = some n ∧ n.parent = none ∧ n.history = []
  parent : ∀ i n, t.get? i = some n → i ≠ 0 → ∃ parent m e, n.parent = some parent ∧ parent < i ∧
    t.get? parent = some m ∧ m.children.count i = 1 ∧ n.history = m.history ++ [e]
  increasing : ∀ i n, t.get? i = some n → n.children.Pairwise (· < ·)
  children : ∀ i n, t.get? i = some n → ∀ c ∈ n.children, ∃ m, t.get? c = some m ∧ m.parent = some i
  /-- The walk up ends after as many nodes as the path has, however many it may look at. -/
  path : ∀ i n, t.get? i = some n → ∃ path, t.path i = .ok path ∧ t.Ancestry i path ∧
    path.length = n.depth + 1 ∧ ∀ fuel, n.depth < fuel → t.pathWithin fuel i = .ok path
  containsState : ∀ k, t.containsState k = true ↔ ∃ n ∈ t.nodes, n.state.nest = k.nest

/-- An outcome is written once: a later tree still has it and refuses another one, and a node
without an outcome takes the first that comes. -/
structure WriteOnce (t t' : Tree) : Prop where
  kept : ∀ i n o, t.get? i = some n → n.outcome = some o →
    ∃ m, t'.get? i = some m ∧ m.outcome = some o
  refused : ∀ i n o, t.get? i = some n → n.outcome = some o →
    ∀ o', t'.record i o' = .ok (t', false)
  written : ∀ i n, t.get? i = some n → n.outcome = none → ∀ o, ∃ u, t.record i o = .ok (u, true) ∧
    u.get? i = some { n with outcome := some o } ∧ ∀ j ≠ i, u.get? j = t.get? j

section Links

variable {root : Kernel} {Step : Kernel → Edit → Kernel → Prop} {t : Tree}

theorem Lineage.length_eq {path : List Node} {n : Node} (h : t.Lineage path n) :
    path.length = n.depth + 1 := by
  have hlength := congrArg List.length h.histories
  rwa [List.length_map, List.length_inits] at hlength

/-- The history of the first node of a path is empty, so that node is the root. -/
theorem Lineage.head?_id (h : Rooted root Step t.labels) {path : List Node} {n : Node}
    (hpath : t.Lineage path n) : (path.map (·.id)).head? = some 0 := by
  cases path with
  | nil => cases hpath.last
  | cons first rest =>
    have hempty : first.history = [] := by
      have hinits : n.history.inits.head? = some [] := by cases n.history <;> rfl
      rw [← hpath.histories] at hinits
      exact Option.some.inj hinits
    rcases cases_get? h (hpath.placed first (List.mem_cons_self ..)) with
      ⟨hid, -⟩ | ⟨parent, m, e, -, -, -, hhistory⟩
    · exact congrArg some hid
    · simp [hempty] at hhistory

theorem parent_lt (h : Rooted root Step t.labels) {i parent : Nat} {n : Node}
    (hn : t.get? i = some n) (hparent : n.parent = some parent) : parent < i := by
  rcases cases_get? h hn with ⟨-, hnone, -⟩ | ⟨parent', m, e, hlt, -, hsome, -⟩
  · cases hnone.symm.trans hparent
  · obtain rfl := Option.some.inj (hsome.symm.trans hparent)
    exact hlt

theorem Lineage.ancestry (h : Rooted root Step t.labels) {path : List Node} {n : Node}
    (hpath : t.Lineage path n) : t.Ancestry n.id (path.map (·.id)) where
  first := hpath.head?_id h
  last := by rw [List.getLast?_map, hpath.last, Option.map_some]
  linked := by
    rw [List.isChain_map]
    exact hpath.linked.imp_of_mem_imp fun _ child _ hchild hparent =>
      ⟨child, hpath.placed child hchild, hparent⟩
  increasing := by
    rw [← List.isChain_iff_pairwise, List.isChain_map]
    exact hpath.linked.imp_of_mem_imp fun _ child _ hchild hparent =>
      parent_lt h (hpath.placed child hchild) hparent

/-- The children of a node are those that name it as their parent. -/
theorem Linked.mem_children_iff (hlinked : t.Linked) (h : Rooted root Step t.labels) {i c : Nat}
    {n : Node} (hn : t.get? i = some n) :
    c ∈ n.children ↔ ∃ m, t.get? c = some m ∧ m.parent = some i := by
  rw [hlinked.children i _ (children_of_get? hn), List.mem_map]
  constructor
  · rintro ⟨l, hl, rfl⟩
    obtain ⟨hmem, hparent⟩ := List.mem_filter.mp hl
    obtain ⟨j, hj⟩ := List.getElem?_of_mem hmem
    rw [h.id_eq hj]
    rw [labels_getElem?] at hj
    obtain ⟨m, hm, rfl⟩ := Option.map_eq_some_iff.mp hj
    exact ⟨m, hm, beq_iff_eq.mp hparent⟩
  · rintro ⟨m, hm, hparent⟩
    have hlabel := label_of_get? hm
    exact ⟨m.label, List.mem_filter.mpr ⟨List.mem_of_getElem? hlabel, beq_iff_eq.mpr hparent⟩,
      h.id_eq hlabel⟩

theorem Linked.containsState_iff (h : t.Linked) (k : Kernel) :
    t.containsState k = true ↔ ∃ n ∈ t.nodes, n.state.nest = k.nest := by
  rw [h.indexed.containsState_eq, List.contains_iff_mem, nests, labels, List.map_map, List.mem_map]
  simp only [Array.mem_toList_iff]
  rfl

/-- Labels that grew from a root and links that agree with them make a tree. -/
theorem Linked.consistent (hlinked : t.Linked) (h : Rooted root Step t.labels) : t.Consistent where
  placed _ _ hn := h.id_eq (label_of_get? hn)
  root := by
    have hfirst := h.first
    rw [labels_getElem?] at hfirst
    obtain ⟨n, hn, hlabel⟩ := Option.map_eq_some_iff.mp hfirst
    exact ⟨n, hn, congrArg Label.parent hlabel, congrArg Label.history hlabel⟩
  parent i n hn hi := by
    rcases cases_get? h hn with ⟨hroot, -⟩ | ⟨parent, m, e, hlt, hm, hparent, hhistory⟩
    · exact absurd hroot hi
    · have hmem := (hlinked.mem_children_iff h hm).mpr ⟨n, hn, hparent⟩
      have hnodup := (hlinked.sorted h hm).imp Nat.ne_of_lt
      exact ⟨parent, m, e, hparent, hlt, hm, List.count_eq_one_of_mem hnodup hmem, hhistory⟩
  increasing _ _ hn := hlinked.sorted h hn
  children _ _ hn _ hc := (hlinked.mem_children_iff h hn).mp hc
  path i n hn := by
    obtain ⟨path, hlineage, hpath⟩ := pathWithin_eq_ok h hn
    have hid : n.id = i := h.id_eq (label_of_get? hn)
    refine ⟨_, hpath t.size (depth_lt_size h hn), hid ▸ hlineage.ancestry h, ?_, hpath⟩
    rw [List.length_map, hlineage.length_eq]
  containsState := hlinked.containsState_iff

end Links

section Operations

variable {root : Kernel} {t t' : Tree} {op : Operation} {ops done : List Operation}

/-- The outcomes of a tree are still there in another one. -/
def Retains (t t' : Tree) : Prop :=
  ∀ (i : Nat) (o : Outcome), t.outcomes[i]? = some (some o) → t'.outcomes[i]? = some (some o)

/-- What holds of the tree after operations. -/
structure Built (root : Kernel) (ops : List Operation) (t : Tree) : Prop where
  rooted : Rooted root (fun _ _ _ => True) t.labels
  linked : t.Linked
  origins : t.labels.map Label.origin = (none, none, root) :: ops.flatMap Operation.origins

theorem Built.ofRoot (root : Kernel) : Built root [] (Tree.ofRoot root) :=
  ⟨.root, linked_root root none, rfl⟩

theorem Built.size_eq (h : Built root ops t) :
    t.size = 1 + (ops.flatMap Operation.origins).length := by
  have hlength := congrArg List.length h.origins
  rw [List.length_map, length_labels, List.length_cons] at hlength
  omega

/-- Each operation keeps the links in agreement. -/
theorem Built.perform (h : Built root done t) (hop : t.perform op = .ok t') :
    Built root (done ++ [op]) t' := by
  cases op with
  | addChild parent e k =>
    obtain ⟨⟨u, id⟩, hadd, hu⟩ := bind_eq_ok.mp hop
    obtain rfl := Except.ok.inj hu
    obtain ⟨l, hl, hlabels, -⟩ := addChild_eq_ok hadd
    refine ⟨?_, h.linked.addChild h.rooted hadd, ?_⟩
    · rw [hlabels, ← length_labels]
      exact .child h.rooted hl trivial
    · rw [hlabels, List.map_append, h.origins, List.flatMap_append]
      simp [Label.origin, Operation.origins]
  | record id o =>
    obtain ⟨⟨u, written⟩, hrecord, hu⟩ := bind_eq_ok.mp hop
    obtain rfl := Except.ok.inj hu
    obtain ⟨-, hlabels, -⟩ := children_of_record hrecord
    refine ⟨hlabels ▸ h.rooted, h.linked.record hrecord, ?_⟩
    rw [hlabels, h.origins, List.flatMap_append]
    simp [Operation.origins]

theorem perform_of_ge (h : t.size ≤ op.target) : t.perform op = .error .outOfRange := by
  have hget : t.get op.target = .error .outOfRange := by
    rw [get, Array.getElem?_eq_none h]
  cases op with
  | addChild parent e k =>
    rw [perform, addChild, show t.get parent = _ from hget]
    rfl
  | record id o =>
    rw [perform, record, show t.get id = _ from hget]
    rfl

theorem perform_of_lt (h : op.target < t.size) : ∃ t', t.perform op = .ok t' := by
  cases op with
  | addChild parent e k =>
    obtain ⟨t', id, hadd⟩ := addChild_of_lt h e k
    exact ⟨t', bind_eq_ok.mpr ⟨(t', id), hadd, rfl⟩⟩
  | record id o =>
    obtain ⟨t', written, hrecord⟩ := record_of_lt h o
    exact ⟨t', bind_eq_ok.mpr ⟨(t', written), hrecord, rfl⟩⟩

/-- No operation changes an outcome. -/
theorem retains_of_perform (h : t.perform op = .ok t') : t.Retains t' := by
  intro i o ho
  cases op with
  | addChild parent e k =>
    obtain ⟨⟨u, id⟩, hadd, hu⟩ := bind_eq_ok.mp h
    obtain rfl := Except.ok.inj hu
    obtain ⟨-, -, -, houtcomes⟩ := addChild_eq_ok hadd
    rw [houtcomes]
    exact getElem?_append_of_eq_some ho _
  | record id o' =>
    obtain ⟨⟨u, written⟩, hrecord, hu⟩ := bind_eq_ok.mp h
    obtain rfl := Except.ok.inj hu
    obtain ⟨n, hn, ⟨-, rfl, -⟩ | ⟨hnone, -⟩⟩ := record_cases hrecord
    · exact ho
    · have hempty : t.outcomes[id]? = some none := hnone ▸ outcome_of_get? hn
      have hne : id ≠ i := by
        rintro rfl
        rw [hempty] at ho
        cases ho
      rw [(record_eq_ok hrecord hempty).2, List.getElem?_set_ne hne, ho]

/-- Operations about nodes that are there come to an end, and keep what was agreed and written. -/
theorem Built.performAll (h : Built root done t) (hops : Operation.Known t.size ops) :
    ∃ t', t.performAll ops = .ok t' ∧ Built root (done ++ ops) t' ∧ t.Retains t' := by
  -- By induction on the operations to come; the invariant counts those that are done.
  induction ops generalizing done t with
  | nil => exact ⟨t, rfl, by rwa [List.append_nil], fun _ _ ho => ho⟩
  | cons op rest ih =>
    obtain ⟨htarget, hrest⟩ := hops
    obtain ⟨u, hu⟩ := perform_of_lt htarget
    have hbuilt := h.perform hu
    have hsize : u.size = t.size + op.origins.length := by
      rw [hbuilt.size_eq, h.size_eq, List.flatMap_append, List.length_append,
        List.flatMap_singleton]
      omega
    obtain ⟨t', ht', hbuilt', hkept⟩ := ih hbuilt (hsize ▸ hrest)
    refine ⟨t', ?_, by simpa using hbuilt', fun i o ho => hkept i o (retains_of_perform hu i o ho)⟩
    rw [Tree.performAll, List.foldlM_cons, hu]
    exact ht'

theorem Retains.writeOnce (h : t.Retains t') : t.WriteOnce t' := by
  have hkept : ∀ i n o, t.get? i = some n → n.outcome = some o →
      ∃ m, t'.get? i = some m ∧ m.outcome = some o := by
    intro i n o hn ho
    have hlater := h i o (ho ▸ outcome_of_get? hn)
    rw [outcomes_getElem?] at hlater
    exact Option.map_eq_some_iff.mp hlater
  refine ⟨hkept, fun i n o hn ho o' => ?_, fun i n hn hnone o => ?_⟩
  · obtain ⟨m, hm, hsome⟩ := hkept i n o hn ho
    obtain ⟨u, written, hrecord⟩ := record_of_lt (Array.getElem?_eq_some_iff.mp hm).1 o'
    obtain ⟨m', hm', ⟨-, rfl, rfl⟩ | ⟨hnone, -⟩⟩ := record_cases hrecord
    · exact hrecord
    · obtain rfl := Option.some.inj (hm.symm.trans hm')
      cases hsome.symm.trans hnone
  · have hlt := (Array.getElem?_eq_some_iff.mp hn).1
    obtain ⟨u, written, hrecord⟩ := record_of_lt hlt o
    obtain ⟨n', hn', ⟨⟨o', ho'⟩, -⟩ | ⟨-, rfl, rfl⟩⟩ := record_cases hrecord
    · obtain rfl := Option.some.inj (hn.symm.trans hn')
      cases hnone.symm.trans ho'
    · obtain rfl := Option.some.inj (hn.symm.trans hn')
      refine ⟨_, hrecord, ?_, fun j hj => ?_⟩
      · simp [get?, hlt]
      · simp [get?, Array.getElem?_setIfInBounds_ne (Ne.symm hj)]

/-- The nodes form a tree after any operations about nodes that are there; any other operation
traps. They are the root and one node for each child that was added, in order, and no later
operation changes an outcome. -/
theorem performAll_consistent (root : Kernel) (ops : List Operation)
    (h : Operation.Known 1 ops) : ∃ t, (ofRoot root).performAll ops = .ok t ∧ t.Consistent ∧
      t.labels.map Label.origin = (none, none, root) :: ops.flatMap Operation.origins ∧
      (∀ op, t.size ≤ op.target → t.perform op = .error .outOfRange) ∧
      ∀ more, Operation.Known t.size more → ∃ t', t.performAll more = .ok t' ∧ t.WriteOnce t' := by
  obtain ⟨t, ht, hbuilt, -⟩ := (Built.ofRoot root).performAll h
  refine ⟨t, ht, hbuilt.linked.consistent hbuilt.rooted, hbuilt.origins, fun _ => perform_of_ge,
    fun more hmore => ?_⟩
  obtain ⟨t', ht', -, hkept⟩ := hbuilt.performAll hmore
  exact ⟨t', ht', hkept.writeOnce⟩

/-- The product of square matrices of size eight with its outermost loop in two tiles. -/
def tiled (parallel : Bool) : Kernel :=
  { Kernel.matmul "square" 8 8 8 with
    nest := ⟨[⟨0, 2, 4, parallel, none⟩, ⟨0, 4, 1, false, none⟩, ⟨1, 8, 1, false, none⟩,
      ⟨2, 8, 1, false, none⟩]⟩ }

/-- Two children of the root with the same nest, one of them with an outcome and a child. -/
def branching : List Operation :=
  [.addChild 0 (.tile 0 4) (tiled false), .record 1 (.measured ⟨7⟩),
    .addChild 1 (.parallelize 0) (tiled true), .addChild 0 (.tile 0 4) (tiled false)]

theorem performAll_consistent_branching :
    Operation.Known 1 branching ∧ ∃ t t',
      (ofRoot (Kernel.matmul "square" 8 8 8)).performAll branching = .ok t ∧ t.Consistent ∧
      t.size = 4 ∧ t.containsState (tiled true) = true ∧
      t.performAll [.record 1 (.failed (.timeout 5)), .record 3 (.measured ⟨9⟩)] = .ok t' ∧
      (∃ n, t'.get? 1 = some n ∧ n.outcome = some (.measured ⟨7⟩)) ∧
      t'.record 1 (.measured ⟨9⟩) = .ok (t', false) := by
  have hknown : Operation.Known 1 branching := by decide
  obtain ⟨t, ht, hconsistent, -, -, hlater⟩ :=
    performAll_consistent (Kernel.matmul "square" 8 8 8) branching hknown
  obtain ⟨u, hu, hsize, hseen, n, hn, ho⟩ : ∃ u,
      (ofRoot (Kernel.matmul "square" 8 8 8)).performAll branching = .ok u ∧ u.size = 4 ∧
        u.containsState (tiled true) = true ∧
        ∃ n, u.get? 1 = some n ∧ n.outcome = some (.measured ⟨7⟩) :=
    ⟨_, rfl, rfl, rfl, _, rfl, rfl⟩
  obtain rfl := Except.ok.inj (ht.symm.trans hu)
  obtain ⟨t', ht', honce⟩ := hlater [.record 1 (.failed (.timeout 5)), .record 3 (.measured ⟨9⟩)]
    (by rw [hsize]; decide)
  exact ⟨hknown, t, t', ht, hconsistent, hsize, hseen, ht', honce.kept 1 n _ hn ho,
    honce.refused 1 n _ hn ho _⟩

example : ((ofRoot (Kernel.matmul "square" 8 8 8)).performAll branching >>= fun t => t.path 2) =
    .ok [0, 1, 2] := rfl

end Operations

end Tree

end NestTuner

import Mathlib.Data.List.Infix
import NestTuner.Proofs.Editing
import NestTuner.Search.Action
import NestTuner.Search.Tree

/-!
How a search tree grows. A node keeps the label it is made with, and its outcome is written once,
so a tree is seen through two lists: the labels, to which a child adds one at the end, and the
outcomes, of which a record fills one. A parent is there before its children, so the path down to a
node is found. A tree that grew by accepted edits explains each of its nodes: replaying the history
of a node from the root gives its state.
-/

namespace NestTuner

namespace Kernel

theorem replayFrom_append {k k' : Kernel} {step : Nat} {history : List Edit}
    (h : k.replayFrom step history = .ok k') (rest : List Edit) :
    k.replayFrom step (history ++ rest) = k'.replayFrom (step + history.length) rest := by
  induction history generalizing k step with
  | nil =>
    obtain rfl := Except.ok.inj h
    rfl
  | cons e history ih =>
    rw [List.cons_append, replayFrom]
    rw [replayFrom] at h
    split at h
    case h_1 next hnext =>
      rw [ih h, List.length_cons]
      congr 1
      omega
    case h_2 => cases h

/-- One more edit at the end of a history. -/
theorem replay_concat {root k k' : Kernel} {history : List Edit} {e : Edit}
    (h : root.replay history = .ok k) (he : k.apply e = .ok k') :
    root.replay (history ++ [e]) = .ok k' := by
  rw [replay, replayFrom_append h, replayFrom, he]
  rfl

/-- A history changes the nest alone. -/
theorem nest_of_replayFrom {k k' : Kernel} {step : Nat} {history : List Edit}
    (h : k.replayFrom step history = .ok k') : ∃ nest, k' = { k with nest := nest } := by
  induction history generalizing k step with
  | nil =>
    obtain rfl := Except.ok.inj h
    exact ⟨k.nest, rfl⟩
  | cons e history ih =>
    rw [replayFrom] at h
    split at h
    case h_1 next hnext =>
      obtain ⟨loops, -, rfl⟩ := accepts_of_apply hnext
      obtain ⟨nest, rfl⟩ := ih h
      exact ⟨nest, rfl⟩
    case h_2 => cases h

end Kernel

namespace Action

/-- Some action proposes an edit for a kernel. -/
def Proposed (actions : List Action) (k : Kernel) (e : Edit) : Prop :=
  ∃ a ∈ actions, e ∈ a.proposals k.nest.depth

/-- A candidate has the verdict of the kernel on its edit. -/
theorem attempt_eq_ok {k : Kernel} {e : Edit} {c : Candidate} (h : attempt k e = .ok c) :
    c.edit = e ∧ ∀ k', c.verdict = .ok k' → k.apply e = .ok k' := by
  unfold attempt at h
  split at h
  case h_1 next hnext =>
    obtain rfl := Except.ok.inj h
    refine ⟨rfl, fun k' hk' => ?_⟩
    rw [hnext, Except.ok.inj hk']
  case h_2 =>
    obtain rfl := Except.ok.inj h
    exact ⟨rfl, fun k' hk' => by cases hk'⟩
  case h_3 => cases h

/-- Every candidate is a proposal that was tried. -/
theorem mem_expandAll {actions : List Action} {k : Kernel} {cs : List Candidate}
    (h : expandAll actions k = .ok cs) {c : Candidate} (hc : c ∈ cs) :
    Proposed actions k c.edit ∧ ∀ k', c.verdict = .ok k' → k.apply c.edit = .ok k' := by
  obtain ⟨lists, hlists, hcs⟩ := bind_eq_ok.mp h
  obtain rfl := Except.ok.inj hcs
  obtain ⟨list, hlist, hc⟩ := List.mem_flatten.mp hc
  obtain ⟨a, ha, hexpand⟩ := mem_of_mapM hlists hlist
  obtain ⟨e, he, hattempt⟩ := mem_of_mapM hexpand hc
  obtain ⟨rfl, hverdict⟩ := attempt_eq_ok hattempt
  exact ⟨⟨a, ha, he⟩, hverdict⟩

/-- Trying proposals comes to an end if none of them traps. -/
theorem expandAll_of_forall (actions : List Action) {k : Kernel}
    (h : ∀ e trap, k.apply e ≠ .error (.trapped trap)) : ∃ cs, expandAll actions k = .ok cs := by
  have hattempt : ∀ e, ∃ c, attempt k e = .ok c := by
    intro e
    unfold attempt
    split
    case h_1 => exact ⟨_, rfl⟩
    case h_2 => exact ⟨_, rfl⟩
    case h_3 trap htrap => exact absurd htrap (h e trap)
  obtain ⟨lists, hlists⟩ : ∃ lists, actions.mapM (Action.expand · k) = .ok lists :=
    exists_mapM.mpr fun a _ => exists_mapM.mpr fun e _ => hattempt e
  exact ⟨lists.flatten, bind_eq_ok.mpr ⟨lists, hlists, rfl⟩⟩

end Action

/-- What a node is made with: its place, its parent, and the history and state it stands for. -/
structure Label where
  id : Nat
  parent : Option Nat
  history : List Edit
  state : Kernel

def Node.label (n : Node) : Label :=
  ⟨n.id, n.parent, n.history, n.state⟩

namespace Tree

def labels (t : Tree) : List Label :=
  t.nodes.toList.map Node.label

def outcomes (t : Tree) : List (Option Outcome) :=
  t.nodes.toList.map (·.outcome)

@[simp] theorem length_labels (t : Tree) : t.labels.length = t.size := by
  simp [labels, size]

@[simp] theorem length_outcomes (t : Tree) : t.outcomes.length = t.size := by
  simp [outcomes, size]

theorem labels_getElem? (t : Tree) (i : Nat) : t.labels[i]? = t.nodes[i]?.map Node.label := by
  simp [labels]

theorem outcomes_getElem? (t : Tree) (i : Nat) : t.outcomes[i]? = t.nodes[i]?.map (·.outcome) := by
  simp [outcomes]

/-- A node is seen in the labels and in the outcomes. -/
theorem label_of_get? {t : Tree} {i : Nat} {n : Node} (h : t.get? i = some n) :
    t.labels[i]? = some n.label := by
  rw [labels_getElem?, show t.nodes[i]? = some n from h]
  rfl

theorem outcome_of_get? {t : Tree} {i : Nat} {n : Node} (h : t.get? i = some n) :
    t.outcomes[i]? = some n.outcome := by
  rw [outcomes_getElem?, show t.nodes[i]? = some n from h]
  rfl

theorem label_mem {t : Tree} {n : Node} (h : n ∈ t.nodes) : n.label ∈ t.labels :=
  List.mem_map_of_mem (Array.mem_toList_iff.mpr h)

theorem get_eq_ok {t : Tree} {id : Nat} {n : Node} : t.get id = .ok n ↔ t.get? id = some n := by
  unfold get get?
  split <;> simp_all

theorem get_of_lt {t : Tree} {id : Nat} (h : id < t.size) : ∃ n, t.get id = .ok n :=
  ⟨_, get_eq_ok.mpr (Array.getElem?_eq_getElem h)⟩

theorem map_set (t : Tree) (i : Nat) (n : Node) {α : Type} (f : Node → α) :
    (t.nodes.set! i n).toList.map f = (t.nodes.toList.map f).set i (f n) := by
  rw [Array.set!_eq_setIfInBounds, Array.toList_setIfInBounds, List.map_set]

/-- Writing a node over one of the same view changes nothing there. -/
theorem map_set_same {t : Tree} {i : Nat} {n m : Node} (h : t.nodes[i]? = some n) {α : Type}
    {f : Node → α} (hf : f m = f n) :
    (t.nodes.set! i m).toList.map f = t.nodes.toList.map f := by
  have hi : (t.nodes.toList.map f)[i]? = some (f n) := by simp [h]
  obtain ⟨hlt, hget⟩ := List.getElem?_eq_some_iff.mp hi
  rw [map_set, hf, ← hget, List.set_getElem_self]

/-- A child adds its label at the end. -/
theorem addChild_eq_ok {t t' : Tree} {parent id : Nat} {e : Edit} {k : Kernel}
    (h : t.addChild parent e k = .ok (t', id)) : ∃ l, t.labels[parent]? = some l ∧
      t'.labels = t.labels ++ [⟨t.size, some parent, l.history ++ [e], k⟩] ∧
        t'.outcomes = t.outcomes ++ [none] := by
  obtain ⟨n, hn, h⟩ := bind_eq_ok.mp h
  obtain ⟨rfl, -⟩ := Prod.mk.inj (Except.ok.inj h)
  rw [get_eq_ok] at hn
  refine ⟨n.label, label_of_get? hn, ?_, ?_⟩
  · rw [labels, Array.toList_push, List.map_append, map_set_same hn (by rfl)]
    rfl
  · rw [outcomes, Array.toList_push, List.map_append, map_set_same hn (by rfl)]
    rfl

theorem addChild_of_lt {t : Tree} {parent : Nat} (h : parent < t.size) (e : Edit) (k : Kernel) :
    ∃ t' id, t.addChild parent e k = .ok (t', id) := by
  obtain ⟨n, hn⟩ := get_of_lt h
  exact ⟨_, _, bind_eq_ok.mpr ⟨n, hn, rfl⟩⟩

/-- A record fills in the outcome of a node that has none, and changes nothing otherwise. -/
theorem record_cases {t t' : Tree} {id : Nat} {o : Outcome} {written : Bool}
    (h : t.record id o = .ok (t', written)) : ∃ n, t.get? id = some n ∧
      ((∃ o', n.outcome = some o') ∧ t' = t ∧ written = false ∨ n.outcome = none ∧
        t' = { t with nodes := t.nodes.set! id { n with outcome := some o } } ∧
        written = true) := by
  obtain ⟨n, hn, h⟩ := bind_eq_ok.mp h
  refine ⟨n, get_eq_ok.mp hn, ?_⟩
  split at h
  case isTrue hsome =>
    obtain ⟨rfl, rfl⟩ := Prod.mk.inj (Except.ok.inj h)
    exact Or.inl ⟨Option.isSome_iff_exists.mp hsome, rfl, rfl⟩
  case isFalse hnone =>
    obtain ⟨rfl, rfl⟩ := Prod.mk.inj (Except.ok.inj h)
    exact Or.inr ⟨by simpa using hnone, rfl, rfl⟩

/-- The first outcome of a node is kept. -/
theorem record_eq_ok {t t' : Tree} {id : Nat} {o : Outcome} {written : Bool}
    (h : t.record id o = .ok (t', written)) (hnone : t.outcomes[id]? = some none) :
    t'.labels = t.labels ∧ t'.outcomes = t.outcomes.set id (some o) := by
  obtain ⟨n, hn, ⟨⟨o', ho'⟩, -⟩ | ⟨-, rfl, -⟩⟩ := record_cases h
  · rw [outcome_of_get? hn, ho'] at hnone
    cases hnone
  · exact ⟨map_set_same hn rfl, map_set t id _ _⟩

theorem record_of_lt {t : Tree} {id : Nat} (h : id < t.size) (o : Outcome) :
    ∃ t' written, t.record id o = .ok (t', written) := by
  obtain ⟨n, hn⟩ := get_of_lt h
  by_cases hsome : n.outcome.isSome = true
  · exact ⟨_, _, bind_eq_ok.mpr ⟨n, hn, if_pos hsome⟩⟩
  · exact ⟨_, _, bind_eq_ok.mpr ⟨n, hn, if_neg hsome⟩⟩

theorem size_of_record {t t' : Tree} {id : Nat} {o : Outcome} {written : Bool}
    (h : t.record id o = .ok (t', written)) : t'.size = t.size := by
  obtain ⟨n, -, ⟨-, rfl, -⟩ | ⟨-, rfl, -⟩⟩ := record_cases h
  · rfl
  · simp [size]

end Tree

/-- Labels that a root and its descendants give, oldest first. `Step` relates the state of a node to
the edit and the state of a child. -/
inductive Rooted (root : Kernel) (Step : Kernel → Edit → Kernel → Prop) : List Label → Prop
  | root : Rooted root Step [⟨0, none, [], root⟩]
  | child {labels : List Label} {parent : Nat} {l : Label} {e : Edit} {k : Kernel}
      (rooted : Rooted root Step labels) (found : labels[parent]? = some l)
      (step : Step l.state e k) :
      Rooted root Step (labels ++ [⟨labels.length, some parent, l.history ++ [e], k⟩])

namespace Rooted

variable {root : Kernel} {Step : Kernel → Edit → Kernel → Prop} {labels : List Label}

theorem first (h : Rooted root Step labels) : labels[0]? = some ⟨0, none, [], root⟩ := by
  induction h with
  | root => rfl
  | child rooted found step ih => exact getElem?_append_of_eq_some ih _

/-- A label is the root's, or says how its parent's was extended. -/
theorem cases_getElem? (h : Rooted root Step labels) {i : Nat} {l : Label}
    (hl : labels[i]? = some l) : l = ⟨0, none, [], root⟩ ∧ i = 0 ∨
      ∃ parent m e, parent < i ∧ labels[parent]? = some m ∧
        l = ⟨i, some parent, m.history ++ [e], l.state⟩ ∧ Step m.state e l.state := by
  induction h with
  | root =>
    obtain ⟨hi, rfl⟩ := List.getElem?_eq_some_iff.mp hl
    obtain rfl : i = 0 := by simpa using hi
    exact Or.inl ⟨rfl, rfl⟩
  | @child labels parent m e k rooted found step ih =>
    have hparent := (List.getElem?_eq_some_iff.mp found).1
    rcases getElem?_concat_eq_some hl with hl | ⟨rfl, rfl⟩
    · rcases ih hl with hroot | ⟨parent', m', e', hlt, hm', hrest⟩
      · exact Or.inl hroot
      · exact Or.inr ⟨parent', m', e', hlt, getElem?_append_of_eq_some hm' _, hrest⟩
    · exact Or.inr ⟨parent, m, e, hparent, getElem?_append_of_eq_some found _, rfl, step⟩

theorem id_eq (h : Rooted root Step labels) {i : Nat} {l : Label} (hl : labels[i]? = some l) :
    l.id = i := by
  rcases h.cases_getElem? hl with ⟨rfl, rfl⟩ | ⟨_, _, _, _, _, hl, _⟩
  · rfl
  · rw [hl]

theorem pairwise_id (h : Rooted root Step labels) : labels.Pairwise fun l m => l.id < m.id := by
  refine List.pairwise_iff_getElem.mpr fun i j hi hj hlt => ?_
  rw [h.id_eq (List.getElem?_eq_getElem hi), h.id_eq (List.getElem?_eq_getElem hj)]
  exact hlt

/-- Each edit of a history has a node of its own before. -/
theorem length_history_le (h : Rooted root Step labels) {i : Nat} {l : Label}
    (hl : labels[i]? = some l) : l.history.length ≤ i := by
  induction i using Nat.strong_induction_on generalizing l with
  | _ i ih =>
    rcases h.cases_getElem? hl with ⟨rfl, rfl⟩ | ⟨parent, m, e, hlt, hm, hchild, -⟩
    · exact Nat.le_refl 0
    · have hle := ih parent hlt hm
      rw [hchild, List.length_append, List.length_singleton]
      omega

end Rooted

/-- An edit that some action proposes for a kernel, and the legal kernel that it gives. -/
def Action.Sprouts (actions : List Action) (k : Kernel) (e : Edit) (k' : Kernel) : Prop :=
  Proposed actions k e ∧ k.apply e = .ok k' ∧ k'.checkLegality = .ok ()

/-- Labels that a root and accepted, legal proposals of the actions give, oldest first. -/
abbrev Grown (root : Kernel) (actions : List Action) : List Label → Prop :=
  Rooted root (Action.Sprouts actions)

namespace Grown

variable {root : Kernel} {actions : List Action} {labels : List Label}

/-- Replaying the history of a label gives its state. -/
theorem replay (h : Grown root actions labels) :
    ∀ l ∈ labels, root.replay l.history = .ok l.state := by
  induction h with
  | root =>
    intro l hl
    obtain rfl := List.mem_singleton.mp hl
    rfl
  | child rooted found step ih =>
    intro l hl
    rcases List.mem_append.mp hl with hl | hl
    · exact ih l hl
    · obtain rfl := List.mem_singleton.mp hl
      exact Kernel.replay_concat (ih _ (List.mem_of_getElem? found)) step.2.1

theorem legal (h : Grown root actions labels) (hroot : root.checkLegality = .ok ()) {l : Label}
    (hl : l ∈ labels) : l.state.checkLegality = .ok () := by
  obtain ⟨i, hi⟩ := List.getElem?_of_mem hl
  rcases h.cases_getElem? hi with ⟨rfl, -⟩ | ⟨_, _, _, _, _, _, _, _, hlegal⟩
  · exact hroot
  · exact hlegal

/-- Edits leave the iterators as they are. -/
theorem extentOf_lt (h : Grown root actions labels) {bound : Nat}
    (hfits : ∀ i, root.extentOf i < bound) {l : Label} (hl : l ∈ labels) (i : Nat) :
    l.state.extentOf i < bound := by
  obtain ⟨nest, hstate⟩ := Kernel.nest_of_replayFrom (h.replay l hl)
  rw [hstate]
  exact hfits i

end Grown

namespace Tree

variable {root : Kernel} {Step : Kernel → Edit → Kernel → Prop} {t : Tree}

theorem get?_id (h : Rooted root Step t.labels) {n : Node} (hn : n ∈ t.nodes) :
    t.get? n.id = some n := by
  obtain ⟨i, hi⟩ := Array.getElem?_of_mem hn
  have hid : n.id = i := h.id_eq (label_of_get? hi)
  rw [hid]
  exact hi

/-- A node is the root, or extends the history of its parent. -/
theorem cases_get? (h : Rooted root Step t.labels) {i : Nat} {n : Node} (hn : t.get? i = some n) :
    i = 0 ∧ n.parent = none ∧ n.history = [] ∨
      ∃ parent m e, parent < i ∧ t.get? parent = some m ∧ n.parent = some parent ∧
        n.history = m.history ++ [e] := by
  rcases h.cases_getElem? (label_of_get? hn) with ⟨hroot, hi⟩ | ⟨parent, l, e, hlt, hl, hchild, -⟩
  · exact Or.inl ⟨hi, congrArg Label.parent hroot, congrArg Label.history hroot⟩
  · rw [labels_getElem?] at hl
    obtain ⟨m, hm, rfl⟩ := Option.map_eq_some_iff.mp hl
    exact Or.inr ⟨parent, m, e, hlt, hm, congrArg Label.parent hchild,
      congrArg Label.history hchild⟩

/-- The nodes from the root down to a node. -/
structure Lineage (t : Tree) (path : List Node) (n : Node) : Prop where
  placed : ∀ m ∈ path, t.get? m.id = some m
  last : path.getLast? = some n
  linked : path.IsChain fun parent child => child.parent = some parent.id
  histories : path.map (·.history) = n.history.inits

theorem Lineage.child {t : Tree} {path : List Node} {n m : Node} (h : t.Lineage path m)
    (hn : t.get? n.id = some n) (hparent : n.parent = some m.id) {e : Edit}
    (hhistory : n.history = m.history ++ [e]) : t.Lineage (path ++ [n]) n where
  placed := by
    intro o ho
    rcases List.mem_append.mp ho with ho | ho
    · exact h.placed o ho
    · rwa [List.mem_singleton.mp ho]
  last := by simp
  linked := by
    refine List.isChain_append.mpr ⟨h.linked, .singleton n, ?_⟩
    intro a ha b hb
    obtain rfl : m = a := Option.some.inj (h.last.symm.trans ha)
    obtain rfl : n = b := Option.some.inj hb
    exact hparent
  histories := by
    rw [List.map_append, h.histories, hhistory, List.inits_append]
    simp [hhistory]

/-- The path to a node is found in as many rounds as it has nodes. -/
theorem pathWithin_eq_ok (h : Rooted root Step t.labels) {id : Nat} {n : Node}
    (hn : t.get? id = some n) : ∃ path, t.Lineage path n ∧
      ∀ fuel, n.depth < fuel → t.pathWithin fuel id = .ok (path.map (·.id)) := by
  -- Parents come before their children, so the induction is on the place of the node.
  induction id using Nat.strong_induction_on generalizing n with
  | _ id ih =>
    have hplace : n.id = id := h.id_eq (label_of_get? hn)
    rcases cases_get? h hn with
      ⟨-, hparent, hhistory⟩ | ⟨parent, m, e, hlt, hm, hparent, hhistory⟩
    · refine ⟨[n], ⟨?_, rfl, .singleton n, by simp [hhistory]⟩, fun fuel hfuel => ?_⟩
      · intro m hm
        rw [List.mem_singleton.mp hm, hplace, hn]
      · obtain ⟨fuel, rfl⟩ := Nat.exists_eq_add_one_of_ne_zero (Nat.ne_zero_of_lt hfuel)
        rw [pathWithin, get_eq_ok.mpr hn]
        simp [bind, Except.bind, hparent, hplace, pure, Except.pure]
    · obtain ⟨path, hlineage, hpath⟩ := ih parent hlt hm
      have hm' : m.id = parent := h.id_eq (label_of_get? hm)
      have hdepth : n.depth = m.depth + 1 := by
        rw [Node.depth, hhistory, List.length_append, List.length_singleton]
        rfl
      refine ⟨path ++ [n], hlineage.child (hplace ▸ hn) (hm' ▸ hparent) hhistory,
        fun fuel hfuel => ?_⟩
      obtain ⟨fuel, rfl⟩ := Nat.exists_eq_add_one_of_ne_zero (Nat.ne_zero_of_lt hfuel)
      rw [pathWithin, get_eq_ok.mpr hn]
      simp [bind, Except.bind, hparent, hpath fuel (by omega), hplace, pure, Except.pure]

theorem depth_lt_size (h : Rooted root Step t.labels) {id : Nat} {n : Node}
    (hn : t.get? id = some n) : n.depth < t.size :=
  (h.length_history_le (label_of_get? hn)).trans_lt (Array.getElem?_eq_some_iff.mp hn).1

theorem path_eq_ok (h : Rooted root Step t.labels) {id : Nat} {n : Node}
    (hn : t.get? id = some n) :
    ∃ path, t.path id = .ok (path.map (·.id)) ∧ t.Lineage path n := by
  obtain ⟨path, hlineage, hpath⟩ := pathWithin_eq_ok h hn
  exact ⟨path, hpath t.size (depth_lt_size h hn), hlineage⟩

end Tree

end NestTuner

import Mathlib.Logic.Relation
import NestTuner.Proofs.Growth
import NestTuner.Search.Beam

/-!
One level of a beam search. Its candidates are taken in one after another: each is refused, found
illegal, found in the tree, or added under its parent. So a level adds labels under the frontier at
the end of the tree, then gives each of them an outcome, and everything before them stays as it is.
-/

namespace NestTuner

section Computation

variable {σ α β : Type}

/-- A computation returns a value from some state. -/
def Yields (x : StateT σ Checked α) (a : α) : Prop :=
  ∃ s s', x.run s = .ok (a, s')

/-- A computation returns from every state, with a value as described. -/
def Returns (x : StateT σ Checked α) (P : α → Prop) : Prop :=
  ∀ s, ∃ a s', x.run s = .ok (a, s') ∧ P a

namespace Yields

theorem pure_inv {a b : α} (h : Yields (pure a : StateT σ Checked α) b) : b = a := by
  obtain ⟨s, s', h⟩ := h
  exact (Prod.mk.inj (Except.ok.inj h)).1.symm

theorem bind_inv {x : StateT σ Checked α} {f : α → StateT σ Checked β} {b : β}
    (h : Yields (x >>= f) b) : ∃ a, Yields x a ∧ Yields (f a) b := by
  obtain ⟨s, s', h⟩ := h
  rw [StateT.run_bind] at h
  obtain ⟨⟨a, mid⟩, hx, hf⟩ := bind_eq_ok.mp h
  exact ⟨a, ⟨s, mid, hx⟩, ⟨mid, s', hf⟩⟩

theorem liftExcept_inv {x : Checked α} {a : α}
    (h : Yields (liftExcept x : StateT σ Checked α) a) : x = .ok a := by
  obtain ⟨s, s', h⟩ := h
  cases x with
  | error trap => cases h
  | ok b => rw [(Prod.mk.inj (Except.ok.inj h)).1]

theorem mapM_inv {f : α → StateT σ Checked β} {xs : List α} {ys : List β}
    (h : Yields (xs.mapM f) ys) : List.Forall₂ (fun x y => Yields (f x) y) xs ys := by
  induction xs generalizing ys with
  | nil =>
    rw [List.mapM_nil] at h
    rw [h.pure_inv]
    exact .nil
  | cons x rest ih =>
    rw [List.mapM_cons] at h
    obtain ⟨y, hy, h⟩ := h.bind_inv
    obtain ⟨tail, htail, h⟩ := h.bind_inv
    rw [h.pure_inv]
    exact .cons hy (ih htail)

end Yields

namespace Returns

variable {P : α → Prop} {Q : β → Prop}

theorem pure {a : α} (h : P a) : Returns (pure a : StateT σ Checked α) P :=
  fun s => ⟨a, s, rfl, h⟩

theorem bind {x : StateT σ Checked α} {f : α → StateT σ Checked β} (hx : Returns x P)
    (hf : ∀ a, Yields x a → P a → Returns (f a) Q) : Returns (x >>= f) Q := by
  intro s
  obtain ⟨a, mid, ha, hP⟩ := hx s
  obtain ⟨b, s', hb, hQ⟩ := hf a ⟨s, mid, ha⟩ hP mid
  refine ⟨b, s', ?_, hQ⟩
  rw [StateT.run_bind, ha]
  exact hb

theorem liftExcept {x : Checked α} {a : α} (h : x = .ok a) (ha : P a) :
    Returns (liftExcept x : StateT σ Checked α) P := by
  subst h
  exact Returns.pure ha

theorem mapM {f : α → StateT σ Checked β} {xs : List α}
    (h : ∀ x ∈ xs, Returns (f x) fun _ => True) : Returns (xs.mapM f) fun _ => True := by
  induction xs with
  | nil => exact Returns.pure trivial
  | cons x rest ih =>
    rw [List.mapM_cons]
    refine (h x (List.mem_cons_self ..)).bind fun y _ _ => ?_
    refine (ih fun x hx => h x (List.mem_cons_of_mem _ hx)).bind fun ys _ _ => ?_
    exact Returns.pure trivial

end Returns

/-- What every step of a fold keeps holds at its end. -/
theorem foldlM_keeps {f : β → α → Checked β} {P : β → Prop} {xs : List α} {b b' : β}
    (h : xs.foldlM f b = .ok b') (hb : P b)
    (hstep : ∀ x ∈ xs, ∀ b b', P b → f b x = .ok b' → P b') : P b' := by
  induction xs generalizing b with
  | nil => rwa [← Except.ok.inj h]
  | cons x rest ih =>
    rw [List.foldlM_cons] at h
    obtain ⟨next, hnext, h⟩ := bind_eq_ok.mp h
    exact ih h (hstep x (List.mem_cons_self ..) b next hb hnext)
      fun y hy => hstep y (List.mem_cons_of_mem _ hy)

/-- A fold ends if every step does and keeps what the next one needs. -/
theorem foldlM_ends {f : β → α → Checked β} {P : β → Prop} {xs : List α} {b : β} (hb : P b)
    (hends : ∀ x ∈ xs, ∀ b, P b → ∃ b', f b x = .ok b')
    (hstep : ∀ x ∈ xs, ∀ b b', P b → f b x = .ok b' → P b') : ∃ b', xs.foldlM f b = .ok b' := by
  induction xs generalizing b with
  | nil => exact ⟨b, rfl⟩
  | cons x rest ih =>
    have hx : x ∈ x :: rest := List.mem_cons_self ..
    obtain ⟨next, hnext⟩ := hends x hx b hb
    obtain ⟨b', hb'⟩ := ih (hstep x hx b next hb hnext)
      (fun y hy => hends y (List.mem_cons_of_mem _ hy))
      (fun y hy => hstep y (List.mem_cons_of_mem _ hy))
    exact ⟨b', by rw [List.foldlM_cons]; exact bind_eq_ok.mpr ⟨next, hnext, hb'⟩⟩

end Computation

namespace Beam

namespace Expansion

/-- What becomes of a candidate. -/
inductive Absorbs (deduplicate : Bool) (parent : Nat) (x : Expansion) (c : Candidate) :
    Expansion → Prop
  | refused {reason : Refusal} (refused : c.verdict = .error reason) :
      Absorbs deduplicate parent x c
        { x with candidates := x.candidates + 1, rejected := x.rejected + 1 }
  | defective {k : Kernel} {violation : Violation} (accepted : c.verdict = .ok k)
      (illegal : k.checkLegality = .error violation) :
      Absorbs deduplicate parent x c
        { x with candidates := x.candidates + 1, defects := x.defects + 1 }
  | repeated {k : Kernel} (accepted : c.verdict = .ok k) (legal : k.checkLegality = .ok ())
      (known : (deduplicate && x.tree.containsState k) = true) :
      Absorbs deduplicate parent x c
        { x with candidates := x.candidates + 1, duplicates := x.duplicates + 1 }
  | added {k : Kernel} {tree : Tree} {id : Nat} (accepted : c.verdict = .ok k)
      (legal : k.checkLegality = .ok ()) (new : (deduplicate && x.tree.containsState k) = false)
      (grown : x.tree.addChild parent c.edit k = .ok (tree, id)) :
      Absorbs deduplicate parent x c { x with candidates := x.candidates + 1, tree := tree }

variable {deduplicate : Bool} {actions : List Action} {frontier : List Nat} {parent : Nat}
  {x x' : Expansion} {c : Candidate}

theorem absorbs_of_ok (h : x.absorb deduplicate parent c = .ok x') :
    Absorbs deduplicate parent x c x' := by
  unfold absorb at h
  cases hverdict : c.verdict with
  | error reason =>
    simp only [hverdict] at h
    rw [← Except.ok.inj h]
    exact .refused hverdict
  | ok k =>
    simp only [hverdict] at h
    cases hlegal : k.checkLegality with
    | error violation =>
      simp only [hlegal] at h
      rw [← Except.ok.inj h]
      exact .defective hverdict hlegal
    | ok u =>
      simp only [hlegal] at h
      split at h
      case isTrue hknown =>
        rw [← Except.ok.inj h]
        exact .repeated hverdict hlegal hknown
      case isFalse hnew =>
        obtain ⟨⟨tree, id⟩, hadd, h⟩ := bind_eq_ok.mp h
        rw [← Except.ok.inj h]
        exact .added hverdict hlegal (Bool.eq_false_iff.mpr hnew) hadd

theorem absorb_of_lt (c : Candidate) (h : parent < x.tree.size) :
    ∃ x', x.absorb deduplicate parent c = .ok x' := by
  unfold absorb
  simp only
  split
  case h_1 => exact ⟨_, rfl⟩
  case h_2 k _ =>
    split
    case h_1 => exact ⟨_, rfl⟩
    case h_2 =>
      split
      case isTrue => exact ⟨_, rfl⟩
      case isFalse =>
        obtain ⟨tree, id, hadd⟩ := Tree.addChild_of_lt h c.edit k
        exact ⟨_, bind_eq_ok.mpr ⟨(tree, id), hadd, rfl⟩⟩

/-- A candidate of a frontier node is taken in. -/
def Takes (deduplicate : Bool) (actions : List Action) (frontier : List Nat)
    (x x' : Expansion) : Prop :=
  ∃ id ∈ frontier, ∃ l c, x.tree.labels[id]? = some l ∧ Action.Proposed actions l.state c.edit ∧
    (∀ k, c.verdict = .ok k → l.state.apply c.edit = .ok k) ∧ Absorbs deduplicate id x c x'

/-- Labels stay where they are. -/
theorem Absorbs.labels_getElem? (h : Absorbs deduplicate parent x c x') {i : Nat} {l : Label}
    (hl : x.tree.labels[i]? = some l) : x'.tree.labels[i]? = some l := by
  cases h with
  | refused => exact hl
  | defective => exact hl
  | repeated => exact hl
  | added accepted legal new grown =>
    obtain ⟨m, -, hlabels, -⟩ := Tree.addChild_eq_ok grown
    rw [hlabels]
    exact getElem?_append_of_eq_some hl _

/-- Candidates of a node that is there are all taken in. -/
theorem absorbed_of_label (cs : List Candidate) {l : Label}
    (h : x.tree.labels[parent]? = some l) :
    ∃ x', cs.foldlM (absorb deduplicate parent) x = .ok x' := by
  refine foldlM_ends (P := fun y => y.tree.labels[parent]? = some l) h ?_ ?_
  · intro c _ y hy
    exact absorb_of_lt c (by simpa using (List.getElem?_eq_some_iff.mp hy).1)
  · intro c _ y y' hy hy'
    exact (absorbs_of_ok hy').labels_getElem? hy

/-- A node is expanded by the candidates of its state. -/
theorem expandNode_eq {l : Label} (h : x.tree.labels[parent]? = some l) :
    x.expandNode deduplicate actions parent = (do
      let candidates ← Action.expandAll actions l.state
      candidates.foldlM (absorb deduplicate parent) x) := by
  rw [Tree.labels_getElem?] at h
  obtain ⟨n, hn, rfl⟩ := Option.map_eq_some_iff.mp h
  rw [expandNode, Tree.get_eq_ok.mpr hn]
  rfl

theorem takes_of_expandNode {id : Nat} (hid : id ∈ frontier)
    (h : x.expandNode deduplicate actions id = .ok x') :
    Relation.ReflTransGen (Takes deduplicate actions frontier) x x' := by
  obtain ⟨n, hn, h⟩ := bind_eq_ok.mp h
  obtain ⟨cs, hcs, h⟩ := bind_eq_ok.mp h
  have hlabel := Tree.label_of_get? (Tree.get_eq_ok.mp hn)
  have hfold := foldlM_keeps (P := fun y =>
    Relation.ReflTransGen (Takes deduplicate actions frontier) x y ∧
      y.tree.labels[id]? = some n.label) h ⟨.refl, hlabel⟩ ?_
  · exact hfold.1
  · intro c hc y y' hy hy'
    have habsorbs := absorbs_of_ok hy'
    obtain ⟨hproposed, hverdict⟩ := Action.mem_expandAll hcs hc
    refine ⟨hy.1.tail ⟨id, hid, n.label, c, hy.2, hproposed, hverdict, habsorbs⟩, ?_⟩
    exact habsorbs.labels_getElem? hy.2

/-- The expansion of a frontier takes in candidates one after another. -/
theorem takes_of_ok (h : frontier.foldlM (expandNode deduplicate actions) x = .ok x') :
    Relation.ReflTransGen (Takes deduplicate actions frontier) x x' := by
  refine foldlM_keeps (P := fun y =>
    Relation.ReflTransGen (Takes deduplicate actions frontier) x y) h .refl ?_
  intro id hid y y' hy hy'
  exact hy.trans (takes_of_expandNode hid hy')

theorem Takes.labels_getElem?
    (h : Relation.ReflTransGen (Takes deduplicate actions frontier) x x') {i : Nat} {l : Label}
    (hl : x.tree.labels[i]? = some l) : x'.tree.labels[i]? = some l := by
  induction h with
  | refl => exact hl
  | tail _ htake ih =>
    obtain ⟨_, _, _, _, _, _, _, habsorbs⟩ := htake
    exact habsorbs.labels_getElem? ih

/-- Without deduplication every legal candidate gets a node. -/
theorem exists_label_of_mem {cs : List Candidate}
    (h : cs.foldlM (absorb false parent) x = .ok x') {l : Label}
    (hl : x.tree.labels[parent]? = some l) (hc : c ∈ cs) {k : Kernel}
    (haccepted : c.verdict = .ok k) (hlegal : k.checkLegality = .ok ()) :
    ∃ i : Nat, x'.tree.labels[i]? = some ⟨i, some parent, l.history ++ [c.edit], k⟩ := by
  induction cs generalizing x with
  | nil => cases hc
  | cons first rest ih =>
    rw [List.foldlM_cons] at h
    obtain ⟨y, hy, h⟩ := bind_eq_ok.mp h
    have habsorbs := absorbs_of_ok hy
    rcases List.mem_cons.mp hc with rfl | hc
    · cases habsorbs with
      | refused refused => simp [haccepted] at refused
      | defective accepted illegal =>
        obtain rfl := Except.ok.inj (haccepted.symm.trans accepted)
        simp [hlegal] at illegal
      | repeated _ _ known => simp at known
      | added accepted _ _ grown =>
        obtain rfl := Except.ok.inj (haccepted.symm.trans accepted)
        obtain ⟨m, hm, hlabels, -⟩ := Tree.addChild_eq_ok grown
        obtain rfl := Option.some.inj (hl.symm.trans hm)
        refine ⟨x.tree.size, foldlM_keeps (P := fun z => z.tree.labels[x.tree.size]? = some
          ⟨x.tree.size, some parent, l.history ++ [c.edit], k⟩) h ?_ ?_⟩
        · simp only [hlabels, ← Tree.length_labels]
          exact List.getElem?_concat_length
        · intro c' _ z z' hz hz'
          exact (absorbs_of_ok hz').labels_getElem? hz
    · exact ih h (habsorbs.labels_getElem? hl) hc

end Expansion

/-- A tree has grown under a frontier by labels that have no outcome yet. -/
structure Extends (root : Kernel) (actions : List Action) (frontier : List Nat)
    (before after : Tree) (new : List Label) : Prop where
  grown : Grown root actions after.labels
  labels : after.labels = before.labels ++ new
  outcomes : after.outcomes = before.outcomes ++ List.replicate new.length none
  parents : ∀ l ∈ new, ∃ id ∈ frontier, l.parent = some id

section Expanding

variable {deduplicate : Bool} {root : Kernel} {actions : List Action} {frontier : List Nat}
  {before after : Tree} {new : List Label} {x x' : Expansion}

namespace Extends

theorem refl (h : Grown root actions before.labels) :
    Extends root actions frontier before before [] :=
  ⟨h, by simp, by simp, by simp⟩

theorem child (h : Extends root actions frontier before after new) {id : Nat} (hid : id ∈ frontier)
    {l : Label} (hl : after.labels[id]? = some l) {e : Edit} {k : Kernel}
    (hproposed : Action.Proposed actions l.state e) (haccepted : l.state.apply e = .ok k)
    (hlegal : k.checkLegality = .ok ()) {tree : Tree} {place : Nat}
    (hadd : after.addChild id e k = .ok (tree, place)) :
    Extends root actions frontier before tree
      (new ++ [⟨after.size, some id, l.history ++ [e], k⟩]) := by
  obtain ⟨m, hm, hlabels, houtcomes⟩ := Tree.addChild_eq_ok hadd
  obtain rfl : l = m := Option.some.inj (hl.symm.trans hm)
  refine ⟨?_, ?_, ?_, ?_⟩
  · rw [hlabels, ← Tree.length_labels]
    exact .child h.grown hl ⟨hproposed, haccepted, hlegal⟩
  · rw [hlabels, h.labels, List.append_assoc]
  · rw [houtcomes, h.outcomes, List.append_assoc, List.length_append, List.length_singleton,
      List.replicate_succ']
  · intro m hm
    rcases List.mem_append.mp hm with hm | hm
    · exact h.parents m hm
    · obtain rfl := List.mem_singleton.mp hm
      exact ⟨id, hid, rfl⟩

end Extends

theorem Expansion.Takes.extends (h : Takes deduplicate actions frontier x x')
    (hx : Extends root actions frontier before x.tree new) :
    ∃ new, Extends root actions frontier before x'.tree new := by
  obtain ⟨id, hid, l, c, hl, hproposed, hverdict, habsorbs⟩ := h
  cases habsorbs with
  | refused => exact ⟨new, hx⟩
  | defective => exact ⟨new, hx⟩
  | repeated => exact ⟨new, hx⟩
  | added accepted legal _ grown =>
    exact ⟨_, hx.child hid hl hproposed (hverdict _ accepted) legal grown⟩

theorem Extends.takes (hx : ∃ new, Extends root actions frontier before x.tree new)
    (h : Relation.ReflTransGen (Expansion.Takes deduplicate actions frontier) x x') :
    ∃ new, Extends root actions frontier before x'.tree new := by
  induction h with
  | refl => exact hx
  | tail _ htake ih =>
    obtain ⟨new, hnew⟩ := ih
    exact htake.extends hnew

theorem extends_of_ok (hbefore : Grown root actions before.labels)
    (h : frontier.foldlM (Expansion.expandNode deduplicate actions) (.ofTree before) = .ok x) :
    ∃ new, Extends root actions frontier before x.tree new :=
  Extends.takes ⟨[], .refl hbefore⟩ (Expansion.takes_of_ok h)

/-- An expansion comes to an end if no edit of a state in the tree traps. -/
theorem expanded_of_forall (hbefore : Grown root actions before.labels)
    (hfrontier : ∀ id ∈ frontier, id < before.size)
    (hsafe : ∀ labels, Grown root actions labels → ∀ l ∈ labels, ∀ e trap,
      l.state.apply e ≠ .error (.trapped trap)) :
    ∃ x, frontier.foldlM (Expansion.expandNode deduplicate actions) (.ofTree before) = .ok x := by
  refine foldlM_ends (P := fun x => ∃ new, Extends root actions frontier before x.tree new)
    ⟨[], .refl hbefore⟩ ?_ ?_
  · intro id hid x ⟨new, hx⟩
    have hlt : id < x.tree.size := by
      have hlength := congrArg List.length hx.labels
      have := hfrontier id hid
      rw [List.length_append, Tree.length_labels, Tree.length_labels] at hlength
      omega
    obtain ⟨n, hn⟩ := Tree.get_of_lt hlt
    have hlabel := Tree.label_of_get? (Tree.get_eq_ok.mp hn)
    obtain ⟨cs, hcs⟩ := Action.expandAll_of_forall actions
      (hsafe _ hx.grown n.label (List.mem_of_getElem? hlabel))
    obtain ⟨x', hx'⟩ := Expansion.absorbed_of_label cs hlabel
    exact ⟨x', bind_eq_ok.mpr ⟨n, hn, bind_eq_ok.mpr ⟨cs, hcs, hx'⟩⟩⟩
  · intro id hid x x' hx hx'
    exact Extends.takes hx (Expansion.takes_of_expandNode hid hx')

end Expanding

/-- The better of the best so far and a node with an outcome; of equal costs the one so far. -/
def contend (best : Nat × Cost) : Outcome × Nat → Nat × Cost
  | (.measured cost, id) => if cost.lt best.2 then (id, cost) else best
  | (.failed _, _) => best

/-- The first of the nodes with the least cost. -/
structure Leads (outcomes : List (Option Outcome)) (best : Nat × Cost) : Prop where
  attained : outcomes[best.1]? = some (some (Outcome.measured best.2))
  least : ∀ (i : Nat) (c : Cost), outcomes[i]? = some (some (Outcome.measured c)) →
    best.2.rank ≤ c.rank
  first : ∀ (i : Nat) (c : Cost), outcomes[i]? = some (some (Outcome.measured c)) →
    i < best.1 → best.2.rank < c.rank

namespace Leads

variable {outcomes : List (Option Outcome)} {best : Nat × Cost}

theorem keep (h : Leads outcomes best) {o : Outcome}
    (ho : ∀ c, o = .measured c → best.2.rank ≤ c.rank) : Leads (outcomes ++ [some o]) best := by
  have hlt := (List.getElem?_eq_some_iff.mp h.attained).1
  refine ⟨by rw [List.getElem?_append_left hlt, h.attained], ?_, ?_⟩
  · intro i c hi
    rcases getElem?_concat_eq_some hi with hi | ⟨-, hi⟩
    · exact h.least i c hi
    · exact ho c (Option.some.inj hi).symm
  · intro i c hi hlt'
    rw [List.getElem?_append_left (by omega)] at hi
    exact h.first i c hi hlt'

theorem replace (h : Leads outcomes best) {cost : Cost} (hcost : cost.rank < best.2.rank) :
    Leads (outcomes ++ [some (.measured cost)]) (outcomes.length, cost) := by
  refine ⟨List.getElem?_concat_length, ?_, ?_⟩
  · intro i c hi
    rcases getElem?_concat_eq_some hi with hi | ⟨-, hi⟩
    · exact (hcost.trans_le (h.least i c hi)).le
    · obtain rfl := Outcome.measured.inj (Option.some.inj hi)
      exact Int.le_refl _
  · intro i c hi hlt
    rw [List.getElem?_append_left hlt] at hi
    exact hcost.trans_le (h.least i c hi)

/-- A newer outcome takes over only if it is cheaper. -/
theorem contend (h : Leads outcomes best) (o : Outcome) :
    Leads (outcomes ++ [some o]) (contend best (o, outcomes.length)) := by
  cases o with
  | failed failure => exact h.keep (by simp)
  | measured cost =>
    by_cases hcost : cost.rank < best.2.rank
    · have hlt : cost.lt best.2 = true := by simpa [Cost.lt] using hcost
      simp only [Beam.contend, hlt]
      exact h.replace hcost
    · have hlt : cost.lt best.2 = false := by simpa [Cost.lt] using hcost
      simp only [Beam.contend, hlt]
      refine h.keep fun c hc => ?_
      cases hc
      omega

theorem foldl (h : Leads outcomes best) (new : List Outcome) :
    Leads (outcomes ++ new.map some) ((new.zipIdx outcomes.length).foldl Beam.contend best) := by
  induction new generalizing outcomes best with
  | nil => simpa using h
  | cons o rest ih =>
    have hrest := ih (h.contend o)
    simpa [List.zipIdx_cons] using hrest

end Leads

theorem recordAll_cons {tree : Tree} {best : Nat × Cost} {n : Node} {o : Outcome}
    {rest : List (Node × Outcome)} : recordAll tree best ((n, o) :: rest) = (do
      let (tree, _) ← tree.record n.id o
      recordAll tree (contend best (o, n.id)) rest) := by
  cases o <;> rfl

/-- Recording the outcomes of the nodes at the end of a tree fills them in. -/
theorem recordAll_eq_ok {tree tree' : Tree} {best best' : Nat × Cost}
    {entries : List (Node × Outcome)} {done : List (Option Outcome)}
    (h : recordAll tree best entries = .ok (tree', best'))
    (hids : entries.map (·.1.id) = List.range' done.length entries.length)
    (hnone : tree.outcomes = done ++ List.replicate entries.length none) :
    tree'.labels = tree.labels ∧ tree'.outcomes = done ++ (entries.map (·.2)).map some ∧
      best' = ((entries.map (·.2)).zipIdx done.length).foldl contend best := by
  induction entries generalizing tree best done with
  | nil =>
    obtain ⟨rfl, rfl⟩ := Prod.mk.inj (Except.ok.inj h)
    exact ⟨rfl, by simpa using hnone, rfl⟩
  | cons entry rest ih =>
    obtain ⟨n, o⟩ := entry
    rw [recordAll_cons] at h
    obtain ⟨⟨next, written⟩, hrecord, h⟩ := bind_eq_ok.mp h
    rw [List.map_cons, List.length_cons, List.range'_succ, List.cons.injEq] at hids
    obtain ⟨hid, hids⟩ := hids
    simp only at hid hrecord
    rw [List.length_cons, List.replicate_succ] at hnone
    have hplace : tree.outcomes[n.id]? = some none := by
      rw [hnone, hid]
      simp
    obtain ⟨hlabels, houtcomes⟩ := Tree.record_eq_ok hrecord hplace
    have hnext : next.outcomes = (done ++ [some o]) ++ List.replicate rest.length none := by
      rw [houtcomes, hnone, hid]
      simp
    obtain ⟨hlabels', houtcomes', hbest⟩ :=
      ih h (by simpa using hids) hnext
    refine ⟨hlabels'.trans hlabels, ?_, ?_⟩
    · rw [houtcomes']
      simp
    · rw [hbest, hid]
      simp [List.zipIdx_cons]

theorem recordAll_of_lt {tree : Tree} {best : Nat × Cost} {entries : List (Node × Outcome)}
    (h : ∀ e ∈ entries, e.1.id < tree.size) : ∃ r, recordAll tree best entries = .ok r := by
  induction entries generalizing tree best with
  | nil => exact ⟨_, rfl⟩
  | cons entry rest ih =>
    obtain ⟨n, o⟩ := entry
    obtain ⟨next, written, hnext⟩ := Tree.record_of_lt (h (n, o) (List.mem_cons_self ..)) o
    obtain ⟨r, hr⟩ : ∃ r, recordAll next (contend best (o, n.id)) rest = .ok r := by
      refine ih fun e he => ?_
      rw [Tree.size_of_record hnext]
      exact h e (List.mem_cons_of_mem _ he)
    exact ⟨r, by rw [recordAll_cons]; exact bind_eq_ok.mpr ⟨(next, written), hnext, hr⟩⟩

theorem mem_select {width : Nat} {nodes : List (Node × Outcome)} {id : Nat}
    (h : id ∈ select width nodes) : ∃ n o, (n, o) ∈ nodes ∧ n.id = id := by
  obtain ⟨⟨cost, i⟩, hmem, rfl⟩ := List.mem_map.mp h
  have hsorted := List.mem_mergeSort.mp (List.mem_of_mem_take hmem)
  obtain ⟨⟨n, o⟩, hno, hcost⟩ := List.mem_filterMap.mp hsorted
  obtain ⟨c, -, hc⟩ := Option.map_eq_some_iff.mp hcost
  exact ⟨n, o, hno, (Prod.mk.inj hc).2⟩

/-- The nodes that an expansion has added. -/
def created (p : Progress) (x : Expansion) : List Node :=
  x.tree.nodes.toList.drop p.tree.size

variable {σ : Type}

/-- One level: what was expanded, the outcomes of the new nodes, and the progress that remains. -/
structure Stage (b : Beam) (actions : List Action) (evaluator : Evaluator (StateT σ Checked))
    (depth : Nat) (p : Progress) (x : Expansion) (outcomes : List Outcome) (level : Level)
    (p' : Progress) : Prop where
  expanded : p.frontier.foldlM (Expansion.expandNode b.deduplicate actions) (.ofTree p.tree) = .ok x
  evaluated : List.Forall₂ (fun n o => Yields (evaluator.evaluate n.state) o) (created p x) outcomes
  recorded : recordAll x.tree p.best ((created p x).zip outcomes) = .ok (p'.tree, p'.best)
  frontier : p'.frontier = select b.width ((created p x).zip outcomes)
  frontiers : p'.frontiers = p.frontiers ++ [p'.frontier]
  levels : p'.levels = p.levels ++ [level]
  summary : level =
    { depth := depth, candidates := x.candidates, rejected := x.rejected,
      duplicates := x.duplicates, defects := x.defects,
      evaluated := outcomes.countP (!·.isFailed), failed := outcomes.countP (·.isFailed),
      frontier := p'.frontier.length, best := p'.best.2, elapsedMillis := level.elapsedMillis }

variable {b : Beam} {root : Kernel} {actions : List Action}
  {evaluator : Evaluator (StateT σ Checked)} {depth : Nat} {p p' : Progress} {x : Expansion}
  {new : List Label} {outcomes : List Outcome} {level : Level}

theorem stage_of_step {elapsed : StateT σ Checked Duration}
    (h : Yields (b.step actions evaluator elapsed depth p) p') :
    ∃ x outcomes level, Stage b actions evaluator depth p x outcomes level p' := by
  obtain ⟨x, hx, h⟩ := h.bind_inv
  obtain ⟨outcomes, houtcomes, h⟩ := h.bind_inv
  obtain ⟨⟨tree, best⟩, hrecorded, h⟩ := h.bind_inv
  obtain ⟨time, -, h⟩ := h.bind_inv
  obtain rfl := h.pure_inv
  exact ⟨x, outcomes, _, hx.liftExcept_inv, houtcomes.mapM_inv, hrecorded.liftExcept_inv,
    rfl, rfl, rfl, rfl⟩

/-- What a level does to the tree and the best node. -/
structure Grows (root : Kernel) (actions : List Action) (evaluator : Evaluator (StateT σ Checked))
    (p p' : Progress) (new : List Label) (outcomes : List Outcome) : Prop where
  grown : Grown root actions p'.tree.labels
  labels : p'.tree.labels = p.tree.labels ++ new
  recorded : p'.tree.outcomes = p.tree.outcomes ++ outcomes.map some
  evaluated : List.Forall₂ (fun l o => Yields (evaluator.evaluate l.state) o) new outcomes
  parents : ∀ l ∈ new, ∃ id ∈ p.frontier, l.parent = some id
  frontier : ∀ id ∈ p'.frontier, ∃ l ∈ new, l.id = id
  best : p'.best = (outcomes.zipIdx p.tree.size).foldl contend p.best

theorem Extends.created (h : Extends root actions p.frontier p.tree x.tree new) :
    (created p x).map Node.label = new := by
  rw [Beam.created, List.map_drop]
  show x.tree.labels.drop p.tree.size = new
  rw [h.labels, ← Tree.length_labels, List.drop_left]

/-- New labels are numbered on from the tree before them. -/
theorem Extends.ids {frontier : List Nat} {before after : Tree}
    (h : Extends root actions frontier before after new) :
    new.map (·.id) = List.range' before.size new.length := by
  apply List.ext_getElem?
  intro i
  rw [List.getElem?_map]
  cases hi : new[i]? with
  | none =>
    rw [List.getElem?_eq_none_iff] at hi
    exact (List.getElem?_eq_none (by simpa using hi)).symm
  | some l =>
    have hlt := (List.getElem?_eq_some_iff.mp hi).1
    have hplace : after.labels[before.size + i]? = some l := by
      rw [h.labels, ← Tree.length_labels, List.getElem?_append_right (by omega)]
      simpa using hi
    simp [h.grown.id_eq hplace, hlt]

/-- The outcomes are recorded in the order of the new labels. -/
theorem Stage.filled (h : Stage b actions evaluator depth p x outcomes level p')
    (hnew : Extends root actions p.frontier p.tree x.tree new) :
    p'.tree.labels = x.tree.labels ∧ p'.tree.outcomes = p.tree.outcomes ++ outcomes.map some ∧
      p'.best = (outcomes.zipIdx p.tree.size).foldl contend p.best := by
  have hlength : (created p x).length = outcomes.length := h.evaluated.length_eq
  have hcount : ((created p x).zip outcomes).length = new.length := by
    rw [List.length_zip, ← hlength, Nat.min_self, ← hnew.created, List.length_map]
  have hfst : ((created p x).zip outcomes).map (·.1) = created p x :=
    List.map_fst_zip (by omega)
  have hsnd : ((created p x).zip outcomes).map (·.2) = outcomes :=
    List.map_snd_zip (by omega)
  have hids : ((created p x).zip outcomes).map (·.1.id) =
      List.range' p.tree.outcomes.length ((created p x).zip outcomes).length := by
    calc ((created p x).zip outcomes).map (·.1.id)
        = ((((created p x).zip outcomes).map (·.1)).map Node.label).map (·.id) := by
          simp [Node.label, Function.comp_def]
      _ = List.range' p.tree.size new.length := by rw [hfst, hnew.created, hnew.ids]
      _ = _ := by rw [Tree.length_outcomes, hcount]
  have hfilled := recordAll_eq_ok h.recorded hids (by rw [hnew.outcomes, hcount])
  rwa [hsnd, Tree.length_outcomes] at hfilled

theorem Stage.grows (h : Stage b actions evaluator depth p x outcomes level p')
    (hp : Grown root actions p.tree.labels) :
    ∃ new, Grows root actions evaluator p p' new outcomes := by
  obtain ⟨new, hnew⟩ := extends_of_ok hp h.expanded
  obtain ⟨hlabels, houtcomes, hbest⟩ := h.filled hnew
  refine ⟨new, ?_, ?_, houtcomes, ?_, hnew.parents, ?_, hbest⟩
  · rw [hlabels]
    exact hnew.grown
  · rw [hlabels, hnew.labels]
  · rw [← hnew.created]
    exact List.forall₂_map_left_iff.mpr h.evaluated
  · intro id hid
    rw [h.frontier] at hid
    obtain ⟨n, o, hno, rfl⟩ := mem_select hid
    refine ⟨n.label, ?_, rfl⟩
    rw [← hnew.created]
    exact List.mem_map_of_mem (List.of_mem_zip hno).1

/-- A level gives every legal candidate of its frontier a node, unless it deduplicates. -/
theorem Stage.exists_label (h : Stage b actions evaluator depth p x outcomes level p')
    (hall : b.deduplicate = false) (hp : Grown root actions p.tree.labels) {id : Nat}
    (hid : id ∈ p.frontier) {l : Label} (hl : p.tree.labels[id]? = some l) {cs : List Candidate}
    (hcs : Action.expandAll actions l.state = .ok cs) {c : Candidate} (hc : c ∈ cs) {k : Kernel}
    (haccepted : c.verdict = .ok k) (hlegal : k.checkLegality = .ok ()) :
    ∃ i : Nat, p'.tree.labels[i]? = some ⟨i, some id, l.history ++ [c.edit], k⟩ := by
  obtain ⟨new, hnew⟩ := extends_of_ok hp h.expanded
  rw [(h.filled hnew).1]
  have hexpanded := h.expanded
  rw [hall] at hexpanded
  -- The frontier is cut at the node: what comes before keeps its label, what comes after keeps
  -- the labels of its children.
  obtain ⟨before, after, hcut⟩ := List.append_of_mem hid
  rw [hcut, List.foldlM_append] at hexpanded
  obtain ⟨y, hy, hexpanded⟩ := bind_eq_ok.mp hexpanded
  rw [List.foldlM_cons] at hexpanded
  obtain ⟨z, hz, hexpanded⟩ := bind_eq_ok.mp hexpanded
  have hyl := Expansion.Takes.labels_getElem? (Expansion.takes_of_ok hy) hl
  obtain ⟨n, hn, hz⟩ := bind_eq_ok.mp hz
  obtain ⟨cs', hcs', hz⟩ := bind_eq_ok.mp hz
  have hlabel : n.label = l := Option.some.inj
    ((Tree.label_of_get? (Tree.get_eq_ok.mp hn)).symm.trans hyl)
  obtain rfl : cs = cs' := Except.ok.inj (hcs.symm.trans (hlabel ▸ hcs'))
  obtain ⟨i, hi⟩ := Expansion.exists_label_of_mem hz hyl hc haccepted hlegal
  exact ⟨i, Expansion.Takes.labels_getElem? (Expansion.takes_of_ok hexpanded) hi⟩

end Beam

end NestTuner

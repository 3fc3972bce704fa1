import NestTuner.Proofs.Memory

/-!
A search with a memory can be repeated, whatever the evaluator behind the memory does. The memory
only grows, so the one at the end of a search knows all the outcomes that the search went by. A
search that is given this memory goes by the same outcomes and asks about nothing else: it calls for
no kernel, learns nothing and ends in the same way.
-/

namespace NestTuner

namespace Cache

variable {c c' c'' : Cache} {k : Kernel}

/-- What one memory knows another one knows too. -/
def Within (c c' : Cache) : Prop :=
  ∀ k o, c.find? k = some o → c'.find? k = some o

namespace Within

theorem refl (c : Cache) : c.Within c :=
  fun _ _ h => h

theorem trans (h : c.Within c') (h' : c'.Within c'') : c.Within c'' :=
  fun k o ho => h' k o (h k o ho)

end Within

theorem find?_insert (h : c.find? k = none) (o : Outcome) (k' : Kernel) :
    (c.insert k o).find? k' = (c.find? k').or (if k' = k then some o else none) := by
  rw [find?, insert, put_of_lookup h, List.lookup_append]
  by_cases hk : k' = k
  · simp [hk, find?]
  · have hkey : key k' ≠ key k := fun heq => hk (key_injective heq)
    simp [List.lookup_cons, beq_eq_false_iff_ne.mpr hkey, hk, find?]

theorem Within.insert (h : c.find? k = none) (o : Outcome) : c.Within (c.insert k o) := by
  intro k' o' ho'
  rw [find?_insert h, ho', Option.some_or]

/-- A memory as a function. -/
def remembered (c : Cache) (k : Kernel) : Outcome :=
  (c.find? k).getD (.failed (.execution "unknown"))

theorem remembered_eq {o : Outcome} (h : c.find? k = some o) : c.remembered k = o := by
  rw [remembered, h, Option.getD_some]

section Replay

variable {m n : Type → Type} [Monad m] [LawfulMonad m] [MonadExceptOf Trap m] [Monad n]
  [MonadExceptOf Trap n] {σ τ : Type} [Stateful m σ] [Stateful n τ] {J : τ → Prop}
  {α β γ δ : Type} {R : α → β → Prop} {S : γ → δ → Prop}

/-- If a computation with a memory returns, the memory has only grown. If then another memory knows
all of it, a second computation returns a related value from every admissible state. That there are
related values at all is known even where the memory is not. -/
def Replays (c : Cache) (J : τ → Prop) (R : α → β → Prop) (x : StateT Cache m α) (y : n β) : Prop :=
  ∀ s r, Stateful.run x s = .ok r → s.1.Within r.2.1 ∧ (∃ b, R r.1 b) ∧
    (r.2.1.Within c → ∀ t, J t → ∃ q, Stateful.run y t = .ok q ∧ R r.1 q.1 ∧ J q.2)

namespace Replays

theorem pure {a : α} {b : β} (h : R a b) :
    Replays c J R (pure a : StateT Cache m α) (pure b : n β) := by
  intro s r hr
  rw [Stateful.run_pure] at hr
  obtain rfl := Except.ok.inj hr
  exact ⟨.refl _, ⟨b, h⟩, fun _ t ht => ⟨(b, t), Stateful.run_pure b t, h, ht⟩⟩

theorem bind {x : StateT Cache m α} {y : n β} {f : α → StateT Cache m γ} {g : β → n δ}
    (h : Replays c J R x y) (hfg : ∀ a b, R a b → Replays c J S (f a) (g b)) :
    Replays c J S (x >>= f) (y >>= g) := by
  intro s r hr
  rw [Stateful.run_bind] at hr
  obtain ⟨mid, hmid, hr⟩ := bind_eq_ok.mp hr
  obtain ⟨hgrown, ⟨b, hb⟩, hreplay⟩ := h s mid hmid
  -- Some related value is enough to know that the rest grows the memory too.
  obtain ⟨hgrown', hrelated, -⟩ := hfg mid.1 b hb mid.2 r hr
  refine ⟨hgrown.trans hgrown', hrelated, fun hc t ht => ?_⟩
  obtain ⟨q, hq, hR, hJ⟩ := hreplay (hgrown'.trans hc) t ht
  obtain ⟨-, -, hreplay'⟩ := hfg mid.1 q.1 hR mid.2 r hr
  obtain ⟨q', hq', hS, hJ'⟩ := hreplay' hc q.2 hJ
  refine ⟨q', ?_, hS, hJ'⟩
  rw [Stateful.run_bind, hq]
  exact hq'

theorem throw (trap : Trap) :
    Replays c J R (throw trap : StateT Cache m α) (throw trap : n β) := by
  intro s r hr
  rw [Stateful.run_throw] at hr
  cases hr

def coupling (c : Cache) (J : τ → Prop) : Coupling (StateT Cache m) n :=
  ⟨Replays c J, pure, bind, throw⟩

/-- An evaluator that answers from the memory. -/
theorem memoise {inner : Evaluator m} {evaluator : Evaluator n}
    (h : ∀ k o, c.find? k = some o → ∀ t, J t →
      ∃ t', Stateful.run (evaluator.evaluate k) t = .ok (o, t') ∧ J t') (k : Kernel) :
    Replays c J Eq ((memoise inner).evaluate k) (evaluator.evaluate k) := by
  intro s r hr
  have hanswer : ∀ o, c.find? k = some o → ∀ t, J t → ∃ q,
      Stateful.run (evaluator.evaluate k) t = .ok q ∧ o = q.1 ∧ J q.2 := by
    intro o ho t ht
    obtain ⟨t', ht', hJ⟩ := h k o ho t ht
    exact ⟨(o, t'), ht', rfl, hJ⟩
  cases hk : s.1.find? k with
  | some o =>
    rw [run_memoise_known hk] at hr
    obtain rfl := Except.ok.inj hr
    exact ⟨.refl _, ⟨o, rfl⟩, fun hc => hanswer o (hc k o hk)⟩
  | none =>
    rw [run_memoise_unknown hk] at hr
    obtain ⟨r', -, hr⟩ := bind_eq_ok.mp hr
    obtain rfl := Except.ok.inj hr
    refine ⟨.insert hk r'.1, ⟨r'.1, rfl⟩, fun hc => hanswer r'.1 (hc k r'.1 ?_)⟩
    simp [find?_insert hk, hk]

/-- A clock that leaves the memory alone, and one that goes on. -/
theorem clock {now : m Duration} {now' : n Duration}
    (h : ∀ t, J t → ∃ r, Stateful.run now' t = .ok r ∧ J r.2) :
    Replays c J (fun _ _ => True) (StateT.lift now : StateT Cache m Duration) now' := by
  intro s r hr
  rw [Stateful.run_lift] at hr
  obtain ⟨r', -, hr⟩ := bind_eq_ok.mp hr
  obtain rfl := Except.ok.inj hr
  refine ⟨.refl _, ⟨.zero, trivial⟩, fun _ t ht => ?_⟩
  obtain ⟨q, hq, hJ⟩ := h t ht
  exact ⟨q, hq, trivial, hJ⟩

end Replays

end Replay

end Cache

/-- Nodes with the same state have the same outcome. -/
def Tree.Coherent (t : Tree) : Prop :=
  ∀ n ∈ t.nodes, ∀ m ∈ t.nodes, n.state = m.state → n.outcome = m.outcome

/-- An evaluator with all its states as one. -/
def Evaluator.flat {m : Type → Type} [Monad m] [MonadExceptOf Trap m] {σ : Type} [Stateful m σ]
    (evaluator : Evaluator m) : Evaluator (StateT σ Checked) :=
  ⟨fun k => Stateful.flat (evaluator.evaluate k), evaluator.reentrant, evaluator.scope⟩

namespace Beam

variable {σ τ : Type} {b : Beam} {root : Kernel} {actions : List Action}
  {inner : Evaluator (StateT τ Checked)} {now : StateT τ Checked Duration}

/-- A search with a memory, with the memory it leaves and the calls it makes. -/
def exploreCached (b : Beam) (root : Kernel) (actions : List Action)
    (inner : Evaluator (StateT τ Checked)) (now : StateT τ Checked Duration) (c : Cache) :
    StateT τ Checked ((Except SearchError Exploration × Cache) × List Kernel) :=
  ((b.explore root actions (Cache.memoise inner.noting) (StateT.lift (StateT.lift now))).run c).run
    []

theorem run_exploreCached (b : Beam) (root : Kernel) (actions : List Action)
    (inner : Evaluator (StateT τ Checked)) (now : StateT τ Checked Duration) (c : Cache) (t : τ) :
    Stateful.run (b.explore root actions (Cache.memoise inner.noting)
        (StateT.lift (StateT.lift now)) : Remembering τ _) (c, ([], (t, ()))) =
      ((b.exploreCached root actions inner now c).run t).map
        fun r => (r.1.1.1, (r.1.1.2, (r.1.2, (r.2, ())))) :=
  run_remembering ..

/-- A search by a function gives outcomes by state. -/
theorem coherent_of_ok {f : Kernel → Outcome} {now : StateT σ Checked Duration} {x : Exploration}
    (h : Yields (b.explore root actions (.ofFunction f) now) (.ok x)) : x.tree.Coherent := by
  obtain ⟨_, _, _, _, hx⟩ := explores_of_ok h
  have hsound := hx.reached.sound hx.measured
  rw [hx.concluded.tree]
  intro n hn m hm hstate
  obtain ⟨o, ho, hyields⟩ := hsound.outcome hn
  obtain ⟨o', ho', hyields'⟩ := hsound.outcome hm
  rw [ho, ho', hyields.pure_inv, hyields'.pure_inv, hstate]

/-- A memory that has not changed, and no calls. -/
def Untouched (c : Cache) (t : Cache × (List Kernel × (τ × Unit))) : Prop :=
  t.1 = c ∧ t.2.1 = []

section Repeated

variable {c : Cache} {s : τ} {r : ((Except SearchError Exploration × Cache) × List Kernel) × τ}
  (h : (b.exploreCached root actions inner now c).run s = .ok r)
  (hbudget : b.budgetMillis = none)
include h hbudget

/-- Any evaluator that answers from the memory that a search leaves leads to the same end. -/
theorem answers_of_cached {n : Type → Type} [Monad n] [LawfulMonad n] [MonadExceptOf Trap n]
    [Stateful n σ] {J : σ → Prop} {evaluator : Evaluator n} {now' : n Duration}
    (hevaluator : ∀ k o, r.1.1.2.find? k = some o → ∀ t, J t →
      ∃ t', Stateful.run (evaluator.evaluate k) t = .ok (o, t') ∧ J t')
    (hnow : ∀ t, J t → ∃ q, Stateful.run now' t = .ok q ∧ J q.2) {t : σ} (ht : J t) :
    ∃ q, Stateful.run (b.explore root actions evaluator now') t = .ok q ∧
      Answers Eq (fun x y => x.untimed = y.untimed) r.1.1.1 q.1 ∧ J q.2 := by
  have hrun := run_exploreCached b root actions inner now c s
  rw [h] at hrun
  obtain ⟨-, -, hreplay⟩ := explore_coupled (Cache.Replays.coupling r.1.1.2 J) orderly_eq
    (Cache.Replays.memoise hevaluator) hbudget (Cache.Replays.clock hnow) root _ _ hrun
  obtain ⟨q, hq, halike, hJ⟩ := hreplay (.refl _) t ht
  exact ⟨q, hq, halike.imp (fun _ _ => Outcome.failed.inj) fun _ _ hxy => hxy.untimed_eq, hJ⟩

/-- What a search goes by is a function of the states. -/
theorem coherent_of_cached {x : Exploration} (hx : r.1.1.1 = .ok x) : x.tree.Coherent := by
  have hevaluator : ∀ k o, r.1.1.2.find? k = some o → ∀ t : Unit × Unit, True → ∃ t', Stateful.run
      ((Evaluator.ofFunction r.1.1.2.remembered).evaluate k : StateT Unit Checked Outcome) t =
        .ok (o, t') ∧ True := by
    intro k o ho t _
    rw [← Cache.remembered_eq ho]
    exact ⟨t, rfl, trivial⟩
  have hnow : ∀ t : Unit × Unit, True → ∃ q,
      Stateful.run (pure .zero : StateT Unit Checked Duration) t = .ok q ∧ True :=
    fun t _ => ⟨(.zero, t), rfl, trivial⟩
  obtain ⟨q, hq, hanswers, -⟩ := answers_of_cached h hbudget hevaluator hnow (t := ((), ())) trivial
  rw [Stateful.run_single] at hq
  obtain ⟨⟨r', u⟩, hrun, rfl⟩ := map_eq_ok.mp hq
  rw [hx] at hanswers
  obtain ⟨y, hy, hxy⟩ := hanswers.exists_of_ok
  obtain rfl : r' = .ok y := hy
  rw [Exploration.tree_eq_of_untimed hxy]
  exact coherent_of_ok ⟨(), u, hrun⟩

/-- With the memory that a search leaves, the search makes no call. -/
theorem exploreCached_again (hnow : Returns now fun _ => True) (t : τ) :
    ∃ r' t', (b.exploreCached root actions inner now r.1.1.2).run t =
        .ok (((r', r.1.1.2), []), t') ∧
      Answers Eq (fun x y => x.untimed = y.untimed) r.1.1.1 r' := by
  have hevaluator : ∀ k o, r.1.1.2.find? k = some o → ∀ t : Cache × (List Kernel × (τ × Unit)),
      Untouched r.1.1.2 t → ∃ t',
        Stateful.run ((Cache.memoise inner.noting).evaluate k : Remembering τ Outcome) t =
          .ok (o, t') ∧ Untouched r.1.1.2 t' :=
    fun k o ho t ht => ⟨t, Cache.run_memoise_known (by rw [ht.1, ho]), ht⟩
  have hclock : ∀ t, Untouched r.1.1.2 t → ∃ q,
      Stateful.run (StateT.lift (StateT.lift now) : Remembering τ Duration) t = .ok q ∧
        Untouched r.1.1.2 q.2 := by
    intro t ht
    obtain ⟨time, t', hrun⟩ := run_clock hnow t
    exact ⟨_, hrun, ht⟩
  have hstart : Untouched r.1.1.2 (r.1.1.2, ([], (t, ()))) := ⟨rfl, rfl⟩
  obtain ⟨q, hq, hanswers, huntouched⟩ := answers_of_cached h hbudget hevaluator hclock hstart
  rw [run_exploreCached] at hq
  obtain ⟨⟨⟨⟨r', c'⟩, calls⟩, t'⟩, hrun, rfl⟩ := map_eq_ok.mp hq
  obtain ⟨rfl, rfl⟩ := huntouched
  exact ⟨r', t', hrun, hanswers⟩

end Repeated

section Ends

variable (hvalid : b.validate = .ok ()) (hbudget : b.budgetMillis = none)
  (hroot : root.checkLegality = .ok ()) (hfits : ∀ i, root.extentOf i < Word.largest)
include hvalid hbudget hroot hfits

/-- A search comes to an end if the evaluator and the clock do, whatever states they have. -/
theorem run_explore_ends {m : Type → Type} [Monad m] [LawfulMonad m] [MonadExceptOf Trap m]
    [Stateful m σ] {evaluator : Evaluator m} {now : m Duration}
    (hevaluator : ∀ k s, ∃ r, Stateful.run (evaluator.evaluate k) s = .ok r)
    (hnow : ∀ s, ∃ r, Stateful.run now s = .ok r) (s : σ) :
    ∃ r, Stateful.run (b.explore root actions evaluator now) s = .ok r := by
  have hreturns : ∀ k, Returns (evaluator.flat.evaluate k) fun _ => True := by
    intro k s
    obtain ⟨⟨o, s'⟩, ho⟩ := hevaluator k s
    exact ⟨o, s', ho, trivial⟩
  have hclock : Returns (Stateful.flat now) fun _ => True := by
    intro s
    obtain ⟨⟨time, s'⟩, htime⟩ := hnow s
    exact ⟨time, s', htime, trivial⟩
  have hsimulates : Simulates (fun s t => t = (s, ())) _ (b.explore root actions evaluator now)
      (b.explore root actions evaluator.flat (Stateful.flat now)) :=
    explore_simulates orderly_eq (fun k => simulates_flat (fun _ => rfl) (evaluator.evaluate k))
      hbudget (simulates_flat (fun _ => trivial) now) root
  obtain ⟨r, s', hr, -⟩ := explore_ends hroot hfits hreturns hvalid hclock s
  have hsame := hsimulates s _ rfl
  rw [Stateful.run_single, hr] at hsame
  obtain ⟨q, hq, -⟩ := hsame.exists_of_ok_right
  exact ⟨q, hq⟩

theorem exploreCached_ends (hinner : ∀ k, Returns (inner.evaluate k) fun _ => True)
    (hnow : Returns now fun _ => True) (c : Cache) :
    Returns (b.exploreCached root actions inner now c) fun _ => True := by
  intro s
  have hevaluator : ∀ k t, ∃ r,
      Stateful.run ((Cache.memoise inner.noting).evaluate k : Remembering τ Outcome) t = .ok r := by
    intro k t
    cases hk : t.1.find? k with
    | some o => exact ⟨(o, t), Cache.run_memoise_known hk⟩
    | none =>
      obtain ⟨o, t', ho, -⟩ := hinner k t.2.2.1
      rw [Cache.run_memoise_unknown hk, Evaluator.run_noting, Stateful.run_single, ho]
      exact ⟨_, rfl⟩
  have hclock : ∀ t, ∃ r,
      Stateful.run (StateT.lift (StateT.lift now) : Remembering τ Duration) t = .ok r := by
    intro t
    obtain ⟨time, t', hrun⟩ := run_clock hnow t
    exact ⟨_, hrun⟩
  obtain ⟨q, hq⟩ := run_explore_ends hvalid hbudget hroot hfits hevaluator hclock
    (c, ([], (s, ())))
  rw [run_exploreCached] at hq
  obtain ⟨a, ha, -⟩ := map_eq_ok.mp hq
  exact ⟨a.1, a.2, ha, trivial⟩

end Ends

/-- A search with a memory can be repeated. The second search makes no call, leaves the memory as it
is and has the same result up to times, or the same error, whatever the evaluator behind the memory
would have answered by then. In either search nodes with the same state have the same outcome. The
first search comes to an end from a legal root, at least if the evaluator does and no extent is the
largest word. -/
theorem explore_repeated (b : Beam) (root : Kernel) (actions : List Action)
    (inner : Evaluator (StateT τ Checked)) {now : StateT τ Checked Duration} (c : Cache)
    (hbudget : b.budgetMillis = none) (hnow : Returns now fun _ => True) :
    (b.validate = .ok () → root.checkLegality = .ok () →
      (∀ i, root.extentOf i < Word.largest) →
      (∀ k, Returns (inner.evaluate k) fun _ => True) →
      Returns (b.exploreCached root actions inner now c) fun _ => True) ∧
    ∀ s r c' calls s',
      (b.exploreCached root actions inner now c).run s = .ok (((r, c'), calls), s') →
      ∀ t, ∃ r' t', (b.exploreCached root actions inner now c').run t =
          .ok (((r', c'), []), t') ∧
        Answers Eq (fun x y => x.untimed = y.untimed) r r' ∧
        (∀ x, r = .ok x → x.tree.Coherent) ∧ ∀ y, r' = .ok y → y.tree.Coherent := by
  refine ⟨fun hvalid hroot hfits hinner =>
    exploreCached_ends hvalid hbudget hroot hfits hinner hnow c, ?_⟩
  intro s r c' calls s' h t
  obtain ⟨r', t', hrun, hanswers⟩ := exploreCached_again h hbudget hnow t
  exact ⟨r', t', hrun, hanswers, fun x hx => coherent_of_cached h hbudget hx,
    fun y hy => coherent_of_cached hrun hbudget hy⟩

/-- From a legal root, a search ends in an error only if the root fails. -/
theorem rootFailed_of_error {m : Type → Type} [Monad m] [LawfulMonad m] [MonadExceptOf Trap m]
    [Stateful m σ] {evaluator : Evaluator m} {now : m Duration} (hvalid : b.validate = .ok ())
    (hroot : root.checkLegality = .ok ()) {s s' : σ} {e : SearchError}
    (h : Stateful.run (b.explore root actions evaluator now) s = .ok (.error e, s')) :
    ∃ start failure, Stateful.run now s = .ok start ∧
      Stateful.run (evaluator.evaluate root) start.2 = .ok (.failed failure, s') := by
  rw [explore, hvalid, hroot, Stateful.run_bind] at h
  obtain ⟨start, hstart, h⟩ := bind_eq_ok.mp h
  rw [Stateful.run_bind] at h
  obtain ⟨⟨outcome, mid⟩, houtcome, h⟩ := bind_eq_ok.mp h
  cases outcome with
  | failed failure =>
    rw [Stateful.run_pure] at h
    obtain ⟨-, rfl⟩ := Prod.mk.inj (Except.ok.inj h)
    exact ⟨start, failure, hstart, houtcome⟩
  | measured baseline =>
    simp only [Stateful.run_bind, Stateful.run_pure] at h
    obtain ⟨_, -, h⟩ := bind_eq_ok.mp h
    obtain ⟨_, -, h⟩ := bind_eq_ok.mp h
    obtain ⟨_, -, h⟩ := bind_eq_ok.mp h
    obtain ⟨_, -, h⟩ := bind_eq_ok.mp h
    cases h

/-- Costs by the number of the call, so that a kernel costs more each time. -/
def tally : Evaluator (StateT Nat Checked) :=
  ⟨fun _ => do
    let n ← get
    set (n + 1)
    return .measured ⟨UInt64.ofNat n⟩, false, "tally"⟩

theorem explore_repeated_tally :
    ∃ x y c' calls n n', (glance.exploreCached (Kernel.matmul "square" 8 8 8) moves tally
        (pure .zero) (.empty "tally")).run 0 = .ok (((.ok x, c'), calls), n) ∧
      (glance.exploreCached (Kernel.matmul "square" 8 8 8) moves tally (pure .zero) c').run n =
        .ok (((.ok y, c'), []), n') ∧
      x.untimed = y.untimed ∧ x.tree.Coherent ∧ y.tree.Coherent := by
  have hlegal : (Kernel.matmul "square" 8 8 8).checkLegality = .ok () := by cbv
  have hclock : Returns (pure .zero : StateT Nat Checked Duration) fun _ => True :=
    Returns.pure trivial
  obtain ⟨hreturns, hrepeated⟩ := explore_repeated glance (Kernel.matmul "square" 8 8 8) moves tally
    (.empty "tally") rfl hclock
  obtain ⟨⟨⟨r, c'⟩, calls⟩, n, hr, -⟩ := hreturns rfl hlegal
    (Kernel.extentOf_lt_of_forall (by decide) (by decide)) (fun k n => ⟨_, _, rfl, trivial⟩) 0
  obtain ⟨r', n', hr', hanswers, hcoherent, hcoherent'⟩ := hrepeated 0 r c' calls n hr n
  cases r with
  | error e =>
    have hrun := run_exploreCached glance (Kernel.matmul "square" 8 8 8) moves tally (pure .zero)
      (.empty "tally") 0
    rw [hr] at hrun
    obtain ⟨start, failure, hstart, hfailed⟩ := rootFailed_of_error rfl hlegal hrun
    cases hstart
    cases hfailed
  | ok x =>
    obtain ⟨y, rfl, hxy⟩ := hanswers.exists_of_ok
    exact ⟨x, y, c', calls, n, n', hr, hr', hxy, hcoherent x rfl, hcoherent' y rfl⟩

end Beam

end NestTuner

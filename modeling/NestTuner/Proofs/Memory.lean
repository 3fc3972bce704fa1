import NestTuner.Proofs.Calls
import NestTuner.Proofs.Keys
import NestTuner.Proofs.Simulation

/-!
A search with a memory finds what it finds without one. The memory is transparent as long as it
agrees with the evaluator behind it, and it then learns the outcome of every kernel that it did not
know, by asking once.
-/

namespace NestTuner

namespace Cache

/-- Everything that is remembered is right. -/
def Agrees (c : Cache) (f : Kernel → Outcome) : Prop :=
  ∀ k o, c.find? k = some o → o = f k

/-- A cache after questions about some kernels. It called for those it did not know, each once, and
added their outcomes in that order. -/
structure Learns (c : Cache) (f : Kernel → Outcome) (asked calls : List Kernel) (c' : Cache) :
    Prop where
  once : calls.Nodup
  calls_iff : ∀ k, k ∈ calls ↔ k ∈ asked ∧ c.find? k = none
  entries : c' = { c with entries := c.entries ++ calls.map fun k => (key k, f k) }

theorem put_of_lookup {entries : List (String × Outcome)} {key : String}
    (h : entries.lookup key = none) (o : Outcome) : put entries key o = entries ++ [(key, o)] := by
  induction entries with
  | nil => rfl
  | cons entry rest ih =>
    obtain ⟨k, old⟩ := entry
    by_cases hk : k = key
    · simp [hk] at h
    · have hrest : rest.lookup key = none := by
        simpa [List.lookup_cons, beq_eq_false_iff_ne.mpr (Ne.symm hk)] using h
      simp [put, hk, ih hrest]

theorem lookup_calls (f : Kernel → Outcome) (calls : List Kernel) (k : Kernel) :
    (calls.map fun k => (key k, f k)).lookup (key k) = if k ∈ calls then some (f k) else none := by
  induction calls with
  | nil => rfl
  | cons first rest ih =>
    by_cases hk : k = first
    · simp [hk]
    · have hkey : key k ≠ key first := fun heq => hk (key_injective heq)
      simp [List.lookup_cons, beq_eq_false_iff_ne.mpr hkey, ih, hk]

section Learns

variable {c c' : Cache} {f : Kernel → Outcome} {asked calls : List Kernel} {k : Kernel}

theorem Learns.start (c : Cache) (f : Kernel → Outcome) : c.Learns f [] [] c where
  once := .nil
  calls_iff := by simp
  entries := by simp

theorem Learns.find?_eq (h : c.Learns f asked calls c') (k : Kernel) :
    c'.find? k = (c.find? k).or (if k ∈ calls then some (f k) else none) := by
  rw [h.entries, find?, List.lookup_append, lookup_calls]
  rfl

theorem Learns.agrees (h : c.Learns f asked calls c') (hc : c.Agrees f) : c'.Agrees f := by
  intro k o ho
  rw [h.find?_eq] at ho
  cases hk : c.find? k with
  | some o' =>
    obtain rfl : o' = o := by simpa [hk] using ho
    exact hc k o' hk
  | none =>
    obtain ⟨-, rfl⟩ : k ∈ calls ∧ f k = o := by simpa [hk] using ho
    rfl

/-- A question that can be answered from memory. -/
theorem Learns.known {o : Outcome} (h : c.Learns f asked calls c') (hk : c'.find? k = some o) :
    c.Learns f (asked ++ [k]) calls c' where
  once := h.once
  calls_iff := by
    intro k'
    have hcalled : k' = k → c.find? k' = none → k' ∈ calls := by
      rintro rfl hnone
      rw [h.find?_eq, hnone] at hk
      simpa using (show k' ∈ calls ∧ f k' = o by simpa using hk).1
    have hold := h.calls_iff k'
    rw [List.mem_append, List.mem_singleton]
    tauto
  entries := h.entries

/-- A question that has to be passed on. -/
theorem Learns.unknown (h : c.Learns f asked calls c') (hk : c'.find? k = none) :
    c.Learns f (asked ++ [k]) (calls ++ [k]) (c'.insert k (f k)) := by
  have hboth : c.find? k = none ∧ k ∉ calls := by
    have hnone := hk
    rw [h.find?_eq, Option.or_eq_none_iff] at hnone
    simpa using hnone
  refine ⟨?_, fun k' => ?_, ?_⟩
  · refine List.nodup_append.2 ⟨h.once, List.nodup_singleton k, ?_⟩
    rintro a ha b hb rfl
    exact hboth.2 (List.mem_singleton.1 hb ▸ ha)
  · rw [List.mem_append, List.mem_append, List.mem_singleton, h.calls_iff, or_and_right]
    have hnone : k' = k → c.find? k' = none := by rintro rfl; exact hboth.1
    tauto
  · rw [insert, put_of_lookup hk, h.entries]
    simp

end Learns

section Runs

variable {m : Type → Type} [Monad m] [LawfulMonad m] [MonadExceptOf Trap m] {σ : Type}
  [Stateful m σ] {inner : Evaluator m} {k : Kernel}

theorem run_memoise_known {s : Cache × σ} {o : Outcome} (h : s.1.find? k = some o) :
    Stateful.run ((memoise inner).evaluate k) s = .ok (o, s) := by
  simp only [memoise, evaluate, Stateful.run_bind, Stateful.run_get]
  simp only [bind, Except.bind, h]
  exact Stateful.run_pure o s

theorem run_memoise_unknown {s : Cache × σ} (h : s.1.find? k = none) :
    Stateful.run ((memoise inner).evaluate k) s =
      Stateful.run (inner.evaluate k) s.2 >>= fun r => .ok (r.1, (s.1.insert k r.1, r.2)) := by
  have hpassed : Stateful.run ((memoise inner).evaluate k) s =
      Stateful.run (StateT.lift (inner.evaluate k) >>= fun o =>
        (modify (·.insert k o) : StateT Cache m PUnit) >>= fun _ => pure o) s := by
    show Stateful.run (evaluate inner k) s = _
    rw [evaluate, Stateful.run_bind, Stateful.run_get]
    simp only [bind, Except.bind, h]
    rfl
  rw [hpassed, Stateful.run_bind, Stateful.run_lift]
  cases Stateful.run (inner.evaluate k) s.2 with
  | error trap => rfl
  | ok r =>
    show Stateful.run ((modify (·.insert k r.1) : StateT Cache m PUnit) >>= fun _ => pure r.1)
      (s.1, r.2) = _
    rw [Stateful.run_bind, Stateful.run_modify]
    exact Stateful.run_pure (m := StateT Cache m) r.1 (s.1.insert k r.1, r.2)

/-- A memory that agrees with a function answers like it, and learns what it did not know. -/
theorem evaluate_learns {c : Cache} {f : Kernel → Outcome} (hc : c.Agrees f)
    {s : Cache × (List Kernel × σ)} {asked : List Kernel} (h : c.Learns f asked s.2.1 s.1)
    (k : Kernel) : ∃ s' : Cache × (List Kernel × σ),
      Stateful.run ((memoise (Evaluator.ofFunction f : Evaluator m).noting).evaluate k) s =
        .ok (f k, s') ∧ c.Learns f (asked ++ [k]) s'.2.1 s'.1 := by
  cases hk : s.1.find? k with
  | some o =>
    obtain rfl := h.agrees hc k o hk
    exact ⟨s, run_memoise_known hk, h.known hk⟩
  | none =>
    refine ⟨(s.1.insert k (f k), (s.2.1 ++ [k], s.2.2)), ?_, h.unknown hk⟩
    have hinner : Stateful.run ((Evaluator.ofFunction f : Evaluator m).evaluate k) s.2.2 =
      .ok (f k, s.2.2) := Stateful.run_pure _ _
    rw [run_memoise_unknown hk, Evaluator.run_noting, hinner]
    rfl

end Runs

end Cache

namespace Beam

/-- Computations with a memory over a list of calls. -/
abbrev Remembering (τ : Type) : Type → Type :=
  StateT Cache (StateT (List Kernel) (StateT τ Checked))

variable {σ τ : Type} {f : Kernel → Outcome} {c : Cache}

theorem run_remembering {α : Type} (x : Remembering τ α) (c : Cache) (calls : List Kernel) (t : τ) :
    Stateful.run x (c, (calls, (t, ()))) =
      (((x.run c).run calls).run t).map fun r => (r.1.1.1, (r.1.1.2, (r.1.2, (r.2, ())))) := by
  simp only [Stateful.run]
  cases ((x.run c).run calls).run t <;> rfl

/-- The state of a memory that has been asked about some kernels. -/
def Learning (c : Cache) (f : Kernel → Outcome) (t : Cache × (List Kernel × (τ × Unit)))
    (asked : List Kernel) : Prop :=
  c.Learns f asked t.2.1 t.1

theorem memoise_simulates (hc : c.Agrees f) (k : Kernel) :
    Simulates (fun _ t => ∃ asked, Learning c f t asked) Eq
      ((Evaluator.ofFunction f).evaluate k : StateT σ Checked Outcome)
      ((Cache.memoise (Evaluator.ofFunction f).noting).evaluate k : Remembering τ Outcome) := by
  rintro s t ⟨asked, ht⟩
  obtain ⟨t', hrun, ht'⟩ := Cache.evaluate_learns (m := StateT τ Checked) hc ht k
  have hplain : Stateful.run ((Evaluator.ofFunction f).evaluate k : StateT σ Checked Outcome) s =
    .ok (f k, s) := rfl
  rw [hplain, hrun]
  exact .returned ⟨rfl, asked ++ [k], ht'⟩

theorem memoise_asks (hc : c.Agrees f) (k : Kernel) : Asks (Learning c f)
    ((Cache.memoise (Evaluator.ofFunction f).noting).evaluate k : Remembering τ Outcome)
    fun _ new => new = [k] := by
  intro t before ht r hr
  obtain ⟨t', hrun, ht'⟩ := Cache.evaluate_learns (m := StateT τ Checked) hc ht k
  obtain rfl := Except.ok.inj (hrun.symm.trans hr)
  exact ⟨[k], ht', rfl⟩

/-- A clock leaves the memory and the calls alone. -/
theorem run_clock {now : StateT τ Checked Duration} (hnow : Returns now fun _ => True)
    (t : Cache × (List Kernel × (τ × Unit))) : ∃ time t',
      Stateful.run (StateT.lift (StateT.lift now) : Remembering τ Duration) t =
        .ok (time, (t.1, (t.2.1, t'))) := by
  obtain ⟨time, t', hrun, -⟩ := hnow t.2.2.1
  refine ⟨time, (t', ()), ?_⟩
  rw [Stateful.run_lift, Stateful.run_lift, Stateful.run_single, hrun]
  rfl

theorem clock_simulates {now : StateT σ Checked Duration} {now' : StateT τ Checked Duration}
    (hnow : Returns now fun _ => True) (hnow' : Returns now' fun _ => True) :
    Simulates (fun _ t => ∃ asked, Learning c f t asked) (fun _ _ => True) now
      (StateT.lift (StateT.lift now') : Remembering τ Duration) := by
  rintro ⟨s, _⟩ t ht
  obtain ⟨time, s', hrun, -⟩ := hnow s
  obtain ⟨time', t', hrun'⟩ := run_clock hnow' t
  rw [Stateful.run_single, hrun, hrun']
  exact .returned ⟨trivial, ht⟩

theorem clock_asks {now : StateT τ Checked Duration} (hnow : Returns now fun _ => True) :
    Asks (Learning c f) (StateT.lift (StateT.lift now) : Remembering τ Duration)
      fun _ new => new = [] := by
  intro t before ht r hr
  obtain ⟨time, t', hrun⟩ := run_clock hnow t
  obtain rfl := Except.ok.inj (hrun.symm.trans hr)
  exact ⟨[], by rwa [List.append_nil], rfl⟩

theorem asked_eq {root : Kernel} {r r' : Except SearchError Exploration}
    (h : Answers Eq (fun x y => x.untimed = y.untimed) r r') : asked root r = asked root r' := by
  cases h with
  | refused e => rfl
  | rootFailed => rfl
  | found related => exact congrArg (·.tree.states) related

/-- What the memory gains in a search. -/
theorem learns_of_explore {b : Beam} {root : Kernel} {actions : List Action}
    {now : StateT τ Checked Duration} (hnow : Returns now fun _ => True) (hc : c.Agrees f) {t : τ}
    {r : ((Except SearchError Exploration × Cache) × List Kernel) × τ}
    (h : (((b.explore root actions (Cache.memoise (Evaluator.ofFunction f).noting)
      (StateT.lift (StateT.lift now))).run c).run []).run t = .ok r) :
    c.Learns f (asked root r.1.1.1) r.1.2 r.1.1.2 := by
  have hrun := run_remembering (b.explore root actions
    (Cache.memoise (Evaluator.ofFunction f).noting) (StateT.lift (StateT.lift now))) c [] t
  rw [h] at hrun
  obtain ⟨new, hlearns, rfl⟩ := explore_asks (memoise_asks hc) (clock_asks hnow) root
    (c, ([], (t, ()))) [] (.start c f) _ hrun
  exact hlearns

/-- A search with a memory that agrees with the function behind it ends like the search without: in
the same trap, with the same error or with the same result up to times. The function is called once
for each kernel that the search asks about and the memory does not know, and for no other, and these
calls are what the memory gains. -/
theorem explore_memoised (b : Beam) (root : Kernel) (actions : List Action) (c : Cache)
    {now : StateT σ Checked Duration} {now' : StateT τ Checked Duration}
    (hbudget : b.budgetMillis = none) (hnow : Returns now fun _ => True)
    (hnow' : Returns now' fun _ => True) (hc : c.Agrees f) (s : σ) (t : τ) :
    Same (fun r r' => Answers Eq (fun x y => x.untimed = y.untimed) r.1 r'.1.1.1 ∧
        c.Learns f (asked root r.1) r'.1.2 r'.1.1.2)
      ((b.explore root actions (.ofFunction f) now).run s)
      ((((b.explore root actions (Cache.memoise (Evaluator.ofFunction f).noting)
        (StateT.lift (StateT.lift now'))).run c).run []).run t) := by
  have hsimulates : Simulates (fun _ t => ∃ asked, Learning c f t asked) _
      (b.explore root actions (.ofFunction f) now)
      (b.explore root actions (Cache.memoise (Evaluator.ofFunction f).noting)
        (StateT.lift (StateT.lift now'))) :=
    explore_simulates orderly_eq (memoise_simulates hc) hbudget (clock_simulates hnow hnow') root
  have hsame := hsimulates (s, ()) (c, ([], (t, ()))) ⟨[], .start c f⟩
  rw [Stateful.run_single, run_remembering] at hsame
  refine (hsame.of_map.and_of_ok fun r' hr' => learns_of_explore hnow' hc hr').imp ?_
  rintro r r' ⟨⟨halike, -⟩, hlearns⟩
  have hanswers : Answers Eq (fun x y => x.untimed = y.untimed) r.1 r'.1.1.1 :=
    halike.imp (fun _ _ => Outcome.failed.inj) fun _ _ hxy => hxy.untimed_eq
  rw [asked_eq hanswers]
  exact ⟨hanswers, hlearns⟩

/-- A memory of the cost of one kernel. -/
def recollection (k : Kernel) : Cache :=
  ⟨"custom", [(Cache.key k, countLoops k)]⟩

theorem agrees_recollection (k : Kernel) : (recollection k).Agrees countLoops := by
  intro k' o ho
  by_cases hkey : Cache.key k' = Cache.key k
  · obtain rfl := Cache.key_injective hkey
    simpa [recollection, Cache.find?] using ho.symm
  · simp [recollection, Cache.find?, List.lookup_cons, beq_eq_false_iff_ne.mpr hkey] at ho

theorem explore_memoised_glance :
    (recollection (Kernel.matmul "square" 8 8 8)).Agrees countLoops ∧
    ∃ x y calls c', Yields (glance.explore (Kernel.matmul "square" 8 8 8) moves
        (.ofFunction countLoops) (pure .zero : StateT Unit Checked Duration)) (.ok x) ∧
      ((((glance.explore (Kernel.matmul "square" 8 8 8) moves
        (Cache.memoise (Evaluator.ofFunction countLoops).noting)
        (StateT.lift (StateT.lift (pure .zero : StateT Unit Checked Duration)))).run
        (recollection (Kernel.matmul "square" 8 8 8))).run []).run ()) =
          .ok (((.ok y, c'), calls), ()) ∧
      x.untimed = y.untimed ∧
      (recollection (Kernel.matmul "square" 8 8 8)).Learns countLoops x.tree.states calls c' := by
  have hagrees := agrees_recollection (Kernel.matmul "square" 8 8 8)
  refine ⟨hagrees, ?_⟩
  obtain ⟨x, s, s', hx⟩ := exists_explore glance (Kernel.matmul "square" 8 8 8) moves countLoops rfl
    (by cbv) (Kernel.extentOf_lt_of_forall (by decide) (by decide)) rfl
  have hclock : Returns (pure .zero : StateT Unit Checked Duration) fun _ => True :=
    Returns.pure trivial
  have hsame := explore_memoised glance (Kernel.matmul "square" 8 8 8) moves
    (recollection (Kernel.matmul "square" 8 8 8)) rfl hclock hclock hagrees s ()
  rw [hx] at hsame
  obtain ⟨⟨⟨⟨r, c'⟩, calls⟩, _⟩, hy, hanswers, hlearns⟩ := hsame.exists_of_ok
  obtain ⟨y, rfl, huntimed⟩ := hanswers.exists_of_ok
  exact ⟨x, y, calls, c', ⟨s, s', hx⟩, hy, huntimed, hlearns⟩

end Beam

end NestTuner

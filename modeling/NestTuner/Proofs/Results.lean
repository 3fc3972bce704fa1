import Mathlib.Data.List.Forall2
import NestTuner.Word

/-!
Computations that may fail, by themselves and along a list: when they give a result, and which. The
last part is about lists related entry by entry.
-/

namespace NestTuner

/-! ### Errors -/

theorem bind_eq_ok {ε α β : Type} {x : Except ε α} {f : α → Except ε β} {b : β} :
    x >>= f = .ok b ↔ ∃ a, x = .ok a ∧ f a = .ok b := by
  cases x with
  | error e =>
    constructor
    · intro h
      cases h
    · rintro ⟨a, ha, -⟩
      cases ha
  | ok a =>
    constructor
    · intro h
      exact ⟨a, rfl, h⟩
    · rintro ⟨a', ha, h⟩
      cases ha
      exact h

theorem map_eq_ok {ε α β : Type} {f : α → β} {x : Except ε α} {b : β} :
    x.map f = .ok b ↔ ∃ a, x = .ok a ∧ f a = b := by
  cases x <;> simp [Except.map]

/-- Two checks in a row. -/
theorem seq_eq_ok {ε β : Type} {x : Except ε Unit} {y : Except ε β} {b : β} :
    (do x; y) = .ok b ↔ x = .ok () ∧ y = .ok b := by
  rw [bind_eq_ok]
  constructor
  · rintro ⟨u, hx, hy⟩
    exact ⟨hx, hy⟩
  · rintro ⟨hx, hy⟩
    exact ⟨(), hx, hy⟩

/-- A refusal, unless a condition fails to hold, and what comes after it. -/
theorem guard_eq_ok {ε β : Type} {c : Prop} [Decidable c] {e : ε} {f : Unit → Except ε β} {b : β} :
    (if c then (throw e >>= f : Except ε β) else f ()) = .ok b ↔ ¬c ∧ f () = .ok b := by
  by_cases hc : c
  · simp only [hc, if_true, not_true_eq_false, false_and, iff_false]
    intro h
    cases h
  · simp [hc]

theorem check_bind {ε β : Type} {c : Prop} [Decidable c] {e : ε} (f : Unit → Except ε β) :
    (if c then .error e else .ok ()) >>= f = if c then throw e >>= f else f () := by
  split <;> rfl

theorem exists_bind {ε α β : Type} {x : Except ε α} {f : α → Except ε β} :
    (∃ b, x >>= f = .ok b) ↔ ∃ a, x = .ok a ∧ ∃ b, f a = .ok b := by
  constructor
  · rintro ⟨b, h⟩
    obtain ⟨a, ha, hb⟩ := bind_eq_ok.mp h
    exact ⟨a, ha, b, hb⟩
  · rintro ⟨a, ha, b, hb⟩
    exact ⟨b, bind_eq_ok.mpr ⟨a, ha, hb⟩⟩

theorem exists_map {ε α β : Type} {x : Except ε α} {g : α → β} :
    (∃ b, (x >>= fun a => pure (g a)) = .ok b) ↔ ∃ a, x = .ok a := by
  rw [exists_bind]
  constructor
  · rintro ⟨a, ha, -⟩
    exact ⟨a, ha⟩
  · rintro ⟨a, ha⟩
    exact ⟨a, ha, _, rfl⟩

theorem forM_eq_ok {ε α : Type} {f : α → Except ε Unit} {xs : List α} :
    xs.forM f = .ok () ↔ ∀ x ∈ xs, f x = .ok () := by
  induction xs with
  | nil => simp [List.forM, pure, Except.pure]
  | cons x rest ih =>
    have hcons : (x :: rest).forM f = (do f x; rest.forM f) := rfl
    rw [hcons, seq_eq_ok, List.forall_mem_cons, ih]

/-- A check of every entry of a table, with its position. -/
theorem forM_zipIdx_eq_ok {ε α : Type} {f : α × Nat → Except ε Unit} {xs : List α} :
    xs.zipIdx.forM f = .ok () ↔ ∀ i x, xs[i]? = some x → f (x, i) = .ok () := by
  rw [forM_eq_ok]
  constructor
  · intro h i x hx
    exact h (x, i) (List.mk_mem_zipIdx_iff_getElem?.mpr hx)
  · rintro h ⟨x, i⟩ hmem
    exact h i x (List.mk_mem_zipIdx_iff_getElem?.mp hmem)

theorem mapM_eq_ok {ε α β : Type} {f : α → Except ε β} {xs : List α} {ys : List β} :
    xs.mapM f = .ok ys ↔ List.Forall₂ (fun x y => f x = .ok y) xs ys := by
  induction xs generalizing ys with
  | nil => simp [pure, Except.pure, eq_comm]
  | cons x rest ih =>
    rw [List.mapM_cons, bind_eq_ok, List.forall₂_cons_left_iff]
    constructor
    · rintro ⟨y, hy, h⟩
      obtain ⟨tail, htail, hys⟩ := bind_eq_ok.mp h
      exact ⟨y, tail, hy, ih.mp htail, (Except.ok.inj hys).symm⟩
    · rintro ⟨y, tail, hy, htail, rfl⟩
      exact ⟨y, hy, bind_eq_ok.mpr ⟨tail, ih.mpr htail, rfl⟩⟩

/-- A computation that succeeds on every entry gives the list of its results. -/
theorem mapM_of_forall {ε α β : Type} {f : α → Except ε β} {g : α → β} {xs : List α}
    (h : ∀ x ∈ xs, f x = .ok (g x)) : xs.mapM f = .ok (xs.map g) := by
  refine mapM_eq_ok.mpr (List.forall₂_map_right_iff.mpr ?_)
  exact List.forall₂_same.mpr h

theorem mem_of_mapM {ε α β : Type} {f : α → Except ε β} {xs : List α} {ys : List β}
    (h : xs.mapM f = .ok ys) {y : β} (hy : y ∈ ys) : ∃ x ∈ xs, f x = .ok y := by
  have hall := mapM_eq_ok.mp h
  clear h
  induction hall with
  | nil => simp at hy
  | cons hfirst _ ih =>
    rcases List.mem_cons.mp hy with rfl | hy
    · exact ⟨_, List.mem_cons_self .., hfirst⟩
    · obtain ⟨x, hx, hfx⟩ := ih hy
      exact ⟨x, List.mem_cons_of_mem _ hx, hfx⟩

/-- A list of computations ends if each of them does. -/
theorem exists_mapM {ε α β : Type} {f : α → Except ε β} {xs : List α} :
    (∃ ys, xs.mapM f = .ok ys) ↔ ∀ x ∈ xs, ∃ y, f x = .ok y := by
  induction xs with
  | nil => simp [pure, Except.pure]
  | cons x rest ih =>
    rw [List.mapM_cons, exists_bind, List.forall_mem_cons, ← ih]
    constructor
    · rintro ⟨y, hy, h⟩
      obtain ⟨ys, hys, -⟩ := exists_bind.mp h
      exact ⟨⟨y, hy⟩, ys, hys⟩
    · rintro ⟨⟨y, hy⟩, ys, hys⟩
      exact ⟨y, hy, exists_bind.mpr ⟨ys, hys, _, rfl⟩⟩

/-! ### Traps -/

theorem Checked.exists_get {α : Type} {xs : List α} {i : Nat} :
    (∃ x, Checked.get xs i = .ok x) ↔ i < xs.length := by
  have hsome : xs[i]?.isSome ↔ i < xs.length := by simp
  rw [← hsome, Checked.get]
  cases xs[i]? <;> simp

theorem Checked.get_eq_ok {α : Type} {xs : List α} {i : Nat} {x : α} :
    Checked.get xs i = .ok x ↔ xs[i]? = some x := by
  rw [Checked.get]
  cases xs[i]? <;> simp

/-- A computation that gives a result if a condition holds, and overflows if not. -/
def Checked.GivesIf {α : Type} (x : Checked α) (p : Prop) (a : α) : Prop :=
  (p → x = .ok a) ∧ (¬p → x = .error .overflow)

namespace Checked.GivesIf

variable {α β : Type} {x : Checked α} {a : α} {p q : Prop}

theorem congr (h : x.GivesIf p a) (hpq : p ↔ q) : x.GivesIf q a :=
  propext hpq ▸ h

theorem ok (a : α) : Checked.GivesIf (.ok a) True a :=
  ⟨fun _ => rfl, fun h => absurd trivial h⟩

theorem bind {f : α → Checked β} {b : β} (h : x.GivesIf p a) (hf : (f a).GivesIf q b) :
    (x >>= f).GivesIf (p ∧ q) b := by
  by_cases hp : p
  · rw [h.1 hp]
    exact hf.congr (and_iff_right hp).symm
  · rw [h.2 hp]
    exact ⟨fun hpq => absurd hpq.1 hp, fun _ => rfl⟩

theorem mapM {f : α → Checked β} {g : α → β} {p : α → Prop} (xs : List α)
    (h : ∀ x ∈ xs, (f x).GivesIf (p x) (g x)) :
    (xs.mapM f).GivesIf (∀ x ∈ xs, p x) (xs.map g) := by
  induction xs with
  | nil => exact (ok []).congr (by simp)
  | cons x rest ih =>
    obtain ⟨hx, hrest⟩ := List.forall_mem_cons.mp h
    rw [List.mapM_cons, List.map_cons]
    refine congr (hx.bind ((ih hrest).bind (ok _))) ?_
    simp

end Checked.GivesIf

theorem Word.mul_givesIf (a b : Nat) : (Word.mul a b).GivesIf (a * b < Word.count) (a * b) :=
  ⟨fun h => if_pos h, fun h => if_neg h⟩

/-! ### Results that are missing -/

/-- One entry without a result leaves the list without one. -/
theorem mapM_eq_none {α β : Type} {f : α → Option β} {xs : List α} {x : α} (hx : x ∈ xs)
    (h : f x = none) : xs.mapM f = none := by
  induction xs with
  | nil => simp at hx
  | cons y rest ih =>
    rw [List.mapM_cons]
    rcases List.mem_cons.mp hx with rfl | hx
    · rw [h]
      rfl
    · rw [ih hx]
      cases f y <;> rfl

theorem mapM_eq_some {α β : Type} {f : α → Option β} {xs : List α}
    (h : ∀ x ∈ xs, ∃ b, f x = some b) :
    ∃ bs, xs.mapM f = some bs ∧ bs.length = xs.length ∧ ∀ t : Nat, bs[t]? = xs[t]?.bind f := by
  induction xs with
  | nil => exact ⟨[], rfl, rfl, fun t => by simp⟩
  | cons x rest ih =>
    obtain ⟨b, hb⟩ := h x (List.mem_cons_self ..)
    obtain ⟨bs, hbs, hlength, hget⟩ := ih fun y hy => h y (List.mem_cons_of_mem x hy)
    refine ⟨b :: bs, ?_, by simp [hlength], ?_⟩
    · rw [List.mapM_cons, hb, hbs]
      rfl
    · intro t
      cases t with
      | zero => simp [hb]
      | succ t => simpa using hget t

theorem mapM_option_of_forall {α β : Type} {f : α → Option β} {g : α → β} {xs : List α}
    (h : ∀ x ∈ xs, f x = some (g x)) : xs.mapM f = some (xs.map g) := by
  induction xs with
  | nil => rfl
  | cons x rest ih =>
    obtain ⟨hx, hrest⟩ := List.forall_mem_cons.mp h
    rw [List.mapM_cons, hx, ih hrest]
    rfl

/-- A table of results, one for each number below a bound. -/
theorem mapM_range_eq_some {β : Type} {f : Nat → Option β} {n : Nat}
    (h : ∀ t < n, ∃ b, f t = some b) :
    ∃ bs : Array β, (Array.range n).mapM f = some bs ∧ bs.size = n ∧ ∀ t < n, bs[t]? = f t := by
  obtain ⟨bs, hbs, hlength, hget⟩ := mapM_eq_some fun t ht => h t (List.mem_range.mp ht)
  refine ⟨bs.toArray, ?_, by simpa using hlength, ?_⟩
  · rw [Array.mapM_eq_mapM_toList, Array.toList_range, hbs]
    rfl
  · intro t ht
    rw [List.getElem?_toArray, hget, List.getElem?_range ht]
    rfl

theorem mapM_range_eq_none {β : Type} {f : Nat → Option β} {n t : Nat} (ht : t < n)
    (h : f t = none) :
    (Array.range n).mapM f = none := by
  rw [Array.mapM_eq_mapM_toList, Array.toList_range, mapM_eq_none (List.mem_range.mpr ht) h]
  rfl

/-- A loop over parts, each a loop of its own. -/
theorem foldlM_flatMap {α β γ : Type} (f : β → List γ) (g : α → γ → Option α) (xs : List β)
    (a : α) : (xs.flatMap f).foldlM g a = xs.foldlM (fun a x => (f x).foldlM g a) a := by
  induction xs generalizing a with
  | nil => rfl
  | cons x rest ih =>
    rw [List.flatMap_cons, List.foldlM_append, List.foldlM_cons]
    congr 1
    funext b
    exact ih b

theorem foldlM_congr {α β : Type} {f g : α → β → Option α} {xs : List β}
    (h : ∀ x ∈ xs, ∀ a, f a x = g a x) (a : α) : xs.foldlM f a = xs.foldlM g a := by
  induction xs generalizing a with
  | nil => rfl
  | cons x rest ih =>
    rw [List.foldlM_cons, List.foldlM_cons, h x (List.mem_cons_self ..)]
    congr 1
    funext b
    exact ih (fun y hy => h y (List.mem_cons_of_mem x hy)) b

theorem foldlM_eq_foldl {α β : Type} {f : α → β → Option α} {g : α → β → α} {xs : List β}
    (h : ∀ x ∈ xs, ∀ a, f a x = some (g a x)) (a : α) : xs.foldlM f a = some (xs.foldl g a) := by
  induction xs generalizing a with
  | nil => rfl
  | cons x rest ih =>
    rw [List.foldlM_cons, h x (List.mem_cons_self ..)]
    exact ih (fun y hy => h y (List.mem_cons_of_mem x hy)) _

/-! ### Entries of lists -/

theorem getElem?_append_of_eq_some {α : Type} {xs : List α} {a : α} {i : Nat} (h : xs[i]? = some a)
    (ys : List α) : (xs ++ ys)[i]? = some a := by
  rw [List.getElem?_append_left (List.getElem?_eq_some_iff.mp h).1, h]

theorem getElem?_concat_eq_some {α : Type} {xs : List α} {a c : α} {i : Nat}
    (h : (xs ++ [a])[i]? = some c) : xs[i]? = some c ∨ i = xs.length ∧ c = a := by
  rcases Nat.lt_trichotomy i xs.length with hi | rfl | hi
  · rw [List.getElem?_append_left hi] at h
    exact Or.inl h
  · rw [List.getElem?_concat_length] at h
    exact Or.inr ⟨rfl, (Option.some.inj h).symm⟩
  · rw [List.getElem?_eq_none (by simp; omega)] at h
    cases h

theorem isSome_eq_of_rel {α β : Type} {R : α → β → Prop} {a : Option α} {b : Option β}
    (h : Option.Rel R a b) : a.isSome = b.isSome := by
  cases h <;> rfl

theorem eq_of_rel {α : Type} {R : α → α → Prop} (hR : ∀ a b, R a b → a = b) {a b : Option α}
    (h : Option.Rel R a b) : a = b := by
  cases h with
  | none => rfl
  | some hab => rw [hR _ _ hab]

theorem eq_of_forall₂ {α : Type} {R : α → α → Prop} (hR : ∀ a b, R a b → a = b) {xs ys : List α}
    (h : List.Forall₂ R xs ys) : xs = ys := by
  rw [← List.forall₂_eq_eq_eq]
  exact h.imp hR

theorem exists_forall₂ {α β : Type} {R : α → β → Prop} {xs : List α} (h : ∀ x ∈ xs, ∃ y, R x y) :
    ∃ ys, List.Forall₂ R xs ys := by
  induction xs with
  | nil => exact ⟨[], .nil⟩
  | cons x rest ih =>
    obtain ⟨y, hy⟩ := h x (List.mem_cons_self ..)
    obtain ⟨ys, hys⟩ := ih fun x hx => h x (List.mem_cons_of_mem _ hx)
    exact ⟨y :: ys, .cons hy hys⟩

section Related

variable {α β : Type} {R : α → β → Prop} {xs : List α} {ys : List β}

theorem forall₂_getElem? (h : List.Forall₂ R xs ys) (i : Nat) : Option.Rel R xs[i]? ys[i]? := by
  induction h generalizing i with
  | nil => exact .none
  | cons hfirst _ ih =>
    cases i with
    | zero => exact .some hfirst
    | succ i => exact ih i

theorem forall₂_set (h : List.Forall₂ R xs ys) {a : α} {b : β} (hab : R a b) (i : Nat) :
    List.Forall₂ R (xs.set i a) (ys.set i b) := by
  induction h generalizing i with
  | nil => exact .nil
  | cons hfirst hrest ih =>
    cases i with
    | zero => exact .cons hab hrest
    | succ i => exact .cons hfirst (ih i)

theorem map_eq_of_forall₂ {γ : Type} {f : α → γ} {g : β → γ} (h : List.Forall₂ R xs ys)
    (hfg : ∀ a b, R a b → f a = g b) : xs.map f = ys.map g := by
  rw [← List.forall₂_eq_eq_eq, List.forall₂_map_left_iff, List.forall₂_map_right_iff]
  exact h.imp hfg

theorem forall₂_zip {γ δ : Type} {S : γ → δ → Prop} {zs : List γ} {ws : List δ}
    (h : List.Forall₂ R xs ys) (h' : List.Forall₂ S zs ws) :
    List.Forall₂ (fun p q => R p.1 q.1 ∧ S p.2 q.2) (xs.zip zs) (ys.zip ws) := by
  induction h generalizing zs ws with
  | nil => exact .nil
  | cons hfirst _ ih =>
    cases h' with
    | nil => exact .nil
    | cons hfirst' hrest' => exact .cons ⟨hfirst, hfirst'⟩ (ih hrest')

/-- Related lists stay related when they are sorted by orders that agree on related entries. -/
theorem forall₂_mergeSort {le : α → α → Bool} {le' : β → β → Bool} (h : List.Forall₂ R xs ys)
    (hle : ∀ a a' b b', R a b → R a' b' → le a a' = le' b b') :
    List.Forall₂ R (xs.mergeSort le) (ys.mergeSort le') := by
  have hlength := h.length_eq
  have hzip : ∀ p ∈ xs.zip ys, R p.1 p.2 := fun p hp => List.forall₂_zip h hp
  -- Both are the same sort of the pairs, seen from the left and from the right.
  have hleft : ((xs.zip ys).mergeSort fun p q => le p.1 q.1).map Prod.fst = xs.mergeSort le := by
    rw [List.map_mergeSort (s := le) fun _ _ _ _ => rfl, List.map_fst_zip (Nat.le_of_eq hlength)]
  have hright : ((xs.zip ys).mergeSort fun p q => le p.1 q.1).map Prod.snd = ys.mergeSort le' := by
    rw [List.map_mergeSort (s := le') fun p hp q hq => hle _ _ _ _ (hzip p hp) (hzip q hq),
      List.map_snd_zip (Nat.le_of_eq hlength.symm)]
  rw [← hleft, ← hright, List.forall₂_map_left_iff, List.forall₂_map_right_iff, List.forall₂_same]
  exact fun p hp => hzip p (List.mem_mergeSort.mp hp)

end Related

end NestTuner

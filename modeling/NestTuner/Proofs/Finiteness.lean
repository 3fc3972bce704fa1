import Mathlib.Data.Set.Finite.Lattice
import Mathlib.Data.Set.Finite.List
import NestTuner.Proofs.Commutation

/-!
Schedules are bounded. A tiling cuts a loop into two that run at least twice each, so the logarithms
of the extents leave room for so many tilings and no more, wherever the loops are moved in between.
A mark is never lost, and can be set only once. So the nests that edits lead to are among finitely
many, and from some point on a history without end only moves loops around.
-/

namespace NestTuner

namespace Mark

/-- Whether a loop carries the mark. -/
def on : Mark → Loop → Bool
  | parallel, l => l.parallel
  | vectorized, l => l.vectorWidth.isSome

/-- The edits that set the mark. -/
def kind : Mark → EditKind
  | parallel => .parallelization
  | vectorized => .vectorization

end Mark

namespace Loop

/-- How many more times a loop can be cut into tiles. -/
def room (l : Loop) : Nat :=
  Nat.log2 l.extent - 1

theorem log2_add_log2_le {a b : Nat} (ha : a ≠ 0) (hb : b ≠ 0) :
    Nat.log2 a + Nat.log2 b ≤ Nat.log2 (a * b) := by
  refine (Nat.le_log2 (Nat.mul_ne_zero ha hb)).mpr ?_
  rw [Nat.pow_add]
  exact Nat.mul_le_mul (Nat.log2_self_le ha) (Nat.log2_self_le hb)

/-- A tiling takes up room. -/
theorem Tileable.room_lt {l : Loop} {size : Nat} (h : l.Tileable size) :
    ((l.tiles size).map room).sum < l.room := by
  obtain ⟨c, hc⟩ := h.dvd
  have hsize := h.two
  have hdiv : l.extent / size = c := by
    rw [hc]
    exact Nat.mul_div_cancel_left c (by omega)
  have htwo : 2 ≤ c := by
    by_contra hsmall
    have hle : size * c ≤ size * 1 := Nat.mul_le_mul_left size (by omega)
    have hlt := h.lt
    omega
  have hsum := log2_add_log2_le (a := size) (b := c) (by omega) (by omega)
  have hlog : 1 ≤ Nat.log2 size := (Nat.le_log2 (by omega)).mpr hsize
  have hlog' : 1 ≤ Nat.log2 c := (Nat.le_log2 (by omega)).mpr htwo
  simp only [tiles, room, hdiv, List.map_cons, List.map_nil, List.sum_cons, List.sum_nil]
  rw [hc]
  omega

theorem room_full (i extent : Nat) : (full i extent).room = Nat.log2 extent - 1 := rfl

/-- A loop whose numbers are all bounded. -/
structure Within (bound : Nat) (l : Loop) : Prop where
  iterator : l.iterator ≤ bound
  extent : l.extent ≤ bound
  stride : l.stride ≤ bound
  reach : l.stride * l.extent ≤ bound
  width : ∀ width ∈ l.vectorWidth, width ≤ bound

theorem Tileable.within {l : Loop} {size bound : Nat} (h : l.Tileable size)
    (hl : l.Within bound) : ∀ m ∈ l.tiles size, m.Within bound := by
  have hsize : l.stride * size ≤ l.stride * l.extent := Nat.mul_le_mul_left _ h.lt.le
  have hreach := hl.reach
  intro m hm
  rcases List.mem_pair.mp hm with rfl | rfl
  · refine ⟨hl.iterator, (Nat.div_le_self ..).trans hl.extent, hsize.trans hreach, ?_, hl.width⟩
    simp only
    rwa [Nat.mul_assoc, Nat.mul_div_cancel' h.dvd]
  · exact ⟨hl.iterator, h.lt.le.trans hl.extent, hl.stride, hsize.trans hreach, hl.width⟩

theorem finite_within (bound : Nat) : {l : Loop | l.Within bound}.Finite := by
  have hnumbers : {n | n ≤ bound}.Finite := Set.finite_le_nat bound
  have hwidths := (hnumbers.image some).insert none
  refine ((hnumbers.prod (hnumbers.prod (hnumbers.prod (Set.finite_univ.prod hwidths)))).image
    fun p : Nat × Nat × Nat × Bool × Option Nat =>
      (⟨p.1, p.2.1, p.2.2.1, p.2.2.2.1, p.2.2.2.2⟩ : Loop)).subset ?_
  intro l hl
  refine ⟨(l.iterator, l.extent, l.stride, l.parallel, l.vectorWidth), ?_, rfl⟩
  refine ⟨hl.iterator, hl.extent, hl.stride, Set.mem_univ _, ?_⟩
  cases hwidth : l.vectorWidth with
  | none => exact Set.mem_insert ..
  | some width => exact Set.mem_insert_of_mem _ ⟨width, hl.width width hwidth, rfl⟩

theorem Within.mono {l : Loop} {bound bound' : Nat} (h : l.Within bound) (hle : bound ≤ bound') :
    l.Within bound' where
  iterator := h.iterator.trans hle
  extent := h.extent.trans hle
  stride := h.stride.trans hle
  reach := h.reach.trans hle
  width width hwidth := (h.width width hwidth).trans hle

theorem exists_within (loops : List Loop) (least : Nat) :
    ∃ bound, least ≤ bound ∧ ∀ l ∈ loops, l.Within bound := by
  induction loops with
  | nil => exact ⟨least, Nat.le_refl _, by simp⟩
  | cons l rest ih =>
    obtain ⟨bound, hleast, hrest⟩ := ih
    have hwidth : ∀ width ∈ l.vectorWidth, width ≤ l.vectorWidth.getD 0 := by
      intro width hwidth
      rw [Option.mem_def.mp hwidth, Option.getD_some]
    refine ⟨bound + l.iterator + l.extent + l.stride + l.stride * l.extent + l.vectorWidth.getD 0,
      by omega, fun m hm => ?_⟩
    rcases List.mem_cons.mp hm with rfl | hm
    · exact ⟨by omega, by omega, by omega, by omega, fun width h => by
        have hle := hwidth width h
        omega⟩
    · exact (hrest m hm).mono (by omega)

end Loop

theorem Nest.room_identity (iterators : List Iterator) :
    (identity iterators).loops.map (·.room) = iterators.map fun it => Nat.log2 it.extent - 1 :=
  List.ext_getElem (by simp [identity]) (by simp [identity, Loop.room_full])

namespace Kernel

/-- What holds at the start and is kept by every accepted edit holds after every history. -/
theorem replay_induction {P : List Edit → List Loop → Prop} {k k' : Kernel} {history : List Edit}
    (hstart : P [] k.nest.loops)
    (hstep : ∀ past m e loops, P past (nest m).loops → m.Accepts e loops → P (past ++ [e]) loops)
    (h : k.replay history = .ok k') : P history k'.nest.loops := by
  suffices hrun : ∀ rest past (m : Kernel) step, P past m.nest.loops →
      m.replayFrom step rest = .ok k' → P (past ++ rest) k'.nest.loops from
    hrun history [] k 0 hstart h
  intro rest
  induction rest with
  | nil =>
    intro past m step hpast hrest
    obtain rfl := Except.ok.inj hrest
    rwa [List.append_nil]
  | cons e rest ih =>
    intro past m step hpast hrest
    unfold replayFrom at hrest
    split at hrest
    case h_1 next hnext =>
      obtain ⟨loops, haccepts, rfl⟩ := accepts_of_apply hnext
      have hdone := ih (past ++ [e]) _ (step + 1) (hstep past m e loops hpast haccepts) hrest
      rwa [List.append_assoc] at hdone
    case h_2 => cases hrest

section Step

variable {k : Kernel} {e : Edit} {loops : List Loop}

/-- Only a tiling adds a loop. -/
theorem Accepts.length_eq (h : k.Accepts e loops) :
    loops.length = k.nest.loops.length + [e.kind].count .tiling := by
  cases h with
  | tile hloops => simp [hloops, Edit.kind]; omega
  | interchange hperm => exact (Nest.permuted_perm hperm).length_eq
  | parallelize hloops => simp [hloops, Edit.kind]
  | vectorize hloops => simp [hloops, Edit.kind]

/-- Only a tiling takes up room. -/
theorem Accepts.room_le (h : k.Accepts e loops) :
    [e.kind].count .tiling + (loops.map (·.room)).sum ≤ (k.nest.loops.map (·.room)).sum := by
  cases h with
  | @tile before after l size hloops hparallel hvector htwo hlt hdvd hfits =>
    have hroom := Loop.Tileable.room_lt ⟨hparallel, hvector, htwo, hlt, hdvd, hfits⟩
    simp only [Loop.tiles, List.map_cons, List.map_nil, List.sum_cons, List.sum_nil] at hroom
    simp [hloops, Edit.kind]
    omega
  | interchange hperm =>
    have hsum := ((Nest.permuted_perm hperm).map (·.room)).sum_eq
    simp [hsum, Edit.kind]
  | parallelize hloops => simp [hloops, Edit.kind, Loop.room]
  | vectorize hloops => simp [hloops, Edit.kind, Loop.room]

/-- A mark is never lost, and set only where no loop carries it. -/
theorem Accepts.marks_eq (h : k.Accepts e loops) (mark : Mark) :
    loops.countP mark.on = k.nest.loops.countP mark.on + [e.kind].count mark.kind ∧
      (e.kind = mark.kind → k.nest.loops.countP mark.on = 0) := by
  cases h with
  | tile hloops hparallel hvector =>
    cases mark <;> simp [hloops, Edit.kind, Mark.on, Mark.kind, hparallel, hvector]
  | interchange hperm =>
    have hcount := (Nest.permuted_perm hperm).countP_eq mark.on
    cases mark <;> simp [hcount, Edit.kind, Mark.kind]
  | @parallelize after l it hloops hfirst =>
    cases mark with
    | parallel =>
      have hnone : k.nest.loops.countP Mark.parallel.on = 0 :=
        List.countP_eq_zero.mpr fun m hm => by simp [Mark.on, hfirst m hm]
      have hafter : after.countP Mark.parallel.on = 0 :=
        List.countP_eq_zero.mpr fun m hm => by simp [Mark.on, hfirst m (by simp [hloops, hm])]
      rw [hnone, List.countP_cons, hafter]
      exact ⟨rfl, fun _ => rfl⟩
    | vectorized =>
      rw [hloops, List.countP_cons, List.countP_cons]
      exact ⟨rfl, nofun⟩
  | @vectorize before l width hloops hfirst =>
    cases mark with
    | parallel =>
      rw [hloops, List.countP_append, List.countP_append]
      exact ⟨rfl, nofun⟩
    | vectorized =>
      have hnone : k.nest.loops.countP Mark.vectorized.on = 0 :=
        List.countP_eq_zero.mpr fun m hm => by simp [Mark.on, hfirst m hm]
      have hbefore : before.countP Mark.vectorized.on = 0 :=
        List.countP_eq_zero.mpr fun m hm => by simp [Mark.on, hfirst m (by simp [hloops, hm])]
      rw [hnone, List.countP_append, hbefore]
      exact ⟨rfl, fun _ => rfl⟩

/-- The numbers of the loops stay bounded. -/
theorem Accepts.within (h : k.Accepts e loops) {bound : Nat}
    (hwidths : ∀ w ∈ vectorWidths, w ≤ bound) (hk : ∀ l ∈ k.nest.loops, l.Within bound) :
    ∀ l ∈ loops, l.Within bound := by
  cases h with
  | tile hloops hparallel hvector htwo hlt hdvd hfits =>
    have htile : Loop.Tileable _ _ := ⟨hparallel, hvector, htwo, hlt, hdvd, hfits⟩
    exact forall_spliced _ (hloops ▸ hk) (htile.within (hk _ (by simp [hloops])))
  | interchange hperm => exact fun l hl => hk l ((Nest.permuted_perm hperm).mem_iff.mp hl)
  | @parallelize after l it hloops =>
    have hl := hk l (by simp [hloops])
    rw [hloops, List.forall_mem_cons] at hk
    exact List.forall_mem_cons.mpr
      ⟨⟨hl.iterator, hl.extent, hl.stride, hl.reach, hl.width⟩, hk.2⟩
  | @vectorize before l width hloops _ _ _ hwidth =>
    have hl := hk l (by simp [hloops])
    rw [hloops] at hk
    have hmarked : Loop.Within bound { l with vectorWidth := some width } :=
      ⟨hl.iterator, hl.extent, hl.stride, hl.reach, by simpa using hwidths width hwidth⟩
    have hall := forall_spliced [{ l with vectorWidth := some width }] hk (by simpa using hmarked)
    rwa [List.append_nil] at hall

end Step

section History

variable {k k' : Kernel} {history : List Edit}

theorem depth_of_replay (h : k.replay history = .ok k') :
    k'.nest.depth = k.nest.depth + (history.map (·.kind)).count .tiling := by
  refine replay_induction (P := fun past loops =>
    loops.length = k.nest.depth + (past.map (·.kind)).count .tiling) rfl ?_ h
  intro past m e loops hpast haccepts
  rw [haccepts.length_eq, hpast, List.map_append, List.count_append, Nat.add_assoc]
  rfl

theorem room_of_replay (h : k.replay history = .ok k') :
    (history.map (·.kind)).count .tiling + (k'.nest.loops.map (·.room)).sum ≤
      (k.nest.loops.map (·.room)).sum := by
  refine replay_induction (P := fun past loops => (past.map (·.kind)).count .tiling +
    (loops.map (·.room)).sum ≤ (k.nest.loops.map (·.room)).sum) (by simp) ?_ h
  intro past m e loops hpast haccepts
  have hroom := haccepts.room_le
  rw [List.map_append, List.count_append]
  change _ + [e.kind].count .tiling + _ ≤ _
  omega

/-- A history sets as many marks as the nest gains, and at most one of each. -/
theorem marks_of_replay (h : k.replay history = .ok k') (mark : Mark) :
    k'.nest.loops.countP mark.on =
        k.nest.loops.countP mark.on + (history.map (·.kind)).count mark.kind ∧
      (history.map (·.kind)).count mark.kind ≤ 1 := by
  refine replay_induction (P := fun past loops => loops.countP mark.on =
      k.nest.loops.countP mark.on + (past.map (·.kind)).count mark.kind ∧
        (past.map (·.kind)).count mark.kind ≤ 1) (by simp) ?_ h
  intro past m e loops ⟨hcount, hone⟩ haccepts
  obtain ⟨hmarks, hfirst⟩ := haccepts.marks_eq mark
  rw [List.map_append, List.count_append]
  change loops.countP mark.on = _ + (_ + [e.kind].count mark.kind) ∧
    _ + [e.kind].count mark.kind ≤ 1
  by_cases hkind : e.kind = mark.kind
  · have hzero := hfirst hkind
    rw [hkind, List.count_singleton_self] at hmarks ⊢
    omega
  · rw [List.count_singleton, if_neg (by simpa using hkind)] at hmarks ⊢
    omega

theorem within_of_replay (h : k.replay history = .ok k') {bound : Nat}
    (hwidths : ∀ w ∈ vectorWidths, w ≤ bound) (hk : ∀ l ∈ k.nest.loops, l.Within bound) :
    ∀ l ∈ k'.nest.loops, l.Within bound :=
  replay_induction (P := fun _ loops => ∀ l ∈ loops, l.Within bound) hk
    (fun _ _ _ _ hpast haccepts => haccepts.within hwidths hpast) h

/-- All edits but those that move loops around are used up. -/
theorem changes_of_replay (h : k.replay history = .ok k') :
    (history.map (·.kind)).countP (· != .interchange) ≤ (k.nest.loops.map (·.room)).sum + 2 := by
  have hkinds : ∀ kinds : List EditKind, kinds.countP (· != .interchange) =
      kinds.count .tiling + kinds.count .parallelization + kinds.count .vectorization := by
    intro kinds
    induction kinds with
    | nil => rfl
    | cons kind kinds ih => cases kind <;> simp [ih] <;> omega
  have hroom := room_of_replay h
  have hparallel := (marks_of_replay h .parallel).2
  have hvector := (marks_of_replay h .vectorized).2
  simp only [Mark.kind] at hparallel hvector
  rw [hkinds]
  omega

end History

theorem finite_loops (depth bound : Nat) :
    {loops : List Loop | loops.length ≤ depth ∧ ∀ l ∈ loops, l.Within bound}.Finite := by
  have hfinite : Finite {l : Loop // l.Within bound} := (Loop.finite_within bound).to_subtype
  refine ((List.finite_length_le {l : Loop // l.Within bound} depth).image
    (List.map Subtype.val)).subset ?_
  rintro loops ⟨hlength, hwithin⟩
  exact ⟨loops.attachWith _ hwithin, by simpa using hlength, by simp⟩

/-- The nests that histories of edits lead to are finitely many. -/
theorem finite_reachable (k : Kernel) :
    {n : Nest | ∃ history k', k.replay history = .ok k' ∧ k'.nest = n}.Finite := by
  obtain ⟨bound, hleast, hwithin⟩ := Loop.exists_within k.nest.loops 16
  have hwidths : ∀ w ∈ vectorWidths, w ≤ bound := by
    intro w hw
    have hle : ∀ w ∈ vectorWidths, w ≤ 16 := by decide
    exact (hle w hw).trans hleast
  refine ((finite_loops (k.nest.depth + (k.nest.loops.map (·.room)).sum) bound).image
    Nest.mk).subset ?_
  rintro n ⟨history, k', hreplay, rfl⟩
  refine ⟨k'.nest.loops, ⟨?_, within_of_replay hreplay hwidths hwithin⟩, rfl⟩
  have hdepth : k'.nest.loops.length = _ := depth_of_replay hreplay
  have hroom := room_of_replay hreplay
  omega

/-- In a sequence of edits without end, all edits from some point on move loops around. -/
theorem eventually_interchange {k : Kernel} {e : Nat → Edit}
    (h : ∀ n, ∃ k', k.replay ((List.range n).map e) = .ok k') :
    ∃ n, ∀ m, n ≤ m → (e m).kind = .interchange := by
  let changes (n : Nat) : Nat := (((List.range n).map e).map (·.kind)).countP (· != .interchange)
  have hmono : ∀ n m, n ≤ m → changes n ≤ changes m := fun n m hle =>
    (((List.range_sublist.mpr hle).map e).map (·.kind)).countP_le
  by_contra hnever
  push Not at hnever
  have hgrow : ∀ count, ∃ n, count ≤ changes n := by
    intro count
    induction count with
    | zero => exact ⟨0, Nat.zero_le _⟩
    | succ count ih =>
      obtain ⟨n, hn⟩ := ih
      obtain ⟨m, hle, hkind⟩ := hnever n
      have hnext : changes (m + 1) = changes m + 1 := by
        simp [changes, List.range_succ, hkind]
      have := hmono n m hle
      exact ⟨m + 1, by omega⟩
  obtain ⟨n, hn⟩ := hgrow ((k.nest.loops.map (·.room)).sum + 3)
  obtain ⟨k', hk'⟩ := h n
  have hle : changes n ≤ _ := changes_of_replay hk'
  omega

end Kernel

namespace Draft

/-- Schedules are bounded. After a history of edits on a kernel that was built, the nest has one
loop for each iterator and one more for each tiling, no mark was set twice, and the logarithms of
the extents bound the tilings. So from every kernel only finitely many nests can be reached, and no
sequence of edits tiles or marks loops without end. -/
theorem schedules_bounded (k : Kernel) :
    (∀ d : Draft, d.build = .ok k → ∀ history k', k.replay history = .ok k' →
      k'.nest.depth = k.iterators.length + (history.map (·.kind)).count .tiling ∧
      (history.map (·.kind)).count .parallelization ≤ 1 ∧
      (history.map (·.kind)).count .vectorization ≤ 1 ∧
      (history.map (·.kind)).count .tiling ≤
        (k.iterators.map fun it => Nat.log2 it.extent - 1).sum) ∧
    {n : Nest | ∃ history k', k.replay history = .ok k' ∧ k'.nest = n}.Finite ∧
    ∀ e : Nat → Edit, (∀ n, ∃ k', k.replay ((List.range n).map e) = .ok k') →
      ∃ n, ∀ m, n ≤ m → (e m).kind = .interchange := by
  refine ⟨?_, k.finite_reachable, fun e => Kernel.eventually_interchange⟩
  intro d hbuild history k' hreplay
  obtain ⟨-, hnest, -⟩ := checkSurface_of_build hbuild
  have hdepth := Kernel.depth_of_replay hreplay
  have hroom := Kernel.room_of_replay hreplay
  refine ⟨?_, (Kernel.marks_of_replay hreplay .parallel).2,
    (Kernel.marks_of_replay hreplay .vectorized).2, ?_⟩
  · simpa [hnest, Nest.depth, Nest.identity] using hdepth
  · rw [hnest, Nest.room_identity] at hroom
    omega

/-- Two loops that change places again and again. -/
def swapping (_ : Nat) : Edit :=
  .interchange [1, 0, 2]

theorem swapping_replay (n : Nat) :
    ∃ k', (Kernel.matmul "square" 8 8 8).replay ((List.range n).map swapping) = .ok k' := by
  let swapped : Kernel := { Kernel.matmul "square" 8 8 8 with
    nest := ⟨[Loop.full 1 8, Loop.full 0 8, Loop.full 2 8]⟩ }
  have hthere : (Kernel.matmul "square" 8 8 8).apply (.interchange [1, 0, 2]) = .ok swapped := rfl
  have hback : swapped.apply (.interchange [1, 0, 2]) = .ok (Kernel.matmul "square" 8 8 8) := rfl
  suffices hrun : ∀ step,
      (∃ k', (Kernel.matmul "square" 8 8 8).replayFrom step
        (List.replicate n (.interchange [1, 0, 2])) = .ok k') ∧
      ∃ k', swapped.replayFrom step (List.replicate n (.interchange [1, 0, 2])) = .ok k' by
    have hconst : (List.range n).map swapping = List.replicate n (.interchange [1, 0, 2]) :=
      List.eq_replicate_iff.mpr ⟨by simp, by simp [swapping]⟩
    rw [hconst]
    exact (hrun 0).1
  induction n with
  | zero => exact fun step => ⟨⟨_, rfl⟩, ⟨_, rfl⟩⟩
  | succ n ih =>
    intro step
    obtain ⟨hfirst, hsecond⟩ := ih (step + 1)
    rw [List.replicate_succ, Kernel.replayFrom, Kernel.replayFrom, hthere, hback]
    exact ⟨hsecond, hfirst⟩

/-- The product of square matrices of size eight has room for six tilings, and its loops can be
moved around without end. -/
theorem schedules_bounded_square :
    (square 8).build = .ok (Kernel.matmul "square" 8 8 8) ∧
      (Kernel.matmul "square" 8 8 8).replay tuning = .ok tuned ∧ tuned.nest.depth = 3 + 2 ∧
      (tuning.map (·.kind)).count .tiling ≤ 6 ∧
      (∀ n, ∃ k', (Kernel.matmul "square" 8 8 8).replay ((List.range n).map swapping) = .ok k') ∧
      ∃ n, ∀ m, n ≤ m → (swapping m).kind = .interchange := by
  obtain ⟨hbounded, -, hendless⟩ := schedules_bounded (Kernel.matmul "square" 8 8 8)
  obtain ⟨hdepth, -, -, htilings⟩ := hbounded (square 8) square_build tuning tuned tuned_replay
  exact ⟨square_build, tuned_replay, hdepth, htilings, swapping_replay, hendless _ swapping_replay⟩

end Draft

end NestTuner

import NestTuner.Plan.Run
import NestTuner.Proofs.Results
import NestTuner.Proofs.Visits

/-!
A walk as a sequence of revisions. Each point of a plan revises one element of the output: it reads
the element and the operands and writes the element back. Vector lanes change nothing about this
unless they reduce, and then the whole vector loop is one revision. Since a revision sees one
element only, the final value of an element depends on the points that write it, in their order.

Offsets are moved on after every iteration, also after the last one of a loop, so they have to stay
in the range of words one step behind the points.
-/

namespace NestTuner.Plan

variable {α : Type}

/-! ### Offsets -/

namespace Offsets

/-- `n` steps further, whatever the range of words. -/
def ahead (o : Offsets) (n : Nat) (deltas : Offsets) : Offsets :=
  ⟨o.output + n * deltas.output, o.lhs + n * deltas.lhs, o.rhs + n * deltas.rhs⟩

/-- Every offset is a word. -/
def InRange (o : Offsets) : Prop :=
  o.output < Word.count ∧ o.lhs < Word.count ∧ o.rhs < Word.count

theorem ahead_ahead (o : Offsets) (m n : Nat) (deltas : Offsets) :
    (o.ahead m deltas).ahead n deltas = o.ahead (m + n) deltas := by
  simp only [ahead, Nat.add_mul, Nat.add_assoc]

theorem ahead_zero (o deltas : Offsets) : o.ahead 0 deltas = o := by
  simp [ahead]

theorem InRange.mono {o deltas : Offsets} {m n : Nat} (h : (o.ahead n deltas).InRange)
    (hmn : m ≤ n) : (o.ahead m deltas).InRange := by
  have hle := fun d => Nat.mul_le_mul_right d hmn
  exact ⟨(Nat.add_le_add_left (hle _) _).trans_lt h.1,
    (Nat.add_le_add_left (hle _) _).trans_lt h.2.1, (Nat.add_le_add_left (hle _) _).trans_lt h.2.2⟩

theorem advance_eq {o deltas : Offsets} (h : (o.ahead 1 deltas).InRange) :
    o.advance deltas = some (o.ahead 1 deltas) := by
  obtain ⟨houtput, hlhs, hrhs⟩ := h
  simp only [ahead, Nat.one_mul] at houtput hlhs hrhs ⊢
  simp [advance, Word.add, Except.toOption, houtput, hlhs, hrhs]

/-- The first of several steps, and the others from there. -/
theorem InRange.step {o deltas : Offsets} {n : Nat} (h : (o.ahead (n + 1) deltas).InRange) :
    o.advance deltas = some (o.ahead 1 deltas) ∧
      ((o.ahead 1 deltas).ahead n deltas).InRange := by
  refine ⟨advance_eq (h.mono (by omega)), ?_⟩
  rwa [ahead_ahead, Nat.add_comm]

end Offsets

/-! ### Revisions -/

/-- Reads an element, and writes what is made of it. -/
def revise (i : Nat) (f : α → Option α) (out : Array α) : Option (Array α) := do
  store out i (← f (← out[i]?))

/-- The points of a nest of loops, in order. -/
def points : List Loop → Offsets → List Offsets
  | [], o => [o]
  | l :: rest, o => (List.range l.extent).flatMap fun n => points rest (o.ahead n l.deltas)

/-- What a point makes of its output element. -/
def pointStep (A : Arithmetic α) (body : Body) (ops : Operands α) (o : Offsets) (a : α) :
    Option α :=
  match body with
  | .mulAcc => do return A.add a (A.mul (← ops.lhs[o.lhs]?) (← ops.rhs[o.rhs]?))
  | .add => do return A.add (← ops.lhs[o.lhs]?) (← ops.rhs[o.rhs]?)
  | .mul => do return A.mul (← ops.lhs[o.lhs]?) (← ops.rhs[o.rhs]?)
  | .copy => ops.lhs[o.lhs]?

/-- What a vectorized reduction makes of its output element. -/
def laneStep (A : Arithmetic α) (ops : Operands α) (l : Loop) (width : Nat) (o : Offsets) (a : α) :
    Option α := do
  let lanes ← accumulateRows A ops l.deltas (l.extent / width) o (List.replicate width A.zero)
  return A.add a (lanes.foldl A.add A.sumStart)

theorem store_eq_none {out : Array α} {i : Nat} (h : out.size ≤ i) (a : α) :
    store out i a = none := by
  simp [store, Nat.not_lt.mpr h]

theorem point_eq_revise (A : Arithmetic α) (body : Body) (ops : Operands α) (o : Offsets)
    (out : Array α) : point A body ops o out = revise o.output (pointStep A body ops o) out := by
  by_cases hi : o.output < out.size
  · cases body <;> simp only [point, value, revise, pointStep, Array.getElem?_eq_getElem hi] <;>
      cases ops.lhs[o.lhs]? <;> cases ops.rhs[o.rhs]? <;> rfl
  · have hnone : out[o.output]? = none := Array.getElem?_eq_none (Nat.not_lt.mp hi)
    simp only [point, revise, hnone]
    split
    · exact store_eq_none (Nat.not_lt.mp hi) _
    · rfl

theorem reduceLanes_eq_revise (A : Arithmetic α) (ops : Operands α) (l : Loop) (width : Nat)
    (o : Offsets) (out : Array α) :
    reduceLanes A ops l width o out = revise o.output (laneStep A ops l width o) out := by
  unfold reduceLanes revise laneStep
  cases out[o.output]? with
  | none => cases accumulateRows A ops l.deltas (l.extent / width) o _ <;> rfl
  | some a => cases accumulateRows A ops l.deltas (l.extent / width) o _ <;> rfl

/-- A loop carries out its step at each of its offsets. -/
theorem iterate_eq_foldlM {deltas : Offsets} (step : Offsets → Array α → Option (Array α)) {n : Nat}
    {o : Offsets} (h : (o.ahead n deltas).InRange) (out : Array α) :
    iterate deltas step n o out =
      (List.range n).foldlM (fun out m => step (o.ahead m deltas) out) out := by
  induction n generalizing o out with
  | zero => rfl
  | succ n ih =>
    obtain ⟨hadvance, hrest⟩ := h.step
    rw [iterate, List.range_succ_eq_map, List.foldlM_cons, Offsets.ahead_zero]
    cases step o out with
    | none => rfl
    | some next =>
      simp only [hadvance, Option.bind_eq_bind, Option.bind_some, ih hrest, List.foldlM_map,
        Offsets.ahead_ahead, Nat.add_comm 1]

/-- A value does not change when an element is written that it does not read. -/
theorem value_store {A : Arithmetic α} {body : Body} {ops : Operands α} {o : Offsets}
    {out next : Array α} {i : Nat} {a : α} (hstore : store out i a = some next)
    (h : body ≠ .mulAcc ∨ o.output ≠ i) : value A body ops o next = value A body ops o out := by
  unfold store at hstore
  split at hstore
  case isFalse => cases hstore
  case isTrue hi =>
    cases hstore
    cases body with
    | mulAcc =>
      have hne : i ≠ o.output := Ne.symm (h.resolve_left (fun hbody => hbody rfl))
      simp only [value, Array.getElem?_set_ne hi hne]
    | _ => rfl

/-- Lanes loaded past an element do not see that it is written. -/
theorem loadLanes_store {A : Arithmetic α} {body : Body} {ops : Operands α} {deltas o : Offsets}
    {out next : Array α} {i : Nat} {a : α} (hstore : store out i a = some next) {width : Nat}
    (h : (o.ahead width deltas).InRange) (ho : i < o.output ∨ body ≠ .mulAcc) :
    loadLanes A body ops deltas next width o = loadLanes A body ops deltas out width o := by
  induction width generalizing o with
  | zero => rfl
  | succ width ih =>
    obtain ⟨hadvance, hrest⟩ := h.step
    have hvalue : value A body ops o next = value A body ops o out :=
      value_store hstore (ho.symm.imp_right Nat.ne_of_gt)
    have hnext : i < (o.ahead 1 deltas).output ∨ body ≠ .mulAcc := by
      refine ho.imp_left fun hi => ?_
      simp only [Offsets.ahead]
      omega
    rw [loadLanes, loadLanes, hvalue, hadvance]
    simp only [Option.bind_eq_bind, Option.bind_some, ih hrest hnext]

/-- A row of lanes that do not reduce is a row of points. -/
theorem row_eq_iterate (A : Arithmetic α) (body : Body) (ops : Operands α) {deltas : Offsets}
    (hbody : body ≠ .mulAcc ∨ 0 < deltas.output) {width : Nat} {o : Offsets}
    (h : (o.ahead width deltas).InRange) (out : Array α) :
    row A body ops deltas width o out =
      (iterate deltas (point A body ops) width o out).map (·, o.ahead width deltas) := by
  induction width generalizing o out with
  | zero =>
    rw [Offsets.ahead_zero]
    rfl
  | succ width ih =>
    obtain ⟨hadvance, hrest⟩ := h.step
    rw [iterate, point]
    unfold row
    rw [loadLanes, hadvance]
    simp only [Option.bind_eq_bind, Option.bind_some]
    cases hvalue : value A body ops o out with
    | none => rfl
    | some a =>
      cases hstore : store out o.output a with
      | none =>
        -- Nothing can be written at `o`, whatever the later lanes are.
        cases loadLanes A body ops deltas out width (o.ahead 1 deltas) with
        | none => simp [hstore]
        | some lanes => simp [storeLanes, hstore]
      | some next =>
        have hpast : o.output < (o.ahead 1 deltas).output ∨ body ≠ .mulAcc := by
          refine hbody.symm.imp_left fun hdelta => ?_
          simp only [Offsets.ahead]
          omega
        have hrow := ih hrest next
        rw [row, loadLanes_store hstore hrest hpast, Offsets.ahead_ahead, Nat.add_comm 1] at hrow
        simp only [Option.bind_some, hstore, ← hrow]
        cases loadLanes A body ops deltas out width (o.ahead 1 deltas) with
        | none => simp
        | some lanes => simp [storeLanes, hstore, hadvance]

/-- Rows of lanes that do not reduce are the points of the loop. -/
theorem rows_eq_foldlM (A : Arithmetic α) (body : Body) (ops : Operands α) {deltas : Offsets}
    (hbody : body ≠ .mulAcc ∨ 0 < deltas.output) {width n : Nat} {o : Offsets}
    (h : (o.ahead (n * width) deltas).InRange) (out : Array α) :
    rows A body ops deltas width n o out = (List.range (n * width)).foldlM
      (fun out m => point A body ops (o.ahead m deltas) out) out := by
  induction n generalizing o out with
  | zero => simp [rows]
  | succ n ih =>
    rw [Nat.succ_mul, Nat.add_comm (n * width)] at h ⊢
    have hfirst := h.mono (Nat.le_add_right width (n * width))
    have hrest : ((o.ahead width deltas).ahead (n * width) deltas).InRange := by
      rwa [Offsets.ahead_ahead]
    rw [rows, row_eq_iterate A body ops hbody hfirst, iterate_eq_foldlM _ hfirst, List.range_add,
      List.foldlM_append]
    cases (List.range width).foldlM (fun out m => point A body ops (o.ahead m deltas) out) out with
    | none => rfl
    | some next =>
      simp only [Option.map_some, Option.bind_eq_bind, Option.bind_some, ih hrest, List.foldlM_map,
        Offsets.ahead_ahead]

/-- The innermost loop and its width, if it is a reduction in lanes. -/
def lanes? (body : Body) (loops : List Loop) : Option (Loop × Nat) :=
  loops.getLast?.bind fun l => l.vectorWidth.bind fun width =>
    if body = .mulAcc ∧ l.deltas.output = 0 then some (l, width) else none

/-- The loops that are walked point by point: all but a reduction in lanes. -/
def walked (body : Body) (loops : List Loop) : List Loop :=
  if (lanes? body loops).isSome then loops.dropLast else loops

/-- What a walked point makes of its output element. -/
def stepOf (A : Arithmetic α) (body : Body) (ops : Operands α) (loops : List Loop) :
    Offsets → α → Option α :=
  match lanes? body loops with
  | some (l, width) => laneStep A ops l width
  | none => pointStep A body ops

/-- There is room for the lanes of a loop, and the loop is a whole number of rows. -/
def LanesFit (extent : Nat) (lanes : Option Nat) : Prop :=
  ∀ width ∈ lanes, 0 < width ∧ width ≤ laneLimit ∧ extent / width * width = extent

/-- The offsets of a nest stay in the range of words, also behind the last iteration of a loop. -/
def Fits : List Loop → Offsets → Prop
  | [], _ => True
  | l :: rest, o =>
    (o.ahead l.extent l.deltas).InRange ∧ ∀ n < l.extent, Fits rest (o.ahead n l.deltas)

theorem points_append (xs ys : List Loop) (o : Offsets) :
    points (xs ++ ys) o = (points xs o).flatMap (points ys) := by
  induction xs generalizing o with
  | nil => simp [points]
  | cons l rest ih => simp only [List.cons_append, points, ih, List.flatMap_assoc]

theorem points_singleton (l : Loop) (o : Offsets) :
    points [l] o = (List.range l.extent).map (o.ahead · l.deltas) := by
  simp only [points, List.map_eq_flatMap]

theorem fits_append {xs ys : List Loop} {o : Offsets} :
    Fits (xs ++ ys) o ↔ Fits xs o ∧ ∀ p ∈ points xs o, Fits ys p := by
  induction xs generalizing o with
  | nil => simp [Fits, points]
  | cons l rest ih =>
    simp only [List.cons_append, Fits, ih, points, List.mem_flatMap, List.mem_range]
    constructor
    · rintro ⟨hrange, hrounds⟩
      refine ⟨⟨hrange, fun n hn => (hrounds n hn).1⟩, ?_⟩
      rintro p ⟨n, hn, hp⟩
      exact (hrounds n hn).2 p hp
    · rintro ⟨⟨hrange, hrounds⟩, hpoints⟩
      exact ⟨hrange, fun n hn => ⟨hrounds n hn, fun p hp => hpoints p ⟨n, hn, hp⟩⟩⟩

/-- A nest runs its innermost loop at every point of the loops around it. -/
theorem walk_append (A : Arithmetic α) (body : Body) (ops : Operands α) {outer : List Loop}
    (l : Loop) {o : Offsets} (h : Fits outer o) (out : Array α) :
    walk A body ops (outer ++ [l]) o out =
      (points outer o).foldlM (fun out o => innermost A body ops l o out) out := by
  induction outer generalizing o out with
  | nil => simp [points, walk]
  | cons head rest ih =>
    have hwalk : walk A body ops (head :: rest ++ [l]) =
        iterate head.deltas (walk A body ops (rest ++ [l])) head.extent := by
      cases rest <;> rfl
    rw [hwalk, iterate_eq_foldlM _ h.1, points, foldlM_flatMap]
    exact foldlM_congr (fun n hn out => ih (h.2 n (List.mem_range.mp hn)) out) out

theorem innermost_eq_foldlM (A : Arithmetic α) (body : Body) (ops : Operands α) {l : Loop}
    (hrows : LanesFit l.extent l.vectorWidth)
    (hlanes : l.vectorWidth.isSome → body ≠ .mulAcc ∨ 0 < l.deltas.output) {o : Offsets}
    (h : (o.ahead l.extent l.deltas).InRange) (out : Array α) : innermost A body ops l o out =
      (points [l] o).foldlM (fun out p => revise p.output (pointStep A body ops p) out) out := by
  simp only [points_singleton, List.foldlM_map, ← point_eq_revise]
  unfold innermost
  cases hwidth : l.vectorWidth with
  | none => exact iterate_eq_foldlM _ h out
  | some width =>
    obtain ⟨hpos, hle, hwhole⟩ := hrows width hwidth
    have hbody := hlanes (by simp [hwidth])
    have hroom : (width == 0 || decide (laneLimit < width)) = false := by
      simp [Nat.ne_of_gt hpos, Nat.not_lt.mpr hle]
    have hcond : (body == .mulAcc && l.deltas.output == 0) = false := by
      rcases hbody with hbody | hdelta
      · simp [hbody]
      · simp [Nat.pos_iff_ne_zero.mp hdelta]
    have hpoints := rows_eq_foldlM A body ops hbody (hwhole ▸ h) out
    rw [hwhole] at hpoints
    simp only [hroom, hcond, Bool.false_eq_true, if_false, hpoints]

/-- A walk revises the output once for every walked point. -/
theorem walk_eq_foldlM (A : Arithmetic α) (body : Body) (ops : Operands α) {loops : List Loop}
    (hrows : ∀ l ∈ loops.getLast?, LanesFit l.extent l.vectorWidth) {o : Offsets}
    (h : Fits loops o) (out : Array α) :
    walk A body ops loops o out = (points (walked body loops) o).foldlM
      (fun out p => revise p.output (stepOf A body ops loops p) out) out := by
  rcases List.eq_nil_or_concat loops with rfl | ⟨outer, l, rfl⟩
  · simp [walk, walked, stepOf, lanes?, points, point_eq_revise]
  · rw [List.concat_eq_append] at hrows h ⊢
    have hwhole := hrows l (by simp)
    obtain ⟨houter, hinner⟩ := fits_append.mp h
    rw [walk_append A body ops l houter]
    by_cases hlane : l.vectorWidth.isSome ∧ body = .mulAcc ∧ l.deltas.output = 0
    · obtain ⟨hvector, hbody, hdelta⟩ := hlane
      obtain ⟨width, hwidth⟩ := Option.isSome_iff_exists.mp hvector
      obtain ⟨hpos, hle, -⟩ := hwhole width hwidth
      have hlast : ∀ o out, innermost A body ops l o out =
          revise o.output (laneStep A ops l width o) out := by
        intro o out
        simp [innermost, hwidth, hbody, hdelta, reduceLanes_eq_revise, Nat.ne_of_gt hpos,
          Nat.not_lt.mpr hle]
      simp [walked, stepOf, lanes?, hwidth, hbody, hdelta, ← hlast]
    · have hlanes : l.vectorWidth.isSome → body ≠ .mulAcc ∨ 0 < l.deltas.output := by
        intro hvector
        by_contra hnot
        exact hlane ⟨hvector, by simpa [Nat.pos_iff_ne_zero] using hnot⟩
      have hnone : lanes? body (outer ++ [l]) = none := by
        cases hwidth : l.vectorWidth with
        | none => simp [lanes?, hwidth]
        | some width =>
          simpa [lanes?, hwidth] using fun hbody => by simpa [hwidth, hbody] using hlane
      simp only [walked, stepOf, hnone, Option.isSome_none, Bool.false_eq_true, if_false,
        points_append, foldlM_flatMap]
      exact foldlM_congr (fun p hp out =>
        innermost_eq_foldlM A body ops hwhole hlanes (hinner p hp).1 out) out

theorem revise_eq_some {out : Array α} {i : Nat} {f : α → Option α} (hi : i < out.size) {b : α}
    (hf : f out[i] = some b) : revise i f out = some (out.set i b) := by
  simp [revise, hf, store, hi]

theorem size_of_revise {out next : Array α} {i : Nat} {f : α → Option α}
    (h : revise i f out = some next) : next.size = out.size ∧ i < out.size := by
  unfold revise at h
  obtain ⟨a, -, h⟩ := Option.bind_eq_some_iff.mp h
  obtain ⟨b, -, h⟩ := Option.bind_eq_some_iff.mp h
  unfold store at h
  split at h
  case isTrue hi => exact ⟨by rw [← Option.some.inj h, Array.size_set], hi⟩
  case isFalse => cases h

/-- Revisions within the output give every element what its own points make of it, in order. -/
theorem foldlM_revise {step : Offsets → α → Option α} {ps : List Offsets} {out : Array α}
    (hps : ∀ p ∈ ps, p.output < out.size) (htotal : ∀ p ∈ ps, ∀ a, ∃ b, step p a = some b) :
    ∃ final, ps.foldlM (fun out p => revise p.output (step p) out) out = some final ∧
      final.size = out.size ∧ ∀ c, final[c]? = out[c]?.bind fun a =>
        (ps.filter (·.output == c)).foldlM (fun a p => step p a) a := by
  induction ps generalizing out with
  | nil => exact ⟨out, rfl, rfl, fun c => by cases out[c]? <;> rfl⟩
  | cons p rest ih =>
    have hp : p.output < out.size := hps p (List.mem_cons_self ..)
    obtain ⟨b, hb⟩ := htotal p (List.mem_cons_self ..) out[p.output]
    have hrevise := revise_eq_some hp hb
    have hrest : ∀ q ∈ rest, q.output < (out.set p.output b).size := by
      intro q hq
      rw [Array.size_set]
      exact hps q (List.mem_cons_of_mem p hq)
    obtain ⟨final, hfold, hsize, hfinal⟩ := ih hrest fun q hq =>
      htotal q (List.mem_cons_of_mem p hq)
    refine ⟨final, ?_, by simpa using hsize, ?_⟩
    · rw [List.foldlM_cons, hrevise]
      exact hfold
    · intro c
      rw [hfinal c]
      by_cases hc : p.output = c
      · subst hc
        simp [Array.getElem?_eq_getElem hp, hb]
      · simp [hc, Array.getElem?_set_ne hp hc]

/-- A point outside the output stops the walk. -/
theorem foldlM_revise_eq_none {step : Offsets → α → Option α} {ps : List Offsets} {out : Array α}
    {p : Offsets} (hp : p ∈ ps) (hout : out.size ≤ p.output) :
    ps.foldlM (fun out p => revise p.output (step p) out) out = none := by
  induction ps generalizing out with
  | nil => simp at hp
  | cons q rest ih =>
    rw [List.foldlM_cons]
    cases hq : revise q.output (step q) out with
    | none => rfl
    | some next =>
      obtain ⟨hsize, hlt⟩ := size_of_revise hq
      rcases List.mem_cons.mp hp with rfl | hp
      · omega
      · exact ih hp (by omega)

/-- Offsets that follow a point of the nest loop by loop list the points of the nest. -/
theorem points_eq_map_visits (lowered : NestTuner.Loop → Loop) (offsets : Point → Offsets)
    (hextent : ∀ l, (lowered l).extent = l.extent) {loops : List NestTuner.Loop}
    (hoffsets : ∀ l ∈ loops, ∀ v n, offsets (v.move l.iterator (n * l.stride)) =
      (offsets v).ahead n (lowered l).deltas) (v : Point) :
    points (loops.map lowered) (offsets v) = (visits loops v).map offsets := by
  induction loops generalizing v with
  | nil => rfl
  | cons l rest ih =>
    simp only [List.map_cons, points, visits, List.map_flatMap, hextent]
    apply List.flatMap_congr
    intro n _
    rw [← hoffsets l (List.mem_cons_self ..),
      ih fun a ha => hoffsets a (List.mem_cons_of_mem l ha)]

end NestTuner.Plan

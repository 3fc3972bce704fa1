import NestTuner.Proofs.Preconditions

/-!
Edits that commute. A tiling looks at one loop and leaves the others alone, so tilings of different
loops can be made in either order, and two levels of tiles can be cut from the outside or from the
inside. The marks look at other loops as well: the parallel loop must stay at the outermost level of
its iterator, and the vectorized loop inside a tile. A tiling elsewhere changes neither, because a
loop over tiles stays below every loop that lay above the loop it came from.
-/

namespace NestTuner

/-- A loop that can be cut into tiles of a size. -/
structure Loop.Tileable (l : Loop) (size : Nat) : Prop where
  parallel : l.parallel = false
  vector : l.vectorWidth = none
  two : 2 ≤ size
  lt : size < l.extent
  dvd : size ∣ l.extent
  fits : l.stride * size < Word.count

namespace Loop

variable {l : Loop} {a b size : Nat}

theorem Tileable.unmarked (h : l.Tileable size) :
    ∀ m ∈ l.tiles size, m.parallel = false ∧ m.vectorWidth = none := by
  simp [tiles, h.parallel, h.vector]

/-- A loop can be cut into tiles, and these into smaller ones, exactly if it can be cut into the
smaller ones and the loop over those into tiles. -/
theorem tileable_nested :
    l.Tileable (a * b) ∧ Tileable { l with extent := a * b } b ↔
      l.Tileable b ∧ Tileable { l with extent := l.extent / b, stride := l.stride * b } a := by
  constructor
  · rintro ⟨⟨hparallel, hvector, -, hlt, hdvd, hfits⟩, ⟨-, -, hb, hba, -, hfits'⟩⟩
    simp only at hba hfits'
    obtain ⟨c, hc⟩ := hdvd
    have ha : 2 ≤ a := by
      by_contra hsmall
      have hle : a * b ≤ 1 * b := Nat.mul_le_mul_right b (by omega)
      omega
    have hdiv : l.extent / b = a * c := by
      rw [hc, Nat.mul_comm a b, Nat.mul_assoc]
      exact Nat.mul_div_cancel_left _ (by omega)
    have hac : a * 1 < a * c := by
      refine Nat.mul_lt_mul_of_pos_left ?_ (by omega)
      by_contra hone
      have hle : a * b * c ≤ a * b * 1 := Nat.mul_le_mul_left _ (by omega)
      omega
    refine ⟨⟨hparallel, hvector, hb, by omega, ⟨a * c, by rw [hc]; ring⟩, hfits'⟩,
      ⟨hparallel, hvector, ha, ?_, ?_, ?_⟩⟩
    · simp only [hdiv]
      omega
    · simp only [hdiv]
      exact Nat.dvd_mul_right a c
    · simp only
      rwa [Nat.mul_assoc, Nat.mul_comm b a]
  · rintro ⟨⟨hparallel, hvector, hb, hlt, hdvd, hfits⟩, ⟨-, -, ha, hab, hdvd', hfits'⟩⟩
    simp only at hab hdvd' hfits'
    have hmul : a * b < l.extent := by
      rw [Nat.mul_comm]
      exact (Nat.lt_div_iff_mul_lt' hdvd a).mp hab
    have hgrow : 2 * b ≤ a * b := Nat.mul_le_mul_right b ha
    refine ⟨⟨hparallel, hvector, by omega, hmul, ?_, ?_⟩,
      ⟨hparallel, hvector, hb, ?_, Nat.dvd_mul_left b a, hfits⟩⟩
    · rw [Nat.mul_comm]
      exact Nat.mul_dvd_of_dvd_div hdvd hdvd'
    · rwa [Nat.mul_comm a b, ← Nat.mul_assoc]
    · simp only
      omega

/-- Both ways give the same three loops. -/
theorem tiles_nested (hb : 0 < b) :
    { l with extent := l.extent / (a * b), stride := l.stride * (a * b) } ::
        tiles { l with extent := a * b } b =
      tiles { l with extent := l.extent / b, stride := l.stride * b } a ++
        [{ l with extent := b }] := by
  have hextent : l.extent / (a * b) = l.extent / b / a := by
    rw [Nat.div_div_eq_div_mul, Nat.mul_comm]
  have hstride : l.stride * (a * b) = l.stride * b * a := by ring
  simp [tiles, hextent, hstride, Nat.mul_div_cancel _ hb]

end Loop

namespace Kernel

/-- Which loop stands at a position decides whether it can be tiled there. -/
theorem accepts_tile_iff {k : Kernel} {size : Nat} {before after loops : List Loop} {l : Loop}
    (hloops : k.nest.loops = before ++ l :: after) :
    k.Accepts (.tile before.length size) loops ↔
      l.Tileable size ∧ loops = before ++ l.tiles size ++ after := by
  constructor
  · generalize hi : before.length = i
    intro h
    cases h with
    | @tile before' after' l' _ hloops' hparallel hvector htwo hlt hdvd hfits =>
      obtain ⟨rfl, hrest⟩ := List.append_inj (hloops.symm.trans hloops') hi
      obtain ⟨rfl, rfl⟩ := List.cons.inj hrest
      exact ⟨⟨hparallel, hvector, htwo, hlt, hdvd, hfits⟩, rfl⟩
  · rintro ⟨htile, rfl⟩
    exact .tile hloops htile.parallel htile.vector htile.two htile.lt htile.dvd htile.fits

theorem cut_of_accepts {k : Kernel} {i size : Nat} {loops : List Loop}
    (h : k.Accepts (.tile i size) loops) :
    ∃ before l after, k.nest.loops = before ++ l :: after ∧ before.length = i ∧
      l.Tileable size := by
  cases h with
  | @tile before after l _ hloops hparallel hvector htwo hlt hdvd hfits =>
    exact ⟨before, l, after, hloops, rfl, ⟨hparallel, hvector, htwo, hlt, hdvd, hfits⟩⟩

/-- Two edits are replayed exactly if the first is accepted, and the second on the nest that the
first leaves. -/
theorem replay_pair {k k' : Kernel} {e e' : Edit} :
    k.replay [e, e'] = .ok k' ↔ ∃ loops, k.Accepts e loops ∧
      ∃ final, { k with nest := ⟨loops⟩ }.Accepts e' final ∧ k' = { k with nest := ⟨final⟩ } := by
  have hreplay : k.replay [e, e'] = .ok k' ↔ ∃ m, k.apply e = .ok m ∧ m.apply e' = .ok k' := by
    simp only [replay, replayFrom]
    cases he : k.apply e with
    | error failure => simp
    | ok m => cases he' : m.apply e' <;> simp [he']
  rw [hreplay]
  constructor
  · rintro ⟨m, hm, hk'⟩
    obtain ⟨loops, haccepts, rfl⟩ := apply_eq_ok.mp hm
    exact ⟨loops, haccepts, apply_eq_ok.mp hk'⟩
  · rintro ⟨loops, haccepts, hk'⟩
    exact ⟨_, apply_eq_ok.mpr ⟨loops, haccepts, rfl⟩, apply_eq_ok.mpr hk'⟩

/-- Both edits can be made in either order, and the kernels come out equal. -/
def Commutes (k : Kernel) (e e' : Edit) : Prop :=
  ∃ k', k.replay [e, e'] = .ok k' ∧ k.replay [e', e] = .ok k'

/-- Two ways of making two edits that leave the same loops. -/
theorem exists_replay {k : Kernel} {e₁ e₂ f₁ f₂ : Edit} {loops₁ loops₂ final : List Loop}
    (he₁ : k.Accepts e₁ loops₁) (he₂ : { k with nest := ⟨loops₁⟩ }.Accepts e₂ final)
    (hf₁ : k.Accepts f₁ loops₂) (hf₂ : { k with nest := ⟨loops₂⟩ }.Accepts f₂ final) :
    ∃ k', k.replay [e₁, e₂] = .ok k' ∧ k.replay [f₁, f₂] = .ok k' :=
  ⟨_, replay_pair.mpr ⟨_, he₁, _, he₂, rfl⟩, replay_pair.mpr ⟨_, hf₁, _, hf₂, rfl⟩⟩

/-- Of two places in a list, the second lies in what comes after the first. -/
theorem exists_between {before before' after after' : List Loop} {l l' : Loop}
    (h : before ++ l :: after = before' ++ l' :: after') (hlt : before.length < before'.length) :
    ∃ between, before' = before ++ l :: between ∧ after = between ++ l' :: after' := by
  obtain ⟨rest, hrest, hafter⟩ | ⟨rest, hrest, -⟩ := List.append_eq_append_iff.mp h
  · cases rest with
    | nil => simp [hrest] at hlt
    | cons first between =>
      obtain ⟨rfl, rfl⟩ := List.cons.inj hafter
      exact ⟨between, hrest, rfl⟩
  · simp [hrest] at hlt

/-- What holds of all loops holds after a splice, if it holds of those spliced in. -/
theorem forall_spliced {P : Loop → Prop} {before after : List Loop} {l : Loop} (loops : List Loop)
    (hold : ∀ m ∈ before ++ l :: after, P m) (hnew : ∀ m ∈ loops, P m) :
    ∀ m ∈ before ++ loops ++ after, P m := by
  intro m hm
  rcases List.mem_append.mp hm with hm | hm
  · rcases List.mem_append.mp hm with hm | hm
    · exact hold m (by simp [hm])
    · exact hnew m hm
  · exact hold m (by simp [hm])

/-- Two tilings in a row: of a loop, and of one of the loops that the first leaves. -/
theorem replay_tile_tile {k k' : Kernel} {size size' : Nat}
    {before after before' after' : List Loop} {l l' : Loop}
    (hloops : k.nest.loops = before ++ l :: after)
    (hnext : before ++ l.tiles size ++ after = before' ++ l' :: after') :
    k.replay [.tile before.length size, .tile before'.length size'] = .ok k' ↔
      (l.Tileable size ∧ l'.Tileable size') ∧
        k' = { k with nest := ⟨before' ++ l'.tiles size' ++ after'⟩ } := by
  rw [replay_pair]
  constructor
  · rintro ⟨loops, hfirst, final, hsecond, rfl⟩
    obtain ⟨hl, rfl⟩ := (accepts_tile_iff hloops).mp hfirst
    obtain ⟨hl', rfl⟩ := (accepts_tile_iff hnext).mp hsecond
    exact ⟨⟨hl, hl'⟩, rfl⟩
  · rintro ⟨⟨hl, hl'⟩, rfl⟩
    exact ⟨_, (accepts_tile_iff hloops).mpr ⟨hl, rfl⟩, _,
      (accepts_tile_iff hnext).mpr ⟨hl', rfl⟩, rfl⟩

/-- Tilings of different loops can be made in either order; the first moves the other loop down. -/
theorem tile_tile {k : Kernel} {i j a b : Nat} (hij : i < j) {loops loops' : List Loop}
    (hi : k.Accepts (.tile i a) loops) (hj : k.Accepts (.tile j b) loops') :
    ∃ k', k.replay [.tile i a, .tile (j + 1) b] = .ok k' ∧
      k.replay [.tile j b, .tile i a] = .ok k' := by
  obtain ⟨before, l, after, hloops, rfl, hl⟩ := cut_of_accepts hi
  obtain ⟨before', l', after', hloops', rfl, hl'⟩ := cut_of_accepts hj
  obtain ⟨between, rfl, rfl⟩ := exists_between (hloops.symm.trans hloops') hij
  have hmoved : before ++ l.tiles a ++ (between ++ l' :: after') =
      (before ++ l.tiles a ++ between) ++ l' :: after' := by simp
  have hkept : before ++ l :: between ++ l'.tiles b ++ after' =
      before ++ l :: (between ++ l'.tiles b ++ after') := by simp
  have hplace : (before ++ l :: between).length + 1 = (before ++ l.tiles a ++ between).length := by
    simp [Loop.tiles]
    omega
  rw [hplace]
  refine ⟨_, (replay_tile_tile hloops hmoved).mpr ⟨⟨hl, hl'⟩, rfl⟩,
    (replay_tile_tile hloops' hkept).mpr ⟨⟨hl', hl⟩, ?_⟩⟩
  simp

/-- Two levels of tiles can be cut from the outside or from the inside. -/
theorem tile_nested {k k' : Kernel} (i a b : Nat) :
    k.replay [.tile i (a * b), .tile (i + 1) b] = .ok k' ↔
      k.replay [.tile i b, .tile i a] = .ok k' := by
  cases hl : k.nest.loops[i]? with
  | none =>
    have hnever : ∀ size loops, ¬ k.Accepts (.tile i size) loops := by
      intro size loops haccepts
      obtain ⟨before, l, after, hloops, rfl, -⟩ := cut_of_accepts haccepts
      simp [hloops] at hl
    simp [replay_pair, hnever]
  | some l =>
    obtain ⟨before, after, hloops, rfl⟩ := Nest.exists_cut hl
    have hinner : before ++ l.tiles (a * b) ++ after =
        (before ++ [{ l with extent := l.extent / (a * b), stride := l.stride * (a * b) }]) ++
          { l with extent := a * b } :: after := by simp [Loop.tiles]
    have houter : before ++ l.tiles b ++ after =
        before ++ { l with extent := l.extent / b, stride := l.stride * b } ::
          { l with extent := b } :: after := by simp [Loop.tiles]
    have hplace : before.length + 1 = (before ++
        [{ l with extent := l.extent / (a * b), stride := l.stride * (a * b) }]).length := by simp
    rw [hplace, replay_tile_tile hloops hinner, replay_tile_tile hloops houter,
      Loop.tileable_nested]
    refine and_congr_right fun htileable => ?_
    have htiles : before ++
        [{ l with extent := l.extent / (a * b), stride := l.stride * (a * b) }] ++
          Loop.tiles { l with extent := a * b } b ++ after =
        before ++ Loop.tiles { l with extent := l.extent / b, stride := l.stride * b } a ++
          { l with extent := b } :: after := by
      have hnested := Loop.tiles_nested (l := l) (a := a) (Nat.zero_lt_of_lt htileable.1.two)
      simpa using congrArg (before ++ · ++ after) hnested
    rw [htiles]

/-- A tiling below the outermost loop leaves that loop at the outermost level of its iterator. -/
theorem Scheduled.tile_parallelize {k : Kernel} (h : k.Scheduled) {i size : Nat} (hi : 1 ≤ i)
    {loops loops' : List Loop} (htile : k.Accepts (.tile i size) loops)
    (hmark : k.Accepts (.parallelize 0) loops') : k.Commutes (.tile i size) (.parallelize 0) := by
  obtain ⟨before, m, after, hloops, rfl, hm⟩ := cut_of_accepts htile
  obtain ⟨-, rfl⟩ := (accepts_tile_iff hloops).mp htile
  have hmarked := h.accepts hmark
  cases hmark with
  | @parallelize rest l it hhead hfirst hvector hit hkind houter =>
    cases before with
    | nil => simp at hi
    | cons first between =>
      obtain ⟨rfl, rfl⟩ := List.cons.inj (hloops.symm.trans hhead)
      have hcut : { first with parallel := true } :: (between ++ m :: after) =
          ({ first with parallel := true } :: between) ++ m :: after := rfl
      have htile' : Accepts
          { k with nest := ⟨{ first with parallel := true } :: (between ++ m :: after)⟩ }
          (.tile (between.length + 1) size)
          ({ first with parallel := true } :: (between ++ m.tiles size ++ after)) :=
        (accepts_tile_iff (k := { k with nest := ⟨_⟩ }) hcut).mpr ⟨hm, rfl⟩
      -- the marked loop is in place after the tiling, so the others lie below it
      have hplaced := (hmarked.accepts htile').parallelPlaced
      have hmark' : Accepts { k with nest := ⟨first :: between ++ m.tiles size ++ after⟩ }
          (.parallelize 0)
          ({ first with parallel := true } :: (between ++ m.tiles size ++ after)) := by
        refine .parallelize rfl ?_ hvector hit hkind fun other hother hiterator => ?_
        · exact forall_spliced _ (hloops ▸ hfirst) fun m' hm' => (hm.unmarked m' hm').1
        · rcases List.mem_cons.mp hother with rfl | hother
          · exact Nat.le_refl _
          · refine hplaced.outermost (l := { first with parallel := true }) ?_ rfl ?_ hiterator
            · simp
            · simpa using Or.inr hother
      exact exists_replay htile hmark' (.parallelize hhead hfirst hvector hit hkind houter) htile'

/-- A tiling above the innermost loop leaves a loop over the tiles that loop walks in. -/
theorem tile_vectorize {k : Kernel} {i size width : Nat} (hi : i + 1 < k.nest.depth)
    {loops loops' : List Loop} (htile : k.Accepts (.tile i size) loops)
    (hmark : k.Accepts (.vectorize width) loops') :
    k.Commutes (.tile i size) (.vectorize width) := by
  obtain ⟨before, m, after, hloops, rfl, hm⟩ := cut_of_accepts htile
  obtain ⟨-, rfl⟩ := (accepts_tile_iff hloops).mp htile
  cases hmark with
  | @vectorize init l _ hlast hfirst hparallel hpoint hwidth htwo hle hdvd =>
    have hlt : before.length < init.length := by simpa [Nest.depth, hlast] using hi
    obtain ⟨between, rfl, rfl⟩ := exists_between (hloops.symm.trans hlast) hlt
    have hcut : before ++ m :: between ++ [{ l with vectorWidth := some width }] =
        before ++ m :: (between ++ [{ l with vectorWidth := some width }]) := by simp
    have hlast' : before ++ m.tiles size ++ (between ++ [l]) =
        (before ++ m.tiles size ++ between) ++ [l] := by simp
    have hmark' : Accepts { k with nest := ⟨before ++ m.tiles size ++ (between ++ [l])⟩ }
        (.vectorize width)
        ((before ++ m.tiles size ++ between) ++ [{ l with vectorWidth := some width }]) := by
      refine .vectorize hlast' ?_ hparallel ?_ hwidth htwo hle hdvd
      · exact forall_spliced _ (hloops ▸ hfirst) fun m' hm' => (hm.unmarked m' hm').2
      · obtain ⟨other, hother, hiterator, hstride⟩ := hpoint
        rw [hloops] at hother
        rcases List.mem_append.mp hother with hother | hother
        · exact ⟨other, by simp [hother], hiterator, hstride⟩
        · rcases List.mem_cons.mp hother with rfl | hother
          · exact ⟨{ other with extent := size }, by simp [Loop.tiles], hiterator, hstride⟩
          · exact ⟨other, List.mem_append_right _ hother, hiterator, hstride⟩
    refine exists_replay htile hmark'
      (.vectorize hlast hfirst hparallel hpoint hwidth htwo hle hdvd)
      ((accepts_tile_iff hcut).mpr ⟨hm, ?_⟩)
    simp

/-- A loop that walks in a tile is not the outermost one, so the two marks are put on different
loops. -/
theorem parallelize_vectorize {k : Kernel} {width : Nat} {loops loops' : List Loop}
    (hmark : k.Accepts (.parallelize 0) loops) (hmark' : k.Accepts (.vectorize width) loops') :
    k.Commutes (.parallelize 0) (.vectorize width) := by
  cases hmark with
  | @parallelize after l it hhead hfirst hvector hit hkind houter =>
  cases hmark' with
  | @vectorize before m _ hlast hnone hparallel hpoint hwidth htwo hle hdvd =>
    cases before with
    | nil =>
      obtain ⟨other, hother, -, hstride⟩ := hpoint
      obtain rfl : other = m := by simpa [hlast] using hother
      omega
    | cons first between =>
      obtain ⟨rfl, rfl⟩ := List.cons.inj (hlast.symm.trans hhead)
      have hvectorized : Accepts
          { k with nest := ⟨{ first with parallel := true } :: (between ++ [m])⟩ }
          (.vectorize width)
          ({ first with parallel := true } :: between ++
            [{ m with vectorWidth := some width }]) := by
        have hcut : k.nest.loops = [] ++ first :: (between ++ [m]) := hhead
        have hspliced := forall_spliced [{ first with parallel := true }] (hcut ▸ hnone)
          (by simpa using hvector)
        refine .vectorize rfl hspliced hparallel ?_ hwidth htwo hle hdvd
        obtain ⟨other, hother, hiterator, hstride⟩ := hpoint
        rcases List.mem_cons.mp (hhead ▸ hother) with rfl | hother
        · exact ⟨{ other with parallel := true }, by simp, hiterator, hstride⟩
        · exact ⟨other, List.mem_cons_of_mem _ hother, hiterator, hstride⟩
      have hparallelized : Accepts
          { k with nest := ⟨first :: between ++ [{ m with vectorWidth := some width }]⟩ }
          (.parallelize 0)
          ({ first with parallel := true } ::
            (between ++ [{ m with vectorWidth := some width }])) := by
        have hspliced := forall_spliced [{ m with vectorWidth := some width }] (hlast ▸ hfirst)
          (by simpa using hparallel)
        have hbelow := forall_spliced [{ m with vectorWidth := some width }] (hlast ▸ houter)
          (by simpa using houter m (by simp [hlast]))
        exact .parallelize rfl (by simpa using hspliced) hvector hit hkind (by simpa using hbelow)
      exact exists_replay (.parallelize hhead hfirst hvector hit hkind houter) hvectorized
        (.vectorize hlast hnone hparallel hpoint hwidth htwo hle hdvd) hparallelized

end Kernel

namespace Draft

/-- Edits of every kernel that accepted edits lead to from one that was built. Tilings of different
loops can be made in either order. Two levels of tiles come out the same from the outside and from
the inside, and one way is open exactly if the other is. A tiling commutes with the mark on a loop
that it leaves alone, and the two marks commute. -/
theorem edits_commute {d : Draft} {root k : Kernel} {history : List Edit}
    (hfits : ∀ it ∈ d.iterators, it.2 < Word.count) (hbuild : d.build = .ok root)
    (hreplay : root.replay history = .ok k) :
    (∀ i j a b k₁ k₂, i < j → k.apply (.tile i a) = .ok k₁ → k.apply (.tile j b) = .ok k₂ →
      ∃ k', k.replay [.tile i a, .tile (j + 1) b] = .ok k' ∧
        k.replay [.tile j b, .tile i a] = .ok k') ∧
    (∀ i a b k', k.replay [.tile i (a * b), .tile (i + 1) b] = .ok k' ↔
      k.replay [.tile i b, .tile i a] = .ok k') ∧
    (∀ i a k₁ k₂, 1 ≤ i → k.apply (.tile i a) = .ok k₁ → k.apply (.parallelize 0) = .ok k₂ →
      k.Commutes (.tile i a) (.parallelize 0)) ∧
    (∀ i a w k₁ k₂, i + 1 < k.nest.depth → k.apply (.tile i a) = .ok k₁ →
      k.apply (.vectorize w) = .ok k₂ → k.Commutes (.tile i a) (.vectorize w)) ∧
    ∀ w k₁ k₂, k.apply (.parallelize 0) = .ok k₁ → k.apply (.vectorize w) = .ok k₂ →
      k.Commutes (.parallelize 0) (.vectorize w) := by
  obtain ⟨hscheduled, -⟩ := scheduled_of_replay hfits hbuild hreplay
  refine ⟨?_, fun i a b k' => Kernel.tile_nested i a b, ?_, ?_, ?_⟩
  · intro i j a b k₁ k₂ hij h₁ h₂
    obtain ⟨_, hfirst, -⟩ := Kernel.accepts_of_apply h₁
    obtain ⟨_, hsecond, -⟩ := Kernel.accepts_of_apply h₂
    exact Kernel.tile_tile hij hfirst hsecond
  · intro i a k₁ k₂ hi h₁ h₂
    obtain ⟨_, htile, -⟩ := Kernel.accepts_of_apply h₁
    obtain ⟨_, hmark, -⟩ := Kernel.accepts_of_apply h₂
    exact hscheduled.tile_parallelize hi htile hmark
  · intro i a w k₁ k₂ hi h₁ h₂
    obtain ⟨_, htile, -⟩ := Kernel.accepts_of_apply h₁
    obtain ⟨_, hmark, -⟩ := Kernel.accepts_of_apply h₂
    exact Kernel.tile_vectorize hi htile hmark
  · intro w k₁ k₂ h₁ h₂
    obtain ⟨_, hparallel, -⟩ := Kernel.accepts_of_apply h₁
    obtain ⟨_, hvector, -⟩ := Kernel.accepts_of_apply h₂
    exact Kernel.parallelize_vectorize hparallel hvector

/-- On the product in tiles every pair has a case. -/
theorem edits_commute_blocked :
    (square 8).build = .ok (Kernel.matmul "square" 8 8 8) ∧
      (Kernel.matmul "square" 8 8 8).replay blocking = .ok blocked ∧
      (∃ k', blocked.replay [.tile 1 2, .tile 3 4] = .ok k' ∧
        blocked.replay [.tile 2 4, .tile 1 2] = .ok k') ∧
      (∃ k', blocked.replay [.tile 2 4, .tile 3 2] = .ok k' ∧
        blocked.replay [.tile 2 2, .tile 2 2] = .ok k') ∧
      blocked.Commutes (.tile 2 4) (.parallelize 0) ∧
      blocked.Commutes (.tile 2 4) (.vectorize 2) ∧
      blocked.Commutes (.parallelize 0) (.vectorize 2) := by
  obtain ⟨htiles, hnested, hparallel, hvector, hmarks⟩ :=
    edits_commute (by decide) square_build blocking_replay
  exact ⟨square_build, blocking_replay, htiles 1 2 2 4 _ _ (by decide) rfl rfl,
    ⟨_, (hnested 2 2 2 _).mpr rfl, rfl⟩, hparallel 2 4 _ _ (by decide) rfl rfl,
    hvector 2 4 2 _ _ (by decide) rfl rfl, hmarks 2 _ _ rfl rfl⟩

end Draft

end NestTuner

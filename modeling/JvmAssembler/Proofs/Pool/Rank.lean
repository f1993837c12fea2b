import Mathlib.Order.Bounds.Basic
import JvmAssembler.Proofs.Pool.Change

/-!
# Ranks

The rank of an entry is kept at the cell that owns the entry, and the rank of an unbound cell at the cell itself. When
a cell is bound, the cells that stand for it and those that stand for the entry come to stand for one thing, which has
the higher of their ranks (`Change.rank_cases`). So a rank that was asked for is never lost: the rank of a cell is the
highest that was asked for by any cell that now stands for the same entry (`RankedBy`).
-/

namespace JvmAssembler

theorem Rank.level_injective : Function.Injective Rank.level := by
  intro a b h
  cases a <;> cases b <;> first | rfl | cases h

/-- Ranks are ordered by their level. -/
instance : LinearOrder Rank := LinearOrder.lift' Rank.level Rank.level_injective

theorem Rank.max_eq (a b : Rank) : a.max b = Max.max a b := by
  cases a <;> cases b <;> rfl

namespace Pool

variable {pool pool' : Pool} {references : List Reference} {ops more : List PoolOp}

/-! ### The ranks kept at cells -/

/-- The rank that is kept at a cell. -/
def rankAt (pool : Pool) (cell : Cell) : Rank := ((pool.slot? cell).map (·.rank)).getD .unused

theorem rank_eq (pool : Pool) (cell : Cell) : pool.rank cell = pool.rankAt (pool.canonical cell) := by
  rw [rank, rankAt]
  cases pool.slot? (pool.canonical cell) <;> rfl

theorem rankAt_pushSlot (pool : Pool) (binding : Binding) (c : Cell) :
    (pool.pushSlot binding).rankAt c = pool.rankAt c := by
  rw [rankAt, slot?, pushSlot, Array.getElem?_push, rankAt, slot?]
  split
  · rename_i h
    rw [Array.getElem?_eq_none_iff.2 (by omega)]
    rfl
  · rfl

theorem rankAt_assignIndices (pool : Pool) (c : Cell) :
    (pool.assignIndices pool.numbering).rankAt c = pool.rankAt c := by
  rw [rankAt, map_slot?_assignIndices (fun _ _ => rfl), rankAt]

theorem rankAt_setRank {cell : Cell} (hlt : (pool.canonical cell).id < pool.slots.size) (rank : Rank) (c : Cell) :
    (pool.setRank cell rank).rankAt c =
      if c = pool.canonical cell then max (pool.rankAt c) rank else pool.rankAt c := by
  rw [rankAt, setRank, slot?_modifySlot]
  split
  · rename_i heq
    subst heq
    rw [rankAt, slot?, Array.getElem?_eq_getElem hlt, ← Rank.max_eq]
    rfl
  · rfl

theorem bind_eq_setRank {cell target : Cell} (htarget : pool.Owns target) (hne : cell ≠ target) :
    pool.bind cell target =
      (pool.modifySlot cell fun slot => { slot with binding := .alias target }).setRank target (pool.rankAt cell) := by
  rw [bind, rankAt]
  simp only [canonical_of_owns htarget, hne, ↓reduceIte]
  cases pool.slot? cell <;> rfl

/-- The rank of a cell that is bound goes over to what it is bound to. -/
theorem rankAt_bind {cell target : Cell} (htarget : pool.Owns target) (hne : cell ≠ target) (c : Cell) :
    (pool.bind cell target).rankAt c =
      if c = target then max (pool.rankAt target) (pool.rankAt cell) else pool.rankAt c := by
  rw [bind_eq_setRank htarget hne]
  generalize hbound : (pool.modifySlot cell fun slot => { slot with binding := .alias target }) = bound
  have hkept : ∀ c, bound.rankAt c = pool.rankAt c := by
    intro c
    rw [← hbound, rankAt, slot?_modifySlot, rankAt]
    split
    · rw [Option.map_map]
      rfl
    · rfl
  have howns : bound.Owns target := by
    rw [← hbound, Owns, binding?, slot?_modifySlot, if_neg (Ne.symm hne)]
    exact htarget
  have hcanonical := canonical_of_owns howns
  have hlt : (bound.canonical target).id < bound.slots.size := by
    obtain ⟨value, hvalue⟩ := howns
    rw [hcanonical]
    exact lt_of_binding? hvalue
  rw [rankAt_setRank hlt, hcanonical, hkept]
  split
  · rename_i heq
    rw [heq]
  · rfl

/-! ### What a change does to ranks -/

/-- A new cell stands for itself, as a cell does that was not handed out. -/
theorem WellBound.canonical_push (h : pool.WellBound) (h' : pool'.WellBound) {binding : Binding}
    (hbinding : ∀ c, pool'.binding? c = if c.id = pool.slots.size then some binding else pool.binding? c)
    (halias : ∀ target, binding ≠ .alias target) (c : Cell) : pool'.canonical c = pool.canonical c := by
  by_cases hc : c.id = pool.slots.size
  · have hbefore : pool.binding? c = none := binding?_eq_none_iff.2 (Nat.le_of_eq hc.symm)
    rw [canonical_of_not_alias, canonical_of_not_alias]
    · simp [hbefore]
    · rw [hbinding, if_pos hc]
      exact fun target heq => halias target (Option.some.inj heq)
  · exact h.canonical_congr h' (by rw [hbinding, if_neg hc])

/-- Binding a cell that stands for itself makes the cells that stand for it stand for the target. -/
theorem WellBound.canonical_bind_eq (h : pool.WellBound) {cell target : Cell} {binding : Binding}
    (hcell : pool.binding? cell = some binding) (hpending : binding.isPending = true) (htarget : pool.Owns target) :
    pool.canonical cell = cell ∧
      ∀ c, (pool.bind cell target).canonical c = if pool.canonical c = cell then target else pool.canonical c := by
  have hnot := not_owns_of_isPending hcell hpending
  have hself : pool.canonical cell = cell := by
    refine canonical_of_not_alias fun t ht => ?_
    obtain rfl := Option.some.inj (hcell.symm.trans ht)
    cases hpending
  refine ⟨hself, fun c => ?_⟩
  by_cases hc : c = cell
  · subst hc
    rw [if_pos hself]
    exact canonical_of_alias (h.bind hnot htarget) (binding?_bind_self hcell hnot htarget)
  · obtain ⟨hsame, hother⟩ := h.canonical_bind hnot htarget c hc
    rw [hsame, if_neg hother]

/-- Either all cells go on to stand for what they stand for, with the same ranks, or those that stand for `cell` come
to stand for `target`, whose rank becomes the higher of the two. -/
theorem Change.rank_cases (h : Change pool pool') (hwell : pool.WellBound) :
    (∀ c, pool'.canonical c = pool.canonical c ∧ pool'.rank c = pool.rank c) ∨
      ∃ cell target, pool.canonical cell = cell ∧ pool.canonical target = target ∧
        (∀ c, pool'.canonical c = if pool.canonical c = cell then target else pool.canonical c) ∧
        ∀ c, pool'.rank c =
          if pool'.canonical c = target then max (pool.rank target) (pool.rank cell) else pool.rank c := by
  have hwell' := h.wellBound hwell
  have hkept : (∀ c, pool'.canonical c = pool.canonical c) → (∀ c, pool'.rankAt c = pool.rankAt c) →
      ∀ c, pool'.canonical c = pool.canonical c ∧ pool'.rank c = pool.rank c := by
    intro hcanonical hrank c
    rw [rank_eq, rank_eq, hcanonical, hrank]
    exact ⟨rfl, rfl⟩
  cases h with
  | @push binding hpending _ =>
    have hcanonical := hwell.canonical_push hwell' (binding?_pushSlot pool binding)
      (by rintro target rfl; cases hpending)
    exact .inl (hkept hcanonical (rankAt_pushSlot pool binding))
  | @add value _ _ =>
    have hcanonical := hwell.canonical_push hwell' (binding?_addEntry pool value) (by simp)
    exact .inl (hkept hcanonical (rankAt_pushSlot pool (.owned value)))
  | @bind cell target binding hcell hpending htarget =>
    have hne : cell ≠ target := fun heq => not_owns_of_isPending hcell hpending (heq ▸ htarget)
    obtain ⟨hself, hcanonical⟩ := hwell.canonical_bind_eq hcell hpending htarget
    refine .inr ⟨cell, target, hself, canonical_of_owns htarget, hcanonical, fun c => ?_⟩
    rw [rank_eq, rankAt_bind htarget hne, rank_eq, rank_eq, rank_eq, hself, canonical_of_owns htarget, hcanonical]
    by_cases hc : pool.canonical c = cell
    · rw [if_pos hc, if_pos rfl, if_pos rfl]
    · rw [if_neg hc]
  | number =>
    exact .inl (hkept (fun c => hwell.canonical_congr hwell' (binding?_assignIndices pool c))
      (rankAt_assignIndices pool))
  | tables => exact .inl (hkept (fun c => hwell.canonical_congr hwell' rfl) fun _ => rfl)

theorem WellBound.canonical_setRank (h : pool.WellBound) (cell : Cell) (rank : Rank) (c : Cell) :
    (pool.setRank cell rank).canonical c = pool.canonical c :=
  h.canonical_congr (h.setRank cell rank) (binding?_setRank pool cell rank c)

theorem WellBound.rank_setRank (h : pool.WellBound) {cell : Cell} (hcell : cell.id < pool.slots.size) (rank : Rank)
    (c : Cell) : (pool.setRank cell rank).rank c =
      if pool.canonical c = pool.canonical cell then max (pool.rank c) rank else pool.rank c := by
  rw [rank_eq, h.canonical_setRank, rankAt_setRank (h.canonical_lt hcell), rank_eq]

/-! ### Ranks never fall -/

theorem WellBound.rank_le_setRank (h : pool.WellBound) {cell : Cell} (hcell : cell.id < pool.slots.size) (rank : Rank)
    (c : Cell) : pool.rank c ≤ (pool.setRank cell rank).rank c := by
  rw [h.rank_setRank hcell]
  split
  · exact le_max_left _ _
  · exact le_rfl

theorem Change.rank_le (h : Change pool pool') (hwell : pool.WellBound) (c : Cell) : pool.rank c ≤ pool'.rank c := by
  rcases h.rank_cases hwell with hsame | ⟨cell, target, hcell, htarget, hcanonical, hrank⟩
  · exact le_of_eq (hsame c).2.symm
  · rw [hrank]
    split
    · rename_i hc
      rw [hcanonical] at hc
      split at hc
      · rename_i heq
        have hself : pool.rank c = pool.rank cell := by rw [rank_eq, rank_eq, heq, hcell]
        exact hself ▸ le_max_right _ _
      · have hself : pool.rank c = pool.rank target := by rw [rank_eq, rank_eq, hc, htarget]
        exact hself ▸ le_max_left _ _
    · exact le_rfl

theorem Changes.rank_le (h : Changes pool pool') (hwell : pool.WellBound) (c : Cell) : pool.rank c ≤ pool'.rank c := by
  induction h with
  | refl => exact le_rfl
  | tail hmid hstep ih => exact ih.trans (hstep.rank_le (Changes.wellBound hmid hwell) c)

theorem Valid.rank_le (h : pool.Valid references) {op : PoolOp} (hcells : ∀ cell ∈ op.cells, cell.id < pool.slots.size)
    (c : Cell) : pool.rank c ≤ (op.apply pool).rank c := by
  rcases h.apply_cases hcells with ⟨cell, rank, rfl⟩ | hchanges
  · exact h.wellBound.rank_le_setRank (hcells cell (by simp [PoolOp.cells])) rank c
  · exact hchanges.rank_le h.wellBound c

theorem Leads.rank_le (h : Leads pool ops pool') (hvalid : pool.Valid references) (c : Cell) :
    pool.rank c ≤ pool'.rank c := by
  induction h with
  | refl => exact le_rfl
  | step op hleads hcells ih =>
    obtain ⟨more, hmid, -⟩ := hleads.valid hvalid
    exact ih.trans (hmid.rank_le hcells c)

/-! ### Raising ranks -/

/-- A rank that is high enough stays as it is. -/
theorem setRank_eq_self {cell : Cell} {rank : Rank} (h : rank ≤ pool.rank cell) : pool.setRank cell rank = pool := by
  have hslots : (pool.slots.modify (pool.canonical cell).id fun slot => { slot with rank := slot.rank.max rank }) =
      pool.slots := by
    refine modify_eq_self fun slot hslot => ?_
    rw [rank_eq, rankAt, slot?, hslot] at h
    rw [Rank.max_eq, max_eq_left (show rank ≤ slot.rank from h)]
  rw [setRank]
  show { pool with slots := pool.slots.modify (pool.canonical cell).id fun slot => _ } = pool
  rw [hslots]

/-- The pool in which cells have at least the given ranks. -/
def raise (pool : Pool) (asks : List (Cell × Rank)) : Pool := asks.foldl (fun pool ask => pool.setRank ask.1 ask.2) pool

@[simp] theorem size_slots_raise (pool : Pool) (asks : List (Cell × Rank)) :
    (pool.raise asks).slots.size = pool.slots.size := by
  induction asks generalizing pool with
  | nil => rfl
  | cons ask asks ih => exact (ih _).trans (size_slots_setRank pool ask.1 ask.2)

theorem raise_eq_self {asks : List (Cell × Rank)} (h : ∀ ask ∈ asks, ask.2 ≤ pool.rank ask.1) :
    pool.raise asks = pool := by
  induction asks with
  | nil => rfl
  | cons ask asks ih =>
    show (pool.setRank ask.1 ask.2).raise asks = pool
    rw [setRank_eq_self (h ask (by simp))]
    exact ih fun other hother => h other (by simp [hother])

theorem WellBound.rank_le_raise (h : pool.WellBound) {asks : List (Cell × Rank)}
    (hcells : ∀ ask ∈ asks, ask.1.id < pool.slots.size) (c : Cell) : pool.rank c ≤ (pool.raise asks).rank c := by
  induction asks generalizing pool with
  | nil => exact le_rfl
  | cons ask asks ih =>
    have hrest : ∀ other ∈ asks, other.1.id < (pool.setRank ask.1 ask.2).slots.size := fun other hother => by
      rw [size_slots_setRank]
      exact hcells other (by simp [hother])
    exact (h.rank_le_setRank (hcells ask (by simp)) ask.2 c).trans (ih (h.setRank ask.1 ask.2) hrest)

/-- Every rank that is asked for is given. -/
theorem WellBound.le_rank_raise (h : pool.WellBound) {asks : List (Cell × Rank)}
    (hcells : ∀ ask ∈ asks, ask.1.id < pool.slots.size) : ∀ ask ∈ asks, ask.2 ≤ (pool.raise asks).rank ask.1 := by
  induction asks generalizing pool with
  | nil => simp
  | cons ask asks ih =>
    have hrest : ∀ other ∈ asks, other.1.id < (pool.setRank ask.1 ask.2).slots.size := fun other hother => by
      rw [size_slots_setRank]
      exact hcells other (by simp [hother])
    intro found hfound
    rcases List.mem_cons.1 hfound with rfl | hfound
    · refine le_trans ?_ ((h.setRank found.1 found.2).rank_le_raise hrest found.1)
      rw [h.rank_setRank (hcells found (by simp)), if_pos rfl]
      exact le_max_right _ _
    · exact ih (h.setRank ask.1 ask.2) hrest found hfound

/-! ### Ranks and what was asked for -/

/-- The ranks that operations asked for, by cells that stand for the same as a cell. -/
def asked (ops : List PoolOp) (pool : Pool) (cell : Cell) : Set Rank :=
  { rank | ∃ c, .setRank c rank ∈ ops ∧ pool.canonical c = pool.canonical cell }

theorem mem_asked {cell : Cell} {rank : Rank} :
    rank ∈ asked ops pool cell ↔ ∃ c, .setRank c rank ∈ ops ∧ pool.canonical c = pool.canonical cell :=
  Iff.rfl

theorem asked_congr {c : Cell} (h : ∀ d, pool'.canonical d = pool'.canonical c ↔ pool.canonical d = pool.canonical c) :
    asked ops pool' c = asked ops pool c := by
  simp only [asked, h]

theorem asked_concat_setRank (ops : List PoolOp) (pool : Pool) (cell : Cell) (rank : Rank) (c : Cell) :
    asked (ops ++ [.setRank cell rank]) pool c =
      if pool.canonical c = pool.canonical cell then insert rank (asked ops pool c) else asked ops pool c := by
  ext r
  split <;>
    simp only [mem_asked, Set.mem_insert_iff, List.mem_append, List.mem_singleton, PoolOp.setRank.injEq] <;> grind

theorem asked_concat {op : PoolOp} (hop : ¬ ∃ cell rank, op = .setRank cell rank) (ops : List PoolOp) (pool : Pool)
    (c : Cell) : asked (ops ++ [op]) pool c = asked ops pool c := by
  have hmem : ∀ d rank, .setRank d rank ∈ ops ++ [op] ↔ .setRank d rank ∈ ops := by
    intro d rank
    rw [List.mem_append, List.mem_singleton, or_iff_left]
    exact fun heq => hop ⟨d, rank, heq.symm⟩
  simp only [asked, hmem]

/-- Every cell has the highest rank that was asked for. -/
def RankedBy (ops : List PoolOp) (pool : Pool) : Prop :=
  ∀ cell, IsGreatest (insert .unused (asked ops pool cell)) (pool.rank cell)

theorem RankedBy.empty : RankedBy [] Pool.empty := by
  intro cell
  have hasked : asked [] Pool.empty cell = ∅ := Set.eq_empty_of_forall_notMem (by simp [asked])
  have hrank : Pool.empty.rank cell = .unused := by
    rw [rank_eq]
    obtain ⟨id⟩ := Pool.empty.canonical cell
    cases id <;> rfl
  rw [hasked, hrank, insert_empty_eq]
  exact isGreatest_singleton

theorem RankedBy.change (h : RankedBy ops pool) (hwell : pool.WellBound) (hchange : Change pool pool') :
    RankedBy ops pool' := by
  intro c
  rcases hchange.rank_cases hwell with hsame | ⟨cell, target, hcell, htarget, hcanonical, hrank⟩
  · have hasked : asked ops pool' c = asked ops pool c := asked_congr fun d => by rw [(hsame d).1, (hsame c).1]
    rw [hasked, (hsame c).2]
    exact h c
  · rw [hrank]
    by_cases hc : pool'.canonical c = target
    · -- What was asked for by cells that stood for either has now been asked for by one.
      have hstands : ∀ d, pool'.canonical d = target ↔ pool.canonical d = target ∨ pool.canonical d = cell := by
        intro d
        rw [hcanonical]
        by_cases hd : pool.canonical d = cell <;> simp [hd]
      have hasked : asked ops pool' c = asked ops pool target ∪ asked ops pool cell := by
        ext rank
        simp only [Set.mem_union, mem_asked, hc, hstands, hcell, htarget, ← exists_or, ← and_or_left]
      rw [if_pos hc, hasked, Set.insert_union_distrib]
      exact (h target).union (h cell)
    · have hother : pool.canonical c ≠ cell := fun heq => hc (by rw [hcanonical, if_pos heq])
      have hkept : pool'.canonical c = pool.canonical c := by rw [hcanonical, if_neg hother]
      have hasked : asked ops pool' c = asked ops pool c := by
        refine asked_congr fun d => ?_
        rw [hkept] at hc ⊢
        rw [hcanonical]
        by_cases hd : pool.canonical d = cell
        · rw [if_pos hd, hd]
          exact ⟨fun heq => absurd heq.symm hc, fun heq => absurd heq.symm hother⟩
        · rw [if_neg hd]
      rw [if_neg hc, hasked]
      exact h c

theorem RankedBy.changes (h : RankedBy ops pool) (hwell : pool.WellBound) (hchanges : Changes pool pool') :
    RankedBy ops pool' := by
  induction hchanges with
  | refl => exact h
  | tail hmid hstep ih => exact ih.change (Changes.wellBound hmid hwell) hstep

theorem RankedBy.setRank (h : RankedBy ops pool) (hwell : pool.WellBound) {cell : Cell}
    (hcell : cell.id < pool.slots.size) (rank : Rank) :
    RankedBy (ops ++ [.setRank cell rank]) (pool.setRank cell rank) := by
  intro c
  have hasked : asked (ops ++ [.setRank cell rank]) (pool.setRank cell rank) c =
      asked (ops ++ [.setRank cell rank]) pool c :=
    asked_congr fun d => by rw [hwell.canonical_setRank, hwell.canonical_setRank]
  rw [hasked, asked_concat_setRank, hwell.rank_setRank hcell]
  split
  · rw [Set.insert_comm, max_comm]
    exact (h c).insert rank
  · exact h c

theorem RankedBy.apply (h : RankedBy ops pool) (hvalid : pool.Valid references) {op : PoolOp}
    (hcells : ∀ cell ∈ op.cells, cell.id < pool.slots.size) : RankedBy (ops ++ [op]) (op.apply pool) := by
  by_cases hop : ∃ cell rank, op = .setRank cell rank
  · obtain ⟨cell, rank, rfl⟩ := hop
    exact h.setRank hvalid.wellBound (hcells cell (by simp [PoolOp.cells])) rank
  · intro c
    rw [asked_concat hop]
    exact h.changes hvalid.wellBound ((hvalid.apply_cases hcells).resolve_left hop) c

theorem Leads.rankedBy (h : Leads .empty ops pool) : RankedBy ops pool := by
  induction h with
  | refl => exact .empty
  | step op hleads hcells ih =>
    obtain ⟨more, hvalid, -⟩ := hleads.valid .empty
    exact ih.apply hvalid hcells

/-- The rank of a cell is the highest that was asked for by any cell that stands for the same entry by now, whether it
was bound before that or after, and no operation lowers it. -/
theorem rank_isGreatest (h : Leads .empty ops pool) (cell : Cell) :
    IsGreatest (insert .unused { rank | ∃ c, .setRank c rank ∈ ops ∧ pool.canonical c = pool.canonical cell })
      (pool.rank cell) ∧
    ∀ more later, Leads pool more later → pool.rank cell ≤ later.rank cell := by
  obtain ⟨references, hvalid, -⟩ := h.valid .empty
  exact ⟨h.rankedBy cell, fun more later hlater => hlater.rank_le hvalid cell⟩

/-- A pool in which a reference got its rank before it was bound to the entry. -/
def rankedEarly : Pool :=
  [.reference 1 0, .setRank ⟨2⟩ .ldc, .setRank ⟨1⟩ .any, .finalize #[]].foldl PoolOp.apply
    (Pool.empty.addEntry (.integer 7))

theorem leads_rankedEarly :
    Leads .empty [.intern (.integer 7), .reference 1 0, .setRank ⟨2⟩ .ldc, .setRank ⟨1⟩ .any, .finalize #[]]
      rankedEarly := by
  have hfind : Pool.empty.find (.integer 7) = .ok none := find_empty rfl
  have hinteger := Leads.refl.addEntry rfl hfind (by simp) (by simp [Constant.refs])
  have hreference := hinteger.step (.reference 1 0) (by simp [PoolOp.cells])
  have hfirst := hreference.step (.setRank ⟨2⟩ .ldc) fun cell hcell => by
    obtain rfl := List.mem_singleton.1 hcell
    decide
  have hsecond := hfirst.step (.setRank ⟨1⟩ .any) fun cell hcell => by
    obtain rfl := List.mem_singleton.1 hcell
    decide
  exact hsecond.step (.finalize #[]) (by simp [PoolOp.cells])

/-- The rank of the reference has gone over to the entry. -/
theorem rank_isGreatest_rankedEarly :
    rankedEarly.rank ⟨1⟩ = .ldc ∧
      IsGreatest (insert .unused { rank | ∃ c, PoolOp.setRank c rank ∈
        [.intern (.integer 7), .reference 1 0, .setRank ⟨2⟩ .ldc, .setRank ⟨1⟩ .any, .finalize #[]] ∧
        rankedEarly.canonical c = rankedEarly.canonical ⟨1⟩ }) (rankedEarly.rank ⟨1⟩) ∧
      ∀ more later, Leads rankedEarly more later → rankedEarly.rank ⟨1⟩ ≤ later.rank ⟨1⟩ :=
  ⟨rfl, rank_isGreatest leads_rankedEarly ⟨1⟩⟩

end Pool

end JvmAssembler

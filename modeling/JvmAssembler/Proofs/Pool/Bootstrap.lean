import JvmAssembler.Proofs.Pool.Edit

/-!
# The table of bootstrap methods

The table lists the requests for bootstrap methods that were granted, each of them where it was made first
(`bootstraps_run`). It only grows, so that a position that was given out stays with its request
(`Tabled.getElem?_run`), and asking again gives it again (`Tabled.bootstrap_of_getElem?`). All this holds of every
sequence of operations, whatever cells they are given and whether or not they fail.
-/

namespace JvmAssembler

/-- The request for a bootstrap method that an operation makes, if it is granted. -/
def PoolOp.granted? (pool : Pool) : PoolOp → Option Bootstrap
  | bootstrap handle arguments =>
    match Pool.bootstrap handle arguments pool with
    | .ok _ _ => some ⟨handle, arguments⟩
    | .error _ _ => none
  | _ => none

namespace Pool

variable {pool pool' : Pool}

/-- The requests for bootstrap methods that are granted in the course of a sequence of operations. -/
def granted (pool : Pool) : List PoolOp → List Bootstrap
  | [] => []
  | op :: ops => (op.granted? pool).toList ++ granted (op.apply pool) ops

theorem granted_append (pool : Pool) (ops more : List PoolOp) :
    pool.granted (ops ++ more) = pool.granted ops ++ (pool.run ops).granted more := by
  induction ops generalizing pool with
  | nil => rfl
  | cons op ops ih => rw [List.cons_append, granted, ih, granted, run_cons, List.append_assoc]

/-! ### One request -/

/-- The table has no request twice, and the positions that are remembered are those in the table. -/
structure Tabled (pool : Pool) : Prop extends Sound pool where
  size_le : pool.bootstraps.size ≤ Bytes.capacity 2
  nodup : pool.bootstraps.toList.Nodup
  index_iff : ∀ (method : Bootstrap) (index : UInt16),
    pool.bootstrapIndex[method]? = some index ↔ pool.bootstraps[index.toNat]? = some method

theorem Tabled.empty : Tabled Pool.empty where
  toSound := .empty
  size_le := Nat.zero_le _
  nodup := .nil
  index_iff method index := by simp [Pool.empty]

theorem Tabled.mem_iff (h : pool.Tabled) {method : Bootstrap} :
    method ∈ pool.bootstraps.toList ↔ ∃ index, pool.bootstrapIndex[method]? = some index := by
  simp only [h.index_iff, List.mem_iff_getElem?, Array.getElem?_toList]
  refine ⟨fun ⟨i, hi⟩ => ⟨UInt16.ofNat i, ?_⟩, fun ⟨index, hindex⟩ => ⟨index.toNat, hindex⟩⟩
  -- The table is no longer than two bytes count, so every position in it is one that is given out.
  have hlt : i < Bytes.capacity 2 := Nat.lt_of_lt_of_le (Array.getElem?_eq_some_iff.1 hi).1 h.size_le
  rwa [UInt16.toNat_ofNat_of_lt' hlt]

/-- The pool in whose table the request comes last. -/
def addBootstrap (pool : Pool) (method : Bootstrap) : Pool :=
  { pool with
    bootstraps := pool.bootstraps.push method
    bootstrapIndex := pool.bootstrapIndex.insert method (UInt16.ofNat pool.bootstraps.size) }

theorem Tabled.addBootstrap (h : pool.Tabled) {method : Bootstrap} (hnew : method ∉ pool.bootstraps.toList)
    (hlt : pool.bootstraps.size < Bytes.capacity 2) : (pool.addBootstrap method).Tabled where
  toSound := by
    refine h.toSound.congr (fun _ _ => Iff.rfl) rfl rfl rfl fun hclosed cell value bootstrap hcell hbootstrap => ?_
    have hbounded := h.bounded hclosed cell value bootstrap hcell hbootstrap
    rw [Pool.addBootstrap, Array.size_push]
    exact Nat.lt_succ_of_lt hbounded
  size_le := by
    rw [Pool.addBootstrap, Array.size_push]
    exact hlt
  nodup := by
    rw [Pool.addBootstrap, Array.toList_push]
    exact List.Nodup.append h.nodup (List.nodup_singleton method) (by simpa using hnew)
  index_iff other index := by
    have hindex : UInt16.ofNat pool.bootstraps.size = index ↔ index.toNat = pool.bootstraps.size := by
      rw [← UInt16.toNat_inj, UInt16.toNat_ofNat_of_lt' hlt, eq_comm]
    simp only [Pool.addBootstrap, Std.HashMap.getElem?_insert, Array.getElem?_push, beq_iff_eq]
    by_cases hother : method = other
    · subst hother
      have hnot : pool.bootstraps[index.toNat]? ≠ some method := fun hget =>
        hnew (List.mem_iff_getElem?.2 ⟨index.toNat, by rw [Array.getElem?_toList, hget]⟩)
      rw [if_pos rfl, Option.some.injEq, hindex]
      by_cases hi : index.toNat = pool.bootstraps.size <;> simp [hi, hnot]
    · rw [if_neg hother, h.index_iff]
      by_cases hi : index.toNat = pool.bootstraps.size <;> simp [hi, hother]

/-- What asking for a bootstrap method comes to. -/
theorem Tabled.bootstrap_cases (h : pool.Tabled) (handle : Cell) (arguments : List Cell) :
    (∃ index, Pool.bootstrap handle arguments pool = .ok index pool ∧
      pool.bootstraps[index.toNat]? = some ⟨handle, arguments⟩) ∨
    (Pool.bootstrap handle arguments pool =
        .ok (UInt16.ofNat pool.bootstraps.size) (pool.addBootstrap ⟨handle, arguments⟩) ∧
      ⟨handle, arguments⟩ ∉ pool.bootstraps.toList ∧ pool.bootstraps.size < Bytes.capacity 2) ∨
    ∃ e, Pool.bootstrap handle arguments pool = .error e pool := by
  rw [Pool.bootstrap]
  simp only
  split
  · rename_i index hindex
    exact .inl ⟨index, rfl, (h.index_iff _ _).1 hindex⟩
  · rename_i hnone
    split
    · exact .inr (.inr ⟨_, rfl⟩)
    · split
      · rename_i hlt
        refine .inr (.inl ⟨rfl, fun hmem => ?_, hlt⟩)
        obtain ⟨index, hindex⟩ := h.mem_iff.1 hmem
        cases hnone.symm.trans hindex
      · exact .inr (.inr ⟨_, rfl⟩)

/-- A request that is in the table has its position there. -/
theorem Tabled.bootstrap_of_getElem? (h : pool.Tabled) {handle : Cell} {arguments : List Cell} {index : UInt16}
    (hget : pool.bootstraps[index.toNat]? = some ⟨handle, arguments⟩) :
    Pool.bootstrap handle arguments pool = .ok index pool := by
  rw [Pool.bootstrap]
  simp only [(h.index_iff _ _).2 hget]

/-- A request that is granted is in the table. -/
theorem Tabled.getElem?_of_bootstrap (h : pool.Tabled) {handle : Cell} {arguments : List Cell} {index : UInt16}
    (hrun : Pool.bootstrap handle arguments pool = .ok index pool') :
    pool'.bootstraps[index.toNat]? = some ⟨handle, arguments⟩ := by
  rcases h.bootstrap_cases handle arguments with ⟨found, hfound, hget⟩ | ⟨hadded, -, hlt⟩ | ⟨e, herror⟩
  · obtain ⟨rfl, rfl⟩ := EStateM.Result.ok.inj (hfound.symm.trans hrun)
    exact hget
  · obtain ⟨rfl, rfl⟩ := EStateM.Result.ok.inj (hadded.symm.trans hrun)
    rw [Pool.addBootstrap, UInt16.toNat_ofNat_of_lt' hlt, Array.getElem?_push_size]
  · cases herror.symm.trans hrun

/-! ### Any operations -/

theorem Tabled.edits (h : pool.Tabled) (hedits : Edits pool pool') : pool'.Tabled := by
  obtain ⟨hbootstraps, hindex⟩ := hedits.bootstraps
  refine ⟨hedits.sound h.toSound, ?_, ?_, ?_⟩
  · rw [hbootstraps]
    exact h.size_le
  · rw [hbootstraps]
    exact h.nodup
  · rw [hbootstraps, hindex]
    exact h.index_iff

/-- Asking for a bootstrap method adds the request to the table if it is granted, unless the table has it. -/
theorem Tabled.bootstrap (h : pool.Tabled) (handle : Cell) (arguments : List Cell) :
    ((PoolOp.bootstrap handle arguments).apply pool).Tabled ∧
      ((PoolOp.bootstrap handle arguments).apply pool).bootstraps.toList = pool.bootstraps.toList ++
        ((PoolOp.bootstrap handle arguments).granted? pool).toList.removeAll pool.bootstraps.toList := by
  rw [PoolOp.apply, PoolOp.granted?]
  rcases h.bootstrap_cases handle arguments with ⟨index, hrun, hget⟩ | ⟨hrun, hnew, hlt⟩ | ⟨e, hrun⟩
  · have hmem := h.mem_iff.2 ⟨index, (h.index_iff _ _).2 hget⟩
    rw [hrun]
    exact ⟨h, by simp [PoolOp.left, List.cons_removeAll, Array.mem_toList_iff.1 hmem]⟩
  · have hnot : ⟨handle, arguments⟩ ∉ pool.bootstraps := fun hmem => hnew (Array.mem_toList_iff.2 hmem)
    rw [hrun]
    exact ⟨h.addBootstrap hnew hlt, by simp [PoolOp.left, List.cons_removeAll, Pool.addBootstrap, hnot]⟩
  · rw [hrun]
    exact ⟨h, by simp [PoolOp.left]⟩

/-- What one operation does to the table. -/
theorem Tabled.apply (h : pool.Tabled) (op : PoolOp) :
    (op.apply pool).Tabled ∧ (op.apply pool).bootstraps.toList =
      pool.bootstraps.toList ++ (op.granted? pool).toList.removeAll pool.bootstraps.toList := by
  cases hop : op.isBootstrap with
  | true =>
    cases op with
    | bootstrap handle arguments => exact h.bootstrap handle arguments
    | _ => cases hop
  | false =>
    have hedits := h.edits_apply hop
    have hnone : op.granted? pool = none := by
      cases op with
      | bootstrap handle arguments => cases hop
      | _ => rfl
    exact ⟨h.edits hedits, by rw [hnone, hedits.bootstraps.1, Option.toList_none, List.nil_removeAll, List.append_nil]⟩

/-- What a sequence of operations does: it adds to the table. -/
theorem Tabled.run (h : pool.Tabled) (ops : List PoolOp) :
    (pool.run ops).Tabled ∧ ∃ added, (pool.run ops).bootstraps.toList = pool.bootstraps.toList ++ added := by
  induction ops generalizing pool with
  | nil => exact ⟨h, [], (List.append_nil _).symm⟩
  | cons op ops ih =>
    obtain ⟨htabled, hstep⟩ := h.apply op
    obtain ⟨hrun, added, hadded⟩ := ih htabled
    exact ⟨hrun, _, by rw [run_cons, hadded, hstep, List.append_assoc]⟩

theorem tabled_run (ops : List PoolOp) : (Pool.empty.run ops).Tabled := (Tabled.empty.run ops).1

/-- A request keeps its position. -/
theorem Tabled.getElem?_run (h : pool.Tabled) {method : Bootstrap} {i : Nat} (hget : pool.bootstraps[i]? = some method)
    (ops : List PoolOp) : (pool.run ops).bootstraps[i]? = some method := by
  obtain ⟨-, added, hadded⟩ := h.run ops
  rw [← Array.getElem?_toList] at hget ⊢
  rw [hadded, List.getElem?_append_left (List.getElem?_eq_some_iff.1 hget).1, hget]

/-- The table lists the requests that were granted, in the order in which they were made first. -/
theorem bootstraps_run (ops : List PoolOp) :
    (Pool.empty.run ops).bootstraps.toList = (Pool.empty.granted ops).eraseDups := by
  -- From the end, since it is the last request that is new or has been made before.
  induction ops using List.reverseRecOn with
  | nil => rfl
  | append_singleton ops op ih =>
    have hseen : ∀ method, method ∈ (Pool.empty.run ops).bootstraps.toList ↔ method ∈ Pool.empty.granted ops :=
      fun method => by rw [ih, List.mem_eraseDups]
    have hgranted : (Pool.empty.run ops).granted [op] = (op.granted? (Pool.empty.run ops)).toList := List.append_nil _
    rw [run_append, run_cons, run_nil, ((tabled_run ops).apply op).2, granted_append, hgranted, List.eraseDups_append,
      ← ih]
    cases op.granted? (Pool.empty.run ops) with
    | none => simp
    | some method =>
      rw [Option.toList_some, List.cons_removeAll, List.cons_removeAll]
      by_cases hmem : method ∈ Pool.empty.granted ops
      · simp [(hseen method).2 hmem, hmem]
      · simp [mt (hseen method).1 hmem, hmem, List.eraseDups_cons]

/-! ### Operations that ask for nothing -/

/-- Operations that ask for no bootstrap method lead from one pool to the other. -/
def Advances (pool pool' : Pool) : Prop := ∃ ops, pool' = pool.run ops ∧ ∀ op ∈ ops, op.isBootstrap = false

theorem Advances.refl (pool : Pool) : Advances pool pool := ⟨[], rfl, by simp⟩

theorem Advances.trans {pool'' : Pool} (h : Advances pool pool') (h' : Advances pool' pool'') :
    Advances pool pool'' := by
  obtain ⟨ops, rfl, hops⟩ := h
  obtain ⟨more, rfl, hmore⟩ := h'
  refine ⟨ops ++ more, (run_append pool ops more).symm, fun op hop => ?_⟩
  rcases List.mem_append.1 hop with hop | hop
  · exact hops op hop
  · exact hmore op hop

theorem Advances.step (h : Advances pool pool') (op : PoolOp) (hop : op.isBootstrap = false) :
    Advances pool (op.apply pool') :=
  h.trans ⟨[op], rfl, by simpa using hop⟩

/-- The table stays as it is. -/
theorem Tabled.advances (h : pool.Tabled) (hadvances : Advances pool pool') :
    pool'.Tabled ∧ pool'.bootstraps = pool.bootstraps := by
  obtain ⟨ops, rfl, hops⟩ := hadvances
  have hedits := h.edits_run hops
  exact ⟨h.edits hedits, hedits.bootstraps.1⟩

/-- In a finalized pool every entry with a bootstrap method has it in the table. -/
theorem Tabled.lt_of_dynamic (h : pool.Tabled) (hfinal : pool.isFinalized = true) {cell signature : Cell}
    {kind : DynamicKind} {bootstrap : UInt16} (hcell : pool.get? cell = some (.dynamic kind bootstrap signature)) :
    bootstrap.toNat < pool.bootstraps.size := by
  have howned : pool.binding? (pool.canonical cell) = some (.owned (.dynamic kind bootstrap signature)) := by
    rw [get?_eq] at hcell
    split at hcell
    · rename_i value hvalue
      obtain rfl := Option.some.inj hcell
      exact hvalue
    · cases hcell
  exact h.bounded hfinal _ _ bootstrap howned rfl

end Pool

end JvmAssembler

import JvmAssembler.Proofs.ClassFile.Bootstrap
import JvmAssembler.Proofs.ClassFile.Failure

/-!
# The number of bootstrap methods

The table of bootstrap methods is limited twice: a request is granted if its position fits two bytes
(`Pool.Tabled.bootstrap_of_notMem`), and the table can be written if its length does
(`Payload.emit_bootstrapMethods_iff`). The position of the last method is one less than the length, so the longest
table that a pool grants is one too long for the attribute, and every shorter one fits.
-/

namespace JvmAssembler

/-- The operation that asks for a bootstrap method. -/
def PoolOp.ask (method : Bootstrap) : PoolOp := .bootstrap method.handle method.arguments

/-! ### What is granted -/

namespace Pool

variable {pool : Pool}

/-- An open pool grants a new request as long as there is a position for it. -/
theorem Tabled.bootstrap_of_notMem (h : pool.Tabled) (hopen : pool.isFinalized = false) {method : Bootstrap}
    (hnew : method ∉ pool.bootstraps.toList) :
    Pool.bootstrap method.handle method.arguments pool =
      if pool.bootstraps.size < Bytes.capacity 2 then
        .ok (UInt16.ofNat pool.bootstraps.size) (pool.addBootstrap method)
      else .error (.countOverflow "bootstrap methods" pool.bootstraps.size) pool := by
  have hnone : pool.bootstrapIndex[method]? = none := by
    rw [Option.eq_none_iff_forall_ne_some]
    intro index hindex
    exact hnew (h.mem_iff.2 ⟨index, hindex⟩)
  rw [Pool.bootstrap]
  simp only [hnone, hopen, Bool.false_eq_true, ↓reduceIte]
  rfl

/-- An open pool grants any new requests, as many as there are positions for, and changes in nothing but its table. -/
theorem Tabled.run_asks (h : pool.Tabled) (hopen : pool.isFinalized = false) (methods : List Bootstrap)
    (hnodup : (pool.bootstraps.toList ++ methods).Nodup)
    (hfits : pool.bootstraps.size + methods.length ≤ Bytes.capacity 2) :
    pool.granted (methods.map PoolOp.ask) = methods ∧ ∃ positions, pool.run (methods.map PoolOp.ask) =
      { pool with bootstraps := (pool.bootstraps.toList ++ methods).toArray, bootstrapIndex := positions } := by
  induction methods generalizing pool with
  | nil => exact ⟨rfl, pool.bootstrapIndex, by simp⟩
  | cons method methods ih =>
    rw [List.length_cons] at hfits
    have hnew : method ∉ pool.bootstraps.toList := by
      intro hmem
      exact (List.nodup_append.1 hnodup).2.2 method hmem method (by simp) rfl
    have hlt : pool.bootstraps.size < Bytes.capacity 2 := by omega
    have hrun := h.bootstrap_of_notMem hopen hnew
    rw [if_pos hlt] at hrun
    have happly : (PoolOp.ask method).apply pool = pool.addBootstrap method := by
      rw [PoolOp.ask, PoolOp.apply, hrun]
      rfl
    have hgranted : (PoolOp.ask method).granted? pool = some method := by
      rw [PoolOp.ask, PoolOp.granted?, hrun]
    have htable : (pool.addBootstrap method).bootstraps.toList = pool.bootstraps.toList ++ [method] := by
      rw [Pool.addBootstrap, Array.toList_push]
    have hsize : (pool.addBootstrap method).bootstraps.size = pool.bootstraps.size + 1 := by
      rw [Pool.addBootstrap, Array.size_push]
    obtain ⟨hrest, positions, hfinal⟩ := ih (h.addBootstrap hnew hlt) hopen (by simpa [htable] using hnodup)
      (by omega)
    constructor
    · rw [List.map_cons, granted, hgranted, happly, hrest]
      rfl
    · refine ⟨positions, ?_⟩
      rw [List.map_cons, run_cons, happly, hfinal, htable, List.append_assoc]
      rfl

end Pool

/-! ### What can be written -/

/-- Writing a table fails at its count exactly if the table is too long for it. -/
theorem Payload.emit_bootstrapMethods_iff {methods : List Bootstrap} {pool : Pool} {s : Reported Scope} {n : Nat} :
    (∃ s', (Payload.bootstrapMethods methods).emit pool s = .error (.countOverflow "attribute entries" n) s') ↔
      n = methods.length ∧ Bytes.capacity 2 ≤ n := by
  rw [((Payload.bootstrapMethods methods).follows (fun _ => none) "").error_iff rfl]
  constructor
  · rintro ⟨before, check, after, hchecks, hcheck, -⟩
    obtain ⟨width, rfl, hle⟩ := Check.error?_eq_countOverflow_iff.1 hcheck
    have hmem : Check.count width "attribute entries" n ∈ (Payload.bootstrapMethods methods).checks s.state := by
      simp [hchecks]
    rw [Payload.checks, Check.counted, List.mem_cons, List.mem_flatMap] at hmem
    rcases hmem with heq | ⟨method, -, hargument⟩
    · obtain ⟨rfl, -, rfl⟩ := Check.count.inj heq
      exact ⟨rfl, hle⟩
    -- The other counts are those of the arguments, which are called otherwise.
    · simp [Bootstrap.checks, Check.counted] at hargument
  · rintro ⟨rfl, hle⟩
    exact ⟨[], .count 2 "attribute entries" methods.length, methods.flatMap Bootstrap.checks, rfl,
      Check.error?_eq_countOverflow_iff.2 ⟨2, rfl, hle⟩, by simp⟩

namespace ClassFile

variable {model model' : ClassFile}

theorem mem_checks_of_mem_attributes {outer : Attribute} (houter : outer ∈ model.attributes) {check : Check}
    (hcheck : check ∈ outer.checks {}) : check ∈ model.checks := by
  refine List.mem_append_right _ (List.mem_cons_of_mem _ ?_)
  exact List.mem_flatMap.2 ⟨outer, houter, hcheck⟩

theorem exists_mem_of_bootstraps? {methods : List Bootstrap} (h : model.bootstraps? = some methods) :
    ∃ name, ⟨name, .bootstrapMethods methods⟩ ∈ model.attributes := by
  obtain ⟨⟨name, payload⟩, houter, hsome⟩ := List.exists_of_findSome?_eq_some h
  cases payload with
  | bootstrapMethods held =>
    obtain rfl := Option.some.inj hsome
    exact ⟨name, houter⟩
  | _ => cases hsome

/-- A class with a table that is too long is not written. -/
theorem write_of_overflow {name : Cell} {methods : List Bootstrap}
    (hmem : ⟨name, .bootstrapMethods methods⟩ ∈ model.attributes) (hle : Bytes.capacity 2 ≤ methods.length)
    (warnings : Array Warning) : ∃ e, (model.write warnings).1 = .error e := by
  rcases model.write_cases warnings with ⟨e, -, he⟩ | ⟨pool, -, ⟨e, s, -, he⟩ | ⟨body, s, hbody, -⟩⟩
  · exact ⟨e, he⟩
  · exact ⟨e, he⟩
  · have hcount : Check.count 2 "attribute entries" methods.length ∈ model.checks :=
      mem_checks_of_mem_attributes hmem (List.mem_cons_of_mem _ List.mem_cons_self)
    have hnone := (model.follows_emitBody.of_ok rfl hbody).1 _ hcount
    rw [Check.error?_eq_countOverflow_iff.2 ⟨2, rfl, hle⟩] at hnone
    cases hnone

/-- A class whose pool is written fails with the error of its first check that does. -/
theorem write_of_first? {warnings : Array Warning} {e : AssemblyError} (hpool : ∃ bytes, model.pool.encode = .ok bytes)
    (hfirst : Check.first? model.pool model.checks = some e) : (model.write warnings).1 = .error e := by
  obtain ⟨bytes, hpool⟩ := hpool
  obtain ⟨s, hbody⟩ := (model.follows_emitBody.error_iff (s := ⟨{}, warnings⟩) rfl).2
    (Check.first?_eq_some_iff.1 hfirst)
  rcases model.write_cases warnings with ⟨e', he, -⟩ | ⟨pool, -, ⟨e', s', he, hwrite⟩ | ⟨body, s', hok, -⟩⟩
  · cases hpool.symm.trans he
  · obtain ⟨rfl, -⟩ := EStateM.Result.error.inj (hbody.symm.trans he)
    exact hwrite
  · cases hbody.symm.trans hok

/-- Whatever operations a pool has been through, its table has no more than 65536 bootstrap methods, and a new request
is granted until there are so many. Writing the table fails at its count exactly if it has got there, one method past
what the count can hold. A class that is prepared holds the table, and if this is full, it cannot be written. -/
theorem bootstraps_overflow_iff (ops : List PoolOp) :
    (Pool.empty.run ops).bootstraps.size ≤ 65536 ∧
      (∀ handle arguments, ⟨handle, arguments⟩ ∉ (Pool.empty.run ops).bootstraps.toList →
        (Pool.empty.run ops).isFinalized = false →
        Pool.bootstrap handle arguments (Pool.empty.run ops) =
          if (Pool.empty.run ops).bootstraps.size < 65536 then
            .ok (UInt16.ofNat (Pool.empty.run ops).bootstraps.size)
              ((Pool.empty.run ops).addBootstrap ⟨handle, arguments⟩)
          else .error (.countOverflow "bootstrap methods" 65536) (Pool.empty.run ops)) ∧
      (∀ pool s n, (∃ s', (Payload.bootstrapMethods (Pool.empty.run ops).bootstraps.toList).emit pool s =
          .error (.countOverflow "attribute entries" n) s') ↔
        n = 65536 ∧ (Pool.empty.run ops).bootstraps.size = 65536) ∧
      ∀ model warnings model' warnings', model.pool = Pool.empty.run ops →
        prepare ⟨model, warnings⟩ = .ok () ⟨model', warnings'⟩ → (Pool.empty.run ops).bootstraps.toList ≠ [] →
        (∃ name, ⟨name, .bootstrapMethods (Pool.empty.run ops).bootstraps.toList⟩ ∈ model'.attributes) ∧
        ((Pool.empty.run ops).bootstraps.size = 65536 → ∀ reported, ∃ e, (model'.write reported).1 = .error e) := by
  have htabled := Pool.tabled_run ops
  have hcapacity : Bytes.capacity 2 = 65536 := rfl
  have hle : (Pool.empty.run ops).bootstraps.size ≤ 65536 := htabled.size_le
  refine ⟨hle, ?_, ?_, ?_⟩
  · intro handle arguments hnew hopen
    have hrun := htabled.bootstrap_of_notMem hopen hnew
    rw [hcapacity] at hrun
    rw [hrun]
    by_cases hlt : (Pool.empty.run ops).bootstraps.size < 65536
    · rw [if_pos hlt, if_pos hlt]
    · have hfull : (Pool.empty.run ops).bootstraps.size = 65536 := by omega
      rw [if_neg hlt, if_neg hlt, hfull]
  · intro pool s n
    rw [Payload.emit_bootstrapMethods_iff, hcapacity, Array.length_toList]
    omega
  · intro model warnings model' warnings' hpool hprepare hne
    have htable := holdsTable_of_prepare (hpool ▸ htabled) hprepare
    have heq : model'.pool.bootstraps = (Pool.empty.run ops).bootstraps := by rw [htable.table_eq, hpool]
    have hheld := htable.held (heq ▸ hne)
    rw [heq] at hheld
    obtain ⟨name, hname⟩ := exists_mem_of_bootstraps? hheld
    refine ⟨⟨name, hname⟩, fun hsize => write_of_overflow hname ?_⟩
    rw [hcapacity, Array.length_toList]
    omega

/-! ### A full table -/

/-- A pool with the name of the attribute and with any table, before and after the indices are given out. -/
private def namePool (byValue : Std.HashMap (Constant Cell) Cell) (byContent : Std.HashMap Content Cell)
    (table : Array Bootstrap) (positions : Std.HashMap Bootstrap UInt16) (final : Bool) : Pool where
  slots := #[{ binding := .owned .zero, index := some 0 },
    { binding := .owned (.utf8 "BootstrapMethods"), index := if final then some 1 else none }]
  order := #[⟨1⟩]
  byValue
  byContent
  bootstraps := table
  bootstrapIndex := positions
  layout := if final then some ⟨1, #[(1, ⟨1⟩)], 2⟩ else none

/-- A class with nothing but bootstrap methods. -/
private def declaring (pool : Pool) (held : List Bootstrap) : ClassFile where
  pool
  thisClass := ⟨1⟩
  attributes := [⟨⟨1⟩, .bootstrapMethods held⟩]

private theorem pool_declaring (pool : Pool) (held : List Bootstrap) : (declaring pool held).pool = pool := rfl

variable {byValue : Std.HashMap (Constant Cell) Cell} {byContent : Std.HashMap Content Cell}
  {table : Array Bootstrap} {positions : Std.HashMap Bootstrap UInt16}

private theorem finalize_namePool (warnings : Array Warning) :
    Pool.finalize ⟨namePool byValue byContent table positions false, warnings⟩ =
      .ok () ⟨namePool byValue byContent table positions true, warnings⟩ := by
  have hbound : Pool.bindPromises (namePool byValue byContent table positions false) =
      .ok () (namePool byValue byContent table positions false) := rfl
  rw [Pool.finalize_of_open rfl hbound]
  rfl

private theorem prepare_declaring (hne : table.toList ≠ []) :
    prepare ⟨declaring (namePool byValue byContent table positions false) [], #[]⟩ =
      .ok () ⟨declaring (namePool byValue byContent table positions true) table.toList, #[]⟩ := by
  have hlaid : layOut (declaring (namePool byValue byContent table positions false) []) = .ok () _ := rfl
  have hheld : updateBootstraps (declaring (namePool byValue byContent table positions false) []) =
      .ok () (declaring (namePool byValue byContent table positions false) table.toList) := by
    have hempty : ¬ table.isEmpty = true := by simpa using hne
    exact if_neg hempty
  have hfinal : finalizePool ⟨declaring (namePool byValue byContent table positions false) table.toList, #[]⟩ =
      .ok () ⟨declaring (namePool byValue byContent table positions true) table.toList, #[]⟩ := by
    simp only [finalizePool, declaring, finalize_namePool]
  have hthis : (⟨1⟩ : Cell) ≠ .zero := by decide
  rw [prepare_of_held hlaid hheld hthis, hfinal]
  rfl

private theorem write_declaring (hle : Bytes.capacity 2 ≤ table.size) :
    ((declaring (namePool byValue byContent table positions true) table.toList).write #[]).1 =
      .error (.countOverflow "attribute entries" table.size) := by
  -- The class is named and its lists are counted before the table is.
  have hchecks : (declaring (namePool byValue byContent table positions true) table.toList).checks =
      [.cell ⟨1⟩, .count 2 "interfaces" 0, .count 2 "records" 0, .count 2 "records" 0, .count 2 "records" 1,
        .cell ⟨1⟩] ++ .count 2 "attribute entries" table.size :: table.toList.flatMap Bootstrap.checks := by
    simp [checks, declaring, Check.counted, Check.cell?, Attribute.checks, Payload.checks]
  refine write_of_first? ⟨_, rfl⟩ (Check.first?_eq_some_iff.2 ⟨_, _, _, hchecks, ?_, ?_⟩)
  · exact Check.error?_eq_countOverflow_iff.2 ⟨2, rfl, hle⟩
  · exact Check.first?_eq_none_iff.1 rfl

/-- The operations that name the attribute and ask for bootstrap methods. -/
private def declaringOps (methods : List Bootstrap) : List PoolOp :=
  .intern (.utf8 "BootstrapMethods") :: methods.map PoolOp.ask

private theorem run_declaringOps {methods : List Bootstrap} (hnodup : methods.Nodup)
    (hle : methods.length ≤ Bytes.capacity 2) : Pool.empty.granted (declaringOps methods) = methods ∧
      ∃ byValue byContent positions,
        Pool.empty.run (declaringOps methods) = namePool byValue byContent methods.toArray positions false := by
  have hname : (PoolOp.intern (.utf8 "BootstrapMethods")).apply Pool.empty =
      Pool.empty.addEntry (.utf8 "BootstrapMethods") :=
    Pool.apply_intern rfl (Pool.find_empty rfl) (by simp)
  have htabled : (Pool.empty.addEntry (.utf8 "BootstrapMethods")).Tabled := by
    have happly := (Pool.Tabled.empty.apply (.intern (.utf8 "BootstrapMethods"))).1
    rwa [hname] at happly
  obtain ⟨hgranted, positions, hrun⟩ := htabled.run_asks rfl methods hnodup
    (by simpa [Pool.addEntry, Pool.empty] using hle)
  constructor
  · rw [declaringOps, Pool.granted, hname, hgranted]
    rfl
  · refine ⟨(Pool.empty.addEntry (.utf8 "BootstrapMethods")).byValue,
      (Pool.empty.addEntry (.utf8 "BootstrapMethods")).byContent, positions, ?_⟩
    rw [declaringOps, Pool.run_cons, hname, hrun]
    rfl

/-- What becomes of a class that has as many bootstrap methods as a pool grants. -/
private theorem assemble_full {methods : List Bootstrap} (hnodup : methods.Nodup) (hlength : methods.length = 65536) :
    (Pool.empty.run (declaringOps methods)).bootstraps.toList = methods ∧
      (Pool.empty.run (declaringOps methods)).isFinalized = false ∧
      ∃ model, prepare ⟨declaring (Pool.empty.run (declaringOps methods)) [], #[]⟩ = .ok () ⟨model, #[]⟩ ∧
        (model.write #[]).1 = .error (.countOverflow "attribute entries" 65536) := by
  obtain ⟨-, byValue, byContent, positions, hrun⟩ := run_declaringOps hnodup (Nat.le_of_eq hlength)
  rw [hrun]
  have hne : methods.toArray.toList ≠ [] := by
    rintro rfl
    cases hlength
  have hsize : methods.toArray.size = 65536 := by rw [List.size_toArray, hlength]
  refine ⟨rfl, rfl, _, prepare_declaring hne, ?_⟩
  rw [write_declaring (Nat.le_of_eq hsize.symm), hsize]

/-- As many requests as a pool grants. -/
private def fullTable : List Bootstrap := (List.range 65536).map fun i => ⟨⟨i⟩, []⟩

private theorem length_fullTable : fullTable.length = 65536 := by rw [fullTable, List.length_map, List.length_range]

private theorem nodup_fullTable : fullTable.Nodup := by
  rw [fullTable]
  refine List.Nodup.map ?_ List.nodup_range
  intro i j hij
  simpa using hij

/-- The pool of that class takes no further request, and the class cannot be written. -/
theorem bootstraps_overflow_iff_fullTable :
    Pool.bootstrap ⟨65536⟩ [] (Pool.empty.run (declaringOps fullTable)) =
        .error (.countOverflow "bootstrap methods" 65536) (Pool.empty.run (declaringOps fullTable)) ∧
      ∃ model, prepare ⟨declaring (Pool.empty.run (declaringOps fullTable)) [], #[]⟩ = .ok () ⟨model, #[]⟩ ∧
        ∀ reported, ∃ e, (model.write reported).1 = .error e := by
  obtain ⟨htable, hopen, model, hprepare, -⟩ := assemble_full nodup_fullTable length_fullTable
  have hsize : (Pool.empty.run (declaringOps fullTable)).bootstraps.size = 65536 := by
    rw [← Array.length_toList, htable, length_fullTable]
  have hnew : ⟨⟨65536⟩, []⟩ ∉ (Pool.empty.run (declaringOps fullTable)).bootstraps.toList := by
    rw [htable, fullTable]
    simp
  have hne : (Pool.empty.run (declaringOps fullTable)).bootstraps.toList ≠ [] := by
    intro hnil
    rw [← Array.length_toList, hnil] at hsize
    cases hsize
  obtain ⟨-, hbootstrap, -, hclass⟩ := bootstraps_overflow_iff (declaringOps fullTable)
  have hrefused := hbootstrap ⟨65536⟩ [] hnew hopen
  rw [hsize, if_neg (Nat.lt_irrefl _)] at hrefused
  exact ⟨hrefused, model, hprepare, (hclass _ #[] model #[] (pool_declaring _ []) hprepare hne).2 hsize⟩

/-- Every request of a full table is granted, the class with it is prepared, and its count overflows all the same. -/
theorem countOverflow_of_granted :
    Pool.empty.granted (declaringOps fullTable) = fullTable ∧
      ∃ model, prepare ⟨declaring (Pool.empty.run (declaringOps fullTable)) [], #[]⟩ = .ok () ⟨model, #[]⟩ ∧
        (model.write #[]).1 = .error (.countOverflow "attribute entries" 65536) := by
  obtain ⟨hgranted, -⟩ := run_declaringOps nodup_fullTable (Nat.le_of_eq length_fullTable)
  obtain ⟨-, -, hassemble⟩ := assemble_full nodup_fullTable length_fullTable
  exact ⟨hgranted, hassemble⟩

end ClassFile

end JvmAssembler

import JvmAssembler.Proofs.ClassFile.Repeat
import JvmAssembler.Proofs.Pool.Bootstrap

/-!
# The bootstrap methods of a class

Preparing a class does to its pool what operations do that ask for no bootstrap method (`Pool.Advances`). So the table
is the one that the pool had, the entries that refer to it find their methods there, and the first attribute for
bootstrap methods holds it (`ClassFile.HoldsTable`).
-/

namespace JvmAssembler

/-- The bootstrap methods that an attribute holds. -/
def Attribute.bootstraps? : Attribute → Option (List Bootstrap)
  | ⟨_, .bootstrapMethods methods⟩ => some methods
  | _ => none

theorem Attribute.bootstraps?_eq_none_iff {outer : Attribute} :
    outer.bootstraps? = none ↔ ∀ held, outer.payload ≠ .bootstrapMethods held := by
  obtain ⟨name, payload⟩ := outer
  cases payload <;> simp [bootstraps?]

theorem Pool.Advances.raise {pool pool' : Pool} (h : Advances pool pool') (asks : List (Cell × Rank)) :
    Advances pool (pool'.raise asks) := by
  induction asks generalizing pool' with
  | nil => exact h
  | cons ask asks ih => exact ih (h.step (.setRank ask.1 ask.2) rfl)

namespace ClassFile

variable {model model' : ClassFile}

/-- The bootstrap methods of a class are those of the first attribute that holds any. -/
def bootstraps? (model : ClassFile) : Option (List Bootstrap) := model.attributes.findSome? Attribute.bootstraps?

theorem bootstraps?_eq_none_iff : model.bootstraps? = none ↔
    ∀ outer ∈ model.attributes, ∀ held, outer.payload ≠ .bootstrapMethods held := by
  simp only [bootstraps?, List.findSome?_eq_none_iff, Attribute.bootstraps?_eq_none_iff]

/-! ### What becomes of the pool -/

/-- Laying out methods raises ranks, however far it gets. -/
theorem advances_layOutMethods {start : Pool} (methods done : List Method) {pool : Pool}
    (h : Pool.Advances start pool) : Pool.Advances start (layOutMethods done methods pool).2.2 := by
  induction methods generalizing done pool with
  | nil => exact h
  | cons method methods ih =>
    have hraised := h.raise method.asks
    rw [layOutMethods, (Method.layOut_eq method _ pool).1]
    cases (method.layOut ((pool.utf8? method.name).getD "<unknown>") pool).1 with
    | error e => exact hraised
    | ok new => exact ih (new :: done) hraised

theorem advances_layOut (model : ClassFile) :
    Pool.Advances model.pool (PoolOp.left (layOut model)).pool ∧
      (PoolOp.left (layOut model)).attributes = model.attributes := by
  have hadvances := advances_layOutMethods model.methods [] (.refl model.pool)
  rw [layOut]
  rcases hrun : layOutMethods [] model.methods model.pool with ⟨result, methods, pool⟩
  rw [hrun] at hadvances
  cases result with
  | error e => exact ⟨hadvances, rfl⟩
  | ok => exact ⟨hadvances, rfl⟩

theorem advances_updateBootstraps (model : ClassFile) :
    Pool.Advances model.pool (PoolOp.left (updateBootstraps model)).pool := by
  cases hrun : updateBootstraps model with
  | error e left =>
    obtain rfl := updateBootstraps_error hrun
    exact .refl _
  | ok u left =>
    rcases updateBootstraps_cases hrun with ⟨attributes, rfl, -⟩ | ⟨name, pool, rfl, hname, -⟩
    · exact .refl model.pool
    · have hadvances := (Pool.Advances.refl model.pool).step (.intern (.utf8 "BootstrapMethods")) rfl
      rwa [PoolOp.apply, hname] at hadvances

theorem advances_finalizePool (model : ClassFile) (warnings : Array Warning) :
    Pool.Advances model.pool (PoolOp.left (finalizePool ⟨model, warnings⟩)).state.pool := by
  rw [left_finalizePool]
  exact (Pool.Advances.refl model.pool).step (.finalize warnings) rfl

/-- Preparing a class, however far it gets. -/
theorem advances_prepare (model : ClassFile) (warnings : Array Warning) :
    Pool.Advances model.pool (PoolOp.left (prepare ⟨model, warnings⟩)).state.pool := by
  rw [prepare_eq]
  split
  · exact .refl model.pool
  · have hlaid := (advances_layOut model).1
    cases hlayOut : layOut model with
    | error e laid =>
      rw [hlayOut] at hlaid
      exact hlaid
    | ok u laid =>
      rw [hlayOut] at hlaid
      have hheld := hlaid.trans (advances_updateBootstraps laid)
      simp only
      cases hupdate : updateBootstraps laid with
      | error e held =>
        rw [hupdate] at hheld
        exact hheld
      | ok u held =>
        rw [hupdate] at hheld
        have hfinal := hheld.trans (advances_finalizePool held warnings)
        simp only
        cases hfinalize : finalizePool ⟨held, warnings⟩ with
        | error e final =>
          rw [hfinalize] at hfinal
          exact hfinal
        | ok u final =>
          rw [hfinalize] at hfinal
          exact hfinal

/-! ### What a class holds -/

/-- Preparing a class sees to it that the class holds the table of its pool. -/
structure HoldsTable (model model' : ClassFile) : Prop where
  /-- The table is the one that the pool had. -/
  table_eq : model'.pool.bootstraps = model.pool.bootstraps
  /-- Dynamically computed constants and call sites have their bootstrap methods in the table. -/
  defined : ∀ cell kind bootstrap signature, model'.pool.get? cell = some (.dynamic kind bootstrap signature) →
    bootstrap.toNat < model'.pool.bootstraps.size
  /-- The first attribute with bootstrap methods holds the table. -/
  held : model'.pool.bootstraps.toList ≠ [] → model'.bootstraps? = some model'.pool.bootstraps.toList
  /-- An attribute for the table is added exactly if there is need of one. -/
  added_iff : (∃ name, model'.attributes =
      model.attributes ++ [⟨name, .bootstrapMethods model'.pool.bootstraps.toList⟩]) ↔
    model'.pool.bootstraps.toList ≠ [] ∧ model.bootstraps? = none
  /-- Otherwise the class has the attributes that it had, by their names. -/
  names_eq : ¬ (model'.pool.bootstraps.toList ≠ [] ∧ model.bootstraps? = none) →
    model'.attributes.map Attribute.name = model.attributes.map Attribute.name

theorem HoldsBootstraps.bootstraps?_eq {size : Nat} {methods : List Bootstrap}
    (h : HoldsBootstraps size methods model.attributes model'.attributes) (hne : methods ≠ []) :
    model'.bootstraps? = some methods := by
  rcases h.first with hnil | ⟨before, name, after, heq, hbefore⟩
  · exact absurd hnil hne
  · have hnone : ∀ outer ∈ before, outer.bootstraps? = none := fun outer houter =>
      Attribute.bootstraps?_eq_none_iff.2 (Attribute.withBootstraps?_eq_none_iff.1 (hbefore outer houter))
    rw [bootstraps?, heq, List.findSome?_append, List.findSome?_eq_none_iff.2 hnone]
    rfl

/-- There is one more attribute, or there are the same by their names. -/
theorem HoldsBootstraps.attributes_cases {size : Nat} {methods : List Bootstrap}
    (h : HoldsBootstraps size methods model.attributes model'.attributes) :
    (methods ≠ [] ∧ model.bootstraps? = none) ∧
      (∃ name, model'.attributes = model.attributes ++ [⟨name, .bootstrapMethods methods⟩]) ∨
    ¬ (methods ≠ [] ∧ model.bootstraps? = none) ∧
      model'.attributes.map Attribute.name = model.attributes.map Attribute.name := by
  generalize hattributes : model'.attributes = attributes' at h ⊢
  cases h with
  | unneeded hnil => exact .inr ⟨fun hneed => hneed.1 hnil, rfl⟩
  | @replaced before after name held hne heq hbefore =>
    refine .inr ⟨fun hneed => ?_, by simp [heq]⟩
    exact bootstraps?_eq_none_iff.1 hneed.2 ⟨name, .bootstrapMethods held⟩ (by simp [heq]) held rfl
  | @added name hne hnone _ => exact .inl ⟨⟨hne, bootstraps?_eq_none_iff.2 hnone⟩, name, rfl⟩

theorem HoldsBootstraps.holdsTable {size : Nat}
    (h : HoldsBootstraps size model.pool.bootstraps.toList model.attributes model'.attributes)
    (htable : model'.pool.bootstraps = model.pool.bootstraps) (htabled : model'.pool.Tabled)
    (hfinal : model'.pool.isFinalized = true) : model.HoldsTable model' := by
  rw [← htable] at h
  refine ⟨htable, fun cell kind bootstrap signature => htabled.lt_of_dynamic hfinal, h.bootstraps?_eq, ?_, ?_⟩
  · rcases h.attributes_cases with ⟨hneed, hadded⟩ | ⟨hneed, hnames⟩
    · exact ⟨fun _ => hneed, fun _ => hadded⟩
    · refine ⟨fun ⟨name, hadded⟩ => ?_, fun h => absurd h hneed⟩
      have hlength := congrArg List.length hnames
      simp [hadded] at hlength
  · rcases h.attributes_cases with ⟨hneed, -⟩ | ⟨-, hnames⟩
    · exact fun hnot => absurd hneed hnot
    · exact fun _ => hnames

/-- What becomes of the attributes, by the table that the pool has. -/
theorem exists_holdsBootstraps {s s' : Reported ClassFile} (htabled : s.state.pool.Tabled)
    (h : prepare s = .ok () s') : s'.state.pool.isFinalized = true ∧
      ∃ size, HoldsBootstraps size s.state.pool.bootstraps.toList s.state.attributes s'.state.attributes := by
  obtain ⟨laid, held, final, hlaid, hheld, hfinal, hstate⟩ := prepare_ok h
  obtain ⟨hadvances, hsame⟩ := advances_layOut s.state
  rw [hlaid] at hadvances hsame
  obtain ⟨-, htable⟩ := htabled.advances hadvances
  have hattributes : laid.attributes = s.state.attributes := hsame
  obtain ⟨pool, hpool, hfinalized, -⟩ := finalizePool_ok hfinal
  rw [hstate, hpool, ← htable, ← hattributes]
  refine ⟨hfinalized, ?_⟩
  rcases updateBootstraps_cases hheld with ⟨attributes, rfl, hholds⟩ | ⟨name, pool, rfl, -, hne, hnone⟩
  · exact ⟨0, hholds⟩
  · exact ⟨name.id + 1, .added hne hnone (Nat.lt_succ_self _)⟩

theorem holdsTable_of_prepare {warnings warnings' : Array Warning} (htabled : model.pool.Tabled)
    (h : prepare ⟨model, warnings⟩ = .ok () ⟨model', warnings'⟩) : model.HoldsTable model' := by
  have hadvances := advances_prepare model warnings
  rw [h] at hadvances
  obtain ⟨htabled', htable⟩ := htabled.advances hadvances
  obtain ⟨hfinal, size, hholds⟩ := exists_holdsBootstraps htabled h
  exact hholds.holdsTable htable htabled' hfinal

/-! ### The table and the class -/

/-- Whatever operations a pool has been through, its table lists the requests for bootstrap methods that were granted,
each of them where it was made first; a position that was given out is that of the request ever after, and asking again
gives it again. Preparing a class with that pool is no more to the pool than further operations, whether or not it
fails, and a class that is prepared holds the table. -/
theorem bootstraps_agree (ops : List PoolOp) :
    (Pool.empty.run ops).bootstraps.toList = (Pool.empty.granted ops).eraseDups ∧
      (Pool.empty.run ops).bootstraps.toList.Nodup ∧
      (∀ handle arguments index after, Pool.bootstrap handle arguments (Pool.empty.run ops) = .ok index after →
        ∀ more, (after.run more).bootstraps[index.toNat]? = some ⟨handle, arguments⟩ ∧
          Pool.bootstrap handle arguments (after.run more) = .ok index (after.run more)) ∧
      ∀ model warnings, model.pool = Pool.empty.run ops →
        (∃ more, (PoolOp.left (prepare ⟨model, warnings⟩)).state.pool = (Pool.empty.run ops).run more) ∧
        ∀ model' warnings', prepare ⟨model, warnings⟩ = .ok () ⟨model', warnings'⟩ → model.HoldsTable model' := by
  have htabled := Pool.tabled_run ops
  refine ⟨Pool.bootstraps_run ops, htabled.nodup, fun handle arguments index after hrun more => ?_,
    fun model warnings hpool => ⟨?_, fun model' warnings' => holdsTable_of_prepare (hpool ▸ htabled)⟩⟩
  · have hafter : after.Tabled := by
      have happly := (htabled.bootstrap handle arguments).1
      rwa [PoolOp.apply, hrun] at happly
    have hget := hafter.getElem?_run (htabled.getElem?_of_bootstrap hrun) more
    exact ⟨hget, (hafter.run more).1.bootstrap_of_getElem? hget⟩
  · obtain ⟨more, hmore, -⟩ := advances_prepare model warnings
    exact ⟨more, hpool ▸ hmore⟩

/-- A pool with a bootstrap method. -/
private def methodPool : Pool := (Pool.empty.addEntry (.utf8 "A")).addBootstrap ⟨⟨1⟩, []⟩

/-- A class with a call site and with an attribute for bootstrap methods, which holds none yet. -/
private def calling : ClassFile where
  pool := methodPool.addEntry (.dynamic .callSite 0 ⟨1⟩)
  thisClass := ⟨1⟩
  attributes := [⟨⟨1⟩, .bootstrapMethods []⟩]

/-- How that pool came about. -/
private def callingOps : List PoolOp :=
  [.intern (.utf8 "A"), .bootstrap ⟨1⟩ [], .intern (.dynamic .callSite 0 ⟨1⟩)]

private theorem run_callingOps : Pool.empty.run callingOps = calling.pool := by
  have htext : (PoolOp.intern (.utf8 "A")).apply Pool.empty = Pool.empty.addEntry (.utf8 "A") :=
    Pool.apply_intern rfl (Pool.find_empty rfl) (by simp)
  have hmethod : (PoolOp.bootstrap ⟨1⟩ []).apply (Pool.empty.addEntry (.utf8 "A")) = methodPool := by
    have hnew : (Pool.empty.addEntry (.utf8 "A")).bootstrapIndex = ∅ := rfl
    simp only [PoolOp.apply, Pool.bootstrap, hnew, Std.HashMap.getElem?_empty]
    rfl
  have hfind : methodPool.find (.dynamic .callSite 0 ⟨1⟩) = .ok none := by
    have hvalue : methodPool.byValue = Std.HashMap.insert ∅ (.utf8 "A") ⟨1⟩ := rfl
    have hcontent : methodPool.byContent = Std.HashMap.insert ∅ (.leaf (.utf8 "A")) ⟨1⟩ := rfl
    have hsite : methodPool.contentOf (.dynamic .callSite 0 ⟨1⟩) =
        .ok (some (.unary (.dynamic .callSite 0 ()) (.leaf (.utf8 "A")))) := rfl
    exact Pool.find_eq_none (by simp [hvalue]) hsite (by simp [hcontent])
  rw [callingOps, Pool.run_cons, htext, Pool.run_cons, hmethod, Pool.run_cons, Pool.apply_intern rfl hfind (by simp)]
  rfl

/-- The method has its position when it is asked for again, also by a finalized pool, and the attribute of the class
comes to hold it. -/
theorem bootstraps_agree_calling :
    Pool.bootstrap ⟨1⟩ [] calling.pool = .ok 0 calling.pool ∧
      Pool.bootstrap ⟨1⟩ [] (calling.pool.run [.finalize #[]]) = .ok 0 (calling.pool.run [.finalize #[]]) ∧
      ∃ prepared reported, prepare ⟨calling, #[]⟩ = .ok () ⟨prepared, reported⟩ ∧
        prepared.pool.get? ⟨2⟩ = some (.dynamic .callSite 0 ⟨1⟩) ∧ prepared.bootstraps? = some [⟨⟨1⟩, []⟩] := by
  obtain ⟨-, -, hposition, hclass⟩ := bootstraps_agree callingOps
  rw [run_callingOps] at hposition hclass
  have hagain : Pool.bootstrap ⟨1⟩ [] calling.pool = .ok 0 calling.pool := by
    have hheld : calling.pool.bootstrapIndex = Std.HashMap.insert ∅ ⟨⟨1⟩, []⟩ 0 := rfl
    simp [Pool.bootstrap, hheld]
  have hprepare : ∃ prepared reported, prepare ⟨calling, #[]⟩ = .ok () ⟨prepared, reported⟩ ∧
      prepared.pool.get? ⟨2⟩ = some (.dynamic .callSite 0 ⟨1⟩) := ⟨_, _, rfl, rfl⟩
  obtain ⟨prepared, reported, hprepared, hsite⟩ := hprepare
  have htable := (hclass calling #[] rfl).2 prepared reported hprepared
  have hlist : prepared.pool.bootstraps.toList = [⟨⟨1⟩, []⟩] := by
    rw [htable.table_eq]
    rfl
  have hheld := htable.held (by simp [hlist])
  rw [hlist] at hheld
  obtain ⟨-, hlater⟩ := hposition ⟨1⟩ [] 0 calling.pool hagain [.finalize #[]]
  exact ⟨hagain, hlater, prepared, reported, hprepared, hsite, hheld⟩

end ClassFile

end JvmAssembler

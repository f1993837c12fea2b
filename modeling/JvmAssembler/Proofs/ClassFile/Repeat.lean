import JvmAssembler.Proofs.Bytecode.Freshness
import JvmAssembler.Proofs.ClassFile.Assemble
import JvmAssembler.Proofs.Pool.Rank
import JvmAssembler.Proofs.Pool.Refinalize
import JvmAssembler.Proofs.Pool.Stability

/-!
# Assembling again

Every step of preparing a class is done once: ranks that are high enough stay, code that has its layout keeps it, the
attribute with the bootstrap methods is found, and a pool that has its indices or cannot have them stays as it is. So
preparing a class again changes nothing and fails where it failed before (`ClassFile.repeats_prepare`), and what is
written is the same.
-/

namespace JvmAssembler

namespace Pool

variable {pool pool' : Pool}

theorem sameButRanks_raise (pool : Pool) (asks : List (Cell × Rank)) : SameButRanks pool (pool.raise asks) := by
  induction asks generalizing pool with
  | nil => exact .refl pool
  | cons ask asks ih => exact (sameButRanks_setRank pool ask.1 ask.2).trans (ih _)

theorem SameButRanks.utf8? (h : SameButRanks pool pool') (hwell : pool.WellBound) (cell : Cell) :
    pool'.utf8? cell = pool.utf8? cell := by
  rw [Pool.utf8?, h.get? hwell, Pool.utf8?]

theorem intern_error {value : Constant Cell} {e : AssemblyError}
    (h : Pool.intern value pool = .error e pool') : pool' = pool := by
  rcases intern_cases value pool with ⟨-, heq⟩ | ⟨cell, -, -, heq⟩ | ⟨-, -, -, heq⟩ | ⟨e, heq⟩ <;> rw [heq] at h
  · cases h
  · cases h
  · cases h
  · exact (EStateM.Result.error.inj h).2.symm

theorem bootstraps_intern (value : Constant Cell) (pool : Pool) :
    (PoolOp.left (Pool.intern value pool)).bootstraps = pool.bootstraps := by
  rcases left_intern_cases value pool with heq | ⟨-, -, -, heq⟩ <;> rw [heq]
  rfl

theorem WellBound.bootstraps_finalize (h : pool.WellBound) (warnings : Array Warning) :
    (PoolOp.left (Pool.finalize ⟨pool, warnings⟩)).state.bootstraps = pool.bootstraps := by
  cases hfinal : pool.isFinalized with
  | true =>
    simp only [Pool.finalize, hfinal, ↓reduceIte]
    rfl
  | false =>
    rcases bindPromises_spec h (layout_eq_none hfinal) with ⟨bound, hbind, hwell, hextends, -⟩ |
      ⟨left, hbind, -, hextends⟩
    · have hresult := finalize_spec hfinal hbind hwell warnings
      split at hresult
      · obtain ⟨start, s, hrun, hstart, hpoints⟩ := hresult
        rw [hrun]
        refine hpoints.bootstraps.trans ?_
        rcases hstart with rfl | ⟨-, rfl⟩ <;> exact hextends.bootstraps
      · obtain ⟨final, hrun, hpoints, -⟩ := hresult
        rw [hrun]
        exact hpoints.bootstraps.trans hextends.bootstraps
    · rw [finalize_of_endless hfinal hbind warnings]
      exact hextends.bootstraps

end Pool

/-! ### Code -/

namespace Body

variable {body : Body} {pool pool' : Pool}

/-- The ranks that the instructions ask for. -/
def asks (body : Body) : List (Cell × Rank) := body.instructions.toList.filterMap Instruction.constantReference?

theorem rankConstants_eq (body : Body) (pool : Pool) : body.rankConstants pool = pool.raise body.asks := by
  rw [rankConstants, ← Array.foldl_toList, Pool.raise, asks, List.foldl_filterMap]
  refine congrArg (fun step => List.foldl step pool _) (funext fun found => funext fun instruction => ?_)
  cases instruction.constantReference? <;> rfl

theorem asks_lt (h : ∀ cell ∈ body.cells, cell.id < pool.slots.size) :
    ∀ ask ∈ body.asks, ask.1.id < pool.slots.size := by
  rintro ⟨cell, rank⟩ hask
  obtain ⟨instruction, hinstruction, hreference⟩ := List.mem_filterMap.1 hask
  exact h cell (mem_cells hinstruction (Instruction.operand_of_constantReference? hreference))

/-- Code that has its layout lays itself out again. -/
theorem layOut_again {text : String} {layout : Layout} (h : body.computeLayout text = .ok layout) (method : String) :
    { body with layout := some layout }.layOut method = .ok { body with layout := some layout } :=
  layOut_eq_ok_iff.2 (computeLayout_eq_ok_iff.2 (computeLayout_eq_ok_iff.1 h))

end Body

/-! ### Methods -/

namespace Method

variable {method method' : Method} {pool later : Pool}

/-- The ranks that the code of the method asks for. -/
def asks (method : Method) : List (Cell × Rank) := (method.code?.map (·.body.asks)).getD []

/-- Whether the code can be laid out does not depend on the pool, and raising ranks is all that is done to it. -/
theorem layOut_eq (method : Method) (name : String) (pool : Pool) :
    method.layOut name pool = ((method.layOut name pool).1, pool.raise method.asks) ∧
      ∀ later, (method.layOut name later).1 = (method.layOut name pool).1 := by
  unfold layOut asks
  cases method.code? with
  | none => exact ⟨rfl, fun _ => rfl⟩
  | some code =>
    simp only [Body.rankConstants_eq, Option.map_some, Option.getD_some]
    cases code.body.layOut name with
    | error e => exact ⟨rfl, fun _ => rfl⟩
    | ok body => exact ⟨rfl, fun _ => rfl⟩

theorem asks_lt (h : ∀ cell ∈ method.cells, cell.id < pool.slots.size) :
    ∀ ask ∈ method.asks, ask.1.id < pool.slots.size := by
  rw [asks]
  cases hcode : method.code? with
  | none => simp
  | some code => exact Body.asks_lt fun cell hcell => h cell (cells_body hcode hcell)

/-- In a pool with the ranks that the code asks for, laying it out is not seen by the pool. -/
theorem layOut_of_ranked {name : String} {result : Except AssemblyError Method}
    (h : (method.layOut name pool).1 = result) (hranked : ∀ ask ∈ method.asks, ask.2 ≤ later.rank ask.1) :
    method.layOut name later = (result, later) := by
  rw [(layOut_eq method name later).1, Pool.raise_eq_self hranked, (layOut_eq method name pool).2, h]

/-- A method that was laid out is laid out as it is. -/
theorem LaidOut.again (h : method.LaidOut method') :
    method'.asks = method.asks ∧ ∀ name pool, (method'.layOut name pool).1 = .ok method' := by
  cases h with
  | codeless hnone =>
    refine ⟨rfl, fun name pool => ?_⟩
    rw [layOut, hnone]
  | @code before after cell code text layout heq hbefore hlayout =>
    have hcode : method.code? = some code := code?_eq_some_iff.2 ⟨before, cell, after, heq, hbefore⟩
    generalize hlaid : ({ code with body := { code.body with layout := some layout } } : Code) = laid
    have hbody : laid.body = { code.body with layout := some layout } := by rw [← hlaid]
    have hcode' : ({ method with attributes := before ++ ⟨cell, .code laid⟩ :: after } : Method).code? = some laid :=
      code?_eq_some_iff.2 ⟨before, cell, after, rfl, hbefore⟩
    refine ⟨?_, fun name pool => ?_⟩
    · rw [asks, asks, hcode, hcode']
      simp only [Option.map_some, Option.getD_some, hbody]
      rfl
    · have hagain : laid.body.layOut name = .ok laid.body := by
        rw [hbody]
        exact Body.layOut_again hlayout name
      have hsame : replaceFirst (Attribute.withBody? laid.body) (before ++ ⟨cell, .code laid⟩ :: after) =
          before ++ ⟨cell, .code laid⟩ :: after :=
        replaceFirst_eq (fun outer houter => Attribute.withBody?_eq_none_iff.2 (hbefore outer houter)) rfl
      rw [layOut, hcode']
      simp only [hagain, hsame]

end Method

theorem Attribute.make_error {payload : Payload Attribute} {pool pool' : Pool} {e : AssemblyError}
    (h : Attribute.make payload pool = .error e pool') : pool' = pool := by
  have hmake : Attribute.make payload pool =
      EStateM.bind (Pool.utf8 payload.name) (fun name => pure ⟨name, payload⟩) pool := rfl
  rw [hmake, EStateM.bind, Pool.utf8] at h
  cases hrun : Pool.intern (.utf8 payload.name) pool with
  | ok name left =>
    rw [hrun] at h
    cases h
  | error e' left =>
    rw [hrun] at h
    obtain ⟨-, rfl⟩ := EStateM.Result.error.inj h
    exact Pool.intern_error hrun

/-! ### The steps of preparing a class -/

namespace ClassFile

variable {model model' : ClassFile}

/-- The methods that were laid out are laid out as they are, in every pool with the ranks they asked for, and the one
that could not be laid out fails again, under the same name. -/
theorem layOutMethods_again {methods done all : List Method} {pool pool' : Pool} {result : Except AssemblyError Unit}
    (h : layOutMethods done methods pool = (result, all, pool')) (hwell : pool.WellBound)
    (hcells : ∀ method ∈ methods, ∀ cell ∈ method.cells, cell.id < pool.slots.size) :
    Pool.SameButRanks pool pool' ∧ (∀ c, pool.rank c ≤ pool'.rank c) ∧ ∃ laid, all = done.reverse ++ laid ∧
      ∀ later : Pool, (∀ c, pool'.rank c ≤ later.rank c) → (result = .ok () ∨ ∀ c, later.utf8? c = pool.utf8? c) →
        ∀ before, layOutMethods before laid later = (result, before.reverse ++ laid, later) := by
  induction methods generalizing done pool with
  | nil =>
    obtain ⟨rfl, hall⟩ := Prod.mk.inj h
    obtain ⟨rfl, rfl⟩ := Prod.mk.inj hall
    exact ⟨.refl pool, fun _ => le_rfl, [], (List.append_nil _).symm, fun later _ _ before => by
      rw [layOutMethods, List.append_nil]⟩
  | cons method methods ih =>
    have hraised := hwell.rank_le_raise (Method.asks_lt (hcells method (by simp)))
    have hasked := hwell.le_rank_raise (Method.asks_lt (hcells method (by simp)))
    have hsame := Pool.sameButRanks_raise pool method.asks
    rw [layOutMethods, (Method.layOut_eq method _ pool).1] at h
    generalize hname : (pool.utf8? method.name).getD "<unknown>" = name at h
    cases hlaid : (method.layOut name pool).1 with
    | error e =>
      simp only [hlaid] at h
      obtain ⟨rfl, hall⟩ := Prod.mk.inj h
      obtain ⟨rfl, rfl⟩ := Prod.mk.inj hall
      refine ⟨hsame, hraised, method :: methods, List.reverseAux_eq, fun later hranks hnames before => ?_⟩
      have hnames := hnames.resolve_left (by simp)
      rw [layOutMethods, hnames, hname,
        Method.layOut_of_ranked hlaid fun ask hask => (hasked ask hask).trans (hranks ask.1)]
      simp only [List.reverseAux_eq]
    | ok new =>
      simp only [hlaid] at h
      obtain ⟨hasks, hagain⟩ := (Method.laidOut_of_layOut hlaid).again
      obtain ⟨hsame', hraised', laid, rfl, hrest⟩ := ih h (hsame.wellBound hwell) fun other hother cell hcell => by
        rw [Pool.size_slots_raise]
        exact hcells other (by simp [hother]) cell hcell
      refine ⟨hsame.trans hsame', fun c => (hraised c).trans (hraised' c), new :: laid, by simp,
        fun later hranks hnames before => ?_⟩
      have hnew : ∀ ask ∈ new.asks, ask.2 ≤ later.rank ask.1 := by
        rw [hasks]
        exact fun ask hask => (hasked ask hask).trans ((hraised' ask.1).trans (hranks ask.1))
      have hnames' : result = .ok () ∨ ∀ c, later.utf8? c = (pool.raise method.asks).utf8? c :=
        hnames.imp_right fun h c => (h c).trans (hsame.utf8? hwell c).symm
      rw [layOutMethods, Method.layOut_of_ranked (hagain _ later) hnew]
      simp only
      rw [hrest later hranks hnames' (new :: before)]
      simp

theorem layOut_again (hwell : model.pool.WellBound)
    (hcells : ∀ method ∈ model.methods, ∀ cell ∈ method.cells, cell.id < model.pool.slots.size) :
    match layOut model with
    | .ok _ laid => ∀ later, later.methods = laid.methods → (∀ c, laid.pool.rank c ≤ later.pool.rank c) →
        layOut later = .ok () later
    | .error e laid => layOut laid = .error e laid ∧ laid.thisClass = model.thisClass := by
  rcases hrun : layOutMethods [] model.methods model.pool with ⟨result, methods, pool⟩
  obtain ⟨hsame, -, laid, rfl, hagain⟩ := layOutMethods_again hrun hwell hcells
  cases result with
  | ok u =>
    simp only [layOut, hrun]
    intro later hmethods hranks
    have hlater := hagain later.pool hranks (.inl rfl) []
    simp only [List.reverse_nil, List.nil_append] at hlater hmethods
    rw [hmethods, hlater, ← hmethods]
  | error e =>
    simp only [layOut, hrun]
    have hlater := hagain pool (fun _ => le_rfl) (.inr (hsame.utf8? hwell)) []
    simp only [List.reverse_nil, List.nil_append] at hlater ⊢
    rw [hlater]
    exact ⟨rfl, trivial⟩

theorem updateBootstraps_error {e : AssemblyError} (h : updateBootstraps model = .error e model') : model' = model := by
  unfold updateBootstraps at h
  split at h
  · cases h
  · simp only at h
    split at h
    · cases h
    · cases hmake : Attribute.make (.bootstrapMethods model.pool.bootstraps.toList) model.pool with
      | ok added pool =>
        rw [hmake] at h
        cases h
      | error e' pool =>
        rw [hmake] at h
        obtain ⟨-, rfl⟩ := EStateM.Result.error.inj h
        rw [Attribute.make_error hmake]

/-- Where the bootstrap methods are held, if there are any. -/
theorem HoldsBootstraps.first {size : Nat} {methods : List Bootstrap} {attributes attributes' : List Attribute}
    (h : HoldsBootstraps size methods attributes attributes') :
    methods = [] ∨ ∃ before name after, attributes' = before ++ ⟨name, .bootstrapMethods methods⟩ :: after ∧
      ∀ outer ∈ before, outer.withBootstraps? methods = none := by
  cases h with
  | unneeded hnil => exact .inl hnil
  | @replaced before after name held _ _ hbefore =>
    exact .inr ⟨before, name, after, rfl, fun outer houter =>
      Attribute.withBootstraps?_eq_none_iff.2 (hbefore outer houter)⟩
  | @added name _ hnone _ =>
    exact .inr ⟨attributes, name, [], rfl, fun outer houter =>
      Attribute.withBootstraps?_eq_none_iff.2 (hnone outer houter)⟩

/-- Once an attribute holds the bootstrap methods, there is nothing to do. -/
theorem HoldsBootstraps.updateBootstraps {size : Nat} {methods : List Bootstrap} {attributes : List Attribute}
    (h : HoldsBootstraps size methods attributes model.attributes) (hmethods : model.pool.bootstraps.toList = methods) :
    updateBootstraps model = .ok () model := by
  subst hmethods
  rcases h.first with hnil | ⟨before, name, after, heq, hbefore⟩
  · have hempty : model.pool.bootstraps.isEmpty = true := by simpa using hnil
    rw [ClassFile.updateBootstraps, if_pos hempty]
  · have hsame : replaceFirst (Attribute.withBootstraps? model.pool.bootstraps.toList) model.attributes =
        model.attributes := by
      rw [heq]
      exact replaceFirst_eq hbefore rfl
    have hany : (model.attributes.any fun held =>
        (held.withBootstraps? model.pool.bootstraps.toList).isSome) = true := by
      rw [heq]
      simp [Attribute.withBootstraps?]
    rw [ClassFile.updateBootstraps]
    simp only [hany, ↓reduceIte, hsame]
    split <;> rfl

theorem bootstraps_updateBootstraps (h : updateBootstraps model = .ok () model') :
    model'.pool.bootstraps = model.pool.bootstraps := by
  rcases updateBootstraps_cases h with ⟨attributes, rfl, -⟩ | ⟨name, pool, rfl, hname, -⟩
  · rfl
  · have hkept := Pool.bootstraps_intern (.utf8 "BootstrapMethods") model.pool
    rwa [hname] at hkept

/-! ### The whole of it -/

theorem left_finalizePool (model : ClassFile) (warnings : Array Warning) :
    (PoolOp.left (finalizePool ⟨model, warnings⟩)).state =
      { model with pool := (PoolOp.finalize warnings).apply model.pool } := by
  rw [finalizePool, PoolOp.apply]
  cases Pool.finalize ⟨model.pool, warnings⟩ <;> rfl

theorem repeats_finalizePool (hwell : model.pool.WellBound) (warnings : Array Warning) :
    Reporting.Repeats finalizePool ⟨model, warnings⟩ := by
  have hpool := hwell.repeats_finalize warnings
  rw [Reporting.Repeats] at hpool ⊢
  cases hrun : Pool.finalize ⟨model.pool, warnings⟩ <;>
  · simp only [hrun] at hpool
    simp only [finalizePool, hrun]
    intro later
    obtain ⟨reported, hagain⟩ := hpool later
    exact ⟨reported, by rw [hagain]⟩

theorem prepare_of_refused {laid held : ClassFile} {e : AssemblyError} (hlaid : layOut model = .ok () laid)
    (hheld : updateBootstraps laid = .error e held) (hthis : model.thisClass ≠ .zero) (warnings : Array Warning) :
    prepare ⟨model, warnings⟩ = .error e ⟨held, warnings⟩ := by
  rw [prepare_eq, if_neg hthis, hlaid]
  simp only [hheld]

/-- Once the code is laid out and the bootstrap methods are held, the pool is left to finalize. -/
theorem prepare_of_held {laid held : ClassFile} (hlaid : layOut model = .ok () laid)
    (hheld : updateBootstraps laid = .ok () held) (hthis : model.thisClass ≠ .zero) (warnings : Array Warning) :
    prepare ⟨model, warnings⟩ = match finalizePool ⟨held, warnings⟩ with
      | .error e final => .error e final
      | .ok _ final => .ok () ⟨final.state, final.state.withDynamicWarning final.warnings⟩ := by
  rw [prepare_eq, if_neg hthis, hlaid]
  cases hrun : finalizePool ⟨held, warnings⟩ <;> simp only [hheld, hrun]

/-- Preparing a class whose pool was finalized, or could not be, comes to what finalizing the pool came to. -/
theorem prepare_of_finalizePool {warnings : Array Warning} (hwell : model.pool.WellBound)
    (hleft : (PoolOp.left (finalizePool ⟨model, warnings⟩)).state = model') (hlaid : layOut model' = .ok () model')
    (hheld : updateBootstraps model' = .ok () model') (hthis : model'.thisClass ≠ .zero) :
    match finalizePool ⟨model, warnings⟩ with
    | .ok _ s => ∀ later, ∃ reported, prepare ⟨s.state, later⟩ = .ok () ⟨s.state, reported⟩
    | .error e s => ∀ later, ∃ reported, prepare ⟨s.state, later⟩ = .error e ⟨s.state, reported⟩ := by
  have hrepeats := repeats_finalizePool hwell warnings
  rw [Reporting.Repeats] at hrepeats
  cases hrun : finalizePool ⟨model, warnings⟩ <;>
  · rename_i s
    rw [hrun] at hleft hrepeats
    obtain rfl : s.state = model' := hleft
    intro later
    obtain ⟨reported, hagain⟩ := hrepeats later
    exact ⟨_, by rw [prepare_of_held hlaid hheld hthis, hagain]⟩

/-- Preparing a class again comes to the same and changes nothing. -/
theorem repeats_prepare {references : List Reference} (hpool : Pool.Reached model.pool references)
    (hcells : ∀ cell ∈ model.cells, cell.id < model.pool.slots.size) (warnings : Array Warning) :
    Reporting.Repeats prepare ⟨model, warnings⟩ := by
  have hmethods : ∀ method ∈ model.methods, ∀ cell ∈ method.cells, cell.id < model.pool.slots.size :=
    fun method hmethod cell hcell => hcells cell (mem_cells_of_method hmethod hcell)
  by_cases hzero : model.thisClass = .zero
  · exact .of_error (by rw [prepare_eq, if_pos hzero]) fun later => ⟨later, by rw [prepare_eq, if_pos hzero]⟩
  have hlayOut := layOut_again hpool.valid.wellBound hmethods
  cases hlaid : layOut model with
  | error e laid =>
    rw [hlaid] at hlayOut
    obtain ⟨hagain, hthis⟩ := hlayOut
    exact .of_error (by rw [prepare_eq, if_neg hzero, hlaid]) fun later =>
      ⟨later, by rw [prepare_eq, hthis, if_neg hzero, hagain]⟩
  | ok u laid =>
    rw [hlaid] at hlayOut
    obtain ⟨methods, ranked, rfl, -, ⟨ops, hops⟩, -, -⟩ := layOut_ok hlaid hmethods
    obtain ⟨⟨more, hreached⟩, -⟩ := hpool.leads hops
    cases hheld : updateBootstraps { model with methods, pool := ranked } with
    | error e held =>
      obtain rfl := updateBootstraps_error hheld
      have hagain := hlayOut _ rfl fun _ => le_rfl
      exact .of_error (prepare_of_refused hlaid hheld hzero warnings) fun later =>
        ⟨later, prepare_of_refused hagain hheld hzero later⟩
    | ok u held =>
      obtain ⟨attributes, named, rfl, hholds, added, hadded⟩ := updateBootstraps_ok hheld hreached.valid.wellBound
      obtain ⟨⟨more', hreached'⟩, -⟩ := hreached.leads hadded
      have hvalid := hreached'.valid
      -- Finalizing neither lowers a rank nor changes a bootstrap method.
      have hranks : ∀ c, ranked.rank c ≤ ((PoolOp.finalize warnings).apply named).rank c := fun c =>
        (hadded.rank_le hreached.valid c).trans (hvalid.rank_le (by simp [PoolOp.cells]) c)
      have hbootstraps : ((PoolOp.finalize warnings).apply named).bootstraps = ranked.bootstraps :=
        (hvalid.wellBound.bootstraps_finalize warnings).trans (bootstraps_updateBootstraps hheld)
      have hleft := left_finalizePool { model with methods, attributes, pool := named } warnings
      have hfinal := prepare_of_finalizePool hvalid.wellBound hleft (hlayOut _ rfl hranks)
        (hholds.updateBootstraps (congrArg Array.toList hbootstraps)) hzero
      have hfirst := prepare_of_held hlaid hheld hzero warnings
      cases hrun : finalizePool ⟨{ model with methods, attributes, pool := named }, warnings⟩ with
      | ok u s =>
        simp only [hrun] at hfinal hfirst
        exact .of_ok hfirst hfinal
      | error e s =>
        simp only [hrun] at hfinal hfirst
        exact .of_error hfirst hfinal

/-- What is written does not depend on the warnings reported before. -/
theorem write_congr (model : ClassFile) (warnings later : Array Warning) :
    (model.write warnings).1 = (model.write later).1 := by
  obtain ⟨result, hyields, -⟩ := model.follows_emitBody
  have hwrite : ∀ reported, (model.write reported).1 = do
      let pool ← model.pool.encode
      let body ← result
      return magic ++ model.version.encode ++ pool ++ body := by
    intro reported
    obtain ⟨after, hbody⟩ := hyields reported
    rcases model.write_cases reported with
      ⟨e, hpool, hresult⟩ | ⟨pool, hpool, ⟨e, s, hrun, hresult⟩ | ⟨body, s, hrun, hresult⟩⟩
    · rw [hresult, hpool]
      rfl
    · rw [hresult, hpool]
      rw [hrun] at hbody
      cases result with
      | ok bytes => cases hbody
      | error e' =>
        obtain ⟨rfl, -⟩ := EStateM.Result.error.inj hbody
        rfl
    · rw [hresult, hpool]
      rw [hrun] at hbody
      cases result with
      | ok bytes =>
        obtain ⟨rfl, -⟩ := EStateM.Result.ok.inj hbody
        rfl
      | error e => cases hbody
  rw [hwrite, hwrite]

theorem assemble_of_prepare {s s' : Reported ClassFile} (h : prepare s = .ok () s') :
    ∃ reported, assemble s = match (s'.state.write s'.warnings).1 with
      | .ok bytes => .ok bytes ⟨s'.state, reported⟩
      | .error e => .error e ⟨s'.state, reported⟩ := by
  rcases hwrite : s'.state.write s'.warnings with ⟨result, reported⟩
  refine ⟨reported, ?_⟩
  rw [assemble, h]
  simp only [hwrite]
  cases result <;> rfl

/-- Assembling what assembling a class has left gives the same bytes or the same error, and preparing it changes
nothing. -/
theorem repeats_assemble {references : List Reference} (hpool : Pool.Reached model.pool references)
    (hcells : ∀ cell ∈ model.cells, cell.id < model.pool.slots.size) (warnings : Array Warning) :
    Reporting.Repeats assemble ⟨model, warnings⟩ ∧
      ∀ later, (PoolOp.left (prepare ⟨(PoolOp.left (assemble ⟨model, warnings⟩)).state, later⟩)).state =
        (PoolOp.left (assemble ⟨model, warnings⟩)).state := by
  have hprepare := repeats_prepare hpool hcells warnings
  rw [Reporting.Repeats] at hprepare
  cases hrun : prepare ⟨model, warnings⟩ with
  | error e s =>
    simp only [hrun] at hprepare
    have hassemble : assemble ⟨model, warnings⟩ = .error e s := by rw [assemble, hrun]
    refine ⟨.of_error hassemble fun later => ?_, fun later => ?_⟩
    · obtain ⟨reported, hagain⟩ := hprepare later
      exact ⟨reported, by rw [assemble, hagain]⟩
    · obtain ⟨reported, hagain⟩ := hprepare later
      rw [hassemble]
      exact congrArg (fun run => (PoolOp.left run).state) hagain
  | ok u s =>
    simp only [hrun] at hprepare
    obtain ⟨first, hassemble⟩ := assemble_of_prepare hrun
    have hagain : ∀ later, ∃ reported, assemble ⟨s.state, later⟩ = match (s.state.write s.warnings).1 with
        | .ok bytes => .ok bytes ⟨s.state, reported⟩
        | .error e => .error e ⟨s.state, reported⟩ := by
      intro later
      obtain ⟨prepared, hprepared⟩ := hprepare later
      obtain ⟨reported, hsecond⟩ := assemble_of_prepare hprepared
      exact ⟨reported, by rw [hsecond, write_congr s.state prepared s.warnings]⟩
    have hleft : (PoolOp.left (assemble ⟨model, warnings⟩)).state = s.state := by
      rw [hassemble]
      split <;> rfl
    refine ⟨?_, fun later => ?_⟩
    · cases hwrite : (s.state.write s.warnings).1 with
      | ok bytes =>
        simp only [hwrite] at hassemble hagain
        exact .of_ok hassemble hagain
      | error e =>
        simp only [hwrite] at hassemble hagain
        exact .of_error hassemble hagain
    · obtain ⟨prepared, hprepared⟩ := hprepare later
      rw [hleft]
      exact congrArg (fun run => (PoolOp.left run).state) hprepared

/-- A class with a method that loads a constant, asked for by its index, before its last instruction. -/
private def loading (last : Instruction) : ClassFile where
  pool := Pool.forward
  thisClass := ⟨2⟩
  methods := [{
    flags := .none
    name := ⟨3⟩
    descriptor := ⟨1⟩
    attributes := [{
      name := ⟨3⟩
      payload := .code {
        maxStack := 1
        maxLocals := 0
        body := { instructions := #[⟨.standard 0x12, .constant ⟨1⟩, none, 0⟩, last] }
        handlers := []
        attributes := [] } }] }]

set_option maxRecDepth 2000 in
/-- The method is written if it returns, and is not if it jumps to nowhere. -/
theorem repeats_assemble_loading :
    (∃ bytes s, assemble ⟨loading ⟨.standard 0xB1, .none, none, 0⟩, #[]⟩ = .ok bytes s ∧
      ∃ reported, assemble ⟨s.state, #[]⟩ = .ok bytes ⟨s.state, reported⟩) ∧
    ∃ s, assemble ⟨loading ⟨.standard 0xA7, .none, none, 0⟩, #[]⟩ = .error (.malformedOperand "\x00é" 2 "goto") s ∧
      ∃ reported, assemble ⟨s.state, #[]⟩ = .error (.malformedOperand "\x00é" 2 "goto") ⟨s.state, reported⟩ := by
  constructor
  · have hcells : ∀ cell ∈ (loading ⟨.standard 0xB1, .none, none, 0⟩).cells,
        cell.id < (loading ⟨.standard 0xB1, .none, none, 0⟩).pool.slots.size := by decide
    have hrun : ∃ bytes s, assemble ⟨loading ⟨.standard 0xB1, .none, none, 0⟩, #[]⟩ = .ok bytes s := ⟨_, _, rfl⟩
    obtain ⟨bytes, s, hassemble⟩ := hrun
    have hrepeats := (repeats_assemble Pool.reached_forward hcells #[]).1
    rw [Reporting.Repeats, hassemble] at hrepeats
    exact ⟨bytes, s, hassemble, hrepeats #[]⟩
  · have hcells : ∀ cell ∈ (loading ⟨.standard 0xA7, .none, none, 0⟩).cells,
        cell.id < (loading ⟨.standard 0xA7, .none, none, 0⟩).pool.slots.size := by decide
    have hrun : ∃ s, assemble ⟨loading ⟨.standard 0xA7, .none, none, 0⟩, #[]⟩ =
        .error (.malformedOperand "\x00é" 2 "goto") s := ⟨_, rfl⟩
    obtain ⟨s, hassemble⟩ := hrun
    have hrepeats := (repeats_assemble Pool.reached_forward hcells #[]).1
    rw [Reporting.Repeats, hassemble] at hrepeats
    exact ⟨s, hassemble, hrepeats #[]⟩

end ClassFile

end JvmAssembler

import JvmAssembler.Proofs.Pool.Height
import JvmAssembler.Proofs.Pool.Indexed

/-!
# Equal constants have one cell

A constant that was asked for, by its value or by its text, has the same cell ever after (`Recall`). Indices may
spoil this: a cell of an explicit index has no content until it is bound to an entry, and the entries that refer
to it may then turn out to be equal. So the operations ask for no index, or give none out.
-/

namespace JvmAssembler

/-- A request for the cell of a constant, given as such or by its texts. -/
inductive Request where
  | constant (value : Constant Cell)
  | utf8 (text : String)
  | wrapper (kind : Wrapper) (text : String)
  | nameAndType (name descriptor : String)
  | member (kind : MemberKind) (owner name descriptor : String)
  | dynamic (kind : DynamicKind) (bootstrap : UInt16) (name descriptor : String)

namespace Request

/-- The cells that a request is given. -/
def cells : Request → List Cell
  | constant value => value.refs
  | _ => []

/-- Answers a request. -/
def run : Request → PoolM Cell
  | constant value => Pool.intern value
  | utf8 text => Pool.utf8 text
  | wrapper kind text => Pool.wrapper kind text
  | nameAndType name descriptor => Pool.nameAndType name descriptor
  | member kind owner name descriptor => Pool.member kind owner name descriptor
  | dynamic kind bootstrap name descriptor => Pool.dynamic kind bootstrap name descriptor

end Request

namespace Pool

variable {pool pool' pool'' : Pool} {references : List Reference} {ops more : List PoolOp}

/-! ### Asking again -/

/-- A request has been answered by a cell, by interning constants, and has this answer ever after. -/
structure Recall (action : PoolM Cell) (pool : Pool) (cell : Cell) (pool' : Pool) : Prop where
  deduplicated : pool'.Deduplicated
  remembers : Remembers pool pool'
  cell_lt : cell.id < pool'.slots.size
  leads : ∃ values : List (Constant Cell), Leads pool (values.map .intern) pool'
  again : ∀ later : Pool, later.Deduplicated → Remembers pool' later → action later = .ok cell later

theorem Deduplicated.recall_intern (h : pool.Deduplicated) {value : Constant Cell}
    (hrefs : ∀ ref ∈ value.refs, ref.id < pool.slots.size) {cell : Cell}
    (hrun : Pool.intern value pool = .ok cell pool') : Recall (Pool.intern value) pool cell pool' := by
  have hkept := h.toFaithful.openSteps (openSteps_intern hrefs)
  have hleads : Leads pool ([value].map .intern) ((PoolOp.intern value).apply pool) :=
    Leads.refl.step (.intern value) hrefs
  rw [PoolOp.apply] at hleads
  rw [hrun] at hkept hleads
  refine ⟨h.continues hkept, hkept.toRemembers, h.lt_of_intern hrun, ⟨[value], hleads⟩, fun later hlater hrem => ?_⟩
  -- Found or added, the constant is known to the pool after the first request.
  have hagain : value ≠ .zero → pool'.find value = .ok (some cell) → intern value later = .ok cell later := by
    intro hzero hfind
    have hlt : ∀ ref ∈ value.refs, ref.id < pool'.slots.size :=
      fun ref href => Nat.lt_of_lt_of_le (hrefs ref href) hkept.size_le
    have hfind' := find?_eq_some_iff.1 (hlater.find?_mono hrem hzero hlt (find?_eq_some_iff.2 hfind))
    rw [intern, if_neg hzero, hfind']
  rcases intern_cases value pool with ⟨hzero, heq⟩ | ⟨found, hzero, hfind, heq⟩ | ⟨hzero, -, -, heq⟩ | ⟨e, heq⟩ <;>
    rw [heq] at hrun
  · obtain ⟨rfl, -⟩ := EStateM.Result.ok.inj hrun
    rw [intern, if_pos hzero]
  · obtain ⟨rfl, rfl⟩ := EStateM.Result.ok.inj hrun
    exact hagain hzero hfind
  · obtain ⟨rfl, rfl⟩ := EStateM.Result.ok.inj hrun
    exact hagain hzero (find_of_byValue (byValue_addEntry_self pool value))
  · cases hrun

/-- Requests may follow each other. -/
theorem Recall.bind {first : PoolM Cell} {next : Cell → PoolM Cell} {cell : Cell}
    (hfirst : ∀ name mid, first pool = .ok name mid → Recall first pool name mid)
    (hnext : ∀ name mid, Recall first pool name mid → ∀ cell pool', next name mid = .ok cell pool' →
      Recall (next name) mid cell pool')
    (hrun : (first >>= next) pool = .ok cell pool') : Recall (first >>= next) pool cell pool' := by
  have hbind : ∀ q, (first >>= next) q = EStateM.bind first next q := fun _ => rfl
  rw [hbind, EStateM.bind] at hrun
  split at hrun
  · rename_i name mid hname
    have hone := hfirst name mid hname
    have htwo := hnext name mid hone cell pool' hrun
    obtain ⟨values, hvalues⟩ := hone.leads
    obtain ⟨values', hvalues'⟩ := htwo.leads
    refine ⟨htwo.deduplicated, hone.remembers.trans htwo.remembers, htwo.cell_lt, ⟨values ++ values', ?_⟩, ?_⟩
    · rw [List.map_append]
      exact hvalues.trans hvalues'
    · intro later hlater hrem
      rw [hbind, EStateM.bind, hone.again later hlater (htwo.remembers.trans hrem)]
      exact htwo.again later hlater hrem
  · cases hrun

theorem Deduplicated.recall_utf8 (h : pool.Deduplicated) {text : String} {cell : Cell}
    (hrun : Pool.utf8 text pool = .ok cell pool') : Recall (Pool.utf8 text) pool cell pool' :=
  h.recall_intern (by simp [Constant.refs]) hrun

theorem Deduplicated.recall_wrapper (h : pool.Deduplicated) {kind : Wrapper} {text : String} {cell : Cell}
    (hrun : Pool.wrapper kind text pool = .ok cell pool') : Recall (Pool.wrapper kind text) pool cell pool' := by
  refine Recall.bind (fun name mid hname => h.recall_utf8 hname) (fun name mid hname cell pool' hcell => ?_) hrun
  refine hname.deduplicated.recall_intern (fun ref href => ?_) hcell
  obtain rfl := List.mem_singleton.1 href
  exact hname.cell_lt

theorem Deduplicated.recall_nameAndType (h : pool.Deduplicated) {name descriptor : String} {cell : Cell}
    (hrun : Pool.nameAndType name descriptor pool = .ok cell pool') :
    Recall (Pool.nameAndType name descriptor) pool cell pool' := by
  refine Recall.bind (fun n mid hn => h.recall_utf8 hn) (fun n mid hn cell pool' hcell => ?_) hrun
  refine Recall.bind (fun d last hd => hn.deduplicated.recall_utf8 hd) (fun d last hd cell pool' hcell => ?_) hcell
  refine hd.deduplicated.recall_intern (fun ref href => ?_) hcell
  rcases List.mem_cons.1 href with rfl | href
  · exact Nat.lt_of_lt_of_le hn.cell_lt hd.remembers.size_le
  · obtain rfl := List.mem_singleton.1 href
    exact hd.cell_lt

theorem Deduplicated.recall_member (h : pool.Deduplicated) {kind : MemberKind} {owner name descriptor : String}
    {cell : Cell} (hrun : Pool.member kind owner name descriptor pool = .ok cell pool') :
    Recall (Pool.member kind owner name descriptor) pool cell pool' := by
  refine Recall.bind (fun o mid ho => h.recall_wrapper ho) (fun o mid ho cell pool' hcell => ?_) hrun
  refine Recall.bind (fun s last hs => ho.deduplicated.recall_nameAndType hs)
    (fun s last hs cell pool' hcell => ?_) hcell
  refine hs.deduplicated.recall_intern (fun ref href => ?_) hcell
  rcases List.mem_cons.1 href with rfl | href
  · exact Nat.lt_of_lt_of_le ho.cell_lt hs.remembers.size_le
  · obtain rfl := List.mem_singleton.1 href
    exact hs.cell_lt

theorem Deduplicated.recall_dynamic (h : pool.Deduplicated) {kind : DynamicKind} {bootstrap : UInt16}
    {name descriptor : String} {cell : Cell}
    (hrun : Pool.dynamic kind bootstrap name descriptor pool = .ok cell pool') :
    Recall (Pool.dynamic kind bootstrap name descriptor) pool cell pool' := by
  refine Recall.bind (fun s mid hs => h.recall_nameAndType hs) (fun s mid hs cell pool' hcell => ?_) hrun
  refine hs.deduplicated.recall_intern (fun ref href => ?_) hcell
  obtain rfl := List.mem_singleton.1 href
  exact hs.cell_lt

theorem Deduplicated.recall (h : pool.Deduplicated) {request : Request}
    (hcells : ∀ cell ∈ request.cells, cell.id < pool.slots.size) {cell : Cell}
    (hrun : request.run pool = .ok cell pool') : Recall request.run pool cell pool' := by
  cases request with
  | constant value => exact h.recall_intern hcells hrun
  | utf8 text => exact h.recall_utf8 hrun
  | wrapper kind text => exact h.recall_wrapper hrun
  | nameAndType name descriptor => exact h.recall_nameAndType hrun
  | member kind owner name descriptor => exact h.recall_member hrun
  | dynamic kind bootstrap name descriptor => exact h.recall_dynamic hrun

/-! ### Indices of equal entries -/

/-- Different entries have different indices. -/
theorem Valid.number?_injective {table : OffsetTable Cell} (h : pool.Valid references)
    (hlayout : pool.layout = some table) {a b : Cell} (ha : pool.Owns a) (hb : pool.Owns b)
    (heq : pool.number? a = pool.number? b) : a = b := by
  have hplace : ∀ c, pool.Owns c → c ≠ .zero → ∃ index, (index, c) ∈ pool.places ∧ pool.number? c = some index := by
    intro c hc hne
    have hmem : c ∈ pool.order.toList := (h.wellBound.mem_order c).2 ⟨hne, hc⟩
    rw [← map_snd_places] at hmem
    obtain ⟨⟨index, c'⟩, hplace, rfl⟩ := List.mem_map.1 hmem
    exact ⟨index, hplace, (h.settled table hlayout).number index c' hplace⟩
  have hpos : ∀ {index : Nat} {c : Cell}, (index, c) ∈ pool.places → index ≠ 0 := by
    intro index c hc
    have := OffsetTable.start_le_of_mem_placed hc
    omega
  by_cases ha0 : a = .zero
  · by_contra hne
    obtain ⟨index, hindex, hnumber⟩ := hplace b hb fun hb0 => hne (ha0.trans hb0.symm)
    rw [ha0, h.zero_number, hnumber] at heq
    exact hpos hindex (Option.some.inj heq).symm
  · obtain ⟨index, hindex, hnumber⟩ := hplace a ha ha0
    rw [hnumber] at heq
    by_cases hb0 : b = .zero
    · rw [hb0, h.zero_number] at heq
      exact absurd (Option.some.inj heq) (hpos hindex)
    · obtain ⟨index', hindex', hnumber'⟩ := hplace b hb hb0
      obtain rfl : index = index' := Option.some.inj (heq.trans hnumber')
      have hlookup := value?_lookup_numbering.2 hindex
      rw [value?_lookup_numbering.2 hindex'] at hlookup
      exact (Option.some.inj hlookup).symm

/-- In a finalized pool, cells have the same index exactly if they are equal by value. -/
theorem Deduplicated.indexOf_eq_iff {table : OffsetTable Cell} (h : pool.Deduplicated) (hvalid : pool.Valid references)
    (hends : ∀ cell, pool.Ends cell) (hlayout : pool.layout = some table) {a b : Cell} (ha : a.id < pool.slots.size)
    (hb : b.id < pool.slots.size) :
    ∃ index, pool.indexOf a = .ok index ∧ (pool.indexOf b = .ok index ↔ pool.sameValue a b = .ok true) := by
  have howns := fun {c : Cell} (hc : c.id < pool.slots.size) =>
    (hvalid.settled table hlayout).canonical_owns hvalid.wellBound hc
  obtain ⟨index, hindex, -⟩ := hvalid.exists_number? hlayout (howns ha)
  obtain ⟨index', hindex', -⟩ := hvalid.exists_number? hlayout (howns hb)
  refine ⟨index, indexOf_of_canonical rfl (howns ha) hindex, ?_⟩
  have hsame : pool.sameValue a b = pool.sameValue (pool.canonical a) (pool.canonical b) := by
    rw [sameValue, sameValue, canonical_of_owns (howns ha), canonical_of_owns (howns hb)]
  rw [indexOf_of_canonical rfl (howns hb) hindex', hsame, h.sameValue_eq hends (howns ha) (howns hb), Except.ok.injEq,
    Except.ok.injEq, decide_eq_true_eq]
  constructor
  · rintro rfl
    exact hvalid.number?_injective hlayout (howns ha) (howns hb) (hindex.trans hindex'.symm)
  · intro heq
    rw [heq, hindex'] at hindex
    exact Option.some.inj hindex

/-! ### The result -/

/-- Whatever operations lead to a pool: no two cells own equal entries, and what was asked for once has the same cell
ever after, without a change of the pool. If no index was asked for, cells have equal indices exactly if they are
equal by value. -/
theorem sameValue_of_leads (h : Leads .empty ops pool) (hops : Separated ops) :
    (∀ a b, pool.Owns a → pool.Owns b → pool.sameValue a b = .ok (decide (a = b))) ∧
    (∀ (request : Request) (cell : Cell) (pool' : Pool), (∀ c ∈ request.cells, c.id < pool.slots.size) →
      request.run pool = .ok cell pool' →
      (∃ values : List (Constant Cell), Leads pool (values.map .intern) pool') ∧
      ∀ more later, Leads pool' more later → Separated (ops ++ more) → request.run later = .ok cell later) ∧
    ((∀ op ∈ ops, op.isReference = false) → pool.isFinalized = true →
      ∀ a b : Cell, a.id < pool.slots.size → b.id < pool.slots.size →
        ∃ index, pool.indexOf a = .ok index ∧ (pool.indexOf b = .ok index ↔ pool.sameValue a b = .ok true)) := by
  obtain ⟨references, hvalid, hnone⟩ := h.valid Valid.empty
  rw [List.nil_append] at hvalid
  have hsplit := hops.imp_right fun hall => (⟨rfl, hall⟩ : ([] : List Reference) = [] ∧ _)
  have hdedup := (Deduplicated.empty.leads Valid.empty h hsplit).1
  have hends := (Layered.empty.leads .empty Valid.empty h hsplit).ends
  refine ⟨fun a b => hdedup.sameValue_eq hends, fun request cell pool' hcells hrun => ?_,
    fun hall hfinal a b ha hb => ?_⟩
  · have hrecall := hdedup.recall hcells hrun
    obtain ⟨values, hvalues⟩ := hrecall.leads
    refine ⟨⟨values, hvalues⟩, fun more later hlater hmore => ?_⟩
    obtain ⟨added, hvalid', hadded⟩ := hvalues.valid hvalid
    have hintern : added = [] := by
      refine hadded fun op hop => ?_
      obtain ⟨value, -, rfl⟩ := List.mem_map.1 hop
      rfl
    rw [hintern, List.append_nil] at hvalid'
    have hrest : (∀ op ∈ more, op.isFinalize = false) ∨ references = [] ∧ ∀ op ∈ more, op.isReference = false := by
      rcases hmore with hall | hall
      · exact .inl fun op hop => hall op (List.mem_append_right _ hop)
      · exact .inr ⟨hnone fun op hop => hall op (List.mem_append_left _ hop),
          fun op hop => hall op (List.mem_append_right _ hop)⟩
    obtain ⟨hlast, hrem⟩ := hrecall.deduplicated.leads hvalid' hlater hrest
    exact hrecall.again later hlast hrem
  · obtain ⟨table, hlayout⟩ := Option.isSome_iff_exists.1 hfinal
    exact hdedup.indexOf_eq_iff hvalid hends hlayout ha hb

/-- A pool with a class, and with a promise of the same class. -/
def promisedTwice : Pool :=
  ((Pool.empty.addEntry (.utf8 "A")).addEntry (.wrapper .classInfo ⟨1⟩)).pushSlot (.promised .classInfo ⟨1⟩)

theorem leads_promisedTwice :
    Leads .empty [.intern (.utf8 "A"), .intern (.wrapper .classInfo ⟨1⟩), .promise .classInfo ⟨1⟩] promisedTwice := by
  have hutf8 : Leads .empty [.intern (.utf8 "A")] (Pool.empty.addEntry (.utf8 "A")) :=
    Leads.refl.addEntry rfl (find_empty rfl) (by simp) (by simp [Constant.refs])
  have hfind : (Pool.empty.addEntry (.utf8 "A")).find (.wrapper .classInfo ⟨1⟩) = .ok none := by
    have hcontent : (Pool.empty.addEntry (.utf8 "A")).contentOf (.wrapper .classInfo ⟨1⟩) =
        .ok (some (.unary (.wrapper .classInfo ()) (.leaf (.utf8 "A")))) := rfl
    have hvalue : (Pool.empty.addEntry (.utf8 "A")).byValue = Pool.empty.byValue.insert (.utf8 "A") ⟨1⟩ := rfl
    have htable : (Pool.empty.addEntry (.utf8 "A")).byContent =
        Pool.empty.byContent.insert (.leaf (.utf8 "A")) ⟨1⟩ := rfl
    exact find_eq_none (by rw [hvalue]; simp [Pool.empty]) hcontent (by rw [htable]; simp [Pool.empty])
  have hclass := hutf8.addEntry rfl hfind (by simp) (by simp [Constant.refs, Pool.empty])
  exact hclass.step (.promise .classInfo ⟨1⟩) (by simp [PoolOp.cells, Pool.empty])

/-- How that pool came about, and what happens to it next. -/
def boundTwiceOps : List PoolOp :=
  [.intern (.utf8 "A"), .intern (.wrapper .classInfo ⟨1⟩), .promise .classInfo ⟨1⟩, .resolve ⟨3⟩, .finalize #[]]

/-- The pool in which the promise is bound and the entries have their indices. -/
def boundTwice : Pool := (PoolOp.finalize #[]).apply ((PoolOp.resolve ⟨3⟩).apply promisedTwice)

theorem boundTwice_eq : boundTwice = (PoolOp.finalize #[]).apply (promisedTwice.bind ⟨3⟩ ⟨2⟩) := by
  have hfind : promisedTwice.find (.wrapper .classInfo ⟨1⟩) = .ok (some ⟨2⟩) :=
    find_of_byValue (byValue_addEntry_self (Pool.empty.addEntry (.utf8 "A")) (.wrapper .classInfo ⟨1⟩))
  have hslot : promisedTwice.slot? (promisedTwice.canonical ⟨3⟩) = some ⟨.promised .classInfo ⟨1⟩, none, .unused⟩ := rfl
  have hname : resolveWithin 4 ⟨1⟩ promisedTwice = .ok ⟨1⟩ promisedTwice := rfl
  have hresolve : (PoolOp.resolve ⟨3⟩).apply promisedTwice = promisedTwice.bind ⟨3⟩ ⟨2⟩ := by
    have hsize : promisedTwice.slots.size + 1 = 4 + 1 := rfl
    rw [PoolOp.apply, resolve, hsize, resolveWithin]
    simp only [hslot, hname, hfind]
    rfl
  rw [boundTwice, hresolve]

/-- The promised class and the class that was asked for are one entry. -/
theorem sameValue_of_leads_boundTwice :
    Leads .empty boundTwiceOps boundTwice ∧ Separated boundTwiceOps ∧ boundTwice.isFinalized = true ∧
      boundTwice.sameValue ⟨2⟩ ⟨3⟩ = .ok true ∧
      ∃ index, boundTwice.indexOf ⟨2⟩ = .ok index ∧ boundTwice.indexOf ⟨3⟩ = .ok index := by
  have hleads : Leads .empty boundTwiceOps boundTwice :=
    (leads_promisedTwice.step (.resolve ⟨3⟩) (by simp [PoolOp.cells, promisedTwice, Pool.empty])).step (.finalize #[])
      (by simp [PoolOp.cells])
  have hfinal : boundTwice.isFinalized = true := boundTwice_eq ▸ rfl
  have hsize : boundTwice.slots.size = 4 := boundTwice_eq ▸ rfl
  have hsame : boundTwice.sameValue ⟨2⟩ ⟨3⟩ = .ok true := boundTwice_eq ▸ rfl
  have hops : ∀ op ∈ boundTwiceOps, op.isReference = false := by simp [boundTwiceOps, PoolOp.isReference]
  obtain ⟨-, -, hindex⟩ := sameValue_of_leads hleads (.inr hops)
  obtain ⟨index, htwo, hthree⟩ := hindex hops hfinal ⟨2⟩ ⟨3⟩ (by simp [hsize]) (by simp [hsize])
  exact ⟨hleads, .inr hops, hfinal, hsame, index, htwo, hthree.2 hsame⟩

end Pool

end JvmAssembler

import JvmAssembler.Pool.Encode
import JvmAssembler.Proofs.ModifiedUtf8
import JvmAssembler.Proofs.Pool.Indexed
import JvmAssembler.Proofs.Reader

/-!
# Reading a constant pool

A reader of the constant pool of a class file: the number of indices, and then entries until all indices are taken,
of which a `long` and a `double` take two. What a finalized pool writes is read back as its entries, with the index
of a cell in place of the cell; and it can be written unless a text is too long.
-/

namespace JvmAssembler

namespace Constant

/-- What follows the byte of a tag. -/
def readPayload : (tag : Nat) → Reader (Constant Nat)
  | 1 => do
    let length ← Reader.nat 2
    return utf8 (← (Reader.take length).interpret ModifiedUtf8.decode)
  | 3 => do return integer (Int32.ofInt (← Reader.int 4))
  | 4 => do return float (UInt32.ofNat (← Reader.nat 4))
  | 5 => do return long (Int64.ofInt (← Reader.int 8))
  | 6 => do return double (UInt64.ofNat (← Reader.nat 8))
  | 7 => do return wrapper .classInfo (← Reader.nat 2)
  | 8 => do return wrapper .stringInfo (← Reader.nat 2)
  | 9 => do return member .field (← Reader.nat 2) (← Reader.nat 2)
  | 10 => do return member .method (← Reader.nat 2) (← Reader.nat 2)
  | 11 => do return member .interfaceMethod (← Reader.nat 2) (← Reader.nat 2)
  | 12 => do return nameAndType (← Reader.nat 2) (← Reader.nat 2)
  | 15 => do return methodHandle (← Reader.byte.interpret HandleKind.ofByte?) (← Reader.nat 2)
  | 16 => do return wrapper .methodType (← Reader.nat 2)
  | 17 => do return dynamic .constant (UInt16.ofNat (← Reader.nat 2)) (← Reader.nat 2)
  | 18 => do return dynamic .callSite (UInt16.ofNat (← Reader.nat 2)) (← Reader.nat 2)
  | 19 => do return wrapper .moduleInfo (← Reader.nat 2)
  | 20 => do return wrapper .packageInfo (← Reader.nat 2)
  | _ => failure

/-- An entry of a pool. -/
def read : Reader (Constant Nat) := do readPayload (← Reader.byte).toNat

/-- The failure of writing a constant: a text takes at most 65535 bytes. -/
def tooLong? {ref : Type} : Constant ref → Option AssemblyError
  | utf8 text =>
    let length := (ModifiedUtf8.encode text).length
    if length ≤ 65535 then none else some (.utf8TooLong length)
  | _ => none

variable {ref other : Type}

theorem refs_map (f : ref → other) (value : Constant ref) : (value.map f).refs = value.refs.map f := by
  cases value <;> rfl

theorem width_map (f : ref → other) (value : Constant ref) : (value.map f).width = value.width := by
  cases value <;> rfl

theorem tooLong?_map (f : ref → other) (value : Constant ref) : (value.map f).tooLong? = value.tooLong? := by
  cases value <;> rfl

theorem tooLong?_eq_none_iff {value : Constant ref} :
    value.tooLong? = none ↔ ∀ text, value = utf8 text → (ModifiedUtf8.encode text).length ≤ 65535 := by
  cases value <;> simp [tooLong?]

theorem mapM_eq_map {ε : Type} {f : ref → Except ε other} {g : ref → other} {value : Constant ref}
    (h : ∀ r ∈ value.refs, f r = .ok (g r)) : value.mapM f = .ok (value.map g) := by
  cases value with
  | zero | utf8 _ | integer _ | float _ | long _ | double _ => rfl
  | wrapper _ a | methodHandle _ a | dynamic _ _ a =>
    rw [mapM, h a (by simp [refs])]
    rfl
  | member _ a b | nameAndType a b =>
    rw [mapM, h a (by simp [refs]), h b (by simp [refs])]
    rfl

theorem reads_payload {value : Constant Nat} (hzero : value ≠ zero) (hrefs : ∀ r ∈ value.refs, r < Bytes.capacity 2)
    {bytes : Bytes} (h : value.payload = .ok bytes) : Reads (readPayload value.tag.byte.toNat) bytes value := by
  cases value with
  | zero => exact absurd rfl hzero
  | utf8 text =>
    rw [payload] at h
    by_cases hlt : (ModifiedUtf8.encode text).length < Bytes.capacity 2
    · simp only [hlt, ↓reduceIte] at h
      obtain rfl := Except.ok.inj h
      have htext := (Reads.take rfl).interpret (ModifiedUtf8.decode_encode text)
      exact (Reads.nat_of_lt hlt).bind (htext.map utf8)
    · simp only [hlt, ↓reduceIte] at h
      cases h
  | integer value =>
    obtain rfl := Except.ok.inj h
    have hread := (Reads.signed 4 value.toInt).map fun z => (integer (Int32.ofInt z) : Constant Nat)
    have hlow := value.le_toInt
    have hhigh := value.toInt_lt
    have hcap : Bytes.capacity 4 = 4294967296 := rfl
    rw [Bytes.signed_eq_self (by omega) (by omega), Int32.ofInt_toInt] at hread
    exact hread
  | float bits =>
    obtain rfl := Except.ok.inj h
    have hbits : bits.toNat < Bytes.capacity 4 := bits.toNat_lt
    have hread := (Reads.nat_of_lt hbits).map fun n => (float (UInt32.ofNat n) : Constant Nat)
    rw [UInt32.ofNat_toNat] at hread
    exact hread
  | long value =>
    obtain rfl := Except.ok.inj h
    have hread := (Reads.signed 8 value.toInt).map fun z => (long (Int64.ofInt z) : Constant Nat)
    have hlow := value.le_toInt
    have hhigh := value.toInt_lt
    have hcap : Bytes.capacity 8 = 18446744073709551616 := rfl
    rw [Bytes.signed_eq_self (by omega) (by omega), Int64.ofInt_toInt] at hread
    exact hread
  | double bits =>
    obtain rfl := Except.ok.inj h
    have hbits : bits.toNat < Bytes.capacity 8 := bits.toNat_lt
    have hread := (Reads.nat_of_lt hbits).map fun n => (double (UInt64.ofNat n) : Constant Nat)
    rw [UInt64.ofNat_toNat] at hread
    exact hread
  | wrapper kind name =>
    obtain rfl := Except.ok.inj h
    have hname := hrefs name (by simp [refs])
    cases kind <;> exact (Reads.nat_of_lt hname).map _
  | member kind owner signature =>
    obtain rfl := Except.ok.inj h
    have howner := hrefs owner (by simp [refs])
    have hsignature := hrefs signature (by simp [refs])
    cases kind <;> exact (Reads.nat_of_lt howner).bind ((Reads.nat_of_lt hsignature).map _)
  | nameAndType name descriptor =>
    obtain rfl := Except.ok.inj h
    have hname := hrefs name (by simp [refs])
    have hdescriptor := hrefs descriptor (by simp [refs])
    exact (Reads.nat_of_lt hname).bind ((Reads.nat_of_lt hdescriptor).map _)
  | methodHandle kind target =>
    obtain rfl := Except.ok.inj h
    have htarget := hrefs target (by simp [refs])
    have hkind : HandleKind.ofByte? kind.byte = some kind := by cases kind <;> rfl
    have hbyte : Reads Reader.byte [kind.byte] kind.byte := fun rest => rfl
    exact (hbyte.interpret hkind).bind ((Reads.nat_of_lt htarget).map _)
  | dynamic kind bootstrap signature =>
    obtain rfl := Except.ok.inj h
    have hsignature := hrefs signature (by simp [refs])
    have hbootstrap : bootstrap.toNat < Bytes.capacity 2 := bootstrap.toNat_lt
    have hread : Reads (readPayload kind.tag.byte.toNat) (Bytes.be 2 bootstrap.toNat ++ Bytes.be 2 signature)
        (dynamic kind (UInt16.ofNat bootstrap.toNat) signature) := by
      cases kind <;> exact (Reads.nat_of_lt hbootstrap).bind ((Reads.nat_of_lt hsignature).map _)
    rw [UInt16.ofNat_toNat] at hread
    exact hread

theorem payload_spec (value : Constant Nat) :
    match value.tooLong? with
    | some e => value.payload = .error e
    | none => ∃ bytes, value.payload = .ok bytes := by
  cases value with
  | utf8 text =>
    have hcap : Bytes.capacity 2 = 65536 := rfl
    rw [tooLong?, payload]
    by_cases hle : (ModifiedUtf8.encode text).length ≤ 65535
    · have hlt : (ModifiedUtf8.encode text).length < Bytes.capacity 2 := by omega
      simp only [hle, hlt, ↓reduceIte]
      exact ⟨_, rfl⟩
    · have hnot : ¬ (ModifiedUtf8.encode text).length < Bytes.capacity 2 := by omega
      simp only [hle, hnot, ↓reduceIte]
  | _ => exact ⟨_, rfl⟩

/-- A constant is written unless it is a text that is too long, and is then read back. -/
theorem encode_spec {value : Constant Nat} (hzero : value ≠ zero) (hrefs : ∀ r ∈ value.refs, r < Bytes.capacity 2) :
    match value.tooLong? with
    | some e => value.encode = .error e
    | none => ∃ bytes, value.encode = .ok bytes ∧ Reads read bytes value := by
  have hpayload := payload_spec value
  cases hlong : value.tooLong? with
  | some e =>
    rw [hlong] at hpayload
    rw [encode, hpayload]
    rfl
  | none =>
    rw [hlong] at hpayload
    obtain ⟨bytes, hbytes⟩ := hpayload
    refine ⟨value.tag.byte :: bytes, ?_, Reads.cons (reads_payload hzero hrefs hbytes)⟩
    rw [encode, hbytes]
    rfl

end Constant

namespace Pool

variable {pool : Pool} {references : List Reference} {table : OffsetTable Cell}

/-- Entries for so many indices, the first of which is `index`. -/
def readEntries (left index : Nat) : Reader (List (Nat × Constant Nat)) :=
  if _hleft : left = 0 then return []
  else do
    let value ← Constant.read
    if value.width ≤ left then
      return (index, value) :: (← readEntries (left - value.width) (index + value.width))
    else failure
termination_by left
decreasing_by
  have := width_pos value
  omega

/-- The number of indices of a pool, and its entries. -/
def readPool : Reader (Nat × List (Nat × Constant Nat)) := do
  let count ← Reader.nat 2
  return (count, ← readEntries (count - 1) 1)

/-- The index of a cell that has one. -/
def index (pool : Pool) (cell : Cell) : Nat := (pool.indexOf cell).toOption.getD 0

theorem Valid.indexOf_eq (h : pool.Valid references) (hlayout : pool.layout = some table) {cell : Cell}
    (hcell : cell.id < pool.slots.size) :
    pool.indexOf cell = .ok (pool.index cell) ∧ pool.index cell < Bytes.capacity 2 := by
  obtain ⟨i, hi, hle⟩ := h.exists_indexOf hlayout hcell
  have heq : pool.index cell = i := by rw [index, hi]; rfl
  have hcap : indexLimit < Bytes.capacity 2 := by decide
  exact ⟨by rw [heq, hi], by omega⟩

theorem reads_readEntries_cons {value : Constant Nat} {left index : Nat} {bytes more : Bytes}
    {entries : List (Nat × Constant Nat)} (hvalue : Reads Constant.read bytes value)
    (hmore : Reads (readEntries left (index + value.width)) more entries) :
    Reads (readEntries (value.width + left) index) (bytes ++ more) ((index, value) :: entries) := by
  have hpos := width_pos value
  have hne : ¬ value.width + left = 0 := by omega
  have hle : value.width ≤ value.width + left := by omega
  rw [readEntries, dif_neg hne]
  refine hvalue.bind ?_
  rw [if_pos hle, Nat.add_sub_cancel_left]
  exact hmore.map _

/-! ### What a finalized pool writes -/

theorem Valid.mapM_indexOf (h : pool.Valid references) (hlayout : pool.layout = some table) {cell : Cell}
    {value : Constant Cell} (hvalue : pool.binding? cell = some (.owned value)) :
    value.mapM pool.indexOf = .ok (value.map pool.index) ∧
      ∀ r ∈ (value.map pool.index).refs, r < Bytes.capacity 2 := by
  have hlt := lt_of_binding? hvalue
  have hrefs : ∀ ref ∈ value.refs, ref.id < pool.slots.size := fun ref href =>
    Nat.lt_trans (h.wellBound.refs_lt cell value hvalue ref href) hlt
  refine ⟨Constant.mapM_eq_map fun ref href => (h.indexOf_eq hlayout (hrefs ref href)).1, ?_⟩
  intro r hr
  rw [Constant.refs_map] at hr
  obtain ⟨ref, href, rfl⟩ := List.mem_map.1 hr
  exact (h.indexOf_eq hlayout (hrefs ref href)).2

/-- An entry is written unless it is a text that is too long, and is read back with the indices of its references. -/
theorem Valid.encodeEntry_spec (h : pool.Valid references) (hlayout : pool.layout = some table) {cell : Cell}
    (hcell : cell ∈ pool.order.toList) {value : Constant Cell} (hvalue : pool.binding? cell = some (.owned value)) :
    match value.tooLong? with
    | some e => pool.encodeEntry cell = .error e
    | none => ∃ bytes, pool.encodeEntry cell = .ok bytes ∧ Reads Constant.read bytes (value.map pool.index) := by
  obtain ⟨hmap, hrefs⟩ := h.mapM_indexOf hlayout hvalue
  have hne : value ≠ .zero := h.wellBound.value_ne_zero cell value hvalue ((h.wellBound.mem_order cell).1 hcell).1
  have hzero : value.map pool.index ≠ .zero := by
    cases value with
    | zero => exact absurd rfl hne
    | _ => nofun
  have hentry : pool.encodeEntry cell = (value.map pool.index).encode := by
    rw [encodeEntry, get?_of_owned hvalue]
    simp only [hmap]
    rfl
  rw [hentry, ← Constant.tooLong?_map pool.index]
  exact Constant.encode_spec hzero hrefs

/-- Entries as they are read: with an index in place of each cell. -/
def withIndices (pool : Pool) (entries : List (Nat × Constant Cell)) : List (Nat × Constant Nat) :=
  entries.map fun entry => (entry.1, entry.2.map pool.index)

/-- The entries of cells that follow each other are written one after the other, up to the first that cannot be. -/
theorem Valid.encodeEntries_spec (h : pool.Valid references) (hlayout : pool.layout = some table) {cells : List Cell}
    (hcells : ∀ cell ∈ cells, cell ∈ pool.order.toList) (start : Nat) :
    match (cells.filterMap pool.get?).findSome? Constant.tooLong? with
    | some e => cells.mapM pool.encodeEntry = .error e
    | none => ∃ parts, cells.mapM pool.encodeEntry = .ok parts ∧
        Reads (readEntries (total Constant.width (cells.filterMap pool.get?)) start) parts.flatten
          (pool.withIndices (OffsetTable.placed start
            ((cells.filterMap pool.get?).map fun value => (value.width, value)))) := by
  -- By induction on the cells; `start` moves past each entry by its width, as the reader does.
  induction cells generalizing start with
  | nil =>
    refine ⟨[], rfl, ?_⟩
    rw [List.filterMap_nil, total_nil, readEntries, dif_pos rfl]
    exact Reads.pure []
  | cons cell cells ih =>
    obtain ⟨value, hget, hvalue⟩ := h.wellBound.get?_of_mem_order (hcells cell (by simp))
    have hentry := h.encodeEntry_spec hlayout (hcells cell (by simp)) hvalue
    have hrest := ih (fun c hc => hcells c (by simp [hc])) (start + value.width)
    rw [List.filterMap_cons, hget, List.findSome?_cons, List.mapM_cons]
    cases hlong : value.tooLong? with
    | some e =>
      rw [hlong] at hentry
      simp only [hentry]
      rfl
    | none =>
      rw [hlong] at hentry
      obtain ⟨bytes, hbytes, hreads⟩ := hentry
      simp only [hbytes]
      cases hfirst : (cells.filterMap pool.get?).findSome? Constant.tooLong? with
      | some e =>
        rw [hfirst] at hrest
        simp only at hrest
        rw [hrest]
        rfl
      | none =>
        rw [hfirst] at hrest
        obtain ⟨parts, hparts, hmore⟩ := hrest
        refine ⟨bytes :: parts, by rw [hparts]; rfl, ?_⟩
        rw [← Constant.width_map pool.index] at hmore
        have hall := reads_readEntries_cons hreads hmore
        rw [Constant.width_map] at hall
        exact hall

/-- A finalized pool is written unless a text is too long, and is then read back. -/
theorem Valid.encode_spec (h : pool.Valid references) (hlayout : pool.layout = some table) :
    match pool.constants.findSome? Constant.tooLong? with
    | some e => pool.encode = .error e
    | none => ∃ bytes, pool.encode = .ok bytes ∧
        Reads readPool bytes (1 + total Constant.width pool.constants, pool.withIndices (numbered pool.constants)) := by
  have hsettled := h.settled table hlayout
  have hentries := h.encodeEntries_spec hlayout (fun cell hcell => hcell) 1
  have hencode : pool.encode = (pool.order.toList.mapM pool.encodeEntry).bind fun parts =>
      .ok (Bytes.be 2 (1 + total Constant.width pool.constants) ++ parts.flatten) := by
    have hcells : (table.entries.toList.mapM fun place => pool.encodeEntry place.2) =
        pool.order.toList.mapM pool.encodeEntry := by
      rw [hsettled.table_eq, numbering_entries, ← map_snd_places, List.mapM_map]
      rfl
    rw [encode, hlayout, ← h.wellBound.numbering_next, ← hsettled.table_eq, ← hcells]
    rfl
  rw [hencode]
  cases hlong : pool.constants.findSome? Constant.tooLong? with
  | some e =>
    rw [← constants, hlong] at hentries
    simp only at hentries
    rw [hentries]
    rfl
  | none =>
    rw [← constants, hlong] at hentries
    obtain ⟨parts, hparts, hreads⟩ := hentries
    refine ⟨_, by rw [hparts]; rfl, ?_⟩
    have hlimit : 1 + total Constant.width pool.constants < Bytes.capacity 2 := by
      have hle := hsettled.next_le
      rw [hsettled.table_eq, h.wellBound.numbering_next] at hle
      exact Nat.lt_of_le_of_lt hle (by decide)
    refine (Reads.nat_of_lt hlimit).bind ?_
    rw [Nat.add_sub_cancel_left]
    exact hreads.map _

/-- The entries of a finalized pool, with the index of each cell, are what is read. -/
theorem Valid.mapM_entries (h : pool.Valid references) (hlayout : pool.layout = some table) :
    pool.entries.mapM (fun entry => return (entry.1, ← entry.2.mapM pool.indexOf)) =
      .ok (pool.withIndices pool.entries) := by
  have hmap : ∀ entry ∈ pool.entries, entry.2.mapM pool.indexOf = .ok (entry.2.map pool.index) := by
    intro entry hentry
    have hmem : entry.2 ∈ pool.constants := h.map_snd_entries hlayout ▸ List.mem_map_of_mem hentry
    obtain ⟨cell, hcell, hget⟩ := List.mem_filterMap.1 hmem
    obtain ⟨value, hvalue, hbinding⟩ := h.wellBound.get?_of_mem_order hcell
    obtain rfl : entry.2 = value := Option.some.inj (hget.symm.trans hvalue)
    exact (h.mapM_indexOf hlayout hbinding).1
  revert hmap
  generalize pool.entries = entries
  intro hmap
  induction entries with
  | nil => rfl
  | cons entry entries ih =>
    have hrest := ih fun e he => hmap e (by simp [he])
    rw [List.mapM_cons, hmap entry (by simp), hrest]
    rfl

/-- A pool that operations lead to and that is finalized is written exactly if none of its texts is too long, and
what is written is read back as its entries. -/
theorem readPool_encode (h : Reached pool references) (hfinal : pool.isFinalized = true) :
    ((∃ bytes, pool.encode = .ok bytes) ↔
      ∀ index text, (index, .utf8 text) ∈ pool.entries → (ModifiedUtf8.encode text).length ≤ 65535) ∧
    (∀ e, pool.encode = .error e → pool.entries.findSome? (fun entry => entry.2.tooLong?) = some e) ∧
    ∀ bytes, pool.encode = .ok bytes → ∃ entries,
      pool.entries.mapM (fun entry => return (entry.1, ← entry.2.mapM pool.indexOf)) = .ok entries ∧
      Reads readPool bytes (1 + total Constant.width (pool.entries.map (·.2)), entries) := by
  obtain ⟨table, hlayout⟩ := Option.isSome_iff_exists.1 hfinal
  have hvalid := h.valid
  have hconstants := hvalid.map_snd_entries hlayout
  have hwritten := hvalid.encode_spec hlayout
  have hfits : (∀ index text, (index, .utf8 text) ∈ pool.entries → (ModifiedUtf8.encode text).length ≤ 65535) ↔
      pool.constants.findSome? Constant.tooLong? = none := by
    rw [List.findSome?_eq_none_iff, ← hconstants]
    simp only [List.mem_map, Constant.tooLong?_eq_none_iff]
    constructor
    · rintro hall value ⟨⟨index, v⟩, hentry, rfl⟩ text rfl
      exact hall index text hentry
    · intro hall index text hentry
      exact hall _ ⟨_, hentry, rfl⟩ text rfl
  have hfirst : pool.entries.findSome? (fun entry => entry.2.tooLong?) =
      pool.constants.findSome? Constant.tooLong? := by
    rw [← hconstants, List.findSome?_map]
    rfl
  rw [hfits, hfirst, hconstants, hvalid.mapM_entries hlayout, hvalid.entries_eq hlayout]
  cases hlong : pool.constants.findSome? Constant.tooLong? with
  | some e =>
    rw [hlong] at hwritten
    simp only at hwritten
    rw [hwritten]
    simp
  | none =>
    rw [hlong] at hwritten
    obtain ⟨bytes, hbytes, hreads⟩ := hwritten
    rw [hbytes]
    refine ⟨by simp, by simp, fun bytes' hok => ⟨_, rfl, ?_⟩⟩
    obtain rfl := Except.ok.inj hok
    exact hreads

/-- A class whose name is asked for by its index before the name is there, and a constant of two indices. -/
def forward : Pool :=
  let pool := (PoolOp.reference 2 7).apply Pool.empty
  ((pool.addEntry (.wrapper .classInfo ⟨1⟩)).addEntry (.utf8 "\x00é")).addEntry (.long 5)

theorem reached_forward : Reached forward [⟨⟨1⟩, 2, 7⟩] := by
  let start : Pool := (PoolOp.reference 2 7).apply Pool.empty
  let named : Pool := start.addEntry (.wrapper .classInfo ⟨1⟩)
  let texted : Pool := named.addEntry (.utf8 "\x00é")
  have hstart : start.find (.wrapper .classInfo ⟨1⟩) = .ok none := by
    have hvalue : start.byValue = ∅ := rfl
    have hcontent : start.contentOf (.wrapper .classInfo ⟨1⟩) = .ok none := rfl
    exact find_eq_none (by simp [hvalue]) hcontent (by simp)
  have hnamed : named.find (.utf8 "\x00é") = .ok none := by
    have hvalue : named.byValue = Std.HashMap.insert ∅ (.wrapper .classInfo ⟨1⟩) ⟨2⟩ := rfl
    have hcontent : named.contentOf (.utf8 "\x00é") = .ok (some (.leaf (.utf8 "\x00é"))) := rfl
    have htable : named.byContent = ∅ := rfl
    exact find_eq_none (by simp [hvalue]) hcontent (by simp [htable])
  have htexted : texted.find (.long 5) = .ok none := by
    have hvalue : texted.byValue = Std.HashMap.insert named.byValue (.utf8 "\x00é") ⟨3⟩ := rfl
    have hnamed : named.byValue = Std.HashMap.insert ∅ (.wrapper .classInfo ⟨1⟩) ⟨2⟩ := rfl
    have hcontent : texted.contentOf (.long 5) = .ok (some (.leaf (.long 5))) := rfl
    have htable : texted.byContent = Std.HashMap.insert ∅ (.leaf (.utf8 "\x00é")) ⟨3⟩ := rfl
    exact find_eq_none (by simp [hvalue, hnamed]) hcontent (by simp [htable])
  have hreached : Reached start [⟨⟨1⟩, 2, 7⟩] := Reached.step (.reference 2 7) .empty (by simp [PoolOp.cells])
  have hclass := hreached.addEntry rfl hstart (by simp) (by decide)
  have htext := hclass.addEntry rfl hnamed (by simp) (by simp [Constant.refs])
  exact htext.addEntry rfl htexted (by simp) (by simp [Constant.refs])

/-- The class is read back with the index of its name, and the count covers both indices of the last entry. -/
theorem readPool_encode_forward :
    let pool := (PoolOp.finalize #[]).apply forward
    Reached pool [⟨⟨1⟩, 2, 7⟩] ∧ pool.isFinalized = true ∧ ∃ bytes, pool.encode = .ok bytes ∧
      readPool bytes = some ((5, [(1, .wrapper .classInfo 2), (2, .utf8 "\x00é"), (3, .long 5)]), []) := by
  intro pool
  have hreached : Reached pool [⟨⟨1⟩, 2, 7⟩] := Reached.step (.finalize #[]) reached_forward (by simp [PoolOp.cells])
  have hfinal : pool.isFinalized = true := rfl
  have hentries : pool.entries = [(1, .wrapper .classInfo ⟨1⟩), (2, .utf8 "\x00é"), (3, .long 5)] := rfl
  obtain ⟨hiff, -, hread⟩ := readPool_encode hreached hfinal
  have hfits : ∀ index text, (index, Constant.utf8 text) ∈ pool.entries →
      (ModifiedUtf8.encode text).length ≤ 65535 := by
    intro index text hmem
    simp only [hentries, List.mem_cons, Prod.mk.injEq, reduceCtorEq, Constant.utf8.injEq, and_false, false_or,
      List.not_mem_nil, or_false] at hmem
    obtain ⟨-, rfl⟩ := hmem
    decide +kernel
  obtain ⟨bytes, hbytes⟩ := hiff.2 hfits
  obtain ⟨entries, hmap, hreads⟩ := hread bytes hbytes
  obtain rfl : [(1, .wrapper .classInfo 2), (2, .utf8 "\x00é"), (3, .long 5)] = entries := Except.ok.inj hmap
  have hrest := hreads []
  rw [List.append_nil] at hrest
  exact ⟨hreached, hfinal, bytes, hbytes, hrest⟩

end Pool

end JvmAssembler

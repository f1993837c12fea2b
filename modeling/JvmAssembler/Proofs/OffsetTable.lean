import JvmAssembler.OffsetTable
import JvmAssembler.Widths

/-!
# Looking up offsets

A table that is filled from a list has the elements of the list in order, each at the start of the table plus
the widths before it (`ofList_entries`). Bisection finds the element that covers an offset (`lookup_of_covers`), and
every offset is before the elements, behind them, or covered by one of them (`lookup_cases`). So an element is found at
an offset exactly if it starts there (`lookup_eq_found_iff`).
-/

namespace JvmAssembler.OffsetTable

variable {α : Type}

/-- Elements with their widths replaced by their offsets, the first of which is `start`. -/
def placed (start : Nat) : List (Nat × α) → List (Nat × α)
  | [] => []
  | (width, value) :: rest => (start, value) :: placed (start + width) rest

/-- The table with the given elements. -/
def ofList (start : Nat) (items : List (Nat × α)) : OffsetTable α :=
  items.foldl (fun table item => (table.push item.1 item.2).2) (startingAt start)

theorem length_placed (start : Nat) (items : List (Nat × α)) : (placed start items).length = items.length := by
  induction items generalizing start with
  | nil => rfl
  | cons item items ih => rw [placed, List.length_cons, List.length_cons, ih]

theorem map_snd_placed (start : Nat) (items : List (Nat × α)) : (placed start items).map (·.2) = items.map (·.2) := by
  induction items generalizing start with
  | nil => rfl
  | cons item items ih => rw [placed, List.map_cons, List.map_cons, ih]

theorem placed_append (start : Nat) (items more : List (Nat × α)) :
    placed start (items ++ more) = placed start items ++ placed (start + total Prod.fst items) more := by
  induction items generalizing start with
  | nil => rfl
  | cons item items ih => rw [List.cons_append, placed, placed, ih, total_cons, List.cons_append, Nat.add_assoc]

theorem getElem?_placed (start : Nat) (items : List (Nat × α)) (i : Nat) :
    (placed start items)[i]? = items[i]?.map fun item => (start + total Prod.fst (items.take i), item.2) := by
  induction items generalizing start i with
  | nil => rfl
  | cons item items ih =>
    cases i with
    | zero => rfl
    | succ i =>
      rw [placed, List.getElem?_cons_succ, List.getElem?_cons_succ, ih, List.take_succ_cons, total_cons, Nat.add_assoc]

theorem le_of_mem_placed {start : Nat} {items : List (Nat × α)} {p : Nat × α} (h : p ∈ placed start items) :
    p.1 ≤ start + total Prod.fst items := by
  induction items generalizing start with
  | nil => cases h
  | cons item items ih =>
    rw [total_cons]
    rcases List.mem_cons.1 h with rfl | hrest
    · exact Nat.le_add_right _ _
    · have := ih hrest
      omega

theorem start_le_of_mem_placed {start : Nat} {items : List (Nat × α)} {p : Nat × α} (h : p ∈ placed start items) :
    start ≤ p.1 := by
  induction items generalizing start with
  | nil => cases h
  | cons item items ih =>
    rcases List.mem_cons.1 h with rfl | hrest
    · exact Nat.le_refl _
    · have := ih hrest
      omega

private theorem foldl_push (table : OffsetTable α) (items : List (Nat × α)) :
    let result := items.foldl (fun table item => (table.push item.1 item.2).2) table
    result.entries.toList = table.entries.toList ++ placed table.next items ∧
      result.next = table.next + total Prod.fst items ∧ result.start = table.start := by
  induction items generalizing table with
  | nil => simp [placed, total]
  | cons item items ih =>
    obtain ⟨hentries, hnext, hstart⟩ := ih (table.push item.1 item.2).2
    refine ⟨?_, ?_, hstart⟩
    · rw [List.foldl_cons, hentries, placed]
      simp [push]
    · rw [List.foldl_cons, hnext, total_cons, push, Nat.add_assoc]

theorem ofList_entries (start : Nat) (items : List (Nat × α)) :
    (ofList start items).entries.toList = placed start items :=
  (foldl_push (startingAt start) items).1

theorem ofList_next (start : Nat) (items : List (Nat × α)) : (ofList start items).next = start + total Prod.fst items :=
  (foldl_push (startingAt start) items).2.1

theorem ofList_start (start : Nat) (items : List (Nat × α)) : (ofList start items).start = start :=
  (foldl_push (startingAt start) items).2.2

/-! ### Bisection -/

/-- The offsets of entries never decrease. -/
def Ordered (entries : Array (Nat × α)) : Prop :=
  ∀ (i j : Nat) (p q : Nat × α), i ≤ j → entries[i]? = some p → entries[j]? = some q → p.1 ≤ q.1

/-- The entries below `low` start at or before an offset, and those from `high` on behind it. -/
def SplitAt (entries : Array (Nat × α)) (offset low high : Nat) : Prop :=
  (∀ i p, i < low → entries[i]? = some p → p.1 ≤ offset) ∧ ∀ i p, high ≤ i → entries[i]? = some p → offset < p.1

/-- Bisection ends where the entries up to an offset end. -/
theorem bisect_spec {entries : Array (Nat × α)} {offset : Nat} (hordered : Ordered entries) {fuel low high : Nat}
    (hfuel : high - low ≤ fuel) (hle : low ≤ high) (hsize : high ≤ entries.size)
    (hsplit : SplitAt entries offset low high) :
    bisect entries offset fuel low high ≤ entries.size ∧
      SplitAt entries offset (bisect entries offset fuel low high) (bisect entries offset fuel low high) := by
  induction fuel generalizing low high with
  | zero =>
    obtain rfl : low = high := by omega
    exact ⟨hsize, hsplit⟩
  | succ fuel ih =>
    rw [bisect]
    by_cases hlt : low < high
    · have hmid : (low + high) / 2 < entries.size := by omega
      obtain ⟨hbelow, habove⟩ := hsplit
      have hget : entries[(low + high) / 2]? = some entries[(low + high) / 2] := Array.getElem?_eq_getElem hmid
      simp only [hlt, ↓reduceIte, hget]
      by_cases hstart : entries[(low + high) / 2].1 ≤ offset
      · simp only [hstart, ↓reduceIte]
        refine ih (by omega) (by omega) hsize ⟨fun i p hi hp => ?_, habove⟩
        exact Nat.le_trans (hordered i _ p _ (by omega) hp hget) hstart
      · simp only [hstart, ↓reduceIte]
        refine ih (by omega) (by omega) (by omega) ⟨hbelow, fun i p hi hp => ?_⟩
        have := hordered _ i _ p hi hget hp
        omega
    · obtain rfl : low = high := by omega
      rw [if_neg hlt]
      exact ⟨hsize, hsplit⟩

/-- Bisection of all entries ends where the entries up to an offset end. -/
theorem bisect_all_spec {entries : Array (Nat × α)} (hordered : Ordered entries) (offset : Nat) :
    bisect entries offset (entries.size + 1) 0 entries.size ≤ entries.size ∧
      SplitAt entries offset (bisect entries offset (entries.size + 1) 0 entries.size)
        (bisect entries offset (entries.size + 1) 0 entries.size) := by
  refine bisect_spec hordered (by omega) (Nat.zero_le _) (Nat.le_refl _) ⟨fun i p hi _ => by omega, fun i p hi hp => ?_⟩
  have := (Array.getElem?_eq_some_iff.1 hp).1
  omega

/-! ### Look-up -/

private theorem total_take_le (items : List (Nat × α)) {i j : Nat} (h : i ≤ j) :
    total Prod.fst (items.take i) ≤ total Prod.fst (items.take j) := by
  obtain ⟨more, hmore⟩ := List.take_prefix_take_left h (l := items)
  rw [← hmore, total_append]
  exact Nat.le_add_right _ _

private theorem total_take_succ {items : List (Nat × α)} {i : Nat} {item : Nat × α} (h : items[i]? = some item) :
    total Prod.fst (items.take (i + 1)) = total Prod.fst (items.take i) + item.1 := by
  rw [List.take_add_one, h, total_append]
  rfl

private theorem ordered_ofList (start : Nat) (items : List (Nat × α)) : Ordered (ofList start items).entries := by
  intro i j p q hij hp hq
  rw [← Array.getElem?_toList, ofList_entries, getElem?_placed, Option.map_eq_some_iff] at hp hq
  obtain ⟨_, _, rfl⟩ := hp
  obtain ⟨_, _, rfl⟩ := hq
  have := total_take_le items hij
  simp only
  omega

private theorem getElem?_entries_ofList (start : Nat) (items : List (Nat × α)) (i : Nat) :
    (ofList start items).entries[i]? = items[i]?.map fun item => (start + total Prod.fst (items.take i), item.2) := by
  rw [← Array.getElem?_toList, ofList_entries, getElem?_placed]

private theorem size_ofList (start : Nat) (items : List (Nat × α)) : (ofList start items).size = items.length := by
  rw [size, ← Array.length_toList, ofList_entries, length_placed]

private theorem total_take_add_le {items : List (Nat × α)} {i : Nat} {item : Nat × α} (h : items[i]? = some item) :
    total Prod.fst (items.take i) + item.1 ≤ total Prod.fst items := by
  have hi : i < items.length := (List.getElem?_eq_some_iff.1 h).1
  have hle := total_take_le items (i := i + 1) (j := items.length) (by omega)
  rw [List.take_length, total_take_succ h] at hle
  exact hle

/-- Bisection ends right behind the element that covers an offset. -/
theorem bisect_of_covers {start offset i : Nat} {items : List (Nat × α)} {item : Nat × α}
    (hitem : items[i]? = some item) (hstart : start + total Prod.fst (items.take i) ≤ offset)
    (hstop : offset < start + total Prod.fst (items.take i) + item.1) :
    bisect (ofList start items).entries offset ((ofList start items).size + 1) 0 (ofList start items).size = i + 1 := by
  have hentry := getElem?_entries_ofList start items
  have hsize := size_ofList start items
  obtain ⟨hle, hbelow, habove⟩ := bisect_all_spec (ordered_ofList start items) offset
  rw [size] at hsize ⊢
  generalize bisect _ offset _ 0 _ = split at hle hbelow habove ⊢
  -- It cannot stop before the element, which starts in time, nor behind it, as the next one does not.
  have hafter : i < split := by
    by_cases h : i < split
    · exact h
    · have := habove i (start + total Prod.fst (items.take i), item.2) (by omega) (by rw [hentry, hitem]; rfl)
      simp only at this
      omega
  have hbefore : split ≤ i + 1 := by
    by_cases h : split ≤ i + 1
    · exact h
    · have hnext : i + 1 < items.length := by omega
      have := hbelow (i + 1) (start + total Prod.fst (items.take (i + 1)), items[i + 1].2) (by omega)
        (by rw [hentry, List.getElem?_eq_getElem hnext]; rfl)
      rw [total_take_succ hitem] at this
      simp only at this
      omega
  omega

/-- An offset that an element covers is found to be its start or inside of it. -/
theorem lookup_of_covers {start offset i : Nat} {items : List (Nat × α)} {item : Nat × α}
    (hitem : items[i]? = some item) (hstart : start + total Prod.fst (items.take i) ≤ offset)
    (hstop : offset < start + total Prod.fst (items.take i) + item.1) :
    (ofList start items).lookup offset =
      if start + total Prod.fst (items.take i) = offset then .found i item.2 else .inside i := by
  have hall := total_take_add_le hitem
  rw [lookup, ofList_start, ofList_next, if_neg (by omega), if_neg (by omega), bisect_of_covers hitem hstart hstop]
  simp only [Nat.add_sub_cancel, getElem?_entries_ofList, hitem, Option.map_some]

theorem exists_covers {start offset : Nat} {items : List (Nat × α)} (hstart : start ≤ offset)
    (hstop : offset < start + total Prod.fst items) :
    ∃ (i : Nat) (item : Nat × α), items[i]? = some item ∧ start + total Prod.fst (items.take i) ≤ offset ∧
      offset < start + total Prod.fst (items.take i) + item.1 := by
  induction items generalizing start with
  | nil =>
    rw [total_nil] at hstop
    omega
  | cons first rest ih =>
    rw [total_cons] at hstop
    by_cases h : offset < start + first.1
    · exact ⟨0, first, rfl, by simpa [total] using hstart, by simpa [total] using h⟩
    · obtain ⟨i, item, hitem, hle, hlt⟩ := ih (Nat.le_of_not_lt h) (by omega)
      refine ⟨i + 1, item, hitem, ?_, ?_⟩
      · rw [List.take_succ_cons, total_cons]
        omega
      · rw [List.take_succ_cons, total_cons]
        omega

/-- An offset is before all elements, behind all of them, or covered by one of them. -/
theorem lookup_cases (start : Nat) (items : List (Nat × α)) (offset : Nat) :
    offset < start ∧ (ofList start items).lookup offset = .tooSmall ∨
      (start ≤ offset ∧ start + total Prod.fst items ≤ offset) ∧ (ofList start items).lookup offset = .tooLarge ∨
      ∃ (i : Nat) (item : Nat × α), items[i]? = some item ∧ start + total Prod.fst (items.take i) ≤ offset ∧
        offset < start + total Prod.fst (items.take i) + item.1 ∧
        (ofList start items).lookup offset =
          if start + total Prod.fst (items.take i) = offset then .found i item.2 else .inside i := by
  by_cases hsmall : offset < start
  · exact .inl ⟨hsmall, by rw [lookup, ofList_start, if_pos hsmall]⟩
  · by_cases hlarge : start + total Prod.fst items ≤ offset
    · refine .inr (.inl ⟨⟨by omega, hlarge⟩, ?_⟩)
      rw [lookup, ofList_start, ofList_next, if_neg hsmall, if_pos hlarge]
    · obtain ⟨i, item, hitem, hle, hlt⟩ := exists_covers (show start ≤ offset by omega) (Nat.lt_of_not_le hlarge)
      exact .inr (.inr ⟨i, item, hitem, hle, hlt, lookup_of_covers hitem hle hlt⟩)

theorem lookup_eq_tooSmall_iff {start offset : Nat} {items : List (Nat × α)} :
    (ofList start items).lookup offset = .tooSmall ↔ offset < start := by
  rcases lookup_cases start items offset with ⟨hlt, hrun⟩ | ⟨⟨hle, -⟩, hrun⟩ | ⟨i, item, -, hle, -, hrun⟩
  · simp [hrun, hlt]
  · simp [hrun, hle]
  · rw [hrun]
    refine ⟨fun h => ?_, fun h => by omega⟩
    split at h <;> cases h

theorem lookup_eq_tooLarge_iff {start offset : Nat} {items : List (Nat × α)} :
    (ofList start items).lookup offset = .tooLarge ↔ start + total Prod.fst items ≤ offset := by
  rcases lookup_cases start items offset with ⟨hlt, hrun⟩ | ⟨⟨-, hle⟩, hrun⟩ | ⟨i, item, hitem, -, hlt, hrun⟩
  · rw [hrun]
    refine ⟨fun h => ?_, fun h => by omega⟩
    cases h
  · simp [hrun, hle]
  · have hall := total_take_add_le hitem
    rw [hrun]
    refine ⟨fun h => ?_, fun h => by omega⟩
    split at h <;> cases h

/-- An offset falls inside of the element that begins before it and ends behind it. -/
theorem lookup_eq_inside_iff {start offset i : Nat} {items : List (Nat × α)} :
    (ofList start items).lookup offset = .inside i ↔ ∃ item, items[i]? = some item ∧
      start + total Prod.fst (items.take i) < offset ∧ offset < start + total Prod.fst (items.take i) + item.1 := by
  constructor
  · intro h
    rcases lookup_cases start items offset with ⟨-, hrun⟩ | ⟨-, hrun⟩ | ⟨j, item, hitem, hle, hlt, hrun⟩
    · simp [hrun] at h
    · simp [hrun] at h
    · rw [hrun] at h
      split at h
      · cases h
      · obtain rfl : j = i := by simpa using h
        exact ⟨item, hitem, by omega, hlt⟩
  · rintro ⟨item, hitem, hlt, hstop⟩
    rw [lookup_of_covers hitem (by omega) hstop, if_neg (by omega)]

/-- If every element has a width, then an element is found exactly at its start. -/
theorem lookup_eq_found_iff {start offset i : Nat} {items : List (Nat × α)} {value : α}
    (hwidth : ∀ item ∈ items, 0 < item.1) :
    (ofList start items).lookup offset = .found i value ↔
      ∃ width, items[i]? = some (width, value) ∧ offset = start + total Prod.fst (items.take i) := by
  constructor
  · intro h
    rcases lookup_cases start items offset with ⟨-, hrun⟩ | ⟨-, hrun⟩ | ⟨j, item, hitem, -, -, hrun⟩
    · simp [hrun] at h
    · simp [hrun] at h
    · rw [hrun] at h
      split at h
      · rename_i heq
        obtain ⟨rfl, rfl⟩ : j = i ∧ item.2 = value := by simpa using h
        exact ⟨item.1, hitem, heq.symm⟩
      · cases h
  · rintro ⟨width, hitem, rfl⟩
    have hpos := hwidth (width, value) (List.mem_of_getElem? hitem)
    rw [lookup_of_covers hitem (Nat.le_refl _) (by simp only at hpos ⊢; omega), if_pos rfl]

theorem value?_lookup_iff {start offset : Nat} {items : List (Nat × α)} (hwidth : ∀ item ∈ items, 0 < item.1)
    {value : α} : ((ofList start items).lookup offset).value? = some value ↔ (offset, value) ∈ placed start items := by
  have hfound : ((ofList start items).lookup offset).value? = some value ↔
      ∃ i, (ofList start items).lookup offset = .found i value := by
    cases (ofList start items).lookup offset <;> simp [Lookup.value?]
  rw [hfound, List.mem_iff_getElem?]
  refine exists_congr fun i => ?_
  rw [lookup_eq_found_iff hwidth, getElem?_placed, Option.map_eq_some_iff]
  constructor
  · rintro ⟨width, hitem, rfl⟩
    exact ⟨_, hitem, rfl⟩
  · rintro ⟨⟨width, found⟩, hitem, heq⟩
    obtain ⟨rfl, rfl⟩ := Prod.mk.inj heq
    exact ⟨width, hitem, rfl⟩

/-- Elements that have a width start at different offsets. -/
theorem pairwise_placed {start : Nat} {items : List (Nat × α)} (hwidth : ∀ item ∈ items, 0 < item.1) :
    (placed start items).Pairwise (·.1 < ·.1) := by
  induction items generalizing start with
  | nil => exact .nil
  | cons item items ih =>
    refine List.pairwise_cons.2 ⟨fun p hp => ?_, ih fun other hother => hwidth other (by simp [hother])⟩
    have hle := start_le_of_mem_placed hp
    have hpos := hwidth item (by simp)
    simp only
    omega

/-- What a table of elements that have a width answers for an offset. No offset is before the first element unless it is
below the start, and none is behind the last unless it is at least the start plus all widths. An element is found at the
start plus the widths before it, and every other offset falls inside of the one element that begins before it and
ends behind it. The offsets increase, and bisection ends behind at least one of them, where the offset would have
its place among them. An element that is added is found from then on at the offset that was returned, and the elements
before it stay where they are. -/
theorem lookup_ofList {items : List (Nat × α)} (hwidth : ∀ item ∈ items, 0 < item.1) (start : Nat) :
    (∀ offset, ((ofList start items).lookup offset = .tooSmall ↔ offset < start) ∧
      ((ofList start items).lookup offset = .tooLarge ↔ start + total Prod.fst items ≤ offset) ∧
      (∀ i value, (ofList start items).lookup offset = .found i value ↔
        ∃ width, items[i]? = some (width, value) ∧ offset = start + total Prod.fst (items.take i)) ∧
      (∀ i, (ofList start items).lookup offset = .inside i ↔ ∃ item, items[i]? = some item ∧
        start + total Prod.fst (items.take i) < offset ∧ offset < start + total Prod.fst (items.take i) + item.1)) ∧
    ((ofList start items).entries.toList.Pairwise (·.1 < ·.1) ∧
      ∀ offset, start ≤ offset → offset < start + total Prod.fst items → ∃ i,
        bisect (ofList start items).entries offset ((ofList start items).size + 1) 0 (ofList start items).size = i + 1 ∧
          SplitAt (ofList start items).entries offset (i + 1) (i + 1)) ∧
    ∀ width value more, 0 < width → (∀ item ∈ more, 0 < item.1) →
      (ofList start (items ++ (width, value) :: more)).lookup ((ofList start items).push width value).1 =
          .found items.length value ∧
        ∀ offset i found, (ofList start items).lookup offset = .found i found →
          (ofList start (items ++ (width, value) :: more)).lookup offset = .found i found := by
  refine ⟨fun offset => ⟨lookup_eq_tooSmall_iff, lookup_eq_tooLarge_iff, fun _ _ => lookup_eq_found_iff hwidth,
    fun _ => lookup_eq_inside_iff⟩, ⟨?_, fun offset hstart hstop => ?_⟩, fun width value more hpos hmore => ?_⟩
  · rw [ofList_entries]
    exact pairwise_placed hwidth
  · obtain ⟨i, item, hitem, hle, hlt⟩ := exists_covers hstart hstop
    have hbisect := bisect_of_covers hitem hle hlt
    have hsplit := (bisect_all_spec (ordered_ofList start items) offset).2
    rw [size] at hbisect
    rw [hbisect] at hsplit
    exact ⟨i, by rw [size, hbisect], hsplit⟩
  · have hall : ∀ item ∈ items ++ (width, value) :: more, 0 < item.1 := by
      intro item hitem
      rcases List.mem_append.1 hitem with hitem | hitem
      · exact hwidth item hitem
      · rcases List.mem_cons.1 hitem with rfl | hitem
        · exact hpos
        · exact hmore item hitem
    refine ⟨(lookup_eq_found_iff hall).2 ⟨width, by simp, ?_⟩, fun offset i found h => ?_⟩
    · rw [push, ofList_next, List.take_left]
    · obtain ⟨width', hitem, hoffset⟩ := (lookup_eq_found_iff hwidth).1 h
      have hi : i < items.length := (List.getElem?_eq_some_iff.1 hitem).1
      refine (lookup_eq_found_iff hall).2 ⟨width', by rw [List.getElem?_append_left hi, hitem], ?_⟩
      rw [hoffset, List.take_append_of_le_length (by omega)]

/-- A narrow element, a wide one and a narrow one, from offset 1 on. -/
theorem lookup_ofList_mixed :
    (∀ item ∈ [(1, 'a'), (2, 'b'), (1, 'c')], 0 < item.1) ∧
      (ofList 1 [(1, 'a'), (2, 'b'), (1, 'c')]).lookup 0 = .tooSmall ∧
      (ofList 1 [(1, 'a'), (2, 'b'), (1, 'c')]).lookup 3 = .inside 1 ∧
      (ofList 1 [(1, 'a'), (2, 'b'), (1, 'c')]).lookup 4 = .found 2 'c' ∧
      (ofList 1 [(1, 'a'), (2, 'b'), (1, 'c')]).lookup 5 = .tooLarge := by
  have hwidth : ∀ item ∈ [(1, 'a'), (2, 'b'), (1, 'c')], 0 < item.1 := by decide
  obtain ⟨hlookup, -⟩ := lookup_ofList hwidth 1
  exact ⟨hwidth, (hlookup 0).1.2 (by decide), ((hlookup 3).2.2.2 1).2 ⟨(2, 'b'), by decide⟩,
    ((hlookup 4).2.2.1 2 'c').2 ⟨1, by decide⟩, (hlookup 5).2.1.2 (by decide)⟩

end JvmAssembler.OffsetTable

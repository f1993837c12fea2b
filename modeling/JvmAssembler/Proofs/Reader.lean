import JvmAssembler.Bytes
import Mathlib.Data.List.Forall2

/-!
# Reading bytes back

A reader takes a value from the front of a byte sequence and leaves the rest, or refuses. `Reads reader bytes
value` says that the reader takes exactly `bytes`, whatever follows them, and gives `value`. The readers of
numbers give back a number reduced to the width of its field: `Bytes.unsigned` as a natural number and
`Bytes.signed` as a two's complement integer.
-/

namespace JvmAssembler

namespace Bytes

/-- The number that `width` bytes hold of `z`, read without a sign. -/
def unsigned (width : Nat) (z : Int) : Nat := (z % capacity width).toNat

/-- The number that `width` bytes hold of `z`, read as a two's complement number. -/
def signed (width : Nat) (z : Int) : Int := z.bmod (capacity width)

theorem capacity_pos (width : Nat) : 0 < capacity width := by
  induction width with
  | zero => decide
  | succ width ih => unfold capacity; omega

theorem capacity_add (m k : Nat) : capacity (m + k) = capacity m * capacity k := by
  induction m with
  | zero => simp [capacity]
  | succ m ih => rw [Nat.succ_add, capacity, ih, capacity, Nat.mul_assoc]

theorem toNat_append (a b : Bytes) : toNat (a ++ b) = toNat a * capacity b.length + toNat b := by
  -- The accumulator of the fold is scaled by the width of what is still to come.
  have fold (b : Bytes) : ∀ n, b.foldl (fun n b => 256 * n + b.toNat) n = n * capacity b.length + toNat b := by
    induction b with
    | nil => intro n; simp [toNat, capacity]
    | cons x b ih =>
      intro n
      have hx : toNat (x :: b) = (256 * 0 + x.toNat) * capacity b.length + toNat b := ih _
      rw [List.foldl_cons, ih, hx, List.length_cons, capacity]
      rw [Nat.mul_zero, Nat.zero_add, Nat.add_mul, Nat.add_assoc, Nat.mul_comm 256 n, Nat.mul_assoc]
  rw [toNat, List.foldl_append, fold]
  rfl

theorem toNat_be (width n : Nat) : toNat (be width n) = n % capacity width := by
  induction width with
  | zero => simp [be, toNat, capacity, Nat.mod_one]
  | succ width ih =>
    have hcons : be (width + 1) n = [UInt8.ofNat (n / capacity width)] ++ be width n := rfl
    have hbyte : toNat [UInt8.ofNat (n / capacity width)] = n / capacity width % 256 := by
      simp [toNat]
    rw [hcons, toNat_append, hbyte, length_be, ih, capacity, Nat.mul_comm 256, Nat.mod_mul, Nat.mul_comm,
      Nat.add_comm]

theorem be_mod (width n : Nat) : be width (n % capacity width) = be width n := by
  induction width generalizing n with
  | zero => rfl
  | succ width ih =>
    have hlow : be width (n % capacity (width + 1)) = be width n := by
      rw [← ih (n % capacity (width + 1)), capacity, Nat.mod_mul_left_mod, ih]
    have hhigh : n % capacity (width + 1) / capacity width = n / capacity width % 256 := by
      rw [capacity, Nat.mul_comm, Nat.mod_mul_right_div_self]
    rw [be, hlow, hhigh, be]
    congr 1
    apply UInt8.toNat_inj.1
    simp

theorem toNat_lt (bytes : Bytes) : toNat bytes < capacity bytes.length := by
  induction bytes with
  | nil => decide
  | cons b bytes ih =>
    have hsplit : toNat (b :: bytes) = b.toNat * capacity bytes.length + toNat bytes := by
      simpa [toNat] using toNat_append [b] bytes
    have hb : (b.toNat + 1) * capacity bytes.length ≤ 256 * capacity bytes.length :=
      Nat.mul_le_mul_right _ b.toNat_lt
    rw [hsplit, List.length_cons, capacity]
    rw [Nat.add_mul] at hb
    omega

theorem be_toNat (bytes : Bytes) : be bytes.length (toNat bytes) = bytes := by
  induction bytes with
  | nil => rfl
  | cons b bytes ih =>
    have hsplit : toNat (b :: bytes) = toNat bytes + capacity bytes.length * b.toNat := by
      have happend := toNat_append [b] bytes
      rw [Nat.add_comm, Nat.mul_comm]
      simpa [toNat] using happend
    have hlt := toNat_lt bytes
    rw [List.length_cons, be, hsplit, Nat.add_mul_div_left _ _ (capacity_pos _), Nat.div_eq_of_lt hlt, Nat.zero_add,
      ← be_mod, Nat.add_mul_mod_self_left, Nat.mod_eq_of_lt hlt, ih, UInt8.ofNat_toNat]

theorem be_add (m k n : Nat) : be (m + k) n = be m (n / capacity k) ++ be k n := by
  induction m with
  | zero => rw [Nat.zero_add]; rfl
  | succ m ih =>
    rw [Nat.succ_add, be, ih, be, Nat.div_div_eq_div_mul, capacity_add, Nat.mul_comm (capacity k)]
    rfl

private theorem emod_capacity_add (m k : Nat) (a b : Int) :
    (a * capacity k + b % capacity k) % capacity (m + k) = a % capacity m * capacity k + b % capacity k := by
  have hm : (0 : Int) < capacity m := Int.natCast_pos.2 (capacity_pos m)
  have hk : (0 : Int) < capacity k := Int.natCast_pos.2 (capacity_pos k)
  rw [capacity_add, Int.natCast_mul]
  generalize (capacity m : Int) = M at *
  generalize (capacity k : Int) = K at *
  have hb := Int.emod_nonneg b (Int.ne_of_gt hk)
  have hbK := Int.emod_lt_of_pos b hk
  have ha := Int.emod_nonneg a (Int.ne_of_gt hm)
  have haM := Int.emod_lt_of_pos a hm
  have hsplit : a * K + b % K = a % M * K + b % K + M * K * (a / M) := by
    have h := congrArg (· * K) (Int.emod_add_mul_ediv a M)
    simp only [Int.add_mul] at h
    rw [← h, Int.mul_right_comm]
    omega
  have hle : (a % M + 1) * K ≤ M * K := Int.mul_le_mul_of_nonneg_right (by omega) (Int.le_of_lt hk)
  rw [hsplit, Int.add_mul_emod_self_left]
  apply Int.emod_eq_of_lt
  · exact Int.add_nonneg (Int.mul_nonneg ha (Int.le_of_lt hk)) hb
  · rw [Int.add_mul] at hle
    omega

/-- Two numbers side by side are written as the one number in whose digits they stand side by side. -/
theorem beInt_append (m k : Nat) (a b : Int) :
    beInt (m + k) (a * capacity k + b % capacity k) = beInt m a ++ beInt k b := by
  have hk : (0 : Int) < capacity k := Int.natCast_pos.2 (capacity_pos k)
  have hm : (0 : Int) < capacity m := Int.natCast_pos.2 (capacity_pos m)
  obtain ⟨x, hx⟩ := Int.eq_ofNat_of_zero_le (Int.emod_nonneg a (Int.ne_of_gt hm))
  obtain ⟨y, hy⟩ := Int.eq_ofNat_of_zero_le (Int.emod_nonneg b (Int.ne_of_gt hk))
  have hyk : y < capacity k := by
    have := Int.emod_lt_of_pos b hk
    omega
  have hnat : ((x : Int) * capacity k + y).toNat = x * capacity k + y := by
    rw [← Int.natCast_mul, ← Int.natCast_add, Int.toNat_natCast]
  rw [beInt, emod_capacity_add, beInt, beInt, hx, hy, hnat, Int.toNat_natCast, Int.toNat_natCast, be_add,
    ← be_mod k (x * capacity k + y), Nat.mul_comm, Nat.mul_add_mod_self_left, Nat.mod_eq_of_lt hyk,
    Nat.mul_add_div (capacity_pos k), Nat.div_eq_of_lt hyk, Nat.add_zero]

theorem beInt_natCast (width n : Nat) : beInt width n = be width n := by
  rw [← be_mod width n]
  rfl

theorem beInt_zero (width : Nat) : beInt width 0 = List.replicate width 0 := by
  have hbe : ∀ width, be width 0 = List.replicate width 0 := by
    intro width
    induction width with
    | zero => rfl
    | succ width ih => rw [be, ih, Nat.zero_div]; rfl
  rw [beInt, Int.zero_emod]
  exact hbe width

theorem signed_eq_self {width : Nat} {z : Int} (hlow : -(capacity width : Int) ≤ z * 2)
    (hhigh : z * 2 < capacity width) : signed width z = z :=
  Int.bmod_eq_of_le_mul_two hlow hhigh

end Bytes

/-! ### Readers -/

/-- A reader takes a value from the front of a byte sequence. -/
abbrev Reader := StateT Bytes Option

/-- The reader takes exactly the bytes given, whatever follows them. -/
def Reads {α : Type} (reader : Reader α) (bytes : Bytes) (value : α) : Prop :=
  ∀ rest, reader (bytes ++ rest) = some (value, rest)

namespace Reader

/-- The next byte. -/
def byte : Reader UInt8
  | [] => none
  | b :: rest => some (b, rest)

/-- The next `count` bytes. -/
def take (count : Nat) : Reader Bytes := fun bytes =>
  if count ≤ bytes.length then some (bytes.take count, bytes.drop count) else none

/-- A number without a sign. -/
def nat (width : Nat) : Reader Nat := do return (← take width).toNat

/-- A two's complement number. -/
def int (width : Nat) : Reader Int := do return Bytes.signed width (← nat width)

/-- What a reader takes, seen as something else, unless it is nothing of that kind. -/
def interpret {α β : Type} (reader : Reader α) (f : α → Option β) : Reader β := fun bytes => do
  let (a, rest) ← reader bytes
  return (← f a, rest)

/-- Bytes that must be zero. -/
def zeros (count : Nat) : Reader Unit := do
  if (← take count) = List.replicate count 0 then return () else failure

/-- The given number of items, one after the other. -/
def many {α : Type} (item : Reader α) : (count : Nat) → Reader (List α)
  | 0 => return []
  | count + 1 => return (← item) :: (← many item count)

/-- A list behind its count. -/
def counted {α : Type} (width : Nat) (item : Reader α) : Reader (List α) := do many item (← nat width)

/-- What a reader finds in the next `length` bytes, if it takes all of them. -/
def within {α : Type} (length : Nat) (reader : Reader α) : Reader α :=
  (take length).interpret fun bytes =>
    match reader bytes with
    | some (a, []) => some a
    | _ => none

/-- A reader of nested values, given one for each depth. No value is deeper than there are bytes. -/
def nested {α : Type} (reader : (depth : Nat) → Reader α) : Reader α := fun bytes => reader bytes.length bytes

end Reader

namespace Reads

variable {α β : Type}

theorem pure (value : α) : Reads (pure value) [] value := fun _ => rfl

theorem bind {reader : Reader α} {next : α → Reader β} {first second : Bytes} {a : α} {b : β}
    (ha : Reads reader first a) (hb : Reads (next a) second b) :
    Reads (reader >>= next) (first ++ second) b := by
  intro rest
  show (reader (first ++ second ++ rest) >>= fun p => next p.1 p.2) = some (b, rest)
  rw [List.append_assoc, ha]
  exact hb rest

/-- A reader that ends with a computation. -/
theorem map {reader : Reader α} {bytes : Bytes} {a : α} (f : α → β) (ha : Reads reader bytes a) :
    Reads (reader >>= fun a => Pure.pure (f a)) bytes (f a) := by
  have h : Reads (reader >>= fun a => Pure.pure (f a)) (bytes ++ []) (f a) := ha.bind (Reads.pure (f a))
  rwa [List.append_nil] at h

/-- A reader that starts with a byte. -/
theorem cons {next : UInt8 → Reader β} {b : UInt8} {bytes : Bytes} {value : β} (h : Reads (next b) bytes value) :
    Reads (Reader.byte >>= next) (b :: bytes) value := fun rest => h rest

theorem byte (b : UInt8) : Reads Reader.byte (Bytes.beInt 1 b.toNat) b := by
  have hbyte : Bytes.beInt 1 b.toNat = [b] := by
    rw [Bytes.beInt_natCast]
    simpa [Bytes.toNat] using Bytes.be_toNat [b]
  rw [hbyte]
  exact fun _ => rfl

theorem take {bytes : Bytes} {count : Nat} (h : bytes.length = count) : Reads (Reader.take count) bytes bytes := by
  intro rest
  simp [Reader.take, ← h]

theorem nat (width n : Nat) : Reads (Reader.nat width) (Bytes.be width n) (n % Bytes.capacity width) := by
  rw [← Bytes.toNat_be]
  exact (take (Bytes.length_be width n)).map Bytes.toNat

theorem nat_of_lt {width n : Nat} (h : n < Bytes.capacity width) : Reads (Reader.nat width) (Bytes.be width n) n := by
  have hnat := nat width n
  rwa [Nat.mod_eq_of_lt h] at hnat

theorem unsigned (width : Nat) (z : Int) :
    Reads (Reader.nat width) (Bytes.beInt width z) (Bytes.unsigned width z) := by
  have h := nat width (z % Bytes.capacity width).toNat
  have hlt := Int.emod_lt_of_pos z (Int.natCast_pos.2 (Bytes.capacity_pos width))
  have hnn := Int.emod_nonneg z (Int.ne_of_gt (Int.natCast_pos.2 (Bytes.capacity_pos width)))
  rwa [Nat.mod_eq_of_lt (by omega)] at h

theorem signed (width : Nat) (z : Int) : Reads (Reader.int width) (Bytes.beInt width z) (Bytes.signed width z) := by
  have h := (unsigned width z).map fun n : Nat => Bytes.signed width n
  have hnn := Int.emod_nonneg z (Int.ne_of_gt (Int.natCast_pos.2 (Bytes.capacity_pos width)))
  have heq : Bytes.signed width (Bytes.unsigned width z) = Bytes.signed width z := by
    rw [Bytes.signed, Bytes.unsigned, Int.toNat_of_nonneg hnn, Int.emod_bmod]
    rfl
  rwa [heq] at h

theorem interpret {reader : Reader α} {f : α → Option β} {bytes : Bytes} {a : α} {b : β} (ha : Reads reader bytes a)
    (hf : f a = some b) : Reads (reader.interpret f) bytes b := by
  intro rest
  show (reader (bytes ++ rest) >>= fun p => f p.1 >>= fun b => some (b, p.2)) = some (b, rest)
  rw [ha]
  show (f a >>= fun b => some (b, rest)) = some (b, rest)
  rw [hf]
  rfl

theorem zeros (count : Nat) : Reads (Reader.zeros count) (List.replicate count 0) () := by
  have h := (take List.length_replicate : Reads (Reader.take count) (List.replicate count 0) _)
  intro rest
  show ((Reader.take count (List.replicate count 0 ++ rest)) >>= fun p => _) = _
  rw [h]
  show (if List.replicate count 0 = List.replicate count 0 then Pure.pure () else failure : Reader Unit) rest = _
  rw [if_pos rfl]
  rfl

/-- Items one after the other, each of which is read back as something that is related to it. -/
theorem many {γ : Type} {item : Reader β} {related : γ → β → Prop} {items : List γ} {parts : List Bytes}
    (h : List.Forall₂ (fun a bytes => ∃ b, related a b ∧ Reads item bytes b) items parts) :
    ∃ values, List.Forall₂ related items values ∧ Reads (Reader.many item items.length) parts.flatten values := by
  induction h with
  | nil => exact ⟨[], .nil, Reads.pure []⟩
  | cons hpart _ ih =>
    obtain ⟨b, hb, hread⟩ := hpart
    obtain ⟨values, hvalues, hreads⟩ := ih
    exact ⟨b :: values, .cons hb hvalues, hread.bind (hreads.map _)⟩

theorem many_map {γ : Type} {item : Reader β} {value : γ → β} {items : List γ} {parts : List Bytes}
    (h : List.Forall₂ (fun a bytes => Reads item bytes (value a)) items parts) :
    Reads (Reader.many item items.length) parts.flatten (items.map value) := by
  obtain ⟨values, hvalues, hreads⟩ := many (h.imp fun a _ hread => ⟨value a, rfl, hread⟩)
  have heq : items.map value = values := by
    rw [← List.forall₂_eq_eq_eq, List.forall₂_map_left_iff]
    exact hvalues
  rwa [heq]

theorem counted {item : Reader α} {width count : Nat} {bytes : Bytes} {values : List α}
    (hcount : count < Bytes.capacity width) (h : Reads (Reader.many item count) bytes values) :
    Reads (Reader.counted width item) (Bytes.be width count ++ bytes) values :=
  (nat_of_lt hcount).bind h

theorem within {reader : Reader α} {bytes : Bytes} {a : α} {length : Nat} (h : Reads reader bytes a)
    (hlength : bytes.length = length) : Reads (Reader.within length reader) bytes a := by
  refine (take hlength).interpret ?_
  have hall := h []
  rw [List.append_nil] at hall
  rw [hall]

theorem nested {reader : (depth : Nat) → Reader α} {bytes : Bytes} {a : α}
    (h : ∀ depth, bytes.length ≤ depth → Reads (reader depth) bytes a) : Reads (Reader.nested reader) bytes a :=
  fun rest => h (bytes ++ rest).length (by simp) rest

end Reads

end JvmAssembler

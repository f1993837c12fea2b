/-!
# Sums of widths

What a class file is made of has widths: a record takes bytes, a constant takes indices, an argument takes slots. What
comes in a row takes the sum of the widths.
-/

namespace JvmAssembler

variable {α : Type}

/-- The sum of the widths of items. -/
def total (width : α → Nat) (items : List α) : Nat := (items.map width).foldr (· + ·) 0

@[simp] theorem total_nil (width : α → Nat) : total width [] = 0 := rfl

@[simp] theorem total_cons (width : α → Nat) (item : α) (items : List α) :
    total width (item :: items) = width item + total width items := rfl

theorem total_append (width : α → Nat) (items more : List α) :
    total width (items ++ more) = total width items + total width more := by
  rw [total, List.map_append]
  exact List.sum_append_nat

theorem le_total {width : α → Nat} {item : α} {items : List α} (h : item ∈ items) : width item ≤ total width items := by
  induction items with
  | nil => cases h
  | cons first items ih =>
    rw [total_cons]
    rcases List.mem_cons.1 h with rfl | h
    · omega
    · have := ih h
      omega

theorem total_const (n : Nat) (items : List α) : total (fun _ => n) items = n * items.length := by
  induction items with
  | nil => rfl
  | cons item items ih => rw [total_cons, ih, List.length_cons, Nat.mul_succ, Nat.add_comm]

end JvmAssembler

import Mathlib.Algebra.Group.Nat.Defs
import Mathlib.Logic.Function.Basic
import Mathlib.Tactic.Common

/-! The part of a ring buffer between two counters of C type uint. The counters only
count up and wrap, and an index is a counter modulo the size of the ring, so the size
has to divide the range of the counters. -/
namespace Xv6c.Lib

variable {A : Type}

/- n cells of the ring from index start on. -/
def window (buf : Nat → A) (size start n : Nat) : List A :=
  (List.range n).map fun i => buf ((start + i) % size)

/- The cells from counter r up to counter w. -/
def between (buf : Nat → A) (size : Nat) (r w : BitVec 32) : List A :=
  window buf size r.toNat (w - r).toNat

section Window
variable {buf : Nat → A} {size start m n : Nat}

theorem window_succ :
    window buf size start (n + 1) = buf (start % size) :: window buf size (start + 1) n := by
  unfold window
  rw [List.range_succ_eq_map, List.map_cons, List.map_map]
  congr 1
  apply List.map_congr_left
  intro i _
  simp only [Function.comp, Nat.succ_eq_add_one]
  congr 2
  omega

theorem window_add :
    window buf size start (m + n) = window buf size start m ++ window buf size (start + m) n := by
  unfold window
  rw [List.range_add, List.map_append, List.map_map]
  congr 1
  apply List.map_congr_left
  intro i _
  simp only [Function.comp]
  congr 2
  omega

/- Where the counting starts matters up to multiples of the size only. -/
theorem window_mod (divides : size ∣ m) :
    window buf size (start % m) n = window buf size start n := by
  unfold window
  apply List.map_congr_left
  intro i _
  congr 1
  rw [← Nat.mod_add_mod start, Nat.mod_mod_of_dvd start divides |>.symm, Nat.mod_add_mod]

/- A store to the cell behind the window. -/
theorem window_update {v : A} (room : n < size) :
    window (Function.update buf ((start + n) % size) v) size start n = window buf size start n := by
  unfold window
  apply List.map_congr_left
  intro i inside
  have low := List.mem_range.mp inside
  refine Function.update_of_ne ?_ _ _
  intro same
  have apart : size ∣ (start + n) - (start + i) :=
    Nat.dvd_of_mod_eq_zero (Nat.sub_mod_eq_zero_of_mod_eq same.symm)
  have := Nat.le_of_dvd (by omega) apart
  omega

end Window

section Between
variable {buf : Nat → A} {size : Nat} {r w e : BitVec 32}

@[simp] theorem length_between : (between buf size r w).length = (w - r).toNat := by
  simp [between, window]

@[simp] theorem between_self : between buf size r r = [] := by simp [between, window]

theorem between_append (divides : size ∣ 2 ^ 32) (order : (w - r).toNat ≤ (e - r).toNat) :
    between buf size r e = between buf size r w ++ between buf size w e := by
  unfold between
  have split : (e - r).toNat = (w - r).toNat + (e - w).toNat := by bv_omega
  have middle : w.toNat = (r.toNat + (w - r).toNat) % 2 ^ 32 := by bv_omega
  rw [split, window_add, middle, window_mod divides]

/- One counter further at the back. -/
theorem between_snoc (buf : Nat → A) (divides : size ∣ 2 ^ 32) (room : (w - r).toNat < 2 ^ 32 - 1) :
    between buf size r (w + 1) = between buf size r w ++ [buf (w.toNat % size)] := by
  rw [between_append (w := w) divides (by bv_omega)]
  have one : (w + 1 - w).toNat = 1 := by bv_omega
  congr 1
  unfold between
  rw [one]
  simp [window]

theorem between_push (buf : Nat → A) (divides : size ∣ 2 ^ 32) (room : (w - r).toNat < size) (v : A) :
    between (Function.update buf (w.toNat % size) v) size r w = between buf size r w := by
  unfold between
  have index : w.toNat % size = (r.toNat + (w - r).toNat) % size := by
    rw [show w.toNat = (r.toNat + (w - r).toNat) % 2 ^ 32 by bv_omega, Nat.mod_mod_of_dvd _ divides]
  rw [index, window_update room]

theorem between_cons (buf : Nat → A) (divides : size ∣ 2 ^ 32) (some : r ≠ w) :
    between buf size r w = buf (r.toNat % size) :: between buf size (r + 1) w := by
  unfold between
  have positive : (w - r).toNat = (w - (r + 1)).toNat + 1 := by bv_omega
  have next : (r + 1).toNat = (r.toNat + 1) % 2 ^ 32 := by bv_omega
  rw [positive, window_succ, next, window_mod divides]

theorem between_eq_nil : between buf size r w = [] ↔ r = w := by
  rw [← List.length_eq_zero_iff, length_between]
  constructor
  · intro empty
    bv_omega
  · rintro rfl
    simp

end Between

end Xv6c.Lib

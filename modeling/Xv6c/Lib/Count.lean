import Mathlib.Algebra.BigOperators.Group.Finset.Piecewise
import Mathlib.Data.Finset.Card

/-! Counting the indices below a bound that have a property, when the property changes at
one index, and counting the pointers of a table that point to one target. -/
namespace Xv6c.Lib

section
variable {n i : Nat} {P Q : Nat → Prop} [DecidablePred P] [DecidablePred Q]

theorem card_filter_same (same : ∀ j < n, (Q j ↔ P j)) :
    ((Finset.range n).filter Q).card = ((Finset.range n).filter P).card := by
  congr 1
  exact Finset.filter_congr fun j inside => same j (Finset.mem_range.mp inside)

/- One index changes; what it counted for and counts for now stands on either side. -/
theorem card_filter_change (inside : i < n) (same : ∀ j, j ≠ i → (Q j ↔ P j)) :
    ((Finset.range n).filter Q).card + (if P i then 1 else 0) =
      ((Finset.range n).filter P).card + (if Q i then 1 else 0) := by
  have others : ∑ j ∈ (Finset.range n).erase i, (if Q j then 1 else 0) =
      ∑ j ∈ (Finset.range n).erase i, (if P j then 1 else 0) :=
    Finset.sum_congr rfl fun j member => if_congr (same j (Finset.ne_of_mem_erase member)) rfl rfl
  have after := Finset.add_sum_erase (Finset.range n) (fun j => if Q j then 1 else 0) (Finset.mem_range.mpr inside)
  have before := Finset.add_sum_erase (Finset.range n) (fun j => if P j then 1 else 0) (Finset.mem_range.mpr inside)
  rw [Finset.card_filter, Finset.card_filter]
  omega

theorem card_filter_mono (fewer : ∀ j, Q j → P j) :
    ((Finset.range n).filter Q).card ≤ ((Finset.range n).filter P).card :=
  Finset.card_le_card (Finset.monotone_filter_right _ fun j _ => fewer j)

theorem card_filter_pos (inside : i < n) (holds : P i) : 0 < ((Finset.range n).filter P).card :=
  Finset.card_pos.mpr ⟨i, Finset.mem_filter.mpr ⟨Finset.mem_range.mpr inside, holds⟩⟩

end

section Pointers
variable {I T : Type} [DecidableEq T]

/- How many entries of a table point to t. -/
def pointers (table : Finset I) (entry : I → Option T) (t : T) : Nat :=
  (table.filter fun i => entry i = some t).card

variable {table : Finset I} {entry : I → Option T} {i : I} {t : T}

/- One entry changes; what it pointed to and points to now is counted on either side. -/
theorem pointers_update [DecidableEq I] (entry : I → Option T) (inside : i ∈ table) (value : Option T)
    (t : T) :
    pointers table (Function.update entry i value) t + (if entry i = some t then 1 else 0) =
      pointers table entry t + (if value = some t then 1 else 0) := by
  have others : ∑ j ∈ table.erase i, (if Function.update entry i value j = some t then 1 else 0) =
      ∑ j ∈ table.erase i, (if entry j = some t then 1 else 0) :=
    Finset.sum_congr rfl fun j member => by
      rw [Function.update_of_ne (Finset.ne_of_mem_erase member)]
  have after := Finset.add_sum_erase table
    (fun j => if Function.update entry i value j = some t then 1 else 0) inside
  have before := Finset.add_sum_erase table (fun j => if entry j = some t then 1 else 0) inside
  simp only [Function.update_self] at after
  rw [pointers, pointers, Finset.card_filter, Finset.card_filter]
  omega

theorem pointers_pos (inside : i ∈ table) (points : entry i = some t) : 0 < pointers table entry t :=
  Finset.card_pos.mpr ⟨i, Finset.mem_filter.mpr ⟨inside, points⟩⟩

theorem pointers_le (entry : I → Option T) (t : T) : pointers table entry t ≤ table.card :=
  Finset.card_filter_le _ _

end Pointers

end Xv6c.Lib

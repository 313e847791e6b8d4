import Mathlib.Algebra.BigOperators.Group.Finset.Basic
import Mathlib.Algebra.Order.BigOperators.Group.Finset
import Mathlib.Algebra.Order.Group.Multiset

/-! Cells of a memory and who holds them. What a part of the memory holds is a
multiset, so that holding a cell twice shows. A part is local when its cells alone
decide which cells it holds. -/
namespace Xv6c.Lib

variable {I V : Type}

/- The cells X were worked on and Y of them are held afterwards; no other changed. -/
structure Reworks (m n : I → V) (X Y : Multiset I) : Prop where
  fewer : Y ≤ X
  same : ∀ i, i ∉ X → n i = m i

theorem Reworks.refl (m : I → V) (X : Multiset I) : Reworks m m X X := ⟨le_rfl, fun _ _ => rfl⟩

variable {m n : I → V} {X Y : Multiset I}

theorem Reworks.trans {o : I → V} {Z : Multiset I} (first : Reworks m n X Y) (second : Reworks n o Y Z) :
    Reworks m o X Z :=
  ⟨second.fewer.trans first.fewer, fun i outside =>
    (second.same i fun h => outside (Multiset.mem_of_le first.fewer h)).trans (first.same i outside)⟩

theorem Reworks.add (h : Reworks m n X Y) (Z : Multiset I) : Reworks m n (X + Z) (Y + Z) :=
  ⟨by gcongr; exact h.fewer, fun i outside =>
    h.same i fun inside => outside (Multiset.mem_add.mpr (Or.inl inside))⟩

theorem Reworks.nodup (h : Reworks m n X Y) (once : X.Nodup) : Y.Nodup :=
  Multiset.nodup_of_le h.fewer once

/- No cell is in both parts of what is held once. -/
theorem held_apart (once : (X + Y).Nodup) {i : I} (left : i ∈ X) (right : i ∈ Y) : False :=
  Multiset.disjoint_left.mp (Multiset.nodup_add.mp once).2.2 left right

variable {J : Type} {s : Finset J} {f : J → Multiset I}

/- Parts of what is held once: each is held once, and they are disjoint. -/
theorem nodup_part (once : (∑ j ∈ s, f j).Nodup) {j : J} (member : j ∈ s) : (f j).Nodup :=
  Multiset.nodup_of_le (Finset.single_le_sum (fun _ _ => Multiset.zero_le _) member) once

theorem parts_apart [DecidableEq J] (once : (∑ j ∈ s, f j).Nodup) {i j : J} (hi : i ∈ s) (hj : j ∈ s) {x : I}
    (left : x ∈ f i) (right : x ∈ f j) : i = j := by
  by_contra apart
  rw [← Finset.add_sum_erase s f hi] at once
  refine held_apart once left (Multiset.mem_sum.mpr ⟨j, ?_, right⟩)
  exact Finset.mem_erase.mpr ⟨fun same => apart same.symm, hj⟩

def Local (part : (I → V) → Multiset I) : Prop :=
  ∀ m n, (∀ i ∈ part m, n i = m i) → part n = part m

theorem Local.add {f g : (I → V) → Multiset I} (hf : Local f) (hg : Local g) :
    Local (fun m => f m + g m) := by
  intro m n same
  simp only [Multiset.mem_add] at same
  simp only [hf m n fun i h => same i (Or.inl h), hg m n fun i h => same i (Or.inr h)]

theorem Local.sum {f : J → (I → V) → Multiset I} (each : ∀ j ∈ s, Local (f j)) : Local (fun m => ∑ j ∈ s, f j m) := by
  intro m n same
  refine Finset.sum_congr rfl fun j hj => each j hj m n fun i h => same i ?_
  exact Multiset.mem_sum.mpr ⟨j, hj, h⟩

theorem Local.const (X : Multiset I) : Local (fun _ : I → V => X) := fun _ _ _ => rfl

end Xv6c.Lib

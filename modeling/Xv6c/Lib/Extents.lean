import Mathlib.Logic.Function.Basic
import Xv6c.Lib.Bytes

/-! Files whose blocks lie anywhere on a volume. A position is placed on a block, or on
none: that is block 0, which reads as zeros. So giving a position a block of zeros
changes nothing that can be read. -/
namespace Xv6c.Lib
open Function (update update_self update_of_ne update_apply)

section Places
variable {I : Type} {place : I → Nat} {vol : Nat → Bytes} {x : I} {b : Nat} {v : Bytes}

/- No two positions are placed on the same block. -/
def Apart (place : I → Nat) : Prop := ∀ x y, place x ≠ 0 → place x = place y → x = y

/- What is stored at a position. -/
def stored (vol : Nat → Bytes) (place : I → Nat) (x : I) : Bytes := if place x = 0 then zeros else vol (place x)

theorem stored_placed (placed : place x ≠ 0) : stored vol place x = vol (place x) := if_neg placed

theorem stored_congr {vol' : Nat → Bytes} {place' : I → Nat} {y : I} (same : place' y = place x)
    (bytes : place x ≠ 0 → vol' (place x) = vol (place x)) : stored vol' place' y = stored vol place x := by
  unfold stored
  rw [same]
  split
  · rfl
  · exact bytes ‹_›

variable [DecidableEq I]

theorem Apart.update (apart : Apart place) (free : ∀ x, place x ≠ b) (x : I) : Apart (update place x b) := by
  intro y z placed same
  rw [update_apply, update_apply] at same
  rw [update_apply] at placed
  split at same <;> split at same
  · rename_i here there
    exact here.trans there.symm
  · exact absurd same.symm (free z)
  · exact absurd same (free y)
  · rename_i elsewhere _
    rw [if_neg elsewhere] at placed
    exact apart y z placed same

theorem stored_fresh (none : place x = 0) (blank : vol b = zeros) :
    stored vol (update place x b) = stored vol place := by
  funext y
  unfold stored
  by_cases here : y = x
  · rw [here, update_self, none, if_pos rfl, blank, ite_self]
  · rw [update_of_ne here]

theorem stored_write (apart : Apart place) (placed : place x ≠ 0) :
    stored (update vol (place x) v) place = update (stored vol place) x v := by
  funext y
  by_cases here : y = x
  · rw [here, update_self, stored_placed placed, update_self]
  · rw [update_of_ne here]
    refine stored_congr rfl fun some => update_of_ne (fun same => here ?_) _ _
    exact apart y x some same

end Places

section Flat

/- The bytes of a string of blocks of n bytes each. -/
def flat (n : Nat) (block : Nat → Bytes) (j : Nat) : Byte := block (j / n) (j % n)

variable {n bn o m : Nat} {block : Nat → Bytes} {src : Bytes}

/- A change within one block, as a change of the bytes. -/
theorem flat_copyIn (within : o + m ≤ n) :
    flat n (update block bn (copyIn (block bn) o m src)) = copyIn (flat n block) (bn * n + o) m src := by
  funext j
  have split := Nat.div_add_mod j n
  by_cases here : j / n = bn
  · rw [here, Nat.mul_comm] at split
    unfold flat copyIn
    dsimp only
    rw [here, update_self]
    by_cases inside : o ≤ j % n ∧ j % n < o + m
    · rw [if_pos inside, if_pos (by omega)]
      congr 1
      omega
    · rw [if_neg inside, if_neg (by omega)]
  · unfold flat copyIn
    rw [update_of_ne here, if_neg]
    intro inside
    refine here ?_
    have upper : j < (bn + 1) * n := by
      rw [Nat.add_mul]
      omega
    exact Nat.div_eq_of_lt_le (by omega) upper

theorem copyIn_zero (f : Bytes) : copyIn f o 0 src = f := by
  funext j
  unfold copyIn
  exact if_neg (by omega)

/- Two pieces, one behind the other. -/
theorem copyIn_append (f : Bytes) (m k : Nat) :
    copyIn (copyIn f o m src) (o + m) k (fun i => src (m + i)) = copyIn f o (m + k) src := by
  funext j
  unfold copyIn
  by_cases second : o + m ≤ j ∧ j < o + m + k
  · rw [if_pos second, if_pos (by omega)]
    exact congrArg src (by omega)
  · rw [if_neg second]
    by_cases first : o ≤ j ∧ j < o + m
    · rw [if_pos first, if_pos (by omega)]
    · rw [if_neg first, if_neg (by omega)]

theorem copyIn_congr {f src' : Bytes} (same : ∀ i < m, src i = src' i) : copyIn f o m src = copyIn f o m src' := by
  funext j
  unfold copyIn
  split
  · exact same _ (by omega)
  · rfl

end Flat

/- The bytes of l from off on replaced by those of src, and more appended if l is too short. -/
def overwrite (l : List Byte) (off : Nat) (src : List Byte) : List Byte :=
  l.take off ++ src ++ l.drop (off + src.length)

section Overwrite
variable {l a b : List Byte} {off : Nat}

theorem overwrite_nil : overwrite l off [] = l := by
  unfold overwrite
  rw [List.append_nil, List.length_nil, Nat.add_zero, List.take_append_drop]

theorem length_overwrite (start : off ≤ l.length) : (overwrite l off a).length = max l.length (off + a.length) := by
  unfold overwrite
  rw [List.length_append, List.length_append, List.length_take, List.length_drop]
  omega

theorem getElem?_overwrite (start : off ≤ l.length) (j : Nat) :
    (overwrite l off a)[j]? = if off ≤ j ∧ j < off + a.length then a[j - off]? else l[j]? := by
  have front : (l.take off).length = off := by rw [List.length_take]; omega
  unfold overwrite
  by_cases before : j < off
  · rw [List.append_assoc, List.getElem?_append_left (by omega), List.getElem?_take_of_lt before, if_neg (by omega)]
  · by_cases inside : j < off + a.length
    · rw [List.getElem?_append_left (by rw [List.length_append]; omega), List.getElem?_append_right (by omega), front,
        if_pos (by omega)]
    · rw [List.getElem?_append_right (by rw [List.length_append]; omega), List.length_append, front, List.getElem?_drop,
        if_neg (by omega)]
      congr 1
      omega

theorem overwrite_append (start : off ≤ l.length) :
    overwrite (overwrite l off a) (off + a.length) b = overwrite l off (a ++ b) := by
  have reach : off + a.length ≤ (overwrite l off a).length := by
    rw [length_overwrite start]
    omega
  refine List.ext_getElem? fun j => ?_
  rw [getElem?_overwrite reach, getElem?_overwrite start, getElem?_overwrite start, List.length_append]
  by_cases second : off + a.length ≤ j ∧ j < off + a.length + b.length
  · rw [if_pos second, if_pos (by omega), List.getElem?_append_right (by omega), Nat.sub_add_eq]
  · rw [if_neg second]
    by_cases first : off ≤ j ∧ j < off + a.length
    · rw [if_pos first, if_pos (by omega), List.getElem?_append_left (by omega)]
    · rw [if_neg first, if_neg (by omega)]

theorem overwrite_range {f src : Bytes} {size n : Nat} (start : off ≤ size) :
    (List.range (max size (off + n))).map (copyIn f off n src) =
      overwrite ((List.range size).map f) off ((List.range n).map src) := by
  have length : ((List.range size).map f).length = size := by rw [List.length_map, List.length_range]
  have length' : ((List.range n).map src).length = n := by rw [List.length_map, List.length_range]
  refine List.ext_getElem? fun j => ?_
  rw [getElem?_overwrite (by omega), length', List.getElem?_map, List.getElem?_map, List.getElem?_map]
  by_cases inside : off ≤ j ∧ j < off + n
  · rw [if_pos inside, List.getElem?_range (by omega), List.getElem?_range (by omega)]
    exact congrArg some (if_pos inside)
  · rw [if_neg inside]
    by_cases below : j < size
    · rw [List.getElem?_range below, List.getElem?_range (by omega)]
      exact congrArg some (if_neg inside)
    · rw [List.getElem?_eq_none (by rw [List.length_range]; omega), List.getElem?_eq_none (by rw [List.length_range]; omega)]
      rfl

end Overwrite

end Xv6c.Lib

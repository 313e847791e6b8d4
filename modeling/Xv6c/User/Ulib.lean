import Mathlib.Logic.Function.Basic
import Xv6c.Lib.Bytes

/-! Functions of ulib.c over the memory of a program. An address is a number; n bounds how far
a string is followed. -/
namespace Xv6c.User
open Lib
open Function (update update_self update_of_ne)

/- The bytes of the string at s, up to its NUL. -/
def stringAt (mem : Bytes) : Nat → Nat → List Byte
  | 0, _ => []
  | n + 1, s => if mem s = 0 then [] else mem s :: stringAt mem n (s + 1)

def strchr (mem : Bytes) (c : Byte) : Nat → Nat → Option Nat
  | 0, _ => none
  | n + 1, s => if mem s = 0 then none else if mem s = c then some s else strchr mem c n (s + 1)

def memmove (mem : Bytes) (dst src : Nat) : Nat → Bytes
  | 0 => mem
  | n + 1 => memmove (update mem dst (mem src)) (dst + 1) (src + 1) n

/- The memory has the bytes of l from p on. -/
def Reads (mem : Bytes) : Nat → List Byte → Prop
  | _, [] => True
  | p, b :: l => mem p = b ∧ Reads mem (p + 1) l

section Reads
variable {mem mem' : Bytes} {p n : Nat} {a b l : List Byte} {c : Byte}

theorem reads_append : Reads mem p (a ++ b) ↔ Reads mem p a ∧ Reads mem (p + a.length) b := by
  induction a generalizing p with
  | nil => simp [Reads]
  | cons x a ih =>
    rw [List.cons_append, List.length_cons, show p + (a.length + 1) = p + 1 + a.length by omega]
    simp only [Reads, ih, and_assoc]

theorem Reads.congr (h : Reads mem p l) (same : ∀ j, p ≤ j → j < p + l.length → mem' j = mem j) : Reads mem' p l := by
  induction l generalizing p with
  | nil => trivial
  | cons x l ih =>
    rw [List.length_cons] at same
    exact ⟨(same p (Nat.le_refl p) (by omega)).trans h.1, ih h.2 fun j low high => same j (by omega) (by omega)⟩

theorem reads_iff : Reads mem p l ↔ ∀ j, j < l.length → mem (p + j) = l.getD j 0 := by
  induction l generalizing p with
  | nil => simp [Reads]
  | cons x l ih =>
    simp only [Reads, ih, List.length_cons]
    constructor
    · rintro ⟨first, rest⟩ j inside
      cases j with
      | zero => exact first
      | succ j =>
        rw [show p + (j + 1) = p + 1 + j by omega, rest j (by omega)]
        rfl
    · intro all
      refine ⟨all 0 (by omega), fun j inside => ?_⟩
      rw [show p + 1 + j = p + (j + 1) by omega, all (j + 1) (by omega)]
      rfl

theorem Reads.range (h : Reads mem p l) : (List.range l.length).map (fun j => mem (p + j)) = l := by
  refine List.ext_getElem? fun j => ?_
  by_cases inside : j < l.length
  · rw [List.getElem?_map, List.getElem?_range inside, Option.map_some, reads_iff.mp h j inside,
      List.getD_eq_getElem?_getD, List.getElem?_eq_getElem inside, Option.getD_some]
  · rw [List.getElem?_eq_none (by rw [List.length_map, List.length_range]; omega), List.getElem?_eq_none (by omega)]

theorem stringAt_eq (h : Reads mem p l) (text : 0 ∉ l) (nul : mem (p + l.length) = 0) (enough : l.length < n) :
    stringAt mem n p = l := by
  induction l generalizing p n with
  | nil =>
    cases n with
    | zero => exact absurd enough (Nat.not_lt_zero _)
    | succ n => exact if_pos nul
  | cons x l ih =>
    rw [List.length_cons] at nul enough
    cases n with
    | zero => exact absurd enough (Nat.not_lt_zero _)
    | succ n =>
      unfold stringAt
      rw [h.1, if_neg (fun zero => text (by rw [zero]; exact List.mem_cons_self)),
        ih h.2 (fun inside => text (List.mem_cons_of_mem _ inside)) (by rwa [Nat.add_assoc, Nat.add_comm 1]) (by omega)]

theorem strchr_some (h : Reads mem p (l ++ c :: b)) (text : 0 ∉ l) (other : c ∉ l) (some : c ≠ 0) (enough : l.length < n) :
    strchr mem c n p = Option.some (p + l.length) := by
  induction l generalizing p n with
  | nil =>
    cases n with
    | zero => exact absurd enough (Nat.not_lt_zero _)
    | succ n =>
      unfold strchr
      rw [h.1, if_neg some, if_pos rfl]
      rfl
  | cons x l ih =>
    rw [List.length_cons] at enough ⊢
    cases n with
    | zero => exact absurd enough (Nat.not_lt_zero _)
    | succ n =>
      unfold strchr
      rw [h.1, if_neg (fun zero => text (by rw [zero]; exact List.mem_cons_self)),
        if_neg (fun same => other (by rw [same]; exact List.mem_cons_self)),
        ih h.2 (fun inside => text (List.mem_cons_of_mem _ inside)) (fun inside => other (List.mem_cons_of_mem _ inside))
          (by omega)]
      congr 1
      omega

theorem strchr_none (h : Reads mem p l) (text : 0 ∉ l) (other : c ∉ l) (nul : mem (p + l.length) = 0)
    (enough : l.length < n) : strchr mem c n p = none := by
  induction l generalizing p n with
  | nil =>
    cases n with
    | zero => rfl
    | succ n => exact if_pos nul
  | cons x l ih =>
    rw [List.length_cons] at nul enough
    cases n with
    | zero => exact absurd enough (Nat.not_lt_zero _)
    | succ n =>
      unfold strchr
      rw [h.1, if_neg (fun zero => text (by rw [zero]; exact List.mem_cons_self)),
        if_neg (fun same => other (by rw [same]; exact List.mem_cons_self))]
      exact ih h.2 (fun inside => text (List.mem_cons_of_mem _ inside)) (fun inside => other (List.mem_cons_of_mem _ inside))
        (by rwa [Nat.add_assoc, Nat.add_comm 1]) (by omega)

end Reads

/- What is copied, where no byte changes before it is read. -/
theorem memmove_eq {mem : Bytes} {dst src n : Nat}
    (same : src < dst → ∀ i, dst + i < src + n → mem (dst + i) = mem (src + i)) :
    memmove mem dst src n = copyIn mem dst n fun j => mem (src + j) := by
  induction n generalizing mem dst src with
  | zero =>
    funext j
    exact (if_neg (by omega)).symm
  | succ n ih =>
    have source (j : Nat) (inside : src < j) (before : j < src + (n + 1)) : update mem dst (mem src) j = mem j := by
      by_cases here : j = dst
      · subst here
        exact (update_self _ _ _).trans (same inside 0 before).symm
      · exact update_of_ne here _ _
    unfold memmove
    rw [ih fun up i inside => ?_]
    · funext j
      unfold copyIn
      dsimp only
      by_cases first : j = dst
      · rw [if_neg (by omega), first, update_self, if_pos (by omega), Nat.sub_self, Nat.add_zero]
      · by_cases inside : dst + 1 ≤ j ∧ j < dst + 1 + n
        · rw [if_pos inside, if_pos (by omega), source _ (by omega) (by omega)]
          congr 1
          omega
        · rw [if_neg inside, update_of_ne first, if_neg (by omega)]
    · rw [update_of_ne (by omega), source _ (by omega) (by omega), Nat.add_right_comm, Nat.add_right_comm src]
      exact same (by omega) (i + 1) (by omega)

end Xv6c.User

import Mathlib.Algebra.Group.Nat.Defs
import Xv6c.User.Ulib

/-! memmove of the kernel's string.c beside the one of the user library. The kernel copies from
the end where the destination lies behind the source; the user library always copies forward. -/
namespace Xv6c.Strings
open Lib
open Function (update update_self update_of_ne)

/- The loop of memmove that copies from the end. -/
def memmoveBack (mem : Bytes) (dst src : Nat) : Nat → Bytes
  | 0 => mem
  | n + 1 => memmoveBack (update mem (dst + n) (mem (src + n))) dst src n

/- memmove of string.c, with 32-bit pointers; its other loop is the one of ulib.c. -/
def memmove (mem : Bytes) (dst src n : Nat) : Bytes :=
  if src < dst ∧ dst < (src + n) % 2 ^ 32 then memmoveBack mem dst src n else User.memmove mem dst src n

/- memmove of ulib.c takes its length as an int, and copies nothing if that is negative. -/
def userMemmove (mem : Bytes) (dst src : Nat) (n : BitVec 32) : Bytes :=
  User.memmove mem dst src n.toInt.toNat

section Loops
variable {mem : Bytes} {dst src n : Nat}

theorem memmoveBack_eq (up : src < dst) : memmoveBack mem dst src n = copyIn mem dst n fun j => mem (src + j) := by
  induction n generalizing mem with
  | zero =>
    funext j
    exact (if_neg (by omega)).symm
  | succ n ih =>
    unfold memmoveBack
    rw [ih]
    funext j
    unfold copyIn
    dsimp only
    by_cases last : j = dst + n
    · rw [if_neg (by omega), last, update_self, if_pos (by omega), Nat.add_sub_cancel_left]
    · by_cases inside : dst ≤ j ∧ j < dst + n
      · rw [if_pos inside, if_pos (by omega), update_of_ne (by omega)]
      · rw [if_neg inside, update_of_ne last, if_neg (by omega)]

theorem memmove_below {j : Nat} (below : j < dst) : User.memmove mem dst src n j = mem j := by
  induction n generalizing mem dst src with
  | zero => rfl
  | succ n ih =>
    unfold User.memmove
    rw [ih (by omega), update_of_ne (by omega)]

/- Copied forward, each byte is the one that then stands in the source. -/
theorem memmove_repeats {i : Nat} (up : src < dst) (inside : i < n) :
    User.memmove mem dst src n (dst + i) = User.memmove mem dst src n (src + i) := by
  induction n generalizing mem dst src i with
  | zero => exact absurd inside (Nat.not_lt_zero _)
  | succ n ih =>
    unfold User.memmove
    cases i with
    | zero =>
      rw [memmove_below (by omega), memmove_below (by omega)]
      exact (update_self _ _ _).trans (update_of_ne (Nat.ne_of_lt up) _ _).symm
    | succ i =>
      rw [Nat.add_comm i 1, ← Nat.add_assoc, ← Nat.add_assoc]
      exact ih (Nat.succ_lt_succ up) (Nat.lt_of_succ_lt_succ inside)

end Loops

/-- The kernel's memmove is right for all ranges. The user library's is right just when every byte
that it overwrites before reading it, or does not copy at all, was right already. -/
theorem memmoves_agree (mem : Bytes) {dst src : Nat} {n : BitVec 32} (dstEnd : dst + n.toNat ≤ 2 ^ 32)
    (srcEnd : src + n.toNat ≤ 2 ^ 32) :
    memmove mem dst src n.toNat = (copyIn mem dst n.toNat fun j => mem (src + j)) ∧
    (userMemmove mem dst src n = (copyIn mem dst n.toNat fun j => mem (src + j)) ↔
      ∀ i < n.toNat, 2 ^ 31 ≤ n.toNat ∨ (src < dst ∧ dst + i < src + n.toNat) → mem (dst + i) = mem (src + i)) := by
  constructor
  · unfold memmove
    split
    · rename_i laps
      exact memmoveBack_eq laps.1
    · rename_i apart
      refine User.memmove_eq fun up i inside => absurd ⟨up, ?_⟩ apart
      -- the source ends before the destination does, so its end does not wrap
      rw [Nat.mod_eq_of_lt (by omega)]
      omega
  · unfold userMemmove
    by_cases long : 2 ^ 31 ≤ n.toNat
    · have none : n.toInt.toNat = 0 := by rw [BitVec.toInt_eq_toNat_cond]; omega
      rw [none]
      constructor
      · intro right i inside _
        have here := congrFun right (dst + i)
        simpa [User.memmove, copyIn, inside] using here
      · intro same
        funext j
        unfold copyIn
        split
        · rename_i inside
          have here := same (j - dst) (by omega) (Or.inl long)
          rwa [Nat.add_sub_cancel' inside.1] at here
        · rfl
    · have whole : n.toInt.toNat = n.toNat := by rw [BitVec.toInt_eq_toNat_cond]; omega
      rw [whole]
      constructor
      · rintro right i inside (far | ⟨up, laps⟩)
        · exact absurd far long
        · have copied (k : Nat) (part : k < n.toNat) : User.memmove mem dst src n.toNat (dst + k) = mem (src + k) := by
            rw [right]
            simp [copyIn, part]
          -- the byte at dst + i is read as the one at src + k
          obtain ⟨k, next⟩ : ∃ k, src + k = dst + i := ⟨dst + i - src, by omega⟩
          rw [← copied i inside, ← next, ← copied k (by omega), memmove_repeats up (by omega), next]
      · intro same
        exact User.memmove_eq fun up i laps => same i (by omega) (Or.inr ⟨up, laps⟩)

theorem memmoves_agree_down :
    userMemmove (fun j => BitVec.ofNat 8 j) 4 6 3 =
      copyIn (fun j => BitVec.ofNat 8 j) 4 3 fun j => BitVec.ofNat 8 (6 + j) :=
  (memmoves_agree (fun j => BitVec.ofNat 8 j) (by decide) (by decide)).2.mpr (by decide)

/- One byte up: the kernel moves the bytes 6 and 7 to 7 and 8, the user library writes 6 twice. -/
theorem userMemmove_up :
    (memmove (fun j => BitVec.ofNat 8 j) 7 6 2 7, memmove (fun j => BitVec.ofNat 8 j) 7 6 2 8) = (6, 7) ∧
    (userMemmove (fun j => BitVec.ofNat 8 j) 7 6 2 7, userMemmove (fun j => BitVec.ofNat 8 j) 7 6 2 8) = (6, 6) := by
  decide

end Xv6c.Strings

import Mathlib.Tactic.Common

/-! Blocks and pages as strings of bytes, read and written by byte ranges and by
little-endian 32-bit words. Indices past the end of a block are never read. -/
namespace Xv6c.Lib

abbrev Byte := BitVec 8
abbrev Bytes := Nat → Byte

def zeros : Bytes := fun _ => 0

def word (f : Bytes) (i : Nat) : BitVec 32 :=
  f (4 * i + 3) ++ f (4 * i + 2) ++ f (4 * i + 1) ++ f (4 * i)

def setWord (f : Bytes) (i : Nat) (w : BitVec 32) : Bytes := fun j =>
  if j / 4 = i then w.extractLsb' (8 * (j % 4)) 8 else f j

/- The words w 0, .., w (n - 1) at word index i. -/
def setWords (f : Bytes) (i n : Nat) (w : Nat → BitVec 32) : Bytes := fun j =>
  if i ≤ j / 4 ∧ j / 4 < i + n then (w (j / 4 - i)).extractLsb' (8 * (j % 4)) 8 else f j

/- memmove(f + off, src, n). -/
def copyIn (f : Bytes) (off n : Nat) (src : Bytes) : Bytes := fun j =>
  if off ≤ j ∧ j < off + n then src (j - off) else f j

theorem bytes_of_word (w : BitVec 32) :
    (w.extractLsb' 24 8 ++ w.extractLsb' 16 8 ++ w.extractLsb' 8 8 ++ w.extractLsb' 0 8 :
      BitVec 32) = w := by
  refine BitVec.eq_of_getLsbD_eq fun i inside => ?_
  simp only [BitVec.getLsbD_append, BitVec.getLsbD_extractLsb']
  have last : i - 8 - 8 - 8 < 8 := by omega
  split_ifs with h h h
  · rw [decide_eq_true h, Bool.true_and, Nat.zero_add]
  · rw [decide_eq_true h, Bool.true_and]
    congr 1
    omega
  · rw [decide_eq_true h, Bool.true_and]
    congr 1
    omega
  · rw [decide_eq_true last, Bool.true_and]
    congr 1
    omega

@[simp] theorem word_setWord_self (f : Bytes) (i : Nat) (w : BitVec 32) :
    word (setWord f i w) i = w := by
  have h0 : (4 * i) / 4 = i ∧ (4 * i) % 4 = 0 := by omega
  have h1 : (4 * i + 1) / 4 = i ∧ (4 * i + 1) % 4 = 1 := by omega
  have h2 : (4 * i + 2) / 4 = i ∧ (4 * i + 2) % 4 = 2 := by omega
  have h3 : (4 * i + 3) / 4 = i ∧ (4 * i + 3) % 4 = 3 := by omega
  simp only [word, setWord, h0, h1, h2, h3, if_true]
  exact bytes_of_word w

theorem word_congr {f g : Bytes} {i : Nat} (same : ∀ j, j / 4 = i → f j = g j) :
    word f i = word g i := by
  simp only [word, same (4 * i + 3) (by omega), same (4 * i + 2) (by omega),
    same (4 * i + 1) (by omega), same (4 * i) (by omega)]

theorem word_setWord_ne (f : Bytes) {i k : Nat} (w : BitVec 32) (apart : k ≠ i) :
    word (setWord f i w) k = word f k := by
  apply word_congr
  intro j hj
  simp only [setWord]
  rw [if_neg (by omega)]

theorem word_setWord (f : Bytes) (i k : Nat) (w : BitVec 32) :
    word (setWord f i w) k = if k = i then w else word f k := by
  by_cases h : k = i
  · subst h; simp
  · rw [word_setWord_ne f w h, if_neg h]

theorem word_setWords (f : Bytes) (i n k : Nat) (w : Nat → BitVec 32) :
    word (setWords f i n w) k = if i ≤ k ∧ k < i + n then w (k - i) else word f k := by
  by_cases h : i ≤ k ∧ k < i + n
  · rw [if_pos h, ← word_setWord_self f k (w (k - i))]
    apply word_congr
    intro j hj
    simp only [setWords, setWord, hj, if_pos h, if_true]
  · rw [if_neg h]
    apply word_congr
    intro j hj
    simp only [setWords, hj, if_neg h]

@[simp] theorem word_zeros (i : Nat) : word zeros i = 0 := by simp [word, zeros]

end Xv6c.Lib

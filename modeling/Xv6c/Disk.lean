import Xv6c.Lib.Bytes
import Xv6c.Param

/-! The on-disk formats that the log and the file system both read: the super
block and the header block of the log. -/
namespace Xv6c
open Lib

abbrev Block := Bytes

structure Superblock where
  size : Nat
  nblocks : Nat
  ninodes : Nat
  nlog : Nat
  logstart : Nat
  inodestart : Nat
  bmapstart : Nat
  deriving DecidableEq, Repr

/- readsb copies the first words of block 1. -/
def decodeSb (b : Block) : Superblock :=
  ⟨(word b 0).toNat, (word b 1).toNat, (word b 2).toNat, (word b 3).toNat,
    (word b 4).toNat, (word b 5).toNat, (word b 6).toNat⟩

/- The super block that mkfs writes. -/
def mkfsSb : Superblock :=
  let nbitmap := FSSIZE / (BSIZE * 8) + 1
  let ninodeblocks := NINODES / IPB + 1
  let nlog := LOGSIZE
  let nmeta := 2 + nlog + ninodeblocks + nbitmap
  ⟨FSSIZE, FSSIZE - nmeta, NINODES, nlog, 2, 2 + nlog, 2 + nlog + ninodeblocks⟩

def encodeSb (s : Superblock) : Block :=
  let put (i n : Nat) (b : Block) : Block := setWord b i (BitVec.ofNat 32 n)
  zeros |> put 0 s.size |> put 1 s.nblocks |> put 2 s.ninodes |> put 3 s.nlog
    |> put 4 s.logstart |> put 5 s.inodestart |> put 6 s.bmapstart

theorem decodeSb_encode_mkfs : decodeSb (encodeSb mkfsSb) = mkfsSb := by
  simp [decodeSb, encodeSb, word_setWord]
  decide

/- struct logheader: the count n, then the block numbers. -/
def getHead (b : Block) : List Nat :=
  (List.range (word b 0).toInt.toNat).map (fun i => (word b (i + 1)).toNat)

def putBlocks (b : Block) (i : Nat) : List Nat → Block
  | [] => b
  | x :: xs => putBlocks (setWord b (i + 1) (BitVec.ofNat 32 x)) (i + 1) xs

def putHead (b : Block) (lh : List Nat) : Block :=
  putBlocks (setWord b 0 (BitVec.ofNat 32 lh.length)) 0 lh

theorem word_putBlocks (xs : List Nat) (b : Block) (i k : Nat) :
    word (putBlocks b i xs) k =
      if i < k then (xs[k - (i + 1)]?.map (BitVec.ofNat 32)).getD (word b k) else word b k := by
  induction xs generalizing b i with
  | nil => simp [putBlocks]
  | cons x xs ih =>
    simp only [putBlocks, ih, word_setWord]
    rcases Nat.lt_trichotomy k (i + 1) with h | h | h
    · rw [if_neg (by omega), if_neg (by omega), if_neg (by omega)]
    · subst h
      simp
    · have e : k - (i + 1) = k - (i + 1 + 1) + 1 := by omega
      rw [if_pos h, if_neg (by omega), if_pos (by omega), e, List.getElem?_cons_succ]

/-- What write_head stores, read_head reads back. -/
theorem getHead_putHead (b : Block) (lh : List Nat) (short : lh.length < 2 ^ 31)
    (words : ∀ x ∈ lh, x < 2 ^ 32) : getHead (putHead b lh) = lh := by
  have count : (word (putHead b lh) 0).toInt.toNat = lh.length := by
    simp only [putHead, word_putBlocks, Nat.lt_irrefl, if_false, word_setWord_self]
    rw [BitVec.toInt_eq_toNat_of_lt] <;> rw [BitVec.toNat_ofNat, Nat.mod_eq_of_lt] <;> omega
  apply List.ext_getElem
  · simp [getHead, count]
  · intro i _ hi
    have hx : lh[i] < 2 ^ 32 := words _ (List.getElem_mem hi)
    simp only [getHead, List.getElem_map, List.getElem_range, putHead, word_putBlocks]
    rw [if_pos (by omega), show i + 1 - (0 + 1) = i by omega, List.getElem?_eq_getElem hi,
      Option.map_some, Option.getD_some, BitVec.toNat_ofNat, Nat.mod_eq_of_lt hx]

end Xv6c

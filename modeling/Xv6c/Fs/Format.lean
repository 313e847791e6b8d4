import Mathlib.Algebra.GroupWithZero.Nat
import Mathlib.Logic.Function.Basic
import Xv6c.Disk

/-! The formats of fs.h that only the file system reads: inodes, directory entries
and the free map. -/
namespace Xv6c.Fs
open Lib

/- The block with inode i, and the block of the free map with the bit of block b. -/
def IBLOCK (i : Nat) (sb : Superblock) : Nat := i / IPB + sb.inodestart
def BBLOCK (b : Nat) (sb : Superblock) : Nat := b / BPB + sb.bmapstart

def T_DIR : BitVec 16 := 1
def T_FILE : BitVec 16 := 2
def T_DEV : BitVec 16 := 3

/- struct dinode. The last of the addrs is the indirect block. -/
structure Dinode where
  type : BitVec 16
  major : BitVec 16
  minor : BitVec 16
  nlink : BitVec 16
  size : BitVec 32
  addrs : Fin 13 → BitVec 32

def Dinode.zero : Dinode := ⟨0, 0, 0, 0, 0, fun _ => 0⟩

instance addrs_nonempty : NeZero 13 := ⟨by decide⟩

def indirect : Fin 13 := 12

/- The sixteen words of a dinode. -/
def Dinode.word (d : Dinode) (i : Nat) : BitVec 32 :=
  if i = 0 then d.major ++ d.type
  else if i = 1 then d.nlink ++ d.minor
  else if i = 2 then d.size
  else if h : i - 3 < 13 then d.addrs ⟨i - 3, h⟩
  else 0

/- The dinode of index k in an inode block. -/
def getDinode (b : Block) (k : Nat) : Dinode where
  type := (Lib.word b (16 * k)).extractLsb' 0 16
  major := (Lib.word b (16 * k)).extractLsb' 16 16
  minor := (Lib.word b (16 * k + 1)).extractLsb' 0 16
  nlink := (Lib.word b (16 * k + 1)).extractLsb' 16 16
  size := Lib.word b (16 * k + 2)
  addrs i := Lib.word b (16 * k + 3 + i)

def putDinode (b : Block) (k : Nat) (d : Dinode) : Block := setWords b (16 * k) 16 d.word

theorem extract_low (a b : BitVec 16) : (a ++ b : BitVec 32).extractLsb' 0 16 = b := by
  ext i hi
  simp only [BitVec.getElem_extractLsb', BitVec.getLsbD_append]
  simp [hi]

theorem extract_high (a b : BitVec 16) : (a ++ b : BitVec 32).extractLsb' 16 16 = a := by
  ext i hi
  simp only [BitVec.getElem_extractLsb', BitVec.getLsbD_append]
  simp [hi]

theorem getDinode_of_words {b : Block} {k : Nat} {d : Dinode} (words : ∀ i < 16, Lib.word b (16 * k + i) = d.word i) :
    getDinode b k = d := by
  have first := words 0 (by omega)
  have second := words 1 (by omega)
  have third := words 2 (by omega)
  obtain ⟨type, major, minor, nlink, size, addrs⟩ := d
  simp only [getDinode, Nat.add_zero] at first ⊢
  simp only [first, second, third, Dinode.word, if_true, if_false, Nat.succ_ne_self,
    extract_low, extract_high, Dinode.mk.injEq, true_and]
  refine ⟨by simp, funext fun i => ?_⟩
  have addr := words (3 + i) (by omega)
  rw [show 16 * k + 3 + (i : Nat) = 16 * k + (3 + i) by omega, addr, Dinode.word, if_neg (by omega),
    if_neg (by omega), if_neg (by omega), dif_pos (by omega)]
  exact congrArg addrs (Fin.ext (Nat.add_sub_cancel_left 3 i))

/-- What iupdate stores, ilock reads back. -/
theorem getDinode_putDinode (b : Block) (k : Nat) (d : Dinode) :
    getDinode (putDinode b k d) k = d := by
  refine getDinode_of_words fun i h => ?_
  rw [putDinode, word_setWords, if_pos (by omega)]
  congr 1
  omega

theorem getDinode_putDinode_ne (b : Block) {k l : Nat} (d : Dinode) (apart : l ≠ k) :
    getDinode (putDinode b k d) l = getDinode b l := by
  have words (i : Nat) (h : i < 16) :
      word (putDinode b k d) (16 * l + i) = word b (16 * l + i) := by
    rw [putDinode, word_setWords, if_neg (by omega)]
  have first := words 0 (by omega)
  simp only [getDinode, Nat.add_zero] at first ⊢
  rw [first, words 1 (by omega), words 2 (by omega)]
  congr 1
  funext i
  rw [show 16 * l + 3 + (i : Nat) = 16 * l + (3 + i) by omega, words (3 + i) (by omega)]

theorem getDinode_zeros (k : Nat) : getDinode zeros k = .zero := by
  simp [getDinode, Dinode.zero]

/- Bit i of a free map block: set when the block is in use. -/
def bit (b : Block) (i : Nat) : Bool := (b (i / 8)).getLsbD (i % 8)

def setBit (b : Block) (i : Nat) : Block :=
  Function.update b (i / 8) (b (i / 8) ||| (1#8 <<< (i % 8)))

def clearBit (b : Block) (i : Nat) : Block :=
  Function.update b (i / 8) (b (i / 8) &&& ~~~ (1#8 <<< (i % 8)))

theorem bit_zeros (i : Nat) : bit zeros i = false := by simp [bit, zeros]

theorem getLsbD_one_shiftLeft (m n : Nat) (hm : m < 8) (hn : n < 8) :
    (1#8 <<< m).getLsbD n = decide (n = m) := by
  rw [BitVec.getLsbD_shiftLeft, BitVec.getLsbD_one]
  by_cases h : n = m
  · subst h; simp [hn]
  · simp only [h, decide_false]
    by_cases below : n < m
    · simp [below]
    · have : n - m ≠ 0 := by omega
      simp [this]

theorem bit_setBit (b : Block) (i j : Nat) : bit (setBit b i) j = (bit b j || decide (j = i)) := by
  unfold bit setBit
  by_cases byte : j / 8 = i / 8
  · rw [byte, Function.update_self, BitVec.getLsbD_or,
      getLsbD_one_shiftLeft _ _ (Nat.mod_lt _ (by omega)) (Nat.mod_lt _ (by omega))]
    have : (j % 8 = i % 8) ↔ j = i := by omega
    simp only [this]
  · rw [Function.update_of_ne byte]
    have : j ≠ i := fun h => byte (h ▸ rfl)
    simp [this]

theorem bit_clearBit (b : Block) (i j : Nat) :
    bit (clearBit b i) j = (bit b j && !decide (j = i)) := by
  unfold bit clearBit
  by_cases byte : j / 8 = i / 8
  · rw [byte, Function.update_self, BitVec.getLsbD_and, BitVec.getLsbD_not,
      getLsbD_one_shiftLeft _ _ (Nat.mod_lt _ (by omega)) (Nat.mod_lt _ (by omega))]
    have : (j % 8 = i % 8) ↔ j = i := by omega
    simp only [this, Nat.mod_lt j (show 0 < 8 by omega), decide_true, Bool.true_and]
  · rw [Function.update_of_ne byte]
    have : j ≠ i := fun h => byte (h ▸ rfl)
    simp [this]

/- struct dirent, as the bytes that readi delivers and writei takes. -/
def direntSize : Nat := 16

def deInum (de : Bytes) : Nat := (de 0).toNat + 256 * (de 1).toNat
def deName (de : Bytes) : List Byte := (List.range DIRSIZ).map (fun i => de (i + 2))

/- de.inum = inum; strncpy(de.name, name, DIRSIZ). -/
def mkDirent (inum : Nat) (name : List Byte) : Bytes := fun i =>
  if i = 0 then BitVec.ofNat 8 inum
  else if i = 1 then BitVec.ofNat 8 (inum / 256)
  else name.getD (i - 2) 0

end Xv6c.Fs

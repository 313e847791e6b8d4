import Xv6c.Fs.Contents

/-! Images in the layout of mkfs: any inodes over any data blocks, with the blocks below a
bound in use. -/
namespace Xv6c.Fs
open Lib

/- Block b of the inode table. -/
def tableBlock (ino : Nat → Dinode) (b : Nat) : Block :=
  setWords zeros 0 128 fun k => (ino (b * IPB + k / 16)).word (k % 16)

theorem getDinode_tableBlock (ino : Nat → Dinode) (b : Nat) {k : Nat} (inside : k < IPB) :
    getDinode (tableBlock ino b) k = ino (b * IPB + k) := by
  refine getDinode_of_words fun i h => ?_
  change k < 8 at inside
  rw [tableBlock, word_setWords, if_pos (by omega), Nat.sub_zero, show (16 * k + i) / 16 = k by omega,
    show (16 * k + i) % 16 = i by omega]

/- The disk with the inodes in ino, the blocks below 8 * m in use, and data in the other blocks. -/
def sampleDisk (ino : Nat → Dinode) (m : Nat) (data : Nat → Block) : Nat → Block := fun b =>
  if b = 1 then encodeSb mkfsSb
  else if mkfsSb.inodestart ≤ b ∧ b < mkfsSb.bmapstart then tableBlock ino (b - mkfsSb.inodestart)
  else if b = mkfsSb.bmapstart then fun j => if j < m then 255 else 0
  else data b

section Sample
variable {ino : Nat → Dinode} {m : Nat} {data : Nat → Block}

theorem sampleDisk_data {b : Nat} (high : dataStart mkfsSb ≤ b) : sampleDisk ino m data b = data b := by
  change 83 ≤ b at high
  unfold sampleDisk
  rw [if_neg (by omega), if_neg (by change ¬ (32 ≤ b ∧ b < 58); omega), if_neg (by change b ≠ 58; omega)]

theorem inodeOf_sample (none : ∀ i, mkfsSb.ninodes ≤ i → ino i = .zero) (i : Nat) :
    inodeOf (sampleDisk ino m data) mkfsSb i = ino i := by
  unfold inodeOf
  by_cases known : i < mkfsSb.ninodes
  · have block : sampleDisk ino m data (IBLOCK i mkfsSb) = tableBlock ino (i / IPB) := by
      change i < 200 at known
      have range : mkfsSb.inodestart ≤ IBLOCK i mkfsSb ∧ IBLOCK i mkfsSb < mkfsSb.bmapstart := by
        change 32 ≤ i / 8 + 32 ∧ i / 8 + 32 < 58
        omega
      unfold sampleDisk
      rw [if_neg (by change i / 8 + 32 ≠ 1; omega), if_pos range]
      exact congrArg (tableBlock ino) (Nat.add_sub_cancel (i / IPB) 32)
    rw [if_pos known, block, getDinode_tableBlock _ _ (Nat.mod_lt _ (by decide)), Nat.div_add_mod']
  · rw [if_neg known, none i (Nat.le_of_not_lt known)]

theorem used_sample {b : Nat} (low : b < 8 * m) (most : 8 * m ≤ BPB) : used (sampleDisk ino m data) mkfsSb b = true := by
  have bits : b < 4096 := low.trans_le most
  have first : BBLOCK b mkfsSb = mkfsSb.bmapstart := by
    change b / 4096 + 58 = 58
    omega
  have map : sampleDisk ino m data mkfsSb.bmapstart = fun j => if j < m then 255 else 0 := rfl
  unfold used
  rw [first, map, Nat.mod_eq_of_lt (show b < BPB from bits)]
  unfold bit
  dsimp only
  rw [if_pos (by omega)]
  have all : ∀ i < 8, (255 : Byte).getLsbD i = true := by decide
  exact all _ (Nat.mod_lt _ (by omega))

/- A kernel over the image, with the cache as on the disk. -/
theorem volume_sample {fs : FileSys} (disk : fs.disk = sampleDisk ino m data) (sb : fs.sb = mkfsSb)
    (none : ∀ i, mkfsSb.ninodes ≤ i → ino i = .zero) (live : ∀ i, (ino i).live = ino i)
    (small : ∀ i, (ino i).size.toNat ≤ MAXFILE * BSIZE) (most : dataStart mkfsSb ≤ 8 * m ∧ 8 * m ≤ BPB)
    (apart : Apart (place (sampleDisk ino m data) ino))
    (range : ∀ x, place (sampleDisk ino m data) ino x ≠ 0 → dataStart mkfsSb ≤ place (sampleDisk ino m data) ino x ∧
      place (sampleDisk ino m data) ino x < 8 * m) (cache : Cache fs)
    (clean : ∀ ip < NINODE, 0 < (fs.icache ip).ref → (fs.icache ip).valid = true →
      (fs.icache ip).d = ino (fs.icache ip).inum) : Volume fs := by
  have inodes : fs.inodes = ino := by
    rw [inodes_clean fun ip inside held valid => by rw [clean ip inside held valid, disk, sb, inodeOf_sample none], disk, sb]
    exact funext fun i => by rw [inodeOf_sample none, live]
  refine ⟨?_, cache, fun i => by rw [inodes]; exact small i⟩
  rw [disk, sb, inodes]
  refine ⟨formatted_mkfs, decodeSb_encode_mkfs, apart, fun x some => ⟨(range x some).1, ?_⟩,
    fun x some => used_sample (range x some).2 most.2, fun b low => used_sample (low.trans_le most.1) most.2⟩
  have below := (range x some).2.trans_le most.2
  change _ < 4096 at below
  change _ < 100000
  omega

end Sample

/- An image with a file of 30 blocks: 12 of them in the inode, 18 in its block of addresses. -/
def wideInode : Dinode :=
  ⟨T_FILE, 0, 0, 1, 15360, fun j => if j = indirect then 114 else BitVec.ofNat 32 (102 + j)⟩

def wideInodes (i : Nat) : Dinode :=
  if i = 1 then smallRoot
  else if i = 2 then smallInode T_DIR 48 101
  else if i = 3 then wideInode
  else .zero

def wideData (b : Nat) : Block :=
  if b = 100 then dirBlock [(1, dot), (1, dotdot), (2, [120])]
  else if b = 101 then dirBlock [(2, dot), (1, dotdot), (3, [102])]
  else if b = 114 then setWords zeros 0 18 fun k => BitVec.ofNat 32 (115 + k)
  else zeros

def wideDisk : Nat → Block := sampleDisk wideInodes 17 wideData

theorem placeOf_wide (r : Nat) : placeOf wideDisk wideInode r =
    if r < 12 then 102 + r else if r < 30 then 103 + r else if r = MAXFILE then 114 else 0 := by
  have addresses : wideDisk 114 = wideData 114 := sampleDisk_data (by decide)
  have last : (wideInode.addrs indirect).toNat = 114 := rfl
  have some : wideInode.addrs indirect ≠ 0 := by decide
  unfold placeOf
  by_cases direct : r < 12
  · have index : Fin.ofNat 13 r ≠ indirect := fun same => by
      have := congrArg Fin.val same
      change r % 13 = 12 at this
      omega
    rw [if_pos (show r < NDIRECT from direct), if_pos direct]
    change (if Fin.ofNat 13 r = indirect then 114 else BitVec.ofNat 32 (102 + r % 13)).toNat = 102 + r
    rw [if_neg index, Nat.mod_eq_of_lt (by omega), BitVec.toNat_ofNat, Nat.mod_eq_of_lt (by omega)]
  · rw [if_neg (show ¬ r < NDIRECT from direct), if_neg direct, if_neg some, last, addresses]
    by_cases inside : r < 30
    · rw [if_pos (by change r < 140; omega), if_pos inside]
      change (word (setWords zeros 0 18 fun k => BitVec.ofNat 32 (115 + k)) (r - 12)).toNat = _
      rw [word_setWords, if_pos (by omega), BitVec.toNat_ofNat, Nat.mod_eq_of_lt (by omega)]
      omega
    · rw [if_neg inside]
      by_cases below : r < MAXFILE
      · rw [if_pos below, if_neg (by omega)]
        change (word (setWords zeros 0 18 fun k => BitVec.ofNat 32 (115 + k)) (r - 12)).toNat = _
        rw [word_setWords, if_neg (by omega), word_zeros]
        rfl
      · rw [if_neg below]

theorem place_wide (i r : Nat) : place wideDisk wideInodes (i, r) =
    if i = 1 ∧ r = 0 then 100 else if i = 2 ∧ r = 0 then 101
    else if i = 3 then placeOf wideDisk wideInode r else 0 := by
  change placeOf wideDisk (wideInodes i) r = _
  unfold wideInodes
  by_cases root : i = 1
  · rw [root, if_pos rfl]
    refine (placeOf_smallInode wideDisk T_DIR 512 r (by decide)).trans ?_
    simp
  by_cases second : i = 2
  · rw [second, if_neg (by decide), if_pos rfl]
    refine (placeOf_smallInode wideDisk T_DIR 48 r (by decide)).trans ?_
    simp
  have apart : ¬ (i = 1 ∧ r = 0) ∧ ¬ (i = 2 ∧ r = 0) := by omega
  rw [if_neg root, if_neg second, if_neg apart.1, if_neg apart.2]
  split
  · rfl
  · exact placeOf_zero wideDisk r

/- Each place is where its inode and its index say. -/
theorem place_wide_cases {x : Nat × Nat} (some : place wideDisk wideInodes x ≠ 0) :
    (x = (1, 0) ∧ place wideDisk wideInodes x = 100) ∨ (x = (2, 0) ∧ place wideDisk wideInodes x = 101) ∨
    (x.1 = 3 ∧ x.2 < 12 ∧ place wideDisk wideInodes x = 102 + x.2) ∨
    (x.1 = 3 ∧ 12 ≤ x.2 ∧ x.2 < 30 ∧ place wideDisk wideInodes x = 103 + x.2) ∨
    (x = (3, MAXFILE) ∧ place wideDisk wideInodes x = 114) := by
  obtain ⟨i, r⟩ := x
  rw [place_wide] at some ⊢
  by_cases root : i = 1 ∧ r = 0
  · obtain ⟨rfl, rfl⟩ := root
    exact Or.inl ⟨rfl, rfl⟩
  rw [if_neg root] at some ⊢
  by_cases second : i = 2 ∧ r = 0
  · obtain ⟨rfl, rfl⟩ := second
    exact Or.inr (Or.inl ⟨rfl, rfl⟩)
  rw [if_neg second] at some ⊢
  by_cases third : i = 3
  · subst third
    rw [if_pos rfl, placeOf_wide] at some ⊢
    refine Or.inr (Or.inr ?_)
    by_cases direct : r < 12
    · rw [if_pos direct] at some ⊢
      exact Or.inl ⟨rfl, direct, rfl⟩
    rw [if_neg direct] at some ⊢
    by_cases inside : r < 30
    · rw [if_pos inside] at some ⊢
      exact Or.inr (Or.inl ⟨rfl, Nat.le_of_not_lt direct, inside, rfl⟩)
    rw [if_neg inside] at some ⊢
    by_cases last : r = MAXFILE
    · subst last
      exact Or.inr (Or.inr ⟨rfl, rfl⟩)
    · rw [if_neg last] at some
      exact absurd rfl some
  · rw [if_neg third] at some
    exact absurd rfl some

theorem volume_wide {fs : FileSys} (disk : fs.disk = wideDisk) (sb : fs.sb = mkfsSb) (cache : Cache fs)
    (clean : ∀ ip < NINODE, 0 < (fs.icache ip).ref → (fs.icache ip).valid = true →
      (fs.icache ip).d = wideInodes (fs.icache ip).inum) : Volume fs := by
  refine volume_sample disk sb (fun i high => ?_) (fun i => ?_) (fun i => ?_) ⟨by decide, by decide⟩
    (fun x y some same => ?_) (fun x some => ?_) cache clean
  · change 200 ≤ i at high
    unfold wideInodes
    rw [if_neg (by omega), if_neg (by omega), if_neg (by omega)]
  · unfold wideInodes
    split
    · rfl
    · split
      · rfl
      · split <;> rfl
  · unfold wideInodes
    split
    · decide
    · split
      · decide
      · split <;> decide
  · have other : place wideDisk wideInodes y ≠ 0 := fun none => some (same.trans none)
    change place wideDisk wideInodes x = place wideDisk wideInodes y at same
    obtain ⟨i, r⟩ := x
    obtain ⟨j, q⟩ := y
    have first := place_wide_cases some
    have second := place_wide_cases other
    simp only [Prod.mk.injEq] at first second ⊢
    change _ ∨ _ ∨ _ ∨ _ ∨ (_ ∧ r = 140) ∧ _ at first
    change _ ∨ _ ∨ _ ∨ _ ∨ (_ ∧ q = 140) ∧ _ at second
    omega
  · have cases := place_wide_cases some
    change 83 ≤ place wideDisk wideInodes x ∧ place wideDisk wideInodes x < 136
    omega

end Xv6c.Fs

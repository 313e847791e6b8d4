import Xv6c.Lib.Extents
import Xv6c.Fs.Format

/-! Where the blocks of files lie. The positions of a file are its block numbers below
MAXFILE, and MAXFILE itself for its block of addresses. -/
namespace Xv6c.Fs
open Lib
open Function (update update_self update_of_ne)

/- The inode i as it is on the disk. -/
def inodeOf (disk : Nat → Block) (sb : Superblock) (i : Nat) : Dinode :=
  if i < sb.ninodes then getDinode (disk (IBLOCK i sb)) (i % IPB) else .zero

/- Whether the free map says that block b is in use. -/
def used (disk : Nat → Block) (sb : Superblock) (b : Nat) : Bool := bit (disk (BBLOCK b sb)) (b % BPB)

/- The first block behind the free map. -/
def dataStart (sb : Superblock) : Nat := sb.bmapstart + sb.size / BPB + 1

/- The order of the parts of the disk. -/
structure Formatted (sb : Superblock) : Prop where
  super : 1 < sb.inodestart
  inodes : sb.inodestart + sb.ninodes / IPB < sb.bmapstart
  data : dataStart sb ≤ sb.size
  disk : sb.size ≤ FSSIZE

theorem formatted_mkfs : Formatted mkfsSb := ⟨by decide, by decide, by decide, by decide⟩

section Format
variable {sb : Superblock} {i b : Nat}

theorem Formatted.iblock (h : Formatted sb) (inside : i < sb.ninodes) :
    1 < IBLOCK i sb ∧ IBLOCK i sb < sb.bmapstart := by
  have super := h.super
  have inodes := h.inodes
  have below : i / IPB ≤ sb.ninodes / IPB := Nat.div_le_div_right (Nat.le_of_lt inside)
  exact ⟨Nat.lt_add_left _ super, by unfold IBLOCK; omega⟩

theorem bblock_range (inside : b < sb.size) : sb.bmapstart ≤ BBLOCK b sb ∧ BBLOCK b sb < dataStart sb := by
  have below : b / BPB ≤ sb.size / BPB := Nat.div_le_div_right (Nat.le_of_lt inside)
  exact ⟨Nat.le_add_left _ _, by unfold BBLOCK dataStart; omega⟩

end Format

/- The block at a position of a file, or 0. -/
def placeOf (disk : Nat → Block) (d : Dinode) (r : Nat) : Nat :=
  if r < NDIRECT then (d.addrs (Fin.ofNat 13 r)).toNat
  else if r < MAXFILE then
    if d.addrs indirect = 0 then 0 else (word (disk (d.addrs indirect).toNat) (r - NDIRECT)).toNat
  else if r = MAXFILE then (d.addrs indirect).toNat
  else 0

theorem placeOf_zero (disk : Nat → Block) (r : Nat) : placeOf disk .zero r = 0 := by
  simp [placeOf, Dinode.zero]

def place (disk : Nat → Block) (ino : Nat → Dinode) (x : Nat × Nat) : Nat := placeOf disk (ino x.1) x.2

/- d with the address a at index k. -/
def Dinode.setAddr (d : Dinode) (k : Fin 13) (a : BitVec 32) : Dinode := { d with addrs := update d.addrs k a }

@[simp] theorem addrs_setAddr (d : Dinode) (k : Fin 13) (a : BitVec 32) :
    (d.setAddr k a).addrs = update d.addrs k a := rfl

section Places
variable {disk : Nat → Block} {ino : Nat → Dinode} {d e : Dinode} {i r b : Nat} {a : BitVec 32} {v : Block}

theorem placeOf_direct (direct : r < NDIRECT) : placeOf disk d r = (d.addrs (Fin.ofNat 13 r)).toNat := if_pos direct

theorem placeOf_table : placeOf disk d MAXFILE = (d.addrs indirect).toNat := rfl

theorem placeOf_entry (some : d.addrs indirect ≠ 0) (high : NDIRECT ≤ r) (below : r < MAXFILE) :
    placeOf disk d r = (word (disk (placeOf disk d MAXFILE)) (r - NDIRECT)).toNat := by
  rw [placeOf_table]
  unfold placeOf
  rw [if_neg (by omega), if_pos below, if_neg some]

theorem toNat_ne_zero (some : a ≠ 0) : a.toNat ≠ 0 := fun zero => some (BitVec.eq_of_toNat_eq zero)

variable {disk' : Nat → Block}

theorem placeOf_congr (addrs : e.addrs = d.addrs)
    (table : d.addrs indirect ≠ 0 → disk' (d.addrs indirect).toNat = disk (d.addrs indirect).toNat) :
    placeOf disk' e = placeOf disk d := by
  funext r
  unfold placeOf
  rw [addrs]
  by_cases none : d.addrs indirect = 0
  · simp only [if_pos none]
  · simp only [if_neg none, table none]

theorem direct_ne_indirect (direct : r < NDIRECT) : Fin.ofNat 13 r ≠ indirect := by
  simp only [NDIRECT] at direct
  rw [Ne, Fin.ext_iff, Fin.val_ofNat, Nat.mod_eq_of_lt (by omega)]
  change r ≠ 12
  omega

theorem direct_ne {q : Nat} (direct : r < NDIRECT) (direct' : q < NDIRECT) (apart : q ≠ r) :
    Fin.ofNat 13 q ≠ Fin.ofNat 13 r := by
  simp only [NDIRECT] at direct direct'
  rw [Ne, Fin.ext_iff, Fin.val_ofNat, Fin.val_ofNat, Nat.mod_eq_of_lt (by omega), Nat.mod_eq_of_lt (by omega)]
  exact apart

/- A new block at one of the direct positions. -/
theorem placeOf_setDirect (direct : r < NDIRECT) :
    placeOf disk (d.setAddr (Fin.ofNat 13 r) a) = update (placeOf disk d) r a.toNat := by
  funext q
  by_cases here : q = r
  · rw [here, update_self, placeOf_direct direct, addrs_setAddr, update_self]
  · rw [update_of_ne here]
    unfold placeOf
    simp only [addrs_setAddr, update_of_ne (direct_ne_indirect direct).symm]
    by_cases small : q < NDIRECT
    · rw [if_pos small, if_pos small, update_of_ne (direct_ne direct small here)]
    · rw [if_neg small, if_neg small]

/- A new block of addresses, without any. -/
theorem placeOf_setTable (none : d.addrs indirect = 0) (blank : disk a.toNat = zeros) :
    placeOf disk (d.setAddr indirect a) = update (placeOf disk d) MAXFILE a.toNat := by
  funext q
  by_cases here : q = MAXFILE
  · rw [here, update_self, placeOf_table, addrs_setAddr, update_self]
  · rw [update_of_ne here]
    unfold placeOf
    by_cases small : q < NDIRECT
    · rw [if_pos small, if_pos small, addrs_setAddr, update_of_ne (direct_ne_indirect small)]
    · rw [if_neg small, if_neg small, if_neg here, if_neg here]
      simp only [addrs_setAddr, update_self, none, if_true, blank, word_zeros, ite_self]
      rw [show BitVec.toNat (0 : BitVec 32) = 0 from rfl, ite_self, ite_self]

/- A new address in the block of addresses. -/
theorem placeOf_setEntry (some : d.addrs indirect ≠ 0) (high : NDIRECT ≤ r) (below : r < MAXFILE) :
    placeOf (update disk (d.addrs indirect).toNat (setWord (disk (d.addrs indirect).toNat) (r - NDIRECT) a)) d =
      update (placeOf disk d) r a.toNat := by
  funext q
  by_cases here : q = r
  · rw [here, update_self, placeOf_entry some high below, placeOf_table, update_self, word_setWord_self]
  · rw [update_of_ne here]
    unfold placeOf
    rw [update_self]
    by_cases small : q < NDIRECT
    · rw [if_pos small, if_pos small]
    · rw [if_neg small, if_neg small, word_setWord_ne _ _ (by omega)]

theorem place_update (here : placeOf disk' e = update (placeOf disk (ino i)) r b)
    (others : ∀ j, j ≠ i → placeOf disk' (ino j) = placeOf disk (ino j)) :
    place disk' (update ino i e) = update (place disk ino) (i, r) b := by
  funext ⟨j, q⟩
  unfold place
  by_cases same : j = i
  · subst same
    simp only [update_self, here]
    by_cases there : q = r
    · rw [there, update_self, update_self]
    · rw [update_of_ne there, update_of_ne (by simpa using there)]
  · rw [update_of_ne (fun whole => same (congrArg Prod.fst whole))]
    simp only [update_of_ne same, others j same]

/- Blocks other than the blocks of addresses do not matter. -/
theorem place_beside (beside : ∀ j, place disk ino (j, MAXFILE) ≠ 0 → place disk ino (j, MAXFILE) ≠ b) :
    place (update disk b v) ino = place disk ino := by
  funext ⟨j, q⟩
  refine congrFun (placeOf_congr rfl fun some => ?_) q
  exact update_of_ne (beside j (toNat_ne_zero some)) _ _

variable {ino' : Nat → Dinode}

theorem place_congr (same : ∀ j, (ino' j).addrs = (ino j).addrs) : place disk ino' = place disk ino := by
  funext ⟨j, q⟩
  exact congrFun (placeOf_congr (same j) fun _ => rfl) q

/- The block of a file's data, and its bytes. -/
def fileBlock (disk : Nat → Block) (ino : Nat → Dinode) (i r : Nat) : Block :=
  if r < MAXFILE then stored disk (place disk ino) (i, r) else zeros

def fileByte (disk : Nat → Block) (ino : Nat → Dinode) (i : Nat) : Bytes := flat BSIZE (fileBlock disk ino i)

/- What a file is for its readers: the list of its size bytes. -/
def contents (disk : Nat → Block) (ino : Nat → Dinode) (i : Nat) : List Byte :=
  (List.range (ino i).size.toNat).map (fileByte disk ino i)

theorem fileBlock_congr
    (same : ∀ j q, q < MAXFILE → stored disk' (place disk' ino') (j, q) = stored disk (place disk ino) (j, q)) :
    fileBlock disk' ino' = fileBlock disk ino := by
  funext j q
  unfold fileBlock
  split
  · exact same j q ‹_›
  · rfl

theorem fileBlock_placed (below : r < MAXFILE) (placed : place disk ino (i, r) ≠ 0) :
    fileBlock disk ino i r = disk (place disk ino (i, r)) := by
  unfold fileBlock
  rw [if_pos below, stored_placed placed]

theorem fileBlock_addrs (same : ∀ j, (ino' j).addrs = (ino j).addrs) :
    fileBlock disk ino' = fileBlock disk ino := by
  unfold fileBlock
  rw [place_congr same]

theorem place_eq (x : Nat × Nat) : place disk ino x = placeOf disk (ino x.1) x.2 := rfl

/- A position without a block is given one of zeros, which no reader sees: a direct
position, -/
theorem give_direct (direct : r < NDIRECT) (none : place disk ino (i, r) = 0) (blank : disk a.toNat = zeros) :
    place disk (update ino i ((ino i).setAddr (Fin.ofNat 13 r) a)) = update (place disk ino) (i, r) a.toNat ∧
      fileBlock disk (update ino i ((ino i).setAddr (Fin.ofNat 13 r) a)) = fileBlock disk ino := by
  have placed : place disk (update ino i ((ino i).setAddr (Fin.ofNat 13 r) a)) = update (place disk ino) (i, r) a.toNat :=
    place_update (placeOf_setDirect direct) fun _ _ => rfl
  refine ⟨placed, fileBlock_congr fun j q _ => ?_⟩
  rw [placed, stored_fresh none blank]

/- the block of addresses, -/
theorem give_table (none : (ino i).addrs indirect = 0) (blank : disk a.toNat = zeros) :
    place disk (update ino i ((ino i).setAddr indirect a)) = update (place disk ino) (i, MAXFILE) a.toNat ∧
      fileBlock disk (update ino i ((ino i).setAddr indirect a)) = fileBlock disk ino := by
  have placed : place disk (update ino i ((ino i).setAddr indirect a)) = update (place disk ino) (i, MAXFILE) a.toNat :=
    place_update (placeOf_setTable none blank) fun _ _ => rfl
  have unplaced : place disk ino (i, MAXFILE) = 0 := by
    rw [place_eq, placeOf_table, none]
    rfl
  refine ⟨placed, fileBlock_congr fun j q _ => ?_⟩
  rw [placed, stored_fresh unplaced blank]

/- and a position with an entry there. -/
theorem give_entry (apart : Apart (place disk ino)) (some : (ino i).addrs indirect ≠ 0) (high : NDIRECT ≤ r)
    (below : r < MAXFILE) (none : place disk ino (i, r) = 0) (blank : disk a.toNat = zeros)
    (free : ∀ x, place disk ino x ≠ a.toNat) (table : b = place disk ino (i, MAXFILE)) :
    place (update disk b (setWord (disk b) (r - NDIRECT) a)) ino = update (place disk ino) (i, r) a.toNat ∧
      fileBlock (update disk b (setWord (disk b) (r - NDIRECT) a)) ino = fileBlock disk ino := by
  subst table
  have there : place disk ino (i, MAXFILE) ≠ 0 := toNat_ne_zero some
  have placed : place (update disk (place disk ino (i, MAXFILE))
      (setWord (disk (place disk ino (i, MAXFILE))) (r - NDIRECT) a)) ino =
      update (place disk ino) (i, r) a.toNat := by
    have here : placeOf (update disk (place disk ino (i, MAXFILE))
        (setWord (disk (place disk ino (i, MAXFILE))) (r - NDIRECT) a)) (ino i) =
        update (placeOf disk (ino i)) r a.toNat := placeOf_setEntry some high below
    have whole := place_update here fun j other => placeOf_congr rfl fun has => update_of_ne (fun same => other ?_) _ _
    · rwa [Function.update_eq_self] at whole
    · exact congrArg Prod.fst (apart (j, MAXFILE) (i, MAXFILE) (toNat_ne_zero has) same)
  refine ⟨placed, fileBlock_congr fun j q data => ?_⟩
  have elsewhere : a.toNat ≠ place disk ino (i, MAXFILE) := fun same => free (i, MAXFILE) same.symm
  rw [placed, stored_fresh none (by rw [update_of_ne elsewhere, blank]), stored_write apart there, update_of_ne]
  intro same
  have := congrArg Prod.snd same
  dsimp only at this
  omega

/- A write into the block of a file's data. -/
theorem write_data (apart : Apart (place disk ino)) (below : r < MAXFILE) (placed : place disk ino (i, r) ≠ 0) :
    place (update disk (place disk ino (i, r)) v) ino = place disk ino ∧
      ∀ j q, fileBlock (update disk (place disk ino (i, r)) v) ino j q =
        if j = i ∧ q = r then v else fileBlock disk ino j q := by
  have same : place (update disk (place disk ino (i, r)) v) ino = place disk ino := by
    refine place_beside fun j some shared => ?_
    have := congrArg Prod.snd (apart (j, MAXFILE) (i, r) some shared)
    dsimp only at this
    omega
  refine ⟨same, fun j q => ?_⟩
  unfold fileBlock
  rw [same, stored_write apart placed, Function.update_apply]
  simp only [Prod.mk.injEq]
  by_cases here : j = i ∧ q = r
  · rw [if_pos here, if_pos here, if_pos (by omega)]
  · rw [if_neg here, if_neg here]

/- The same for the bytes. -/
theorem write_bytes {off n : Nat} (src : Bytes) (apart : Apart (place disk ino)) (below : off / BSIZE < MAXFILE)
    (placed : place disk ino (i, off / BSIZE) ≠ 0) (within : off % BSIZE + n ≤ BSIZE)
    (block : b = place disk ino (i, off / BSIZE)) (j : Nat) :
    fileByte (update disk b (copyIn (disk b) (off % BSIZE) n src)) ino j =
      if j = i then copyIn (fileByte disk ino i) off n src else fileByte disk ino j := by
  subst block
  have whole := (write_data (v := copyIn (disk (place disk ino (i, off / BSIZE))) (off % BSIZE) n src)
    apart below placed).2
  by_cases same : j = i
  · rw [if_pos same, same]
    have blocks : fileBlock (update disk (place disk ino (i, off / BSIZE))
        (copyIn (disk (place disk ino (i, off / BSIZE))) (off % BSIZE) n src)) ino i =
        update (fileBlock disk ino i) (off / BSIZE)
          (copyIn (fileBlock disk ino i (off / BSIZE)) (off % BSIZE) n src) := by
      funext q
      rw [whole i q, fileBlock_placed below placed, Function.update_apply]
      simp only [true_and]
    unfold fileByte
    rw [blocks, flat_copyIn within, Nat.div_add_mod']
  · rw [if_neg same]
    have blocks : fileBlock (update disk (place disk ino (i, off / BSIZE))
        (copyIn (disk (place disk ino (i, off / BSIZE))) (off % BSIZE) n src)) ino j = fileBlock disk ino j := by
      funext q
      rw [whole j q, if_neg fun both => same both.1]
    unfold fileByte
    rw [blocks]

end Places

section Inodes
variable {disk : Nat → Block} {sb : Superblock} {i b : Nat} {d : Dinode} {v : Block}

/- One inode is written back. -/
theorem inodeOf_put (inside : i < sb.ninodes) :
    inodeOf (update disk (IBLOCK i sb) (putDinode (disk (IBLOCK i sb)) (i % IPB) d)) sb =
      update (inodeOf disk sb) i d := by
  funext j
  by_cases here : j = i
  · rw [here, update_self, inodeOf, if_pos inside, update_self, getDinode_putDinode]
  · rw [update_of_ne here]
    unfold inodeOf
    split
    · by_cases block : IBLOCK j sb = IBLOCK i sb
      · have apart : j % IPB ≠ i % IPB := fun same => here <| by
          have quot : j / IPB = i / IPB := Nat.add_right_cancel block
          rw [← Nat.div_add_mod j IPB, ← Nat.div_add_mod i IPB, quot, same]
        rw [block, update_self, getDinode_putDinode_ne _ _ apart]
      · rw [update_of_ne block]
    · rfl

theorem inodeOf_congr {disk' : Nat → Block} (h : Formatted sb) (same : ∀ b, 1 < b → b < sb.bmapstart → disk' b = disk b) :
    inodeOf disk' sb = inodeOf disk sb := by
  funext j
  unfold inodeOf
  split
  · rename_i inside
    obtain ⟨low, high⟩ := h.iblock inside
    rw [same _ low high]
  · rfl

theorem used_congr {disk' : Nat → Block} (inside : b < sb.size)
    (same : ∀ b, sb.bmapstart ≤ b → b < dataStart sb → disk' b = disk b) : used disk' sb b = used disk sb b := by
  obtain ⟨low, high⟩ := bblock_range inside
  unfold used
  rw [same _ low high]

end Inodes

end Xv6c.Fs

import Xv6c.Fs.Calls
import Xv6c.Fs.Truncate

/-! Files as lists of bytes, for their readers and writers. -/
namespace Xv6c
open Lib Fs
open Function (update update_self update_of_ne)

/- The bytes of inode i. -/
def FileSys.contents (fs : FileSys) (i : Nat) : List Byte := Fs.contents fs.disk fs.inodes i

namespace Fs

/- What a read of n bytes at off delivers, and what a write of src at off makes of a file. -/
def readAt (l : List Byte) (off n : Nat) : Option (List Byte) :=
  if l.length < off ∨ 2 ^ 32 ≤ off + n then none else some ((l.drop off).take n)

def writeAt (l : List Byte) (off : Nat) (src : List Byte) : Option (List Byte) :=
  if l.length < off ∨ 2 ^ 32 ≤ off + src.length ∨ MAXFILE * BSIZE < off + src.length then none
  else some (overwrite l off src)

section Contents
variable {s t : FsState} {ip i off n : Nat} {src : Bytes}

theorem length_contents (fs : FileSys) (i : Nat) : (fs.contents i).length = (fs.inodes i).size.toNat := by
  unfold FileSys.contents Fs.contents
  rw [List.length_map, List.length_range]

theorem Extended.contents (h : Extended ip i s t) (volume : Volume s.toFileSys) (here : Loaded s.toFileSys ip i) :
    t.contents = s.contents := by
  funext j
  unfold FileSys.contents Fs.contents
  rw [h.fileByte]
  by_cases same : j = i
  · rw [same, h.loaded.inodes h.volume.cache, here.inodes volume.cache, h.inode]
  · rw [h.others j same]

theorem Stored.contents (h : Stored ip i off n src s t) (volume : Volume s.toFileSys) (here : Loaded s.toFileSys ip i)
    (start : off ≤ (s.icache ip).d.size.toNat) :
    t.contents = update s.contents i (overwrite (s.contents i) off ((List.range n).map src)) := by
  funext j
  by_cases same : j = i
  · rw [same, update_self]
    unfold FileSys.contents Fs.contents
    rw [h.bytes i, if_pos rfl, h.loaded.inodes h.volume.cache, here.inodes volume.cache, h.size, overwrite_range start]
  · rw [update_of_ne same]
    unfold FileSys.contents Fs.contents
    rw [h.bytes j, if_neg same, h.others j same]

theorem Emptied.contents (h : Emptied ip i s t) : t.contents = update s.contents i [] := by
  funext j
  by_cases same : j = i
  · rw [same, update_self]
    unfold FileSys.contents Fs.contents
    rw [h.loaded.inodes h.volume.cache, h.inode]
    rfl
  · rw [update_of_ne same]
    unfold FileSys.contents Fs.contents fileByte
    rw [h.blocks j same, h.others j same]

theorem contents_slice {m : Nat} (fits : off + m ≤ (s.inodes i).size.toNat) :
    (List.range m).map (slice (fileByte s.disk s.inodes i) off m) = ((s.contents i).drop off).take m := by
  refine List.ext_getElem? fun j => ?_
  by_cases inside : j < m
  · rw [List.getElem?_take_of_lt inside, List.getElem?_drop, List.getElem?_map, List.getElem?_range inside]
    unfold FileSys.contents Fs.contents
    rw [List.getElem?_map, List.getElem?_range (by omega)]
    exact congrArg some (slice_apply inside)
  · rw [List.getElem?_eq_none (by rw [List.length_map, List.length_range]; omega),
      List.getElem?_eq_none (by rw [List.length_take]; omega)]

end Contents

/- The blocks of the free map that the next n allocations write. -/
def freeMaps (fs : FileSys) (n : Nat) : Finset Nat :=
  (((freeBlocks fs.disk fs.sb).take n).map fun b => BBLOCK b fs.sb).toFinset

theorem card_freeMaps (fs : FileSys) (n : Nat) : (freeMaps fs n).card ≤ n := by
  refine (List.toFinset_card_le _).trans ?_
  rw [List.length_map]
  exact List.length_take_le _ _

/- A transaction is open, and the log has room for r blocks of one file, with its block of
addresses, its inode and the blocks of the free map that go with them. -/
def LogRoom (fs : FileSys) (r : Nat) : Prop :=
  0 < fs.log.outstanding ∧ fs.log.lh.length + r + (freeMaps fs (r + 1)).card + 2 < min LOGSIZE (fs.log.size - 1)

/- The blocks of the free map for the blocks of inode i. -/
def fileMaps (fs : FileSys) (i : Nat) : Finset Nat :=
  ((Finset.range (MAXFILE + 1)).filter fun r => place fs.disk fs.inodes (i, r) ≠ 0).image
    fun r => BBLOCK (place fs.disk fs.inodes (i, r)) fs.sb

/- The same for a call that frees all blocks of inode i. -/
def FreeRoom (fs : FileSys) (i : Nat) : Prop :=
  0 < fs.log.outstanding ∧ fs.log.lh.length + (fileMaps fs i).card + 1 < min LOGSIZE (fs.log.size - 1)

/- The number of blocks with one of the n bytes from off on. -/
def blocksOf (off n : Nat) : Nat := (off + n + BSIZE - 1) / BSIZE - off / BSIZE

section Rooms
variable {M : Mode FsEvent Fault} {s : FsState} {ip i off n r : Nat}

theorem blocksOf_most (off n : Nat) : off + n ≤ (off / BSIZE + blocksOf off n) * BSIZE := by
  unfold blocksOf
  change off + n ≤ (off / 512 + ((off + n + 512 - 1) / 512 - off / 512)) * 512
  omega

theorem reserved_le (lh : List Nat) (Y : Finset Nat) : reserved lh Y ≤ lh.length + Y.card :=
  Nat.add_le_add_left (Finset.card_filter_le _ _) _

theorem LogRoom.reserve (h : LogRoom s.toFileSys r) (ip : Nat) :
    ∃ Y, Reserve M s ip Y (r + credit (s.icache ip).d) := by
  obtain ⟨open_, room⟩ := h
  have few : r + credit (s.icache ip).d ≤ r + 1 := by
    unfold credit
    split <;> omega
  have map {Y : Finset Nat} (inside : freeMaps s.toFileSys (r + 1) ⊆ Y) (c : Nat)
      (next : c ∈ (freeBlocks s.disk s.sb).take (r + credit (s.icache ip).d)) : BBLOCK c s.sb ∈ Y :=
    inside (List.mem_toFinset.mpr (List.mem_map_of_mem (List.take_subset_take_left _ few next)))
  by_cases none : (s.icache ip).d.addrs indirect = 0
  · refine ⟨insert (IBLOCK (s.icache ip).inum s.sb) (freeMaps s.toFileSys (r + 1)), map (Finset.subset_insert _ _),
      Finset.mem_insert_self _ _, fun some => absurd none some, Or.inr ?_, Or.inr open_⟩
    have most := reserved_le s.log.lh (insert (IBLOCK (s.icache ip).inum s.sb) (freeMaps s.toFileSys (r + 1)))
    have card := Finset.card_insert_le (IBLOCK (s.icache ip).inum s.sb) (freeMaps s.toFileSys (r + 1))
    omega
  · refine ⟨insert ((s.icache ip).d.addrs indirect).toNat
      (insert (IBLOCK (s.icache ip).inum s.sb) (freeMaps s.toFileSys (r + 1))),
      map ((Finset.subset_insert _ _).trans (Finset.subset_insert _ _)), 
      Finset.mem_insert_of_mem (Finset.mem_insert_self _ _), fun _ => Finset.mem_insert_self _ _, Or.inr ?_, Or.inr open_⟩
    have most := reserved_le s.log.lh (insert ((s.icache ip).d.addrs indirect).toNat
      (insert (IBLOCK (s.icache ip).inum s.sb) (freeMaps s.toFileSys (r + 1))))
    have card := Finset.card_insert_le (IBLOCK (s.icache ip).inum s.sb) (freeMaps s.toFileSys (r + 1))
    have card' := Finset.card_insert_le ((s.icache ip).d.addrs indirect).toNat
      (insert (IBLOCK (s.icache ip).inum s.sb) (freeMaps s.toFileSys (r + 1)))
    have zero : credit (s.icache ip).d = 0 := if_neg none
    omega

theorem FreeRoom.maps (h : FreeRoom s.toFileSys i) :
    MapsIn s i (insert (IBLOCK i s.sb) (fileMaps s.toFileSys i)) ∧
      Room M s.log (insert (IBLOCK i s.sb) (fileMaps s.toFileSys i)) 0 := by
  obtain ⟨open_, room⟩ := h
  refine ⟨fun r some => Finset.mem_insert_of_mem ?_, Or.inr ?_, Or.inr open_⟩
  · have below : r < MAXFILE + 1 := by
      by_contra above
      refine some ?_
      rw [place_eq]
      unfold placeOf
      rw [if_neg (by change ¬ r < 12; change ¬ r < 141 at above; omega), if_neg (by omega), if_neg (by omega)]
    exact Finset.mem_image_of_mem _ (Finset.mem_filter.mpr ⟨Finset.mem_range.mpr below, some⟩)
  · have most := reserved_le s.log.lh (insert (IBLOCK i s.sb) (fileMaps s.toFileSys i))
    have card := Finset.card_insert_le (IBLOCK i s.sb) (fileMaps s.toFileSys i)
    omega

end Rooms

/- The return value and the bytes of a read. -/
def delivered : Option (List Byte) → Int × List Byte
  | none => (-1, [])
  | some l => (l.length, l)

/- No block that a read of n bytes at off comes to is missing. -/
def NoGap (fs : FileSys) (i off n : Nat) : Prop :=
  ∀ bn, off / BSIZE ≤ bn → bn * BSIZE < off + n → bn * BSIZE < (fs.inodes i).size.toNat → place fs.disk fs.inodes (i, bn) ≠ 0

section Calls
variable {M : Mode FsEvent Fault} {s : FsState} {ip i off n : Nat} {src : Bytes}

theorem wp_readi_list (grants : Grants M) (h : Volume s.toFileSys) (here : Loaded s.toFileSys ip i)
    (plain : (s.icache ip).d.type ≠ T_DEV) (offset : off < 2 ^ 32) (length : n < 2 ^ 32)
    (room : NoGap s.toFileSys i off n ∨ LogRoom s.toFileSys (blocksOf off n)) :
    wp M (readi ip off n) (fun v t => Frame ip s t ∧ Volume t.toFileSys ∧ t.contents = s.contents ∧
      (v.1, (List.range v.1.toNat).map v.2) = delivered (readAt (s.contents i) off n)) s := by
  have inode := here.inodes h.cache
  have size := length_contents s.toFileSys i
  rw [inode] at size
  by_cases bad : (s.icache ip).d.size.toNat < off ∨ 2 ^ 32 ≤ off + n
  · have none : readAt (s.contents i) off n = none := if_pos (by rwa [size])
    rw [none]
    unfold readi
    refine wp_get_bind ?_
    have wraps : (s.icache ip).d.size.toNat < off ∨ (off + n) % 2 ^ 32 < off := by omega
    rw [if_neg plain, if_pos wraps]
    exact wp_pure ⟨.refl ip s, h, rfl, rfl⟩
  · have some : readAt (s.contents i) off n = some (((s.contents i).drop off).take n) := if_neg (by rwa [size])
    have start : off ≤ (s.icache ip).d.size.toNat := by omega
    have whole : off + n < 2 ^ 32 := by omega
    generalize count : min n ((s.icache ip).d.size.toNat - off) = m at *
    have fits : off + m ≤ (s.inodes i).size.toNat := by
      rw [inode]
      omega
    have piece : ((s.contents i).drop off).take n = ((s.contents i).drop off).take m := by
      have all : ((s.contents i).drop off).length = (s.icache ip).d.size.toNat - off := by rw [List.length_drop, size]
      rw [← count, ← all, ← List.take_eq_take_min]
    have result : ((m : Int), (List.range (m : Int).toNat).map (slice (fileByte s.disk s.inodes i) off m)) =
        delivered (readAt (s.contents i) off n) := by
      have length : (((s.contents i).drop off).take m).length = m := by
        rw [List.length_take, List.length_drop, size]
        omega
      rw [some, piece, Int.toNat_natCast, contents_slice fits]
      dsimp only [delivered]
      rw [length]
    rcases room with whole' | room
    · have there (bn : Nat) (low : off / BSIZE ≤ bn) (inside : bn * BSIZE < off + m) :
          bn < MAXFILE ∧ place s.disk s.inodes (i, bn) ≠ 0 := by
        have small := h.small i
        exact ⟨Nat.lt_of_mul_lt_mul_right (a := BSIZE) (by omega), whole' bn low (by omega) (by omega)⟩
      have disk := h.owned.formatted.disk
      have inside (x : Nat × Nat) : place s.disk s.inodes x < FSSIZE := by
        by_cases none : place s.disk s.inodes x = 0
        · rw [none]
          decide
        · have := h.owned.range x none
          omega
      have read : Ends (readi ip off m) s [] _ s := ends_readi plain (by rwa [← inode]) fun bn low start => by
        rw [← inode]
        obtain ⟨below, placed⟩ := there bn low start
        exact ⟨below, placed, inside (i, bn), fun _ => inside (i, MAXFILE)⟩
      rw [← inode, slice_placed there] at read
      refine wp_congr ((readi_min plain start whole).trans (by rw [count])) (wp_of_quiet read ?_)
      exact ⟨.refl ip s, h, rfl, result⟩
    · obtain ⟨Y, reserve⟩ := room.reserve (M := M) ip
      have most := blocksOf_most off n
      refine wp_mono (wp_readi grants h here plain start whole (by omega) reserve) ?_
      rintro v t ⟨extended, rfl⟩
      rw [count]
      exact ⟨extended.toFrame, extended.volume, extended.contents h here, result⟩

theorem wp_writei_list (grants : Grants M) (h : Volume s.toFileSys) (here : Loaded s.toFileSys ip i)
    (plain : (s.icache ip).d.type ≠ T_DEV) (offset : off < 2 ^ 32) (length : n < 2 ^ 32)
    (room : n = 0 ∨ LogRoom s.toFileSys (blocksOf off n)) :
    wp M (writei ip src off n) (fun v t => Frame ip s t ∧ Volume t.toFileSys ∧ Loaded t.toFileSys ip i ∧
      (t.icache ip).d.type = (s.icache ip).d.type ∧ freeBlocks t.disk t.sb <:+ freeBlocks s.disk s.sb ∧
      match writeAt (s.contents i) off ((List.range n).map src) with
      | none => v = -1 ∧ t.contents = s.contents
      | some l => v = n ∧ t.contents = update s.contents i l) s := by
  have inode := here.inodes h.cache
  have size := length_contents s.toFileSys i
  rw [inode] at size
  have count : ((List.range n).map src).length = n := by rw [List.length_map, List.length_range]
  by_cases bad : (s.icache ip).d.size.toNat < off ∨ 2 ^ 32 ≤ off + n ∨ MAXFILE * BSIZE < off + n
  · have none : writeAt (s.contents i) off ((List.range n).map src) = none := if_pos (by rwa [size, count])
    rw [none]
    unfold writei
    refine wp_get_bind ?_
    rw [if_neg plain]
    refine wp_ite (fun _ => ?_) fun starts => wp_ite (fun _ => ?_) fun fits => ?_
    · exact wp_pure ⟨.refl ip s, h, here, rfl, List.suffix_refl _, rfl, rfl⟩
    · exact wp_pure ⟨.refl ip s, h, here, rfl, List.suffix_refl _, rfl, rfl⟩
    · omega
  · have some : writeAt (s.contents i) off ((List.range n).map src) =
        some (overwrite (s.contents i) off ((List.range n).map src)) := if_neg (by rwa [size, count])
    have start : off ≤ (s.icache ip).d.size.toNat := by omega
    rw [some]
    rcases room with rfl | room
    · unfold writei
      refine wp_get_bind ?_
      rw [if_neg plain, if_neg (by rw [Nat.mod_eq_of_lt (by omega)]; omega), if_neg (by omega)]
      refine wp_pure ⟨.refl ip s, h, here, rfl, List.suffix_refl _, rfl, ?_⟩
      rw [List.range_zero, List.map_nil, overwrite_nil, Function.update_eq_self]
    · obtain ⟨Y, reserve⟩ := room.reserve (M := M) ip
      refine wp_mono (wp_writei grants h here plain start (by omega) (fun _ => blocksOf_most off n) reserve) ?_
      rintro v t ⟨rfl, stored⟩
      exact ⟨stored.toFrame, stored.volume, stored.loaded, by rw [stored.inode], stored.free, rfl,
        stored.contents h here start⟩

end Calls

section Small
variable {i r : Nat}

/- The inodes of the small image. -/
def smallInodes (i : Nat) : Dinode :=
  if i = 1 then smallRoot
  else if i = 2 then smallInode T_DIR 48 101
  else if i = 3 then smallInode T_FILE 5 102
  else .zero

theorem small_table : smallDisk mkfsSb.inodestart =
    putDinode (putDinode (putDinode zeros 1 smallRoot) 2 (smallInode T_DIR 48 101)) 3 (smallInode T_FILE 5 102) := rfl

theorem small_map : smallDisk mkfsSb.bmapstart = fun j => if j < 13 then 255 else 0 := rfl

theorem smallInodes_high (high : 3 < i) : smallInodes i = .zero := by
  unfold smallInodes
  rw [if_neg (by omega), if_neg (by omega), if_neg (by omega)]

theorem inodeOf_small (i : Nat) : inodeOf smallDisk mkfsSb i = smallInodes i := by
  unfold inodeOf
  by_cases known : i < mkfsSb.ninodes
  · have range : 1 < IBLOCK i mkfsSb ∧ IBLOCK i mkfsSb < 58 := formatted_mkfs.iblock known
    rw [if_pos known]
    by_cases first : i < IPB
    · have block : IBLOCK i mkfsSb = mkfsSb.inodestart := by
        unfold IBLOCK
        rw [Nat.div_eq_of_lt first, Nat.zero_add]
      rw [block, Nat.mod_eq_of_lt first, small_table]
      by_cases third : i = 3
      · rw [third, getDinode_putDinode]
        rfl
      rw [getDinode_putDinode_ne _ _ third]
      by_cases second : i = 2
      · rw [second, getDinode_putDinode]
        rfl
      rw [getDinode_putDinode_ne _ _ second]
      by_cases root : i = 1
      · rw [root, getDinode_putDinode]
        rfl
      rw [getDinode_putDinode_ne _ _ root, getDinode_zeros]
      unfold smallInodes
      rw [if_neg root, if_neg second, if_neg third]
    · have later : IBLOCK i mkfsSb ≠ mkfsSb.inodestart := by
        change ¬ i < 8 at first
        change i / 8 + 32 ≠ 32
        omega
      have blank : smallDisk (IBLOCK i mkfsSb) = zeros := by
        unfold smallDisk
        rw [if_neg (by omega), if_neg later, if_neg (by change _ ≠ 58; omega), if_neg (by omega), if_neg (by omega)]
      rw [blank, getDinode_zeros, smallInodes_high (by change ¬ i < 8 at first; omega)]
  · rw [if_neg known, smallInodes_high (by change ¬ i < 200 at known; omega)]

theorem placeOf_smallInode (disk : Nat → Block) (type : BitVec 16) (size r : Nat) {block : Nat} (small : block < 2 ^ 32) :
    placeOf disk (smallInode type size block) r = if r = 0 then block else 0 := by
  have none : (smallInode type size block).addrs indirect = 0 := rfl
  unfold placeOf
  rw [none]
  by_cases direct : r < NDIRECT
  · rw [if_pos direct]
    change r < 12 at direct
    by_cases first : r = 0
    · rw [first, if_pos rfl]
      exact (BitVec.toNat_ofNat _ _).trans (Nat.mod_eq_of_lt small)
    · have other : Fin.ofNat 13 r ≠ 0 := by
        intro same
        have number : r % 13 = 0 := congrArg Fin.val same
        omega
      rw [if_neg first]
      change (if Fin.ofNat 13 r = 0 then BitVec.ofNat 32 block else 0).toNat = 0
      rw [if_neg other]
      rfl
  · have later : r ≠ 0 := by
      change ¬ r < 12 at direct
      omega
    rw [if_neg direct, if_pos rfl, if_neg later]
    split
    · rfl
    · split <;> rfl

theorem place_small (disk : Nat → Block) (i r : Nat) :
    place disk smallInodes (i, r) = if r = 0 ∧ 1 ≤ i ∧ i ≤ 3 then 99 + i else 0 := by
  change placeOf disk (smallInodes i) r = _
  by_cases root : i = 1
  · rw [root]
    exact (placeOf_smallInode disk T_DIR 512 r (by decide)).trans (if_congr (by omega) rfl rfl)
  by_cases second : i = 2
  · rw [second]
    exact (placeOf_smallInode disk T_DIR 48 r (by decide)).trans (if_congr (by omega) rfl rfl)
  by_cases third : i = 3
  · rw [third]
    exact (placeOf_smallInode disk T_FILE 5 r (by decide)).trans (if_congr (by omega) rfl rfl)
  unfold smallInodes
  rw [if_neg root, if_neg second, if_neg third, placeOf_zero, if_neg (by omega)]

theorem live_small (i : Nat) : (smallInodes i).live = smallInodes i := by
  unfold smallInodes
  split
  · rfl
  · split
    · rfl
    · split <;> rfl

theorem used_small (low : r < 104) : used smallDisk mkfsSb r = true := by
  have first : BBLOCK r mkfsSb = mkfsSb.bmapstart := by
    change r / 4096 + 58 = 58
    omega
  unfold used
  rw [first, small_map, Nat.mod_eq_of_lt (by change r < 4096; omega)]
  unfold bit
  dsimp only
  rw [if_pos (by omega)]
  have all : ∀ i < 8, (255 : Byte).getLsbD i = true := by decide
  exact all _ (Nat.mod_lt _ (by omega))

theorem owned_small : Owned smallDisk mkfsSb smallInodes := by
  have range (x : Nat × Nat) (some : place smallDisk smallInodes x ≠ 0) :
      x.2 = 0 ∧ place smallDisk smallInodes x = 99 + x.1 ∧ 1 ≤ x.1 ∧ x.1 ≤ 3 := by
    obtain ⟨i, r⟩ := x
    rw [place_small] at some ⊢
    split at some
    · rename_i here
      rw [if_pos here]
      exact ⟨here.1, rfl, here.2⟩
    · exact absurd rfl some
  refine ⟨formatted_mkfs, decodeSb_encode_mkfs, fun x y some same => ?_, fun x some => ?_, fun x some => ?_,
    fun b low => used_small ?_⟩
  · obtain ⟨first, place, _⟩ := range x some
    obtain ⟨first', place', _⟩ := range y (by rwa [← same])
    exact Prod.ext (by omega) (first.trans first'.symm)
  · obtain ⟨-, place, low, high⟩ := range x some
    rw [place]
    change 83 ≤ _ ∧ _ < 100000
    omega
  · obtain ⟨-, place, low, high⟩ := range x some
    rw [place]
    exact used_small (by omega)
  · change b < 83 at low
    omega

/- The kernel over the small image, with the cache as on the disk. -/
theorem volume_small {fs : FileSys} (disk : fs.disk = smallDisk) (sb : fs.sb = mkfsSb) (cache : Cache fs)
    (clean : ∀ ip < NINODE, 0 < (fs.icache ip).ref → (fs.icache ip).valid = true →
      (fs.icache ip).d = smallInodes (fs.icache ip).inum) : Volume fs := by
  have inodes : fs.inodes = smallInodes := by
    rw [inodes_clean fun ip inside held valid => by rw [clean ip inside held valid, disk, sb, inodeOf_small], disk, sb]
    exact funext fun i => by rw [inodeOf_small, live_small]
  refine ⟨?_, cache, fun i => ?_⟩
  · rw [disk, sb, inodes]
    exact owned_small
  · rw [inodes]
    unfold smallInodes
    split
    · decide
    · split
      · decide
      · split <;> decide

end Small

end Fs

end Xv6c

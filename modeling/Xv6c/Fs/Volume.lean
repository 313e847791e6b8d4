import Xv6c.Fs.Places

/-! Who owns which block: every block in the map of an inode is a data block, is marked in
the free map, and stands at one position of one inode. -/
namespace Xv6c.Fs
open Lib
open Function (update update_self update_of_ne)

structure Owned (disk : Nat → Block) (sb : Superblock) (ino : Nat → Dinode) : Prop where
  formatted : Formatted sb
  super : decodeSb (disk 1) = sb
  apart : Apart (place disk ino)
  range : ∀ x, place disk ino x ≠ 0 → dataStart sb ≤ place disk ino x ∧ place disk ino x < sb.size
  marked : ∀ x, place disk ino x ≠ 0 → used disk sb (place disk ino x) = true
  fixed : ∀ b < dataStart sb, used disk sb b = true

section Marks
variable {disk : Nat → Block} {sb : Superblock} {b c : Nat}

theorem same_bit (block : BBLOCK c sb = BBLOCK b sb) : c % BPB = b % BPB ↔ c = b := by
  have quotient : c / BPB = b / BPB := Nat.add_right_cancel block
  constructor
  · intro same
    rw [← Nat.div_add_mod c BPB, ← Nat.div_add_mod b BPB, quotient, same]
  · rintro rfl
    rfl

theorem used_mark : used (update disk (BBLOCK b sb) (setBit (disk (BBLOCK b sb)) (b % BPB))) sb c =
    (used disk sb c || decide (c = b)) := by
  unfold used
  by_cases block : BBLOCK c sb = BBLOCK b sb
  · rw [block, update_self, bit_setBit, decide_eq_decide.mpr (same_bit block)]
  · have other : c ≠ b := fun same => block (same ▸ rfl)
    rw [update_of_ne block, decide_eq_false other, Bool.or_false]

theorem used_clear : used (update disk (BBLOCK b sb) (clearBit (disk (BBLOCK b sb)) (b % BPB))) sb c =
    (used disk sb c && !decide (c = b)) := by
  unfold used
  by_cases block : BBLOCK c sb = BBLOCK b sb
  · rw [block, update_self, bit_clearBit, decide_eq_decide.mpr (same_bit block)]
  · have other : c ≠ b := fun same => block (same ▸ rfl)
    rw [update_of_ne block, decide_eq_false other, Bool.not_false, Bool.and_true]

end Marks

section Owned
variable {disk disk' : Nat → Block} {sb : Superblock} {ino ino' : Nat → Dinode} {b r i : Nat} {v : Block}

theorem Formatted.start (h : Formatted sb) : 1 < sb.inodestart ∧ sb.inodestart < sb.bmapstart ∧
    sb.bmapstart < dataStart sb :=
  ⟨h.super, Nat.lt_of_le_of_lt (Nat.le_add_right _ _) h.inodes, Nat.lt_succ_of_le (Nat.le_add_right _ _)⟩

theorem Owned.free_of_low (h : Owned disk sb ino) (low : b < dataStart sb) (x : Nat × Nat)
    (placed : place disk ino x ≠ 0) : place disk ino x ≠ b := by
  have range := (h.range x placed).1
  omega

theorem Owned.free_of_unused (h : Owned disk sb ino) (unused : used disk sb b = false) (x : Nat × Nat)
    (placed : place disk ino x ≠ 0) : place disk ino x ≠ b := by
  rintro rfl
  rw [h.marked x placed] at unused
  exact nomatch unused

theorem Owned.low_of_unused (h : Owned disk sb ino) (unused : used disk sb b = false) : dataStart sb ≤ b := by
  by_contra low
  rw [h.fixed b (by omega)] at unused
  exact nomatch unused

/- Blocks in no map of an inode. -/
theorem place_off (disk' : Nat → Block) (free : ∀ x, place disk ino x ≠ 0 → disk' (place disk ino x) = disk (place disk ino x)) :
    place disk' ino = place disk ino ∧ fileBlock disk' ino = fileBlock disk ino := by
  have same : place disk' ino = place disk ino := by
    funext ⟨j, q⟩
    exact congrFun (placeOf_congr rfl fun some => free (j, MAXFILE) (toNat_ne_zero some)) q
  refine ⟨same, fileBlock_congr fun j q _ => stored_congr (congrFun same _) (free _)⟩

/- What the disk must still say of the blocks for Owned to stay. -/
theorem Owned.change (h : Owned disk sb ino) (super : decodeSb (disk' 1) = decodeSb (disk 1))
    (apart : Apart (place disk' ino'))
    (placed : ∀ x, place disk' ino' x ≠ 0 → dataStart sb ≤ place disk' ino' x ∧ place disk' ino' x < sb.size ∧
      used disk' sb (place disk' ino' x) = true)
    (fixed : ∀ b < dataStart sb, used disk' sb b = true) : Owned disk' sb ino' :=
  ⟨h.formatted, super.trans h.super, apart, fun x some => ⟨(placed x some).1, (placed x some).2.1⟩,
    fun x some => (placed x some).2.2, fixed⟩

theorem used_beside (inside : b < sb.size) {c : Nat} (map : c < sb.bmapstart ∨ dataStart sb ≤ c) :
    used (update disk c v) sb b = used disk sb b := by
  refine used_congr inside fun d low high => update_of_ne ?_ _ _
  omega

/- A change of a block that is neither in the map of an inode nor in the free map. -/
theorem Owned.beside (h : Owned disk sb ino) (super : b ≠ 1) (map : b < sb.bmapstart ∨ dataStart sb ≤ b)
    (free : ∀ x, place disk ino x ≠ 0 → place disk ino x ≠ b) : Owned (update disk b v) sb ino ∧
      place (update disk b v) ino = place disk ino ∧ fileBlock (update disk b v) ino = fileBlock disk ino := by
  obtain ⟨same, data⟩ := place_off (update disk b v) fun x some => update_of_ne (free x some) _ _
  refine ⟨h.change (by rw [update_of_ne super.symm]) (same ▸ h.apart) (fun x some => ?_) fun c low => ?_, same, data⟩
  · rw [same] at some ⊢
    obtain ⟨low, high⟩ := h.range x some
    exact ⟨low, high, (used_beside high map).trans (h.marked x some)⟩
  · have top := h.formatted.data
    exact (used_beside (by omega) map).trans (h.fixed c low)

/- A change of the free map. -/
theorem Owned.remark (h : Owned disk sb ino) {c : Nat} (inside : c < sb.size)
    (kept : ∀ b, used disk sb b = true → (∃ x, place disk ino x ≠ 0 ∧ place disk ino x = b) ∨ b < dataStart sb →
      used (update disk (BBLOCK c sb) v) sb b = true) :
    Owned (update disk (BBLOCK c sb) v) sb ino ∧ place (update disk (BBLOCK c sb) v) ino = place disk ino ∧
      fileBlock (update disk (BBLOCK c sb) v) ino = fileBlock disk ino := by
  obtain ⟨low, high⟩ := bblock_range inside
  obtain ⟨super, first, _⟩ := h.formatted.start
  obtain ⟨same, data⟩ := place_off (update disk (BBLOCK c sb) v) fun x some =>
    update_of_ne (h.free_of_low high x some) _ _
  refine ⟨h.change ?_ (same ▸ h.apart) (fun x some => ?_) fun b low => ?_, same, data⟩
  · rw [update_of_ne (by omega)]
  · rw [same] at some ⊢
    obtain ⟨low, high⟩ := h.range x some
    exact ⟨low, high, kept _ (h.marked x some) (Or.inl ⟨x, some, rfl⟩)⟩
  · exact kept b (h.fixed b low) (Or.inr low)

/- bfree of a block that is in no map. -/
theorem Owned.clear (h : Owned disk sb ino) (inside : b < sb.size) (data : dataStart sb ≤ b)
    (free : ∀ x, place disk ino x ≠ 0 → place disk ino x ≠ b) :
    Owned (update disk (BBLOCK b sb) (clearBit (disk (BBLOCK b sb)) (b % BPB))) sb ino ∧
      place (update disk (BBLOCK b sb) (clearBit (disk (BBLOCK b sb)) (b % BPB))) ino = place disk ino ∧
      fileBlock (update disk (BBLOCK b sb) (clearBit (disk (BBLOCK b sb)) (b % BPB))) ino = fileBlock disk ino := by
  refine h.remark inside fun c marked cases => ?_
  have other : c ≠ b := by
    rcases cases with ⟨x, some, rfl⟩ | low
    · exact free x some
    · omega
  rw [used_clear, marked, decide_eq_false other]
  rfl

/- The disk behind balloc: block b marked, and filled with zeros. -/
def allocate (disk : Nat → Block) (sb : Superblock) (b : Nat) : Nat → Block :=
  update (update disk (BBLOCK b sb) (setBit (disk (BBLOCK b sb)) (b % BPB))) b zeros

structure Allocated (disk : Nat → Block) (sb : Superblock) (ino : Nat → Dinode) (b : Nat) : Prop where
  owned : Owned (allocate disk sb b) sb ino
  places : place (allocate disk sb b) ino = place disk ino
  blocks : fileBlock (allocate disk sb b) ino = fileBlock disk ino
  marked : ∀ c < sb.size, used (allocate disk sb b) sb c = (used disk sb c || decide (c = b))
  low : dataStart sb ≤ b
  free : ∀ x, place disk ino x ≠ b

theorem Owned.allocate (h : Owned disk sb ino) (inside : b < sb.size) (unused : used disk sb b = false) :
    Allocated disk sb ino b := by
  have low := h.low_of_unused unused
  obtain ⟨super, first, last⟩ := h.formatted.start
  obtain ⟨owned, places, blocks⟩ := h.remark (v := setBit (disk (BBLOCK b sb)) (b % BPB)) inside fun c marked _ => by
    rw [used_mark, marked]
    rfl
  have free (x : Nat × Nat) (some : place disk ino x ≠ 0) : place disk ino x ≠ b := h.free_of_unused unused x some
  obtain ⟨owned', places', blocks'⟩ := owned.beside (v := zeros) (b := b) (by omega) (Or.inr low) (by rwa [places])
  refine ⟨owned', places'.trans places, blocks'.trans blocks, fun c inside => ?_, low, fun x same => ?_⟩
  · exact (used_beside inside (Or.inr low)).trans used_mark
  · exact free x (by omega) same

theorem allocate_self : Fs.allocate disk sb b b = zeros := update_self _ _ _

/- A block in no map is put into one. -/
theorem Owned.give {x : Nat × Nat} (h : Owned disk sb ino) (super : disk' 1 = disk 1)
    (marks : ∀ c < sb.size, used disk' sb c = used disk sb c)
    (placed : place disk' ino' = update (place disk ino) x b) (low : dataStart sb ≤ b) (inside : b < sb.size)
    (marked : used disk sb b = true) (free : ∀ x, place disk ino x ≠ b) : Owned disk' sb ino' := by
  refine h.change (by rw [super]) ?_ (fun y some => ?_) fun c low => ?_
  · rw [placed]
    exact h.apart.update free x
  · rw [placed, Function.update_apply] at some ⊢
    split
    · exact ⟨low, inside, (marks b inside).trans marked⟩
    · rename_i elsewhere
      rw [if_neg elsewhere] at some
      obtain ⟨low, high⟩ := h.range y some
      exact ⟨low, high, (marks _ high).trans (h.marked y some)⟩
  · have top := h.formatted.data
    exact (marks c (by omega)).trans (h.fixed c low)

/- Blocks are taken out of the maps. -/
theorem Owned.shrink (h : Owned disk sb ino)
    (less : ∀ x, place disk ino' x = place disk ino x ∨ place disk ino' x = 0) : Owned disk sb ino' := by
  have same {x : Nat × Nat} (some : place disk ino' x ≠ 0) : place disk ino' x = place disk ino x :=
    (less x).resolve_right some
  refine h.change rfl (fun x y some equal => ?_) (fun x some => ?_) h.fixed
  · have other : place disk ino' y ≠ 0 := equal ▸ some
    have before := same some
    rw [before] at some equal
    exact h.apart x y some (equal.trans (same other))
  · have before := same some
    rw [before] at some ⊢
    exact ⟨(h.range x some).1, (h.range x some).2, h.marked x some⟩

/- A write to the data of a file. -/
theorem Owned.write (h : Owned disk sb ino) (below : r < MAXFILE) (some : place disk ino (i, r) ≠ 0) :
    Owned (update disk (place disk ino (i, r)) v) sb ino := by
  obtain ⟨low, high⟩ := h.range _ some
  obtain ⟨super, first, last⟩ := h.formatted.start
  have same := (write_data (v := v) h.apart below some).1
  refine h.change (by rw [update_of_ne (by omega)]) (by rw [same]; exact h.apart) (fun x placed => ?_)
    fun c low' => ?_
  · rw [same] at placed ⊢
    obtain ⟨low', high'⟩ := h.range x placed
    exact ⟨low', high', (used_beside high' (Or.inr low)).trans (h.marked x placed)⟩
  · have top := h.formatted.data
    exact (used_beside (by omega) (Or.inr low)).trans (h.fixed c low')

end Owned

end Xv6c.Fs

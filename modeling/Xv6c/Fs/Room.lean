import Mathlib.Data.Finset.Card
import Xv6c.Log.Cache
import Xv6c.Fs.View

/-! Room in the log. A call that may write the blocks in Y, and k others, finds room for
them; log_write of a block that is in the log already takes none. -/
namespace Xv6c.Fs
open Lib
open Function (update update_self update_of_ne)

section Reserved
variable {lh : List Nat} {Y : Finset Nat} {b : Nat}

/- The length of the log once all of Y is in it. -/
def reserved (lh : List Nat) (Y : Finset Nat) : Nat := lh.length + (Y.filter (· ∉ lh)).card

theorem length_le_reserved (lh : List Nat) (Y : Finset Nat) : lh.length ≤ reserved lh Y := Nat.le_add_right _ _

theorem reserved_absorb (inside : b ∈ Y) : reserved (Log.absorb lh b) Y = reserved lh Y := by
  rw [Log.absorb_eq]
  by_cases there : b ∈ lh
  · rw [if_pos there]
  · have erased : Y.filter (· ∉ lh ++ [b]) = (Y.filter (· ∉ lh)).erase b := by
      ext c
      simp only [Finset.mem_filter, Finset.mem_erase, List.mem_append, List.mem_singleton]
      tauto
    have counted : b ∈ Y.filter (· ∉ lh) := Finset.mem_filter.mpr ⟨inside, there⟩
    have positive := Finset.card_pos.mpr ⟨b, counted⟩
    unfold reserved
    rw [if_neg there, erased, Finset.card_erase_of_mem counted, List.length_append, List.length_singleton]
    omega

theorem reserved_insert (lh : List Nat) (Y : Finset Nat) (b : Nat) :
    reserved lh (insert b Y) ≤ reserved lh Y + 1 := by
  unfold reserved
  rw [Finset.filter_insert]
  split
  · exact Nat.add_le_add_left (Finset.card_insert_le _ _) _
  · omega

end Reserved

def outside : String := "log_write outside of trans"

/- log_write takes the blocks in Y and k others, unless its panics are admitted. -/
def Room (M : Mode FsEvent Fault) (l : Log.LogStruct) (Y : Finset Nat) (k : Nat) : Prop :=
  (M.fails (.panic Log.tooBig) ∨ reserved l.lh Y + k < min LOGSIZE (l.size - 1)) ∧
    (M.fails (.panic outside) ∨ 0 < l.outstanding)

def FsState.logged (s : FsState) (b : Nat) (v : Block) : FsState :=
  { s with
    disk := update s.disk b v
    log := { s.log with lh := Log.absorb s.log.lh b } }

section Room
variable {M : Mode FsEvent Fault} {l : Log.LogStruct} {s : FsState} {Y : Finset Nat} {b k : Nat} {v : Block}

theorem Room.take (room : Room M l Y (k + 1)) (b : Nat) : Room M l (insert b Y) k := by
  refine ⟨room.1.imp_right fun less => ?_, room.2⟩
  have more := reserved_insert l.lh Y b
  omega

theorem Room.less {k' : Nat} (room : Room M l Y k) (less : k' ≤ k) : Room M l Y k' :=
  ⟨room.1.imp_right fun _ => by omega, room.2⟩

theorem wp_logWrite (room : Room M s.log Y k) (inside : b ∈ Y) (owed : M.owes (.logged b)) :
    wp M (logWrite b v) (fun _ t => t = s.logged b v ∧ Room M t.log Y k) s := by
  unfold logWrite
  refine wp_get_bind (wp_ite (fun full => ?_) fun roomy => wp_ite (fun none => ?_) fun some => ?_)
  · refine wp_fault (room.1.resolve_right fun less => ?_)
    have length := length_le_reserved s.log.lh Y
    have full : s.log.lh.length ≥ LOGSIZE ∨ s.log.lh.length ≥ s.log.size - 1 := of_decide_eq_true full
    omega
  · exact wp_fault (room.2.resolve_right (by omega))
  · refine wp_emit_bind fun _ => ⟨owed, wp_modify ⟨rfl, ?_⟩⟩
    refine ⟨room.1.imp_right fun less => ?_, room.2⟩
    change reserved (Log.absorb s.log.lh b) Y + k < _
    rwa [reserved_absorb inside]

end Room

/- The free blocks in the order in which balloc takes them. -/
def freeBlocks (disk : Nat → Block) (sb : Superblock) : List Nat :=
  (List.range sb.size).filter fun b => !used disk sb b

section Free
variable {disk disk' : Nat → Block} {sb : Superblock} {b c : Nat}

theorem freeBlocks_from (below : b ≤ sb.size) (low : ∀ c < b, used disk sb c = true) :
    freeBlocks disk sb = (List.range' b (sb.size - b)).filter fun c => !used disk sb c := by
  have split : List.range sb.size = List.range' 0 b ++ List.range' b (sb.size - b) := by
    have pieces : List.range' 0 b ++ List.range' (0 + b) (sb.size - b) = List.range' 0 (b + (sb.size - b)) :=
      List.range'_append_1
    rw [Nat.zero_add, Nat.add_sub_cancel' below] at pieces
    rw [List.range_eq_range', pieces]
  have none : (List.range' 0 b).filter (fun c => !used disk sb c) = [] := by
    refine List.filter_eq_nil_iff.mpr fun c inside => ?_
    rw [low c (by have := List.mem_range'_1.mp inside; omega)]
    exact Bool.false_ne_true
  rw [freeBlocks, split, List.filter_append, none, List.nil_append]

/- The first free block is taken. -/
theorem freeBlocks_take (inside : b < sb.size) (low : ∀ c < b, used disk sb c = true) (free : used disk sb b = false)
    (marks : ∀ c < sb.size, used disk' sb c = (used disk sb c || decide (c = b))) :
    freeBlocks disk sb = b :: freeBlocks disk' sb := by
  have after : ∀ c < b + 1, used disk' sb c = true := by
    intro c less
    rw [marks c (by omega)]
    rcases Nat.lt_succ_iff_lt_or_eq.mp less with earlier | rfl
    · rw [low c earlier]
      rfl
    · rw [decide_eq_true rfl, Bool.or_true]
  have more : sb.size - b = sb.size - (b + 1) + 1 := by omega
  rw [freeBlocks_from (Nat.le_of_lt inside) low, freeBlocks_from inside after, more, List.range'_succ,
    List.filter_cons_of_pos (by rw [free]; rfl)]
  refine congrArg _ (List.filter_congr fun c later => ?_)
  have later := List.mem_range'_1.mp later
  rw [marks c (by omega), decide_eq_false (by omega), Bool.or_false]

end Free

end Xv6c.Fs

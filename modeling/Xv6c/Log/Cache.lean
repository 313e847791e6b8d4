import Xv6c.Log.Model

/-! What the log may assume of the buffer cache: the invariants of log.c speak of
the disk, of the contents bread delivers and of the dirty flags only, so buffers
that come and go never disturb them. -/
namespace Xv6c.Log
open Lib
open Function (update)

@[simp] theorem view_bread (m : Machine) (b : Nat) : view (bread m b) = view m := by
  funext c
  obtain rfl | h := eq_or_ne c b <;> simp [view, bread, *]

@[simp] theorem dirty_bread (m : Machine) (b : Nat) : dirty (bread m b) = dirty m := by
  funext c
  obtain rfl | h := eq_or_ne c b <;> simp [dirty, bread, *]

@[simp] theorem disk_bread (m : Machine) (b : Nat) : (bread m b).disk = m.disk := rfl
@[simp] theorem log_bread (m : Machine) (b : Nat) : (bread m b).log = m.log := rfl
@[simp] theorem pc_bread (m : Machine) (b : Nat) : (bread m b).pc = m.pc := rfl
@[simp] theorem sections_bread (m : Machine) (b : Nat) : (bread m b).sections = m.sections := rfl
@[simp] theorem calls_bread (m : Machine) (b : Nat) : (bread m b).calls = m.calls := rfl

@[simp] theorem view_bwrite (m : Machine) (b : Nat) (v : Block) :
    view (bwrite m b v) = update (view m) b v := by
  funext c
  obtain rfl | h := eq_or_ne c b <;> simp [view, bwrite, *]

@[simp] theorem dirty_bwrite (m : Machine) (b : Nat) (v : Block) :
    dirty (bwrite m b v) = update (dirty m) b false := by
  funext c
  obtain rfl | h := eq_or_ne c b <;> simp [dirty, bwrite, *]

@[simp] theorem disk_bwrite (m : Machine) (b : Nat) (v : Block) :
    (bwrite m b v).disk = update m.disk b v := rfl
@[simp] theorem log_bwrite (m : Machine) (b : Nat) (v : Block) : (bwrite m b v).log = m.log := rfl
@[simp] theorem sections_bwrite (m : Machine) (b : Nat) (v : Block) :
    (bwrite m b v).sections = m.sections := rfl
@[simp] theorem calls_bwrite (m : Machine) (b : Nat) (v : Block) :
    (bwrite m b v).calls = m.calls := rfl

theorem view_record (m : Machine) (p b : Nat) (v : Block) :
    view (record m p b v) = update (view m) b v := by
  funext c
  obtain rfl | h := eq_or_ne c b <;> simp [view, record, *]

theorem dirty_record (m : Machine) (p b : Nat) (v : Block) :
    dirty (record m p b v) = update (dirty m) b true := by
  funext c
  obtain rfl | h := eq_or_ne c b <;> simp [dirty, record, *]

/- The fields that a machine's behaviour is judged by; everything but the cache
itself. -/
structure SameFor (m n : Machine) : Prop where
  disk : n.disk = m.disk
  view : view n = view m
  dirty : dirty n = dirty m
  log : n.log = m.log
  pc : n.pc = m.pc
  sections : n.sections = m.sections
  calls : n.calls = m.calls

theorem sameFor_bread (m : Machine) (b : Nat) : SameFor m (bread m b) := by
  constructor <;> simp

theorem sameFor_evict {m : Machine} {b : Nat} (clean : dirty m b = false)
    (agrees : view m b = m.disk b) : SameFor m { m with cache := update m.cache b none } := by
  refine ⟨rfl, ?_, ?_, rfl, rfl, rfl, rfl⟩
  · funext c
    obtain rfl | h := eq_or_ne c b
    · rw [agrees]; simp [view]
    · simp [view, h]
  · funext c
    obtain rfl | h := eq_or_ne c b
    · rw [clean]; simp [dirty]
    · simp [dirty, h]

theorem absorb_eq (lh : List Nat) (b : Nat) : absorb lh b = if b ∈ lh then lh else lh ++ [b] := by
  unfold absorb
  by_cases h : b ∈ lh
  · have found : lh.findIdx (fun x => x == b) < lh.length :=
      List.findIdx_lt_length_of_exists ⟨b, h, by simp⟩
    have same : lh[lh.findIdx (fun x => x == b)] = b := by
      simpa using List.findIdx_getElem (w := found)
    rw [if_pos h, if_neg (Nat.ne_of_lt found)]
    apply List.ext_getElem
    · simp
    · intro i _ hi
      rw [List.getElem_set]
      split
      · rename_i e
        subst e
        exact same.symm
      · rfl
  · have missing : lh.findIdx (fun x => x == b) = lh.length := by
      apply List.findIdx_eq_length.mpr
      intro x hx
      simp only [beq_eq_false_iff_ne]
      rintro rfl
      exact h hx
    rw [if_neg h, if_pos missing]

theorem mem_absorb {lh : List Nat} {b c : Nat} : c ∈ absorb lh b ↔ c ∈ lh ∨ c = b := by
  rw [absorb_eq]
  split
  · constructor
    · exact Or.inl
    · rintro (h | rfl) <;> assumption
  · simp

theorem length_absorb_le (lh : List Nat) (b : Nat) : (absorb lh b).length ≤ lh.length + 1 := by
  rw [absorb_eq]
  split <;> simp

end Xv6c.Log

import Xv6c.Lib.Footprint
import Xv6c.Mem.Vm

/-! The pages of an address space: its directory, its page tables and the pages they
map below KERNBASE. -/
namespace Xv6c.Mem
open Lib
open Function (update update_of_ne update_self)

theorem ptePage_mkPte {page : Nat} (flags : BitVec 12) (small : page < 2 ^ 20) :
    ptePage (mkPte page flags) = page := by
  have high : (mkPte page flags).extractLsb' 12 20 = BitVec.ofNat 20 page := by
    ext i hi
    simp only [mkPte, BitVec.getElem_extractLsb', BitVec.getLsbD_append]
    simp [hi]
  rw [ptePage, high, BitVec.toNat_ofNat, Nat.mod_eq_of_lt small]

theorem pteFlags_mkPte (page : Nat) (flags : BitVec 12) : pteFlags (mkPte page flags) = flags := by
  ext i hi
  simp only [pteFlags, mkPte, BitVec.getElem_extractLsb', BitVec.getLsbD_append]
  simp [hi]

theorem present_mkPte (page : Nat) (flags : BitVec 12) :
    present (mkPte page flags) = flags.getLsbD 0 := by
  rw [present, pteFlags_mkPte]

@[simp] theorem present_zero : present 0#32 = false := by decide

/- The page that an entry refers to. -/
def single (w : BitVec 32) : Multiset Nat := if present w then {ptePage w} else 0

/- The indices of a table, and those of the directory that map user memory. -/
@[irreducible] def indices : Finset Nat := Finset.range 1024
@[irreducible] def lower : Finset Nat := Finset.range 512

variable {i : Nat}

theorem mem_indices : i ∈ indices ↔ i < 1024 := by
  unfold indices
  exact Finset.mem_range

theorem mem_lower : i ∈ lower ↔ i < 512 := by
  unfold lower
  exact Finset.mem_range

/- The pages that the entries of a table refer to. -/
def refs (b : Bytes) : Multiset Nat := ∑ i ∈ indices, single (word b i)

def users (m : Nat → Bytes) (d : Nat) : Multiset Nat :=
  ∑ i ∈ lower, if present (word (m d) i) then refs (m (ptePage (word (m d) i))) else 0

def space (m : Nat → Bytes) (d : Nat) : Multiset Nat := {d} + refs (m d) + users m d

/- The entry for virtual page v; a missing page table counts as one without entries. -/
def pte (m : Nat → Bytes) (d v : Nat) : BitVec 32 :=
  if present (word (m d) (v / 1024)) then word (m (ptePage (word (m d) (v / 1024)))) (v % 1024)
  else 0

theorem pte_entry {m : Nat → Bytes} {d v : Nat} (entry : present (word (m d) (v / 1024))) :
    word (m (ptePage (word (m d) (v / 1024)))) (v % 1024) = pte m d v := (if_pos entry).symm

@[simp] theorem single_zero : single 0#32 = 0 := by simp [single]

theorem refs_zeros : refs zeros = 0 := by simp [refs]

theorem mem_refs {b : Bytes} (index : i < 1024) (entry : present (word b i)) : ptePage (word b i) ∈ refs b :=
  Multiset.mem_sum.mpr ⟨i, mem_indices.mpr index, by simp [single, entry]⟩

theorem refs_setWord (b : Bytes) (index : i < 1024) (w : BitVec 32) :
    refs (setWord b i w) + single (word b i) = refs b + single w := by
  have inside : i ∈ indices := mem_indices.mpr index
  have rest : ∑ j ∈ indices.erase i, single (word (setWord b i w) j) =
      ∑ j ∈ indices.erase i, single (word b j) := by
    refine Finset.sum_congr rfl fun j hj => ?_
    rw [word_setWord_ne b w (Finset.ne_of_mem_erase hj)]
  have new := Finset.add_sum_erase _ (fun j => single (word (setWord b i w) j)) inside
  have old := Finset.add_sum_erase _ (fun j => single (word b j)) inside
  rw [refs, refs, ← new, ← old, word_setWord_self, rest]
  ac_rfl

/- Two entries of a table never refer to the same page when it is held once. -/
theorem refs_apart {b : Bytes} (once : (refs b).Nodup) {j : Nat} (hi : i < 1024) (hj : j < 1024) (apart : i ≠ j)
    (pi : present (word b i)) (pj : present (word b j)) : ptePage (word b i) ≠ ptePage (word b j) := by
  intro same
  refine apart (parts_apart once (mem_indices.mpr hi) (mem_indices.mpr hj)
    (x := ptePage (word b i)) ?_ ?_)
  · simp [single, pi]
  · simp [single, pj, same]

variable {m : Nat → Bytes} {d : Nat}

/- The directory and the tables alone decide what is mapped. -/
theorem space_congr {n : Nat → Bytes} (same : ∀ p ∈ {d} + refs (m d), n p = m p) : space n d = space m d := by
  have dir : n d = m d := same d (by simp)
  simp only [space, users, dir]
  congr 1
  refine Finset.sum_congr rfl fun i hi => ?_
  split
  · rename_i entry
    have index : i < 1024 := (mem_lower.mp hi).trans (by omega)
    rw [same _ (by simp [mem_refs index entry])]
  · rfl

variable {v : Nat}

theorem pte_congr {n : Nat → Bytes} (same : ∀ p ∈ {d} + refs (m d), n p = m p) (page : v < 2 ^ 20) :
    pte n d v = pte m d v := by
  have dir : n d = m d := same d (by simp)
  simp only [pte, dir]
  split
  · rename_i entry
    rw [same _ (by simp [mem_refs (show v / 1024 < 1024 by omega) entry])]
  · rfl

theorem space_local (d : Nat) : Local (fun m => space m d) :=
  fun _ _ same => space_congr fun p hp => same p (Multiset.mem_add.mpr (Or.inl hp))

section Update

variable {m : Nat → Bytes} {d : Nat} (once : ({d} + refs (m d)).Nodup)
include once

theorem dir_notMem : d ∉ refs (m d) := by
  simpa using (Multiset.nodup_add.mp once).2.2

variable {i : Nat}

theorem table_ne_dir (index : i < 1024) (entry : present (word (m d) i)) : ptePage (word (m d) i) ≠ d := by
  intro same
  have member := mem_refs index entry
  rw [same] at member
  exact dir_notMem once member

variable {j : Nat}

/- Entry j of table i is overwritten with w. -/
theorem users_setPte (hi : i < 1024) (hj : j < 1024) (entry : present (word (m d) i)) (w : BitVec 32) :
    let t := ptePage (word (m d) i)
    let n := update m t (setWord (m t) j w)
    n d = m d ∧ users n d + (if i < 512 then single (word (m t) j) else 0) =
      users m d + (if i < 512 then single w else 0) := by
  intro t n
  have dir : n d = m d := update_of_ne (Ne.symm (table_ne_dir once hi entry)) _ _
  refine ⟨dir, ?_⟩
  have tables := (Multiset.nodup_add.mp once).2.1
  have others (k : Nat) (hk : k < 512) (ne : k ≠ i) :
      (if present (word (m d) k) then refs (n (ptePage (word (m d) k))) else 0) =
        if present (word (m d) k) then refs (m (ptePage (word (m d) k))) else 0 := by
    split
    · rename_i other
      have apart := refs_apart tables (by omega) hi ne other entry
      rw [show n (ptePage (word (m d) k)) = m (ptePage (word (m d) k)) from
        update_of_ne apart _ _]
    · rfl
  by_cases low : i < 512
  · have inside : i ∈ lower := mem_lower.mpr low
    have changed := refs_setWord (m t) hj w
    have new := Finset.add_sum_erase _
      (fun k => if present (word (m d) k) then refs (n (ptePage (word (m d) k))) else 0) inside
    have old := Finset.add_sum_erase _
      (fun k => if present (word (m d) k) then refs (m (ptePage (word (m d) k))) else 0) inside
    have rest := Finset.sum_congr (rfl : lower.erase i = lower.erase i) fun k hk =>
      others k (mem_lower.mp (Finset.mem_of_mem_erase hk)) (Finset.ne_of_mem_erase hk)
    simp only [users, dir, low, if_true]
    rw [← new, ← old, rest]
    simp only [entry, if_true]
    rw [show n (ptePage (word (m d) i)) = setWord (m t) j w from update_self _ _ _]
    rw [add_right_comm, changed]
    change refs (m t) + single w + _ = refs (m t) + _ + single w
    ac_rfl
  · simp only [users, dir, low, if_false, add_zero]
    exact Finset.sum_congr rfl fun k hk =>
      others k (mem_lower.mp hk) (fun h => low (h ▸ mem_lower.mp hk))

variable {t : Nat} {flags : BitVec 12}

/- A zeroed page t becomes the table of entry i. -/
theorem users_newTable (hi : i < 1024) (free : ¬ present (word (m d) i)) (apart : t ≠ d)
    (fresh : t ∉ refs (m d)) (small : t < 2 ^ 20) (valid : flags.getLsbD 0) :
    let n := update (update m t zeros) d
      (setWord ((update m t zeros) d) i (mkPte t flags))
    refs (n d) = refs (m d) + {t} ∧ users n d = users m d := by
  intro n
  have page : update m t zeros d = m d := update_of_ne (Ne.symm apart) _ _
  have dir : n d = setWord (m d) i (mkPte t flags) := by simp [n, page]
  have entry : single (mkPte t flags) = {t} := by
    simp [single, present_mkPte, valid, ptePage_mkPte flags small]
  constructor
  · have changed := refs_setWord (m d) hi (mkPte t flags)
    rw [dir]
    simpa [single, free, present_mkPte, valid, ptePage_mkPte flags small] using changed
  · refine Finset.sum_congr rfl fun k hk => ?_
    have index : k < 1024 := (mem_lower.mp hk).trans (by omega)
    rw [dir, word_setWord]
    by_cases h : k = i
    · subst h
      have table : n t = zeros := by simp [n, update_of_ne apart]
      simp [free, present_mkPte, valid, ptePage_mkPte flags small, table, refs_zeros]
    · rw [if_neg h]
      split
      · rename_i other
        have notNew : ptePage (word (m d) k) ≠ t := by
          rintro rfl
          exact fresh (mem_refs index other)
        have notDir := table_ne_dir once index other
        simp [n, update_of_ne notDir, update_of_ne notNew]
      · rfl

theorem space_setPte (hi : i < 1024) (hj : j < 1024) (entry : present (word (m d) i)) (w : BitVec 32) :
    let t := ptePage (word (m d) i)
    space (update m t (setWord (m t) j w)) d +
        (if i < 512 then single (word (m t) j) else 0) =
      space m d + (if i < 512 then single w else 0) := by
  intro t
  obtain ⟨dir, changed⟩ := users_setPte once hi hj entry w
  rw [space, space, dir, add_assoc, changed, add_assoc ({d} + refs (m d))]

theorem space_newTable (hi : i < 1024) (free : ¬ present (word (m d) i)) (apart : t ≠ d)
    (fresh : t ∉ refs (m d)) (small : t < 2 ^ 20) (valid : flags.getLsbD 0) :
    space (update (update m t zeros) d
      (setWord ((update m t zeros) d) i (mkPte t flags))) d = space m d + {t} := by
  obtain ⟨tables, mapped⟩ := users_newTable once hi free apart fresh small valid
  rw [space, space, tables, mapped]
  ac_rfl

theorem pte_setPte {v : Nat} (hi : i < 1024) (hj : j < 1024) (entry : present (word (m d) i)) (w : BitVec 32)
    (page : v < 2 ^ 20) : let t := ptePage (word (m d) i)
    pte (update m t (setWord (m t) j w)) d v =
      if v = i * 1024 + j then w else pte m d v := by
  intro t
  have dir : update m t (setWord (m t) j w) d = m d :=
    update_of_ne (Ne.symm (table_ne_dir once hi entry)) _ _
  simp only [pte, dir]
  by_cases here : v / 1024 = i
  · rw [here, if_pos entry, if_pos entry, update_self, word_setWord]
    have : v % 1024 = j ↔ v = i * 1024 + j := by omega
    simp only [this]
    rfl
  · rw [if_neg (show v ≠ i * 1024 + j by omega)]
    split
    · rename_i other
      have apart := refs_apart (Multiset.nodup_add.mp once).2.1 (by omega) hi here other entry
      rw [update_of_ne apart]
    · rfl

theorem pte_newTable {v : Nat} (free : ¬ present (word (m d) i)) (apart : t ≠ d) (fresh : t ∉ refs (m d))
    (small : t < 2 ^ 20) (valid : flags.getLsbD 0) (page : v < 2 ^ 20) :
    pte (update (update m t zeros) d
      (setWord ((update m t zeros) d) i (mkPte t flags))) d v = pte m d v := by
  have old : update m t zeros d = m d := update_of_ne (Ne.symm apart) _ _
  simp only [pte, update_self, old, word_setWord]
  by_cases here : v / 1024 = i
  · rw [if_pos here, here, if_neg free, present_mkPte, if_pos valid, ptePage_mkPte flags small,
      update_of_ne apart, update_self, word_zeros]
  · rw [if_neg here]
    split
    · rename_i other
      have notNew : ptePage (word (m d) (v / 1024)) ≠ t := by
        rintro rfl
        exact fresh (mem_refs (by omega) other)
      have notDir := table_ne_dir once (show v / 1024 < 1024 by omega) other
      rw [update_of_ne notDir, update_of_ne notNew]
    · rfl

end Update

/- The pages that a space maps below KERNBASE are among its pages. -/
theorem mem_users (low : v < 2 ^ 19) (mapped : present (pte m d v)) : ptePage (pte m d v) ∈ users m d := by
  unfold pte at mapped ⊢
  split
  · rename_i entry
    rw [if_pos entry] at mapped
    refine Multiset.mem_sum.mpr ⟨v / 1024, mem_lower.mpr (by omega), ?_⟩
    rw [if_pos entry]
    exact mem_refs (Nat.mod_lt _ (by omega)) mapped
  · rename_i missing
    rw [if_neg missing] at mapped
    simp at mapped

/- A page is mapped at one address below KERNBASE only. -/
theorem users_apart {w : Nat} (once : (users m d).Nodup) (hv : v < 2 ^ 19) (hw : w < 2 ^ 19)
    (pv : present (pte m d v)) (pw : present (pte m d w)) (same : ptePage (pte m d v) = ptePage (pte m d w)) :
    v = w := by
  have entry {u : Nat} (pu : present (pte m d u)) : present (word (m d) (u / 1024)) := by
    unfold pte at pu
    split at pu
    · assumption
    · simp at pu
  have member {u : Nat} (pu : present (pte m d u)) : ptePage (pte m d u) ∈
      if present (word (m d) (u / 1024)) then refs (m (ptePage (word (m d) (u / 1024)))) else 0 := by
    have here := entry pu
    rw [if_pos here]
    rw [pte, if_pos here] at pu ⊢
    exact mem_refs (Nat.mod_lt _ (by decide)) pu
  have low {u : Nat} (hu : u < 2 ^ 19) : u / 1024 ∈ lower := mem_lower.mpr (by omega)
  have table : v / 1024 = w / 1024 := parts_apart once (low hv) (low hw) (member pv) (same ▸ member pw)
  by_contra apart
  have columns : v % 1024 ≠ w % 1024 := by omega
  have left := entry pv
  have right := entry pw
  have tableOnce := nodup_part once (low hv)
  rw [if_pos left] at tableOnce
  rw [pte, if_pos left] at same pv
  rw [pte, if_pos right, ← table] at same pw
  exact refs_apart tableOnce (Nat.mod_lt _ (by decide)) (Nat.mod_lt _ (by decide)) columns pv pw same

end Xv6c.Mem

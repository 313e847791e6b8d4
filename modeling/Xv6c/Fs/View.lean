import Mathlib.Data.List.Find
import Xv6c.Fs.Inode
import Xv6c.Fs.Volume

/-! The inodes as the kernel has them: the copy in the inode cache, if one is loaded, or
else the inode on the disk. Of a free inode nothing is left. -/
namespace Xv6c
open Lib Fs
open Function (update update_self update_of_ne)

def Fs.Dinode.live (d : Dinode) : Dinode := if d.type = 0 then .zero else d

/- Slot ip has a copy of inode i. -/
def FileSys.Holds (fs : FileSys) (ip i : Nat) : Prop :=
  0 < (fs.icache ip).ref ∧ (fs.icache ip).valid = true ∧ (fs.icache ip).inum = i

instance (fs : FileSys) (ip i : Nat) : Decidable (fs.Holds ip i) := inferInstanceAs (Decidable (_ ∧ _ ∧ _))

def FileSys.inodes (fs : FileSys) (i : Nat) : Dinode :=
  match findSlot fun ip => fs.Holds ip i with
  | some ip => (fs.icache ip).d.live
  | none => (inodeOf fs.disk fs.sb i).live

/- A slot as ilock leaves it. -/
def Inode.lock (i : Inode) (d : Dinode) : Inode := { i with locked := true, valid := true, d := d }

namespace Fs

def FsState.put (s : FsState) (ip : Nat) (i : Inode) : FsState := { s with icache := update s.icache ip i }

section Put
variable {s : FsState} {ip : Nat} {i j : Inode}

@[simp] theorem icache_put (s : FsState) (ip : Nat) (i : Inode) : (s.put ip i).icache ip = i := by
  unfold FsState.put
  exact update_self _ _ _

theorem icache_put_ne {k : Nat} (other : k ≠ ip) : (s.put ip i).icache k = s.icache k := by
  unfold FsState.put
  exact update_of_ne other _ _

@[simp] theorem put_put : (s.put ip i).put ip j = s.put ip j := by
  unfold FsState.put
  rw [Function.update_idem]

theorem put_self (same : s.icache ip = i) : s.put ip i = s := by
  unfold FsState.put
  rw [← same, Function.update_eq_self]

end Put

section Slots
variable {ip : Nat}

variable {p : Nat → Bool}

theorem findSlot_some (found : findSlot p = some ip) : ip < NINODE ∧ p ip = true :=
  ⟨List.mem_range.mp (List.mem_of_find?_eq_some found), List.find?_some found⟩

theorem findSlot_none (missed : findSlot p = none) (inside : ip < NINODE) : p ip = false := by
  simpa using List.find?_eq_none.mp missed ip (List.mem_range.mpr inside)

theorem findSlot_unique (inside : ip < NINODE) (holds : p ip = true) (only : ∀ k < NINODE, p k = true → k = ip) :
    findSlot p = some ip := by
  cases found : findSlot p with
  | none => exact absurd holds (by simp [findSlot_none found inside])
  | some k => rw [only k (findSlot_some found).1 (findSlot_some found).2]

theorem findSlot_congr {q : Nat → Bool} (same : ∀ k < NINODE, p k = q k) : findSlot p = findSlot q :=
  List.find?_congr fun k inside => same k (List.mem_range.mp inside)

end Slots

/- An inode is in one slot of the cache at most, and only inodes of the disk are. -/
structure Cache (fs : FileSys) : Prop where
  unique : ∀ ip jp, ip < NINODE → jp < NINODE → 0 < (fs.icache ip).ref → 0 < (fs.icache jp).ref →
    (fs.icache ip).inum = (fs.icache jp).inum → ip = jp
  known : ∀ ip < NINODE, 0 < (fs.icache ip).ref → (fs.icache ip).inum < fs.sb.ninodes

section View
variable {fs fs' : FileSys} {ip i : Nat} {d : Dinode}

theorem live_of_used (used : d.type ≠ 0) : d.live = d := if_neg used

theorem inodes_free (none : ∀ ip < NINODE, ¬ fs.Holds ip i) : fs.inodes i = (inodeOf fs.disk fs.sb i).live := by
  unfold FileSys.inodes
  cases found : findSlot fun ip => fs.Holds ip i with
  | none => rfl
  | some ip =>
    obtain ⟨inside, holds⟩ := findSlot_some found
    exact absurd (of_decide_eq_true holds) (none ip inside)

theorem Cache.inodes (cache : Cache fs) (inside : ip < NINODE) (holds : fs.Holds ip i) :
    fs.inodes i = (fs.icache ip).d.live := by
  have found : (findSlot fun ip => fs.Holds ip i) = some ip := by
    refine findSlot_unique inside (decide_eq_true holds) fun k below also => ?_
    have also : fs.Holds k i := of_decide_eq_true also
    exact cache.unique k ip below inside also.1 holds.1 (also.2.2.trans holds.2.2.symm)
  unfold FileSys.inodes
  rw [found]

theorem inodes_congr (slots : ∀ ip < NINODE, ∀ i, fs'.Holds ip i ↔ fs.Holds ip i)
    (copies : ∀ ip < NINODE, ∀ i, fs.Holds ip i → (fs'.icache ip).d.live = (fs.icache ip).d.live)
    (disk : ∀ i, (∀ ip < NINODE, ¬ fs.Holds ip i) →
      (inodeOf fs'.disk fs'.sb i).live = (inodeOf fs.disk fs.sb i).live) : fs'.inodes = fs.inodes := by
  funext i
  unfold FileSys.inodes
  rw [findSlot_congr fun ip inside => decide_eq_decide.mpr (slots ip inside i)]
  cases found : findSlot fun ip => fs.Holds ip i with
  | none => exact disk i fun ip inside holds => by simpa [holds] using findSlot_none found inside
  | some ip =>
    obtain ⟨inside, holds⟩ := findSlot_some found
    exact copies ip inside i (of_decide_eq_true holds)

/- All copies in the cache are as on the disk. -/
theorem inodes_clean (clean : ∀ ip < NINODE, 0 < (fs.icache ip).ref → (fs.icache ip).valid = true →
    (fs.icache ip).d = inodeOf fs.disk fs.sb (fs.icache ip).inum) :
    fs.inodes = fun i => (inodeOf fs.disk fs.sb i).live := by
  funext i
  unfold FileSys.inodes
  cases found : findSlot fun ip => fs.Holds ip i with
  | none => rfl
  | some ip =>
    obtain ⟨inside, holds⟩ := findSlot_some found
    obtain ⟨held, valid, number⟩ : fs.Holds ip i := of_decide_eq_true holds
    dsimp only
    rw [clean ip inside held valid, number]

/- A slot with a copy of an inode that is in use. -/
structure Loaded (fs : FileSys) (ip i : Nat) : Prop where
  inside : ip < NINODE
  holds : fs.Holds ip i
  used : (fs.icache ip).d.type ≠ 0

theorem Loaded.inodes (here : Loaded fs ip i) (cache : Cache fs) : fs.inodes i = (fs.icache ip).d := by
  rw [cache.inodes here.inside here.holds, live_of_used here.used]

theorem Loaded.known (here : Loaded fs ip i) (cache : Cache fs) : i < fs.sb.ninodes := by
  rw [← here.holds.2.2]
  exact cache.known ip here.inside here.holds.1

variable {s : FsState}

theorem Cache.put {j : Inode} (cache : Cache s.toFileSys) (number : j.inum = (s.icache ip).inum)
    (refs : 0 < j.ref → 0 < (s.icache ip).ref) : Cache (s.put ip j).toFileSys := by
  have slot (k : Nat) : ((s.put ip j).icache k).inum = (s.icache k).inum ∧
      (0 < ((s.put ip j).icache k).ref → 0 < (s.icache k).ref) := by
    by_cases here : k = ip
    · rw [here, icache_put]
      exact ⟨number, refs⟩
    · rw [icache_put_ne here]
      exact ⟨rfl, id⟩
  refine ⟨fun k l inside inside' held held' same => ?_, fun k inside held => ?_⟩
  · rw [(slot k).1, (slot l).1] at same
    exact cache.unique k l inside inside' ((slot k).2 held) ((slot l).2 held') same
  · rw [(slot k).1]
    exact cache.known k inside ((slot k).2 held)

/- The inodes that a slot does not hold do not depend on it. -/
theorem inodes_put_ne {j : Inode} {k : Nat} (number : j.inum = (s.icache ip).inum)
    (other : k ≠ (s.icache ip).inum) : (s.put ip j).inodes k = s.inodes k := by
  have slots (jp : Nat) : (s.put ip j).Holds jp k ↔ s.Holds jp k := by
    unfold FileSys.Holds
    by_cases slot : jp = ip
    · rw [slot, icache_put, number]
      exact iff_of_false (fun holds => other holds.2.2.symm) fun holds => other holds.2.2.symm
    · rw [icache_put_ne slot]
  unfold FileSys.inodes
  rw [findSlot_congr fun jp _ => decide_eq_decide.mpr (slots jp)]
  cases found : findSlot fun jp => s.Holds jp k with
  | none => rfl
  | some jp =>
    have also : s.Holds jp k := of_decide_eq_true (findSlot_some found).2
    have slot : jp ≠ ip := by
      rintro rfl
      exact other also.2.2.symm
    dsimp only
    rw [icache_put_ne slot]

/- The copy in a slot is changed. -/
theorem Loaded.put (here : Loaded s.toFileSys ip i) (cache : Cache s.toFileSys) (used : d.type ≠ 0) :
    Loaded (s.put ip { s.icache ip with d := d }).toFileSys ip i ∧
      (s.put ip { s.icache ip with d := d }).inodes = update s.inodes i d := by
  have holds : (s.put ip { s.icache ip with d := d }).Holds ip i := by
    unfold FileSys.Holds
    rw [icache_put]
    exact here.holds
  have loaded : Loaded (s.put ip { s.icache ip with d := d }).toFileSys ip i :=
    ⟨here.inside, holds, by rwa [icache_put]⟩
  refine ⟨loaded, funext fun k => ?_⟩
  by_cases same : k = i
  · rw [same, update_self, loaded.inodes (cache.put rfl id), icache_put]
  · rw [update_of_ne same]
    exact inodes_put_ne rfl (by rwa [here.holds.2.2])

/- A block outside of the inodes' blocks is changed. -/
theorem inodes_write {disk : Nat → Block} (formatted : Formatted s.sb)
    (same : ∀ b, 1 < b → b < s.sb.bmapstart → disk b = s.disk b) :
    FileSys.inodes { s.toFileSys with disk := disk } = s.inodes :=
  inodes_congr (fun _ _ _ => Iff.rfl) (fun _ _ _ _ => rfl) fun i _ => by rw [inodeOf_congr formatted same]

/- The copy in a slot is written to the disk. -/
theorem Loaded.flush (here : Loaded s.toFileSys ip i) (cache : Cache s.toFileSys) (e : Dinode) :
    FileSys.inodes { s.toFileSys with
      disk := update s.disk (IBLOCK i s.sb) (putDinode (s.disk (IBLOCK i s.sb)) (i % IPB) e) } = s.inodes := by
  refine inodes_congr (fun _ _ _ => Iff.rfl) (fun _ _ _ _ => rfl) fun k none => ?_
  have other : k ≠ i := by
    rintro rfl
    exact none ip here.inside here.holds
  rw [inodeOf_put (here.known cache), update_of_ne other]

end View

end Fs

end Xv6c

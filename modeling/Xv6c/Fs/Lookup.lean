import Mathlib.Data.Finset.Basic
import Mathlib.Algebra.BigOperators.Group.Finset.Basic
import Xv6c.Fs.Calls
import Xv6c.Fs.Reading
import Xv6c.Fs.View

/-! Lookups of a single name in a directory that is in the inode cache and fits into one
block, from start to end. -/
namespace Xv6c.Fs
open Lib
open Function (update update_self update_of_ne)

section Inodes
variable {s : FsState} {ip inum : Nat} {i j : Inode} {ref : Int} {locked valid : Bool} {d : Dinode}

theorem ends_setInode (here : s.icache ip = i) (f : Inode → Inode) :
    Ends (setInode ip f) s [] () (s.put ip (f i)) := by
  rw [← here]
  rfl

theorem ends_idup (here : s.icache ip = ⟨inum, ref, locked, valid, d⟩) (room : ref ≠ maxInt) :
    Ends (idup ip) s [] ip (s.put ip ⟨inum, ref + 1, locked, valid, d⟩) := by
  unfold idup addRef
  rw [bind_assoc, ends_get_bind, here, if_neg room]
  refine Ends.seq (a := ()) (u := s.put ip ⟨inum, ref + 1, locked, valid, d⟩) ?_ rfl
  have counted := ends_setInode here fun i => { i with ref := incr i.ref }
  dsimp only at counted
  rw [incr, if_neg room] at counted
  exact counted

theorem ends_acquiresleep (here : s.icache ip = ⟨inum, ref, false, valid, d⟩) :
    Ends (acquiresleep ip) s [] () (s.put ip ⟨inum, ref, true, valid, d⟩) := by
  unfold acquiresleep
  rw [ends_get_bind, here, if_neg (by simp)]
  exact ends_setInode here _

theorem ends_releasesleep (here : s.icache ip = ⟨inum, ref, true, valid, d⟩) :
    Ends (releasesleep ip) s [] () (s.put ip ⟨inum, ref, false, valid, d⟩) := ends_setInode here _

theorem ends_ilock (here : s.icache ip = ⟨inum, ref, false, true, d⟩) (held : 1 ≤ ref) :
    Ends (ilock ip) s [] () (s.put ip ⟨inum, ref, true, true, d⟩) := by
  unfold ilock
  rw [ends_get_bind, here, if_neg (by dsimp only; omega)]
  refine (ends_acquiresleep here).seq ?_
  rw [if_pos rfl]
  rfl

/- ilock of an inode that has to be loaded. -/
theorem ends_ilock_load (here : s.icache ip = ⟨inum, ref, false, false, d⟩) (held : 1 ≤ ref)
    (inside : IBLOCK inum s.sb < FSSIZE) (used : (getDinode (s.disk (IBLOCK inum s.sb)) (inum % IPB)).type ≠ 0) :
    Ends (ilock ip) s [] ()
      (s.put ip ⟨inum, ref, true, true, getDinode (s.disk (IBLOCK inum s.sb)) (inum % IPB)⟩) := by
  unfold ilock
  rw [ends_get_bind, here, if_neg (by dsimp only; omega)]
  refine (ends_acquiresleep here).seq ?_
  rw [if_neg (by simp)]
  refine (ends_bread inside).seq ?_
  have loaded := ends_setInode (icache_put s ip ⟨inum, ref, true, false, d⟩)
    fun i => { i with d := getDinode (s.disk (IBLOCK inum s.sb)) (inum % IPB), valid := true }
  rw [put_put] at loaded
  refine loaded.seq ?_
  change Ends (if (getDinode (s.disk (IBLOCK inum s.sb)) (inum % IPB)).type = 0 then _ else _) _ _ _ _
  rw [if_neg used]
  rfl

theorem ends_iunlock (here : s.icache ip = ⟨inum, ref, true, valid, d⟩) (held : 1 ≤ ref) :
    Ends (iunlock ip) s [] () (s.put ip ⟨inum, ref, false, valid, d⟩) := by
  unfold iunlock
  rw [ends_get_bind, here, if_neg]
  · exact ends_releasesleep here
  · simp only [Bool.not_true, Bool.false_eq_true, false_or]
    omega

/- iput of a reference that is not the last one, or of an inode with a name. -/
theorem ends_iput (here : s.icache ip = ⟨inum, ref, false, valid, d⟩) (kept : ref ≠ 1 ∨ d.nlink ≠ 0) :
    Ends (iput ip) s [] () (s.put ip ⟨inum, ref - 1, false, valid, d⟩) := by
  unfold iput
  refine (ends_acquiresleep here).seq ?_
  rw [ends_get_bind, icache_put, if_neg fun last => kept.elim (· last.2.2) (· last.2.1)]
  refine (ends_releasesleep (icache_put _ _ _)).seq ?_
  have last := ends_setInode (icache_put s ip ⟨inum, ref, false, valid, d⟩) fun i => { i with ref := i.ref - 1 }
  rw [put_put] at last ⊢
  exact last

theorem ends_iunlockput (here : s.icache ip = ⟨inum, ref, true, valid, d⟩) (held : 1 ≤ ref)
    (kept : ref ≠ 1 ∨ d.nlink ≠ 0) :
    Ends (iunlockput ip) s [] () (s.put ip ⟨inum, ref - 1, false, valid, d⟩) := by
  refine (ends_iunlock here held).seq ?_
  have rest := ends_iput (icache_put s ip ⟨inum, ref, false, valid, d⟩) kept
  rwa [put_put] at rest

end Inodes

section Directories
variable {s : FsState} {dp : Nat} {name : List Byte}

/- The entry at offset off of a directory in block a. -/
def entryAt (s : FsState) (a off : Nat) : Bytes := copyIn zeros 0 direntSize fun i => s.disk a (off + i)

theorem entryAt_congr {a off : Nat} {f : Bytes} (same : ∀ i < direntSize, s.disk a (off + i) = f (off + i)) :
    entryAt s a off = copyIn zeros 0 direntSize fun i => f (off + i) := by
  funext j
  unfold entryAt copyIn
  split
  · rename_i inside
    exact same _ (by omega)
  · rfl

/- The inode dp is a directory whose n entries lie in the block a. -/
structure OneBlock (s : FsState) (dp a n : Nat) : Prop where
  type : (s.icache dp).d.type = T_DIR
  size : (s.icache dp).d.size.toNat = n * direntSize
  fits : n * direntSize ≤ BSIZE
  mapped : ((s.icache dp).d.addrs 0).toNat = a
  there : a ≠ 0
  inside : a < FSSIZE

theorem OneBlock.ends_entry {a i n : Nat} (dir : OneBlock s dp a n) (inside : i < n) :
    Ends (readi dp (i * direntSize) direntSize) s [] ((direntSize : Int), entryAt s a (i * direntSize)) s := by
  have size := dir.size
  have fits := dir.fits
  have last : i * direntSize + direntSize ≤ n * direntSize := by
    unfold direntSize
    omega
  have mapped : placeOf s.disk (s.icache dp).d 0 = a := (placeOf_direct (by decide)).trans dir.mapped
  have read : Ends (readi dp (i * direntSize) direntSize) s [] _ s :=
    ends_readi (by rw [dir.type]; decide) (last.trans size.ge) fun bn _ inside => by
      obtain rfl : bn = 0 := by
        unfold direntSize BSIZE at *
        omega
      rw [mapped]
      exact ⟨by decide, dir.there, dir.inside, fun high => absurd high (by decide)⟩
  have same : slice (flat BSIZE fun bn => s.disk (placeOf s.disk (s.icache dp).d bn)) (i * direntSize) direntSize =
      entryAt s a (i * direntSize) := by
    refine copyIn_congr fun j less => ?_
    have within : i * direntSize + j < BSIZE := by
      unfold direntSize BSIZE at *
      omega
    unfold flat
    dsimp only
    rw [Nat.div_eq_of_lt within, Nat.mod_eq_of_lt within, mapped]
  rw [same] at read
  exact read

/- No entry from i on carries the name. -/
theorem OneBlock.ends_lookupFrom {a i m n : Nat} (dir : OneBlock s dp a n) (name : List Byte) (rest : i + m ≤ n)
    (absent : ∀ j, i ≤ j → j < i + m → ¬(deInum (entryAt s a (j * direntSize)) ≠ 0 ∧
      namecmp name (deName (entryAt s a (j * direntSize))) = 0)) :
    Ends (lookupFrom dp name m (i * direntSize)) s [] none s := by
  induction m generalizing i with
  | zero => rfl
  | succ m ih =>
    unfold lookupFrom
    refine (dir.ends_entry (by omega)).seq ?_
    dsimp only
    rw [if_neg (not_not.mpr rfl), if_neg (absent i (le_refl i) (by omega)), ← Nat.succ_mul]
    exact ih (by omega) fun j later inside => absent j (by omega) (by omega)

theorem OneBlock.entries {a n : Nat} (dir : OneBlock s dp a n) :
    Fs.entries (s.icache dp).d.size.toNat = n := by
  rw [dir.size]
  unfold Fs.entries direntSize
  omega

theorem OneBlock.ends_dirlookup {a n : Nat} (dir : OneBlock s dp a n)
    (absent : ∀ j < n, ¬(deInum (entryAt s a (j * direntSize)) ≠ 0 ∧
      namecmp name (deName (entryAt s a (j * direntSize))) = 0)) :
    Ends (dirlookup dp name) s [] none s := by
  unfold dirlookup
  rw [ends_get_bind, if_neg (not_not.mpr dir.type), dir.entries]
  have looked := dir.ends_lookupFrom (i := 0) name (Nat.zero_add n).le fun j _ inside =>
    absent j (by omega)
  rwa [Nat.zero_mul] at looked

theorem OneBlock.put {a n : Nat} {i : Inode} (dir : OneBlock s dp a n) (same : i.d = (s.icache dp).d) :
    OneBlock (s.put dp i) dp a n := by
  refine ⟨?_, ?_, dir.fits, ?_, dir.there, dir.inside⟩
  all_goals rw [icache_put, same]
  · exact dir.type
  · exact dir.size
  · exact dir.mapped

theorem OneBlock.congr {t : FsState} {a n : Nat} (dir : OneBlock s dp a n) (same : t.icache dp = s.icache dp) :
    OneBlock t dp a n := by
  refine ⟨?_, ?_, dir.fits, ?_, dir.there, dir.inside⟩
  all_goals rw [same]
  · exact dir.type
  · exact dir.size
  · exact dir.mapped

end Directories

section References

/- For how many more references of inode inum a slot has room. -/
def slack (inum : Nat) (i : Inode) : Nat :=
  if i.ref = 0 then 2 ^ 31 else if 0 < i.ref ∧ i.inum = inum then (2 ^ 31 - i.ref).toNat else 0

def capacity (inum : Nat) (icache : Nat → Inode) : Nat :=
  ∑ ip ∈ Finset.range NINODE, slack inum (icache ip)

variable {s : FsState} {inum ip : Nat} {i : Inode}

theorem capacity_put (inside : ip < NINODE) (less : slack inum (s.icache ip) = slack inum i + 1) :
    capacity inum s.icache = capacity inum (s.put ip i).icache + 1 := by
  have member : ip ∈ Finset.range NINODE := Finset.mem_range.mpr inside
  unfold capacity
  rw [← Finset.add_sum_erase _ _ member, ← Finset.add_sum_erase _ _ member, icache_put, less]
  have others : ∑ k ∈ (Finset.range NINODE).erase ip, slack inum ((s.put ip i).icache k) =
      ∑ k ∈ (Finset.range NINODE).erase ip, slack inum (s.icache k) := by
    apply Finset.sum_congr rfl
    intro k other
    rw [icache_put_ne (Finset.ne_of_mem_erase other)]
  rw [others]
  omega

/- One more reference, past the largest int if need be. -/
theorem slack_incr (held : 0 < i.ref) (bounded : i.ref ≤ maxInt) (same : i.inum = inum) :
    incr i.ref ≤ maxInt ∧ slack inum i = slack inum { i with ref := incr i.ref } + 1 := by
  unfold slack incr
  by_cases full : i.ref = maxInt
  · simp only [if_pos full]
    rw [if_neg (by omega), if_pos ⟨held, same⟩, if_neg (by omega), if_neg (by omega), full]
    decide
  · simp only [if_neg full]
    rw [if_neg (by omega), if_pos ⟨held, same⟩, if_neg (by omega), if_pos ⟨by omega, same⟩]
    unfold maxInt at *
    omega

/- iget takes room for one reference from one slot. -/
theorem ends_iget (bounded : ∀ ip < NINODE, (s.icache ip).ref ≤ maxInt) (some : 0 < capacity inum s.icache) :
    ∃ es ip i, Ends (iget inum) s es ip (s.put ip i) ∧ ip < NINODE ∧ i.inum = inum ∧ i.ref ≤ maxInt ∧
      slack inum (s.icache ip) = slack inum i + 1 := by
  unfold iget
  simp only [ends_get_bind]
  cases found : findSlot fun ip => 0 < (s.icache ip).ref ∧ (s.icache ip).inum = inum with
  | some ip =>
    obtain ⟨inside, holds⟩ := findSlot_some found
    obtain ⟨held, same⟩ := of_decide_eq_true holds
    obtain ⟨limit, less⟩ := slack_incr held (bounded ip inside) same
    dsimp only
    unfold addRef
    simp only [bind_assoc, ends_get_bind]
    by_cases full : (s.icache ip).ref = maxInt
    · rw [if_pos full]
      exact ⟨[.overflow], ip, _, rfl, inside, same, limit, less⟩
    · rw [if_neg full]
      exact ⟨[], ip, _, rfl, inside, same, limit, less⟩
  | none =>
    obtain ⟨ip, member, positive⟩ : ∃ ip ∈ Finset.range NINODE, 0 < slack inum (s.icache ip) := by
      by_contra all
      simp only [not_exists, not_and, Nat.not_lt, Nat.le_zero] at all
      exact some.ne' (Finset.sum_eq_zero all)
    have empty : (s.icache ip).ref = 0 := by
      have missed := findSlot_none found (Finset.mem_range.mp member)
      unfold slack at positive
      split at positive
      · assumption
      · rw [if_neg (of_decide_eq_false missed)] at positive
        cases positive
    cases free : findSlot fun ip => (s.icache ip).ref = 0 with
    | none =>
      have missed := findSlot_none free (Finset.mem_range.mp member)
      exact absurd empty (of_decide_eq_false missed)
    | some ip =>
      obtain ⟨inside, zero⟩ := findSlot_some free
      refine ⟨[], ip, _, rfl, inside, rfl, show (1 : Int) ≤ maxInt by decide, ?_⟩
      unfold slack
      dsimp only
      rw [if_pos (of_decide_eq_true zero), if_neg (by decide), if_pos ⟨by decide, rfl⟩]
      decide

end References

section Paths
variable {s : FsState} {w : Walker} {path : CStr} {name : List Byte} {dp a n ip inum r : Nat} {ref : Int}
  {d : Dinode} {i : Inode} {es : List FsEvent}

/- namei of a name that the current directory does not have. It keeps the reference to the
root directory that namex takes. -/
theorem ends_namei_absent (relative : path.bytes.head? ≠ some slash) (single : skipelem path.bytes = some (name, []))
    (cwd : w.cwd = some dp) (root : Ends (iget ROOTINO) s es ip (s.put ip i)) (apart : dp ≠ ip)
    (here : s.icache dp = ⟨inum, ref, false, true, d⟩) (held : 1 ≤ ref) (room : ref ≠ maxInt)
    (dir : OneBlock s dp a n) (absent : ∀ j < n, ¬(deInum (entryAt s a (j * direntSize)) ≠ 0 ∧
      namecmp name (deName (entryAt s a (j * direntSize))) = 0)) :
    Ends (namei w path) s es none (s.put ip i) := by
  have here₁ : (s.put ip i).icache dp = ⟨inum, ref, false, true, d⟩ := (icache_put_ne apart).trans here
  have walked : Ends (walk w ip false (path.bytes.length + 1) dp path.bytes)
      ((s.put ip i).put dp ⟨inum, ref + 1, false, true, d⟩) [] none (s.put ip i) := by
    unfold walk
    rw [single]
    dsimp only
    refine (ends_ilock (icache_put _ _ _) (by omega)).seq ?_
    have dir₁ : OneBlock ((s.put ip i).put dp ⟨inum, ref + 1, true, true, d⟩) dp a n :=
      (dir.congr (icache_put_ne apart)).put (congrArg Inode.d here₁).symm
    rw [put_put, ends_get_bind, if_neg (not_not.mpr dir₁.type), if_neg (by simp)]
    refine (dir₁.ends_dirlookup absent).seq ?_
    refine (ends_iunlockput (icache_put _ _ _) (by omega) (Or.inl (by omega))).seq ?_
    rw [put_put, Int.add_sub_cancel, put_self here₁]
    rfl
  unfold namei namex
  rw [bind_assoc]
  refine ends_bind.mpr ⟨es, ip, _, [], root, ?_, (List.append_nil es).symm⟩
  rw [if_neg relative, cwd, bind_assoc]
  refine Ends.seq (u := s.put ip i) (a := dp) rfl ?_
  rw [bind_assoc]
  exact (ends_idup here₁ room).seq (walked.seq rfl)

/- namei of the name in the first entry of the current directory, when that is its own. -/
theorem ends_namei_self (relative : path.bytes.head? ≠ some slash) (single : skipelem path.bytes = some (name, []))
    (cwd : w.cwd = some dp) (rooted : w.rootdir = some r) (root : Ends (iget ROOTINO) s es ip (s.put ip i))
    (same : i.inum = ROOTINO) (other : inum ≠ ROOTINO) (below : dp < NINODE) (apart : dp ≠ ip)
    (here : s.icache dp = ⟨inum, ref, false, true, d⟩) (held : 1 ≤ ref) (room : ref + 1 < maxInt)
    (alone : ∀ k < NINODE, 0 < (s.icache k).ref → (s.icache k).inum = inum → k = dp)
    (dir : OneBlock s dp a (n + 1)) (own : deInum (entryAt s a 0) = inum) (used : inum ≠ 0)
    (named : namecmp name (deName (entryAt s a 0)) = 0) :
    Ends (namei w path) s es (some dp) ((s.put ip i).put dp ⟨inum, ref + 1, false, true, d⟩) := by
  have here₁ : (s.put ip i).icache dp = ⟨inum, ref, false, true, d⟩ := (icache_put_ne apart).trans here
  obtain ⟨m, length⟩ : ∃ m, path.bytes.length = m + 1 := by
    cases bytes : path.bytes with
    | nil =>
      rw [bytes] at single
      cases single
    | cons b bs => exact ⟨bs.length, rfl⟩
  -- the directory is the only slot with its number
  have found : Ends (iget inum) ((s.put ip i).put dp ⟨inum, ref + 1, true, true, d⟩) [] dp
      ((s.put ip i).put dp ⟨inum, ref + 1 + 1, true, true, d⟩) := by
    have slot : findSlot (fun k => 0 < (((s.put ip i).put dp ⟨inum, ref + 1, true, true, d⟩).icache k).ref ∧
        (((s.put ip i).put dp ⟨inum, ref + 1, true, true, d⟩).icache k).inum = inum) = some dp := by
      refine findSlot_unique below ?_ fun k inside holds => ?_
      · rw [icache_put]
        exact decide_eq_true ⟨by dsimp only; omega, rfl⟩
      · by_contra away
        rw [icache_put_ne away] at holds
        by_cases here : k = ip
        · rw [here, icache_put, same] at holds
          exact other (of_decide_eq_true holds).2.symm
        · rw [icache_put_ne here] at holds
          exact away (alone k inside (of_decide_eq_true holds).1 (of_decide_eq_true holds).2)
    unfold iget
    rw [ends_get_bind, slot]
    have counted := ends_idup (icache_put (s.put ip i) dp ⟨inum, ref + 1, true, true, d⟩) (by omega)
    rw [put_put] at counted
    exact counted
  have walked : Ends (walk w ip false (path.bytes.length + 1) dp path.bytes)
      ((s.put ip i).put dp ⟨inum, ref + 1, false, true, d⟩) [] (some (dp, []))
      ((s.put ip i).put dp ⟨inum, ref + 1, false, true, d⟩) := by
    unfold walk
    rw [single]
    dsimp only
    refine (ends_ilock (icache_put _ _ _) (by omega)).seq ?_
    have dir₁ : OneBlock ((s.put ip i).put dp ⟨inum, ref + 1, true, true, d⟩) dp a (n + 1) :=
      (dir.congr (icache_put_ne apart)).put (congrArg Inode.d here₁).symm
    rw [put_put, ends_get_bind, if_neg (not_not.mpr dir₁.type), if_neg (by simp)]
    have looked : Ends (dirlookup dp name) ((s.put ip i).put dp ⟨inum, ref + 1, true, true, d⟩) []
        (some (dp, 0)) ((s.put ip i).put dp ⟨inum, ref + 1 + 1, true, true, d⟩) := by
      unfold dirlookup
      rw [ends_get_bind, if_neg (not_not.mpr dir₁.type), dir₁.entries]
      unfold lookupFrom
      have read := dir₁.ends_entry (Nat.succ_pos n)
      rw [Nat.zero_mul] at read
      refine read.seq ?_
      have entry : entryAt ((s.put ip i).put dp ⟨inum, ref + 1, true, true, d⟩) a 0 = entryAt s a 0 := rfl
      dsimp only
      rw [if_neg (not_not.mpr rfl), entry, own, if_pos ⟨used, named⟩]
      exact found.seq rfl
    refine looked.seq ?_
    dsimp only
    refine (ends_iunlockput (icache_put _ _ _) (by omega) (Or.inl (by omega))).seq ?_
    rw [put_put, Int.add_sub_cancel, rooted]
    refine Ends.seq (a := r) (u := (s.put ip i).put dp ⟨inum, ref + 1, false, true, d⟩) rfl ?_
    rw [ends_get_bind, if_pos]
    · rw [length]
      rfl
    · right
      rw [icache_put, icache_put_ne apart.symm, icache_put, same]
      exact other
  unfold namei namex
  rw [bind_assoc]
  refine ends_bind.mpr ⟨es, ip, _, [], root, ?_, (List.append_nil es).symm⟩
  rw [if_neg relative, cwd, bind_assoc]
  refine Ends.seq (u := s.put ip i) (a := dp) rfl ?_
  rw [bind_assoc]
  exact (ends_idup here₁ (by omega)).seq (walked.seq rfl)

end Paths

end Xv6c.Fs

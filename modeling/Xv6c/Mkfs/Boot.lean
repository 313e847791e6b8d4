import Xv6c.Fs.Directory
import Xv6c.Fs.Lookup
import Xv6c.Mkfs.Tree

/-! The kernel on an image of mkfs: what dirlookup and readi find there. -/
namespace Xv6c.Mkfs
open Lib Fs
open Function (update update_self update_of_ne)

section Listing
variable {files : List Input} {f : Input} {j k m : Nat}

theorem dirent_first {inum : Nat} {name rest : List Byte} (inside : j < direntSize) :
    (dirent inum name ++ rest)[j]? = some (mkDirent inum name j) := by
  have length := length_dirent inum name
  rw [List.getElem?_append_left (by omega), dirent, List.getElem?_map, List.getElem?_range inside]
  rfl

theorem dirent_rest {inum : Nat} {name rest : List Byte} :
    (dirent inum name ++ rest)[direntSize + j]? = rest[j]? := by
  have length := length_dirent inum name
  rw [List.getElem?_append_right (by omega), length, Nat.add_sub_cancel_left]

theorem direntsFrom_entry (listed : files[k]? = some f) (inside : j < direntSize) :
    (direntsFrom m files)[k * direntSize + j]? = some (mkDirent (m + k) f.name j) := by
  induction files generalizing m k with
  | nil => exact nomatch listed
  | cons g files ih =>
    rw [direntsFrom]
    cases k with
    | zero =>
      obtain rfl : g = f := Option.some.inj listed
      rw [Nat.zero_mul, Nat.zero_add]
      exact dirent_first inside
    | succ k =>
      have offset : (k + 1) * direntSize + j = direntSize + (k * direntSize + j) := by
        rw [Nat.add_mul]
        omega
      rw [offset, dirent_rest, ih listed, Nat.add_right_comm, Nat.add_assoc]

/- The entries of the root directory, with the inode and the name of each. -/
def listing (files : List Input) : List (Nat × List Byte) :=
  (ROOTINO, dot) :: (ROOTINO, dotdot) :: files.mapIdx fun k f => (k + 2, f.name)

theorem rootBytes_entry {inum : Nat} {name : List Byte} (listed : (listing files)[k]? = some (inum, name))
    (inside : j < direntSize) : (rootBytes files)[k * direntSize + j]? = some (mkDirent inum name j) := by
  unfold rootBytes
  rw [List.append_assoc]
  match k with
  | 0 =>
    cases Option.some.inj listed
    rw [Nat.zero_mul, Nat.zero_add, dirent_first inside]
  | 1 =>
    cases Option.some.inj listed
    rw [Nat.one_mul, dirent_rest, dirent_first inside]
  | k + 2 =>
    have listed : (files.mapIdx fun k f => (k + 2, f.name))[k]? = some (inum, name) := listed
    rw [List.getElem?_mapIdx, Option.map_eq_some_iff] at listed
    obtain ⟨f, there, rfl, rfl⟩ := listed
    have offset : (k + 2) * direntSize + j = direntSize + (direntSize + (k * direntSize + j)) := by
      rw [Nat.add_mul]
      omega
    rw [offset, dirent_rest, dirent_rest, direntsFrom_entry there inside, Nat.add_comm 2 k]

end Listing

section Image
variable {files : List Input} {img : State} {i n off : Nat}

/- The bytes that an inode of the image has blocks for. -/
def written (files : List Input) (img : State) (i : Nat) : Nat :=
  if i = ROOTINO then (rootBytes files).length else (img.inodes i).size.toNat

theorem Made.placed_disk (made : Made files img) (x : Nat × Nat) : place img.image img.inodes x < FSSIZE := by
  have disk : BSIZE * 8 ≤ FSSIZE := by decide
  have bound := made.bound.2
  by_cases none : place img.image img.inodes x = 0
  · rw [none]
    decide
  · have range := made.range x none
    omega

theorem Made.written_small (made : Made files img) (few : files.length ≤ NINODES - 2) :
    written files img i ≤ MAXFILE * BSIZE ∧ written files img i ≤ (img.inodes i).size.toNat := by
  unfold written
  split
  · rename_i root
    have short := few_short few
    have top : NINODES * direntSize ≤ MAXFILE * BSIZE := by decide
    have size := made.root.2
    have split := Nat.div_add_mod' (rootBytes files).length BSIZE
    have partly : (rootBytes files).length % BSIZE < BSIZE := Nat.mod_lt _ (by decide)
    rw [Nat.add_mul] at size
    rw [root]
    omega
  · rename_i other
    exact ⟨made.small i other, Nat.le_refl _⟩

/- readi in any state of the kernel over the image. -/
theorem Made.ends_readi {s : FsState} {ip : Nat} (made : Made files img) (few : files.length ≤ NINODES - 2)
    (disk : s.disk = img.image) (loaded : (s.icache ip).d = img.inodes i) (plain : (img.inodes i).type ≠ T_DEV)
    (inside : off + n ≤ written files img i) :
    Ends (readi ip off n) s [] ((n : Int), slice (fileByte img.image img.inodes i) off n) s := by
  obtain ⟨small, within⟩ := made.written_small (i := i) few
  have there (bn : Nat) (start : bn * BSIZE < off + n) :
      bn < MAXFILE ∧ place img.image img.inodes (i, bn) ≠ 0 := by
    have below : bn < MAXFILE := Nat.lt_of_mul_lt_mul_right (lt_of_lt_of_le start (inside.trans small))
    exact ⟨below, (made.filled i bn below).mpr (lt_of_lt_of_le start inside)⟩
  have read : Ends (readi ip off n) s [] _ s :=
    Fs.ends_readi (by rwa [loaded]) (by rw [loaded]; exact inside.trans within) fun bn _ start => by
      rw [disk, loaded]
      obtain ⟨below, placed⟩ := there bn start
      exact ⟨below, placed, made.placed_disk (i, bn), fun _ => made.placed_disk (i, MAXFILE)⟩
  rw [disk, loaded] at read
  rwa [slice_placed fun bn _ start => there bn start] at read

end Image

section Kernel
variable {files : List Input} {img : State} {disk : Nat → Block} {s t : FsState} {dp inum ip k : Nat} {f : Input}

/- A state of the kernel over the disk: inodes in the cache are as on the disk, the root
directory is in slot dp, and there is room for another inode. -/
structure Mounted (disk : Nat → Block) (s : FsState) (dp : Nat) : Prop where
  volume : s.disk = disk
  sb : s.sb = decodeSb (disk 1)
  inside : dp < NINODE
  root : (s.icache dp).inum = ROOTINO ∧ 0 < (s.icache dp).ref ∧
    (s.icache dp).d = inodeOf disk (decodeSb (disk 1)) ROOTINO
  loaded : ∀ ip < NINODE, 0 < (s.icache ip).ref → (s.icache ip).valid = true →
    (s.icache ip).d = inodeOf disk (decodeSb (disk 1)) (s.icache ip).inum
  unlocked : ∀ ip < NINODE, ip ≠ dp → (s.icache ip).locked = false
  refs : ∀ ip < NINODE, (s.icache ip).ref < maxInt
  room : ∃ ip < NINODE, (s.icache ip).ref = 0

/- A slot with a reference to inode inum, not locked. -/
structure Referred (disk : Nat → Block) (t : FsState) (ip inum : Nat) : Prop where
  volume : t.disk = disk
  sb : t.sb = decodeSb (disk 1)
  number : (t.icache ip).inum = inum
  held : 1 ≤ (t.icache ip).ref
  unlocked : (t.icache ip).locked = false
  loaded : (t.icache ip).valid = true → (t.icache ip).d = inodeOf disk (decodeSb (disk 1)) inum

theorem Mounted.ends_iget (mounted : Mounted disk s dp) (other : inum ≠ ROOTINO) :
    ∃ ip t, Ends (iget inum) s [] ip t ∧ Referred disk t ip inum := by
  unfold iget
  simp only [ends_get_bind]
  cases found : findSlot fun ip => 0 < (s.icache ip).ref ∧ (s.icache ip).inum = inum with
  | some ip =>
    obtain ⟨inside, holds⟩ := findSlot_some found
    obtain ⟨held, same⟩ := of_decide_eq_true holds
    have apart : ip ≠ dp := by
      rintro rfl
      exact other (same.symm.trans mounted.root.1)
    have room : (s.icache ip).ref ≠ maxInt := ne_of_lt (mounted.refs ip inside)
    refine ⟨ip, _, ends_idup rfl room, mounted.volume, mounted.sb, ?_, ?_, ?_, ?_⟩ <;> rw [icache_put]
    · exact same
    · change 1 ≤ (s.icache ip).ref + 1
      omega
    · exact mounted.unlocked ip inside apart
    · exact fun valid => same ▸ mounted.loaded ip inside held valid
  | none =>
    cases free : findSlot fun ip => (s.icache ip).ref = 0 with
    | none =>
      obtain ⟨ip, inside, empty⟩ := mounted.room
      exact absurd empty (of_decide_eq_false (findSlot_none free inside))
    | some ip =>
      obtain ⟨inside, zero⟩ := findSlot_some free
      have zero : (s.icache ip).ref = 0 := of_decide_eq_true zero
      have apart : ip ≠ dp := by
        rintro rfl
        exact absurd zero (ne_of_gt mounted.root.2.1)
      refine ⟨ip, _, (ends_setInode rfl _).seq rfl, mounted.volume, mounted.sb, ?_, ?_, ?_, ?_⟩ <;>
        rw [icache_put]
      · exact mounted.unlocked ip inside apart
      · intro valid
        cases valid

/- ilock loads the inode, if it is not in the cache. -/
theorem Referred.ends_ilock (h : Referred disk t ip inum) (known : IBLOCK inum (decodeSb (disk 1)) < FSSIZE)
    (inside : inum < (decodeSb (disk 1)).ninodes) (used : (inodeOf disk (decodeSb (disk 1)) inum).type ≠ 0) :
    ∃ u, Ends (ilock ip) t [] () u ∧ u.disk = disk ∧
      (u.icache ip).d = inodeOf disk (decodeSb (disk 1)) inum := by
  obtain ⟨volume, sb, number, held, unlocked, loaded⟩ := h
  generalize slot : t.icache ip = i at *
  obtain ⟨inum', ref, locked, valid, d⟩ := i
  obtain rfl : inum' = inum := number
  obtain rfl : locked = false := unlocked
  cases valid with
  | true =>
    refine ⟨_, Fs.ends_ilock slot held, volume, ?_⟩
    rw [icache_put]
    exact loaded rfl
  | false =>
    have load : getDinode (t.disk (IBLOCK inum' t.sb)) (inum' % IPB) = inodeOf disk (decodeSb (disk 1)) inum' := by
      rw [volume, sb, inodeOf, if_pos inside]
    refine ⟨_, ends_ilock_load slot held (by rwa [sb]) (by rwa [load]), volume, ?_⟩
    rw [icache_put]
    exact load

/- What the claims on names ask of a file. -/
structure Proper (f : Input) : Prop where
  some : 0 < f.name.length
  short : f.name.length ≤ DIRSIZ
  notDot : f.name ≠ dot
  notDotdot : f.name ≠ dotdot

theorem name_whole (f : Input) : 0 ∉ f.name := by
  unfold Input.name
  split
  · exact fun inside => f.arg.whole (List.mem_of_mem_tail inside)
  · exact f.arg.whole

theorem Proper.nameOf (proper : Proper f) : Fs.nameOf f.name = f.name := nameOf_self (name_whole f) proper.short

/- Only its own entry carries the name of a file. -/
theorem listing_unique {name : List Byte} (distinct : (files.map Input.name).Nodup)
    (proper : ∀ f ∈ files, Proper f) (there : files[k]? = some f) {j : Nat}
    (listed : (listing files)[j]? = some (inum, name)) (same : Fs.nameOf name = Fs.nameOf f.name) : j = k + 2 := by
  have own := proper f (List.mem_of_getElem? there)
  rw [own.nameOf] at same
  match j with
  | 0 =>
    cases Option.some.inj listed
    exact absurd same.symm own.notDot
  | 1 =>
    cases Option.some.inj listed
    exact absurd same.symm own.notDotdot
  | j + 2 =>
    have listed : (files.mapIdx fun k f => (k + 2, f.name))[j]? = some (inum, name) := listed
    rw [List.getElem?_mapIdx, Option.map_eq_some_iff] at listed
    obtain ⟨g, here, rfl, rfl⟩ := listed
    rw [(proper g (List.mem_of_getElem? here)).nameOf] at same
    have inside : j < (files.map Input.name).length := by
      rw [List.length_map]
      exact (List.getElem?_eq_some_iff.mp here).1
    have equal : (files.map Input.name)[j]? = (files.map Input.name)[k]? := by
      rw [List.getElem?_map, List.getElem?_map, here, there]
      exact congrArg some same
    rw [(List.getElem?_inj inside distinct).mp equal]

theorem length_listing : (listing files).length = files.length + 2 := by
  unfold listing
  rw [List.length_cons, List.length_cons, List.length_mapIdx]

theorem listing_file (there : files[k]? = some f) : (listing files)[k + 2]? = some (k + 2, f.name) := by
  change (files.mapIdx fun k f => (k + 2, f.name))[k]? = some (k + 2, f.name)
  rw [List.getElem?_mapIdx, there]
  rfl

theorem Made.entry {name : List Byte} {j : Nat} (made : Made files img)
    (listed : (listing files)[k]? = some (inum, name)) (inside : j < direntSize) :
    entryOf (fileByte img.image img.inodes ROOTINO) k j = mkDirent inum name j := by
  have byte := rootBytes_entry listed inside
  rw [← made.entries, List.getElem?_map, Option.map_eq_some_iff] at byte
  obtain ⟨position, here, byte⟩ := byte
  obtain ⟨_, here⟩ := List.getElem?_eq_some_iff.mp here
  rw [List.getElem_range] at here
  rw [entryOf, slice_apply inside, here, byte]

/- The root directory has an entry for the file, and it is the only one. -/
theorem Made.carries (made : Made files img) (few : files.length ≤ NINODES - 2) (there : files[k]? = some f) :
    Carries (entryOf (fileByte img.image img.inodes ROOTINO) (k + 2)) f.name ∧
      deInum (entryOf (fileByte img.image img.inodes ROOTINO) (k + 2)) = k + 2 := by
  have entry (j : Nat) (inside : j < direntSize) := made.entry (listing_file there) inside
  have below := (List.getElem?_eq_some_iff.mp there).1
  have number := deInum_written entry
  rw [Nat.mod_eq_of_lt (by change files.length ≤ 198 at few; omega)] at number
  refine ⟨⟨?_, deName_written entry⟩, number⟩
  rw [number]
  omega

theorem Made.carries_only {j : Nat} (made : Made files img) (distinct : (files.map Input.name).Nodup)
    (proper : ∀ f ∈ files, Proper f) (there : files[k]? = some f) (inside : j < files.length + 2)
    (carries : Carries (entryOf (fileByte img.image img.inodes ROOTINO) j) f.name) : j = k + 2 := by
  rw [← length_listing] at inside
  rcases entry : (listing files)[j] with ⟨inum, name⟩
  have listed : (listing files)[j]? = some (inum, name) := by rw [List.getElem?_eq_getElem inside, entry]
  have same := deName_written fun i less => made.entry listed less
  exact listing_unique distinct proper there listed (same.symm.trans carries.2)

theorem Made.ends_dirlookup (made : Made files img) (few : files.length ≤ NINODES - 2)
    (distinct : (files.map Input.name).Nodup) (proper : ∀ f ∈ files, Proper f)
    (mounted : Mounted img.image s dp) (there : files[k]? = some f) :
    ∃ ip off t, Ends (dirlookup dp f.name) s [] (some (ip, off)) t ∧ Referred img.image t ip (k + 2) := by
  obtain ⟨carries, number⟩ := made.carries few there
  have below := (List.getElem?_eq_some_iff.mp there).1
  have loaded : (s.icache dp).d = img.inodes ROOTINO := by
    rw [mounted.root.2.2, made.super]
    rfl
  have length := length_rootBytes files
  have lists : Lists Mode.silent (· = s) dp (fileByte img.image img.inodes ROOTINO) (rootBytes files).length := by
    rintro _ j rfl inside
    have read : Ends (readi dp (j * direntSize) direntSize) _ [] _ _ := made.ends_readi few mounted.volume loaded
      (by rw [made.root.1]; decide) (by rw [written, if_pos rfl, ← Nat.succ_mul]; exact inside)
    exact wp_of_quiet read ⟨rfl, rfl⟩
  have reaches : k + 2 < Fs.entries (img.inodes ROOTINO).size.toNat := by
    have within := (made.written_small (i := ROOTINO) few).2
    rw [written, if_pos rfl, length] at within
    have rounds := le_entries within
    omega
  have scan : wp Mode.silent (lookupFrom dp f.name (Fs.entries (img.inodes ROOTINO).size.toNat) (0 * direntSize))
      (fun r t => ∃ ip off, r = some (ip, off) ∧ Referred img.image t ip (k + 2)) s := by
    refine wp_lookupFrom lists rfl (fun j _ before => ?_) (fun j t same _ _ hit before => ?_) fun t _ none => ?_
    · rw [length]
      refine Nat.mul_le_mul_right _ (Nat.succ_le_of_lt ?_)
      by_contra past
      exact before (k + 2) (Nat.zero_le _) (by omega) carries
    · have reached : j ≤ k + 2 := by
        by_contra past
        exact before (k + 2) (Nat.zero_le _) (by omega) carries
      obtain rfl := made.carries_only distinct proper there (by omega) hit
      have other : k + 2 ≠ ROOTINO := by
        change k + 2 ≠ 1
        omega
      obtain ⟨ip, u, ends, referred⟩ := mounted.ends_iget other
      rw [same, number]
      exact wp_of_quiet (ends.seq rfl) ⟨ip, _, rfl, referred⟩
    · exact absurd carries (none (k + 2) (Nat.zero_le _) (by omega))
  have whole : wp Mode.silent (dirlookup dp f.name)
      (fun r t => ∃ ip off, r = some (ip, off) ∧ Referred img.image t ip (k + 2)) s := by
    unfold dirlookup
    refine wp_get_bind ?_
    rw [loaded, if_neg (not_not.mpr made.root.1)]
    rwa [Nat.zero_mul] at scan
  obtain ⟨_, t, ends, ip, off, rfl, referred⟩ := ends_of_silent whole
  exact ⟨ip, off, t, ends, referred⟩

theorem Made.listed_inode (made : Made files img) (few : files.length ≤ NINODES - 2) (there : files[k]? = some f) :
    IBLOCK (k + 2) mkfsSb < FSSIZE ∧ k + 2 < mkfsSb.ninodes ∧ (img.inodes (k + 2)).type = T_FILE ∧
      (img.inodes (k + 2)).size.toNat = f.bytes.length := by
  have below := (List.getElem?_eq_some_iff.mp there).1
  have inside : k + 2 < mkfsSb.ninodes := by
    change k + 2 < 200
    change files.length ≤ 198 at few
    omega
  obtain ⟨bytes, type⟩ := made.listed k f there
  have range := formatted_mkfs.iblock inside
  have top : mkfsSb.bmapstart < FSSIZE := by decide
  refine ⟨range.2.trans top, inside, type, ?_⟩
  rw [← bytes, State.contents, Fs.contents, List.length_map, List.length_range]

/- Reading a file that a lookup has found, from its start. -/
theorem Made.ends_read (made : Made files img) (few : files.length ≤ NINODES - 2) (there : files[k]? = some f)
    (referred : Referred img.image t ip (k + 2)) {n : Nat} (long : f.bytes.length ≤ n) (whole : n < 2 ^ 32) :
    ∃ dst u, Ends (do ilock ip; readi ip 0 n) t [] ((f.bytes.length : Int), dst) u ∧
      (u.icache ip).d.size.toNat = f.bytes.length ∧ (List.range f.bytes.length).map dst = f.bytes := by
  obtain ⟨disk, inside, type, size⟩ := made.listed_inode few there
  obtain ⟨bytes, -⟩ := made.listed k f there
  rw [← made.super] at disk inside
  have known : inodeOf img.image (decodeSb (img.image 1)) (k + 2) = img.inodes (k + 2) := by
    rw [made.super]
    rfl
  obtain ⟨u, lock, volume, loaded⟩ := referred.ends_ilock disk inside (by rw [known, type]; decide)
  rw [known] at loaded
  have plain : (img.inodes (k + 2)).type ≠ T_DEV := by
    rw [type]
    decide
  have read : Ends (readi ip 0 f.bytes.length) u [] _ u := made.ends_readi few volume loaded plain
    (by rw [written, if_neg (by change k + 2 ≠ 1; omega), size, Nat.zero_add])
  have clamped : readi ip 0 n u = _ := readi_clamped (by rwa [loaded]) (Nat.zero_le _) (by rwa [Nat.zero_add])
    (by rwa [loaded, size, Nat.zero_add])
  rw [loaded, size, Nat.sub_zero] at clamped
  refine ⟨_, u, lock.seq (clamped.trans read), by rw [loaded, size], ?_⟩
  rw [← bytes, State.contents, Fs.contents, List.length_map, List.length_range]
  refine List.map_congr_left fun i less => ?_
  rw [slice_apply (List.mem_range.mp less), Nat.zero_add]

/-- What mkfs writes, the kernel finds: each file by its name in the root directory, with its
bytes and its size; and the free map splits the disk at the first block not given out. -/
theorem kernel_reads_image (few : files.length ≤ NINODES - 2) (distinct : (files.map Input.name).Nodup)
    (proper : ∀ f ∈ files, Proper f) (ran : result files = some img) :
    (∀ s dp, Mounted img.image s dp → ∀ f ∈ files, ∃ ip off t, Ends (dirlookup dp f.name) s [] (some (ip, off)) t ∧
      ∀ n, f.bytes.length ≤ n → n < 2 ^ 32 →
        ∃ dst u, Ends (do ilock ip; readi ip 0 n) t [] ((f.bytes.length : Int), dst) u ∧
          (u.icache ip).d.size.toNat = f.bytes.length ∧ (List.range f.bytes.length).map dst = f.bytes) ∧
    ∃ first, (∀ b < FSSIZE, used img.image (decodeSb (img.image 1)) b = decide (b < first)) ∧
      ∀ x, place img.image (inodeOf img.image (decodeSb (img.image 1))) x < first := by
  have made := made_of_result few ran
  refine ⟨fun s dp mounted f listed => ?_, img.freeblock, ?_, fun x => ?_⟩
  · obtain ⟨k, there⟩ := List.mem_iff_getElem?.mp listed
    obtain ⟨ip, off, t, found, referred⟩ := made.ends_dirlookup few distinct proper mounted there
    exact ⟨ip, off, t, found, fun n long whole => made.ends_read few there referred long whole⟩
  · rw [made.super]
    exact made.marked
  · rw [made.super]
    by_cases none : place img.image img.inodes x = 0
    · have first := made.bound.1
      have positive : 0 < nmeta := by decide
      exact none ▸ (by omega)
    · exact (made.range x none).2

/- One file of three bytes, and the kernel over an image with the root directory in slot 0. -/
def smallFile : Input := ⟨⟨[underscore, 97], by decide⟩, [[104, 105], [10]], by decide⟩

def mountedState (disk : Nat → Block) : FsState :=
  { smallFs with
    disk := disk
    sb := decodeSb (disk 1)
    icache := fun ip =>
      if ip = 0 then ⟨ROOTINO, 1, true, true, inodeOf disk (decodeSb (disk 1)) ROOTINO⟩ else Inode.zero
    udsk := 0
    mdsk := 0
    cstate := .cunused }

theorem mounted_mountedState (disk : Nat → Block) : Mounted disk (mountedState disk) 0 := by
  have root : (mountedState disk).icache 0 = ⟨ROOTINO, 1, true, true, inodeOf disk (decodeSb (disk 1)) ROOTINO⟩ := rfl
  have rest {ip : Nat} (other : ip ≠ 0) : (mountedState disk).icache ip = Inode.zero := if_neg other
  refine ⟨rfl, rfl, by decide, ⟨rfl, Int.one_pos, rfl⟩, ?_, ?_, ?_, 1, by decide, rfl⟩
  · intro ip inside held valid
    by_cases first : ip = 0
    · rw [first, root]
    · rw [rest first] at valid
      exact nomatch valid
  · intro ip inside other
    rw [rest other]
    rfl
  · intro ip inside
    by_cases first : ip = 0
    · rw [first, root]
      change (1 : Int) < maxInt
      decide
    · rw [rest first]
      decide

theorem small_acceptable : Acceptable smallFile := ⟨by decide, by decide⟩

theorem small_proper : Proper smallFile := ⟨by decide, by decide, by decide, by decide⟩

theorem kernel_reads_small : ∃ img s, result [smallFile] = some img ∧ Mounted img.image s 0 ∧
    ∃ ip off t dst u, Ends (dirlookup 0 [97]) s [] (some (ip, off)) t ∧
      Ends (do ilock ip; readi ip 0 100) t [] (3, dst) u ∧ (List.range 3).map dst = [104, 105, 10] := by
  obtain ⟨img, ran⟩ : ∃ img, result [smallFile] = some img :=
    result_of_acceptable (by decide) (by simpa using small_acceptable) (by decide)
  have reads := (kernel_reads_image (by decide) (by decide) (by simpa using small_proper) ran).1 _ 0 (mounted_mountedState img.image)
    smallFile (List.mem_singleton.mpr rfl)
  obtain ⟨ip, off, t, found, reads⟩ := reads
  obtain ⟨dst, u, read, -, bytes⟩ := reads 100 (by decide) (by decide)
  exact ⟨img, _, ran, mounted_mountedState img.image, ip, off, t, dst, u, found, read, bytes⟩

end Kernel

end Xv6c.Mkfs

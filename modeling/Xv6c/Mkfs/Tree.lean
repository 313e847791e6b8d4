import Xv6c.Mkfs.Image

/-! The image that mkfs leaves for a list of files, from its start to its end. -/
namespace Xv6c.Mkfs
open Lib Fs
open Function (update update_self update_of_ne)

/- An entry of a directory, as a list of bytes. -/
def dirent (inum : Nat) (name : List Byte) : List Byte := (List.range direntSize).map (mkDirent inum name)

/- The entries for the files, which are numbered from m on. -/
def direntsFrom : Nat → List Input → List Byte
  | _, [] => []
  | m, f :: files => dirent m f.name ++ direntsFrom (m + 1) files

/- The bytes that mkfs appends for the files. -/
def bytesFor (files : List Input) : Nat := (files.map fun f => direntSize + f.bytes.length).sum

theorem length_dirent (inum : Nat) (name : List Byte) : (dirent inum name).length = direntSize := by
  rw [dirent, List.length_map, List.length_range]

theorem length_direntsFrom (m : Nat) (files : List Input) :
    (direntsFrom m files).length = files.length * direntSize := by
  induction files generalizing m with
  | nil => rfl
  | cons f files ih =>
    rw [direntsFrom, List.length_append, length_dirent, ih, List.length_cons, Nat.add_mul, Nat.one_mul, Nat.add_comm]

/- What mkfs asserts of a file. -/
structure Acceptable (f : Input) : Prop where
  plain : slash ∉ f.arg.bytes
  short : f.bytes.length ≤ MAXFILE * BSIZE

section Files
variable {M : Mode Empty Stop} {s s' s₁ : State} {f : Input} {files : List Input}

/- The files are in the image, with the inodes from freeinode on and entries in the root
directory. -/
structure Stores (s : State) (files : List Input) (s' : State) : Prop where
  built : Built s'
  root : s'.contents ROOTINO = s.contents ROOTINO ++ direntsFrom s.freeinode files
  listed : ∀ k f, files[k]? = some f → s'.contents (s.freeinode + k) = f.bytes ∧
    (s'.inodes (s.freeinode + k)).type = T_FILE
  others : ∀ i < s.freeinode, (s'.inodes i).type = (s.inodes i).type ∧
    (i ≠ ROOTINO → s'.contents i = s.contents i)
  taken : s.freeblock ≤ s'.freeblock ∧ s'.freeblock ≤ s.freeblock + 2 * bytesFor files
  freeinode : s'.freeinode = s.freeinode + files.length

theorem wp_addFile (h : Built s) (few : s.freeinode < NINODES) (root : ROOTINO < s.freeinode)
    (fits : M.fails .assertion ∨ Acceptable f ∧ (s.contents ROOTINO).length + direntSize ≤ MAXFILE * BSIZE)
    (room : M.fails .exit ∨ s.freeblock + 2 * bytesFor [f] ≤ FSSIZE) :
    wp M (addFile ROOTINO f) (fun _ s' => Stores s [f] s') s := by
  have cost : bytesFor [f] = direntSize + f.bytes.length := rfl
  rw [cost] at room
  unfold addFile
  refine wp_ite (fun bad => wp_fault ?_) fun _ => wp_seq (wp_ialloc h few) ?_
  · exact fits.resolve_right fun fine => fine.1.plain bad
  rintro _ s₁ ⟨rfl, made⟩
  have empty : s.contents s.freeinode = [] := by
    refine List.eq_nil_of_length_eq_zero ?_
    rw [length_contents, h.unused _ le_rfl]
    rfl
  have freeblock := made.freeblock
  refine wp_seq (wp_iappend made.built (by rw [made.freeinode]; omega)
    (fits.imp_right fun fine => by rw [made.contents]; exact fine.2) (room.imp_right fun _ => by omega)) ?_
  intro _ s₂ entry
  have taken := entry.taken
  rw [List.length_map, List.length_range] at taken
  have other : s.freeinode ≠ ROOTINO := by omega
  have before : s₂.contents s.freeinode = [] := by
    rw [entry.contents, update_of_ne other, made.contents, empty]
  refine wp_mono (wp_copyFile entry.built (by rw [entry.freeinode, made.freeinode]; omega)
    (fits.imp_right fun fine => ?_) (room.imp_right fun _ => ?_)) fun _ s' copied => ?_
  · rw [before, List.length_nil, Nat.zero_add]
    exact fine.1.short
  · change s₂.freeblock + 2 * f.bytes.length ≤ FSSIZE
    omega
  have final : s'.contents = update (update s.contents ROOTINO (s.contents ROOTINO ++ dirent s.freeinode f.name))
      s.freeinode f.bytes := by
    rw [copied.contents, before, entry.contents, made.contents]
    rfl
  refine ⟨copied.built, ?_, fun k g listed => ?_, fun i below => ⟨?_, fun notRoot => ?_⟩, ?_, ?_⟩
  · rw [final, update_of_ne (Ne.symm other), update_self, direntsFrom, direntsFrom, List.append_nil]
  · obtain ⟨rfl, rfl⟩ : k = 0 ∧ f = g := by
      cases k with
      | zero => exact ⟨rfl, Option.some.inj listed⟩
      | succ k => exact nomatch listed
    rw [Nat.add_zero]
    refine ⟨by rw [final, update_self], ?_⟩
    rw [copied.types, entry.types, made.types, if_pos rfl]
  · rw [copied.types, entry.types, made.types, if_neg (by omega)]
  · rw [final, update_of_ne (by omega), update_of_ne notRoot]
  · have more := copied.taken
    change s₂.freeblock ≤ s'.freeblock ∧ s'.freeblock ≤ s₂.freeblock + 2 * f.bytes.length at more
    rw [cost]
    omega
  · rw [copied.freeinode, entry.freeinode, made.freeinode, List.length_singleton]

theorem Stores.cons (first : Stores s [f] s₁) (second : Stores s₁ files s') (root : ROOTINO < s.freeinode) :
    Stores s (f :: files) s' := by
  have next : s₁.freeinode = s.freeinode + 1 := first.freeinode
  refine ⟨second.built, ?_, fun k g listed => ?_, fun i below => ⟨?_, fun notRoot => ?_⟩, ?_, ?_⟩
  · rw [second.root, first.root, next]
    simp only [direntsFrom, List.append_nil, List.append_assoc]
  · cases k with
    | zero =>
      obtain ⟨contents, type⟩ := first.listed 0 g listed
      obtain ⟨type', contents'⟩ := second.others (s.freeinode + 0) (by omega)
      exact ⟨(contents' (by omega)).trans contents, type'.trans type⟩
    | succ k =>
      have later := second.listed k g listed
      rwa [next, Nat.add_assoc, Nat.add_comm 1 k] at later
  · rw [(second.others i (by omega)).1, (first.others i below).1]
  · rw [(second.others i (by omega)).2 notRoot, (first.others i below).2 notRoot]
  · have cost : bytesFor (f :: files) = bytesFor [f] + bytesFor files := by simp [bytesFor]
    have := first.taken
    have := second.taken
    omega
  · rw [second.freeinode, next, List.length_cons]
    omega

theorem wp_addFiles (h : Built s) (few : s.freeinode + files.length ≤ NINODES) (root : ROOTINO < s.freeinode)
    (fits : M.fails .assertion ∨ (∀ f ∈ files, Acceptable f) ∧
      (s.contents ROOTINO).length + files.length * direntSize ≤ MAXFILE * BSIZE)
    (room : M.fails .exit ∨ s.freeblock + 2 * bytesFor files ≤ FSSIZE) :
    wp M (addFiles ROOTINO files) (fun _ s' => Stores s files s') s := by
  induction files generalizing s with
  | nil =>
    refine wp_pure ⟨h, (List.append_nil _).symm, fun k g listed => (nomatch listed), fun _ _ => ⟨rfl, fun _ => rfl⟩,
      ⟨le_rfl, Nat.le_add_right _ _⟩, rfl⟩
  | cons f files ih =>
    have cost : bytesFor (f :: files) = bytesFor [f] + bytesFor files := by simp [bytesFor]
    rw [List.length_cons] at few fits
    rw [Nat.add_mul, Nat.one_mul] at fits
    unfold addFiles
    refine wp_seq (wp_addFile h (by omega) root (fits.imp_right fun fine => ?_) (room.imp_right fun _ => by omega)) ?_
    · exact ⟨fine.1 f List.mem_cons_self, by omega⟩
    intro _ s₁ first
    have next : s₁.freeinode = s.freeinode + 1 := first.freeinode
    have length : (s₁.contents ROOTINO).length = (s.contents ROOTINO).length + direntSize := by
      rw [first.root, List.length_append, length_direntsFrom, List.length_singleton, Nat.one_mul]
    have taken := first.taken
    refine wp_mono (ih first.built (by omega) (by omega) (fits.imp_right fun fine => ?_)
      (room.imp_right fun _ => by omega)) fun _ s' second => first.cons second root
    exact ⟨fun g listed => fine.1 g (List.mem_cons_of_mem f listed), by omega⟩

end Files

section Main
variable {M : Mode Empty Stop} {s s' : State} {files : List Input}

theorem wp_clear {n i : Nat} (blank : s.image = fun _ => zeros) (length : s.length = i) :
    wp M (clear n i) (fun _ s' => s' = { s with length := i + n }) s := by
  induction n generalizing s i with
  | zero =>
    refine wp_pure ?_
    rw [Nat.add_zero, ← length]
  | succ n ih =>
    unfold clear wsect
    have image : update s.image i zeros = s.image := by
      rw [blank]
      exact Function.update_eq_self i _
    have longer : max s.length (i + 1) = i + 1 := by omega
    refine wp_bind (wp_modify ?_)
    rw [image, longer]
    refine wp_mono (ih blank rfl) ?_
    rintro _ _ rfl
    rw [Nat.add_assoc, Nat.add_comm 1 n]

/- The image before the first inode. -/
def blankState : State := ⟨update (fun _ => zeros) 1 (encodeSb mkfsSb), FSSIZE, 1, nmeta⟩

theorem blank_image {b : Nat} (other : b ≠ 1) : blankState.image b = zeros := by
  simp only [blankState, update_of_ne other]

theorem blank_super : blankState.image 1 = encodeSb mkfsSb := by
  simp only [blankState, update_self]

theorem blank_inodes (i : Nat) : blankState.inodes i = .zero := by
  unfold State.inodes inodeOf
  split
  · rename_i inside
    obtain ⟨low, -⟩ := formatted_mkfs.iblock inside
    rw [blank_image (by omega), getDinode_zeros]
  · rfl

theorem blank_place (x : Nat × Nat) : place blankState.image blankState.inodes x = 0 := by
  rw [place_eq, blank_inodes, placeOf_zero]

theorem built_blank : Built blankState := by
  have bmap := bmapstart_lt
  refine ⟨⟨fun x y some => absurd (blank_place x) some, fun x some => absurd (blank_place x) some, le_rfl,
    fun b high => blank_image ?_, fun b low _ => blank_image ?_, blank_super, rfl⟩,
    fun i r _ => ?_, by decide, fun i => ?_, fun i _ => blank_inodes i, by decide⟩
  · have : 1 < nmeta := by decide
    have high : nmeta ≤ b := high
    omega
  · have : 1 < mkfsSb.bmapstart := by decide
    omega
  · rw [blank_place, blank_inodes]
    exact ⟨fun some => absurd rfl some, fun small => absurd small (Nat.not_lt_zero _)⟩
  · rw [blank_inodes]
    exact Nat.zero_le _

/- The bytes of the root directory before its size is rounded up. -/
def rootBytes (files : List Input) : List Byte :=
  dirent ROOTINO dot ++ dirent ROOTINO dotdot ++ direntsFrom 2 files

theorem length_rootBytes (files : List Input) : (rootBytes files).length = (files.length + 2) * direntSize := by
  rw [rootBytes, List.length_append, List.length_append, length_dirent, length_dirent, length_direntsFrom, Nat.add_mul]
  omega

theorem bit_markFirst (n i : Nat) : bit (markFirst n) i = decide (i < n) := by
  induction n with
  | zero => exact bit_zeros i
  | succ n ih =>
    rw [markFirst, bit_setBit, ih, ← Bool.decide_or]
    exact decide_eq_decide.mpr (by omega)

/- The image of mkfs. -/
structure Made (files : List Input) (s : State) : Prop where
  apart : Apart (place s.image s.inodes)
  range : ∀ x, place s.image s.inodes x ≠ 0 →
    nmeta ≤ place s.image s.inodes x ∧ place s.image s.inodes x < s.freeblock
  bound : nmeta ≤ s.freeblock ∧ s.freeblock < BSIZE * 8
  marked : ∀ b < FSSIZE, used s.image mkfsSb b = decide (b < s.freeblock)
  super : decodeSb (s.image 1) = mkfsSb
  filled : ∀ i r, r < MAXFILE → (place s.image s.inodes (i, r) ≠ 0 ↔
    r * BSIZE < if i = ROOTINO then (rootBytes files).length else (s.inodes i).size.toNat)
  root : (s.inodes ROOTINO).type = T_DIR ∧
    (s.inodes ROOTINO).size.toNat = ((rootBytes files).length / BSIZE + 1) * BSIZE
  entries : (List.range (rootBytes files).length).map (fileByte s.image s.inodes ROOTINO) = rootBytes files
  listed : ∀ k f, files[k]? = some f → s.contents (k + 2) = f.bytes ∧ (s.inodes (k + 2)).type = T_FILE
  small : ∀ i, i ≠ ROOTINO → (s.inodes i).size.toNat ≤ MAXFILE * BSIZE
  unused : ∀ i, files.length + 2 ≤ i → s.inodes i = .zero

theorem few_short (few : files.length ≤ NINODES - 2) : (rootBytes files).length ≤ NINODES * direntSize := by
  rw [length_rootBytes]
  exact Nat.mul_le_mul_right _ (by change files.length + 2 ≤ 200; change files.length ≤ 198 at few; omega)

/- What roundRoot and balloc leave. -/
def State.rounded (s : State) : State :=
  s.put ROOTINO { s.inodes ROOTINO with
    size := BitVec.ofNat 32 (((s.inodes ROOTINO).size.toNat / BSIZE + 1) * BSIZE) }

def State.marked (s : State) : State :=
  { s with image := update s.image mkfsSb.bmapstart (markFirst s.freeblock) }

theorem root_known : ROOTINO < NINODES := by decide

theorem inodes_rounded : s.rounded.inodes = update s.inodes ROOTINO { s.inodes ROOTINO with
    size := BitVec.ofNat 32 (((s.inodes ROOTINO).size.toNat / BSIZE + 1) * BSIZE) } := inodes_put root_known

theorem addrs_rounded (j : Nat) : (s.rounded.inodes j).addrs = (s.inodes j).addrs := by
  rw [inodes_rounded]
  exact update_same (g := Dinode.addrs) (by rfl) j

theorem image_marked {b : Nat} (other : b ≠ mkfsSb.bmapstart) : s.marked.image b = s.image b := by
  simp only [State.marked, update_of_ne other]

theorem inodes_marked : s.marked.inodes = s.inodes :=
  inodeOf_congr formatted_mkfs fun _ _ below => image_marked (Nat.ne_of_lt below)

theorem Sound.marked {ino : Nat → Dinode} (h : Sound s ino) :
    place s.marked.image ino = place s.image ino ∧ fileBlock s.marked.image ino = fileBlock s.image ino := by
  have bmap := bmapstart_lt
  have beside (x : Nat × Nat) (some : place s.image ino x ≠ 0) : place s.image ino x ≠ mkfsSb.bmapstart := by
    have range := h.range x some
    omega
  have same : place s.marked.image ino = place s.image ino := place_beside fun j => beside (j, MAXFILE)
  refine ⟨same, fileBlock_congr fun j q _ => stored_congr (congrFun same _) fun some => ?_⟩
  exact image_marked (beside _ some)

theorem Built.final (h : Built s) :
    place s.rounded.marked.image s.rounded.marked.inodes = place s.image s.inodes ∧
      fileBlock s.rounded.marked.image s.rounded.marked.inodes = fileBlock s.image s.inodes := by
  have sound : Sound s s.rounded.inodes :=
    h.sound.change (place_congr addrs_rounded) (fun _ _ => rfl) (fun _ _ _ => rfl) rfl
  have moved : Sound s.rounded s.rounded.inodes := sound.put root_known
  obtain ⟨placed, data⟩ := moved.marked
  rw [inodes_marked, placed, data]
  refine ⟨?_, ?_⟩
  · exact (place_put sound root_known).trans (place_congr addrs_rounded)
  · exact (fileBlock_put sound root_known).trans (fileBlock_addrs addrs_rounded)

theorem used_marked (h : Sound s s.inodes) (bound : s.freeblock < BSIZE * 8) {b : Nat} (inside : b < FSSIZE) :
    used s.marked.image mkfsSb b = decide (b < s.freeblock) := by
  have range : mkfsSb.bmapstart ≤ BBLOCK b mkfsSb ∧ BBLOCK b mkfsSb < dataStart mkfsSb := bblock_range inside
  have start : dataStart mkfsSb = nmeta := by decide
  unfold used
  by_cases low : b < BPB
  · have first : BBLOCK b mkfsSb = mkfsSb.bmapstart := by
      unfold BBLOCK
      rw [Nat.div_eq_of_lt low, Nat.zero_add]
    rw [first, Nat.mod_eq_of_lt low]
    simp only [State.marked, update_self]
    exact bit_markFirst _ _
  · have block : BBLOCK b mkfsSb ≠ mkfsSb.bmapstart := by
      have positive : 0 < b / BPB := Nat.div_pos (Nat.le_of_not_lt low) (by decide)
      unfold BBLOCK
      omega
    rw [image_marked block, h.bitmap _ range.1 (start ▸ range.2), bit_zeros]
    refine (decide_eq_false ?_).symm
    change ¬ b < BSIZE * 8 at low
    omega

theorem made_of_stores {first : State} (few : files.length ≤ NINODES - 2) (stores : Stores first files s)
    (root : first.contents ROOTINO = dirent ROOTINO dot ++ dirent ROOTINO dotdot)
    (type : (first.inodes ROOTINO).type = T_DIR) (numbered : first.freeinode = 2) (bound : s.freeblock < BSIZE * 8) :
    Made files s.rounded.marked := by
  obtain ⟨placed, data⟩ := stores.built.final
  have contents : s.contents ROOTINO = rootBytes files := by
    rw [stores.root, root, numbered, rootBytes]
  have size : (s.inodes ROOTINO).size.toNat = (rootBytes files).length := by
    rw [← contents, length_contents]
  have others {i : Nat} (notRoot : i ≠ ROOTINO) : s.rounded.marked.inodes i = s.inodes i := by
    rw [inodes_marked, inodes_rounded, update_of_ne notRoot]
  have rootNow : s.rounded.marked.inodes ROOTINO = { s.inodes ROOTINO with
      size := BitVec.ofNat 32 (((s.inodes ROOTINO).size.toNat / BSIZE + 1) * BSIZE) } := by
    rw [inodes_marked, inodes_rounded, update_self]
  have bytes : fileByte s.rounded.marked.image s.rounded.marked.inodes = fileByte s.image s.inodes := by
    unfold fileByte
    rw [data]
  refine ⟨?_, ?_, ⟨stores.built.sound.first, bound⟩, fun b inside => ?_, ?_, fun i r below => ?_, ⟨?_, ?_⟩, ?_,
    fun k f listed => ⟨?_, ?_⟩, fun i notRoot => ?_, fun i high => ?_⟩
  · rw [placed]
    exact stores.built.sound.apart
  · rw [placed]
    exact stores.built.sound.range
  · have sound : Sound s.rounded s.rounded.inodes := by
      refine Sound.put ?_ root_known
      exact stores.built.sound.change (place_congr addrs_rounded) (fun _ _ => rfl) (fun _ _ _ => rfl) rfl
    exact used_marked sound bound inside
  · rw [image_marked (by decide), State.rounded, put_image root_known (Or.inl le_rfl), stores.built.sound.super]
    exact decodeSb_encode_mkfs
  · rw [placed, stores.built.filled i r below]
    by_cases here : i = ROOTINO
    · rw [if_pos here, here, size]
    · rw [if_neg here, others here]
  · rw [rootNow]
    exact ((stores.others ROOTINO (by rw [numbered]; decide)).1).trans type
  · rw [rootNow]
    change (BitVec.ofNat 32 (((s.inodes ROOTINO).size.toNat / BSIZE + 1) * BSIZE)).toNat = _
    rw [size, BitVec.toNat_ofNat]
    have short := few_short few
    have blocks : (rootBytes files).length / BSIZE ≤ NINODES * direntSize / BSIZE := Nat.div_le_div_right short
    refine Nat.mod_eq_of_lt (lt_of_le_of_lt (Nat.mul_le_mul_right BSIZE (Nat.succ_le_succ blocks)) ?_)
    decide
  · rw [bytes, ← size]
    exact contents
  · have known := (stores.listed k f listed).1
    rw [numbered, Nat.add_comm] at known
    rw [← known]
    unfold State.contents Fs.contents
    rw [bytes, others (by change k + 2 ≠ 1; omega)]
  · rw [others (by change k + 2 ≠ 1; omega), Nat.add_comm, ← numbered]
    exact (stores.listed k f listed).2
  · rw [others notRoot]
    exact stores.built.small i
  · rw [others (by change i ≠ 1; omega)]
    refine stores.built.unused i ?_
    rw [stores.freeinode, numbered, Nat.add_comm]
    exact high

theorem wp_main (few : files.length ≤ NINODES - 2)
    (fits : M.fails .assertion ∨ (∀ f ∈ files, Acceptable f) ∧
      nmeta + 2 * (2 * direntSize + bytesFor files) < BSIZE * 8)
    (room : M.fails .exit ∨ nmeta + 2 * (2 * direntSize + bytesFor files) ≤ FSSIZE) :
    wp M (main files) (fun _ s' => Made files s') start := by
  have top : NINODES * direntSize ≤ MAXFILE * BSIZE := by decide
  have short := few_short few
  rw [length_rootBytes, Nat.add_mul] at short
  unfold main
  refine wp_seq (wp_clear rfl rfl) ?_
  rintro _ _ rfl
  refine wp_bind (wp_wsect (by decide) ?_)
  change wp M _ _ blankState
  refine wp_seq (wp_ialloc built_blank (by decide)) ?_
  rintro rootino s₁ ⟨here, made⟩
  obtain rfl : rootino = ROOTINO := here
  have freeblock : s₁.freeblock = nmeta := made.freeblock
  have number : s₁.freeinode = 2 := made.freeinode
  have empty : s₁.contents ROOTINO = [] := by
    refine List.eq_nil_of_length_eq_zero ?_
    rw [made.contents, length_contents, blank_inodes]
    rfl
  refine wp_ite (fun other => absurd rfl other) fun _ => ?_
  refine wp_seq (wp_iappend made.built (by rw [number]; decide) (Or.inr ?_) (room.imp_right fun _ => by omega)) ?_
  · rw [empty]
    decide
  intro _ s₂ first
  have taken := first.taken
  rw [List.length_map, List.length_range] at taken
  have one : s₂.contents ROOTINO = dirent ROOTINO dot := by
    rw [first.contents, update_self, empty]
    rfl
  have number : s₂.freeinode = 2 := first.freeinode.trans number
  refine wp_seq (wp_iappend first.built (by rw [number]; decide) (Or.inr ?_) (room.imp_right fun _ => by omega)) ?_
  · rw [one, length_dirent]
    decide
  intro _ s₃ second
  have taken' := second.taken
  rw [List.length_map, List.length_range] at taken'
  have two : s₃.contents ROOTINO = dirent ROOTINO dot ++ dirent ROOTINO dotdot := by
    rw [second.contents, update_self, one]
    rfl
  have number : s₃.freeinode = 2 := second.freeinode.trans number
  have type : (s₃.inodes ROOTINO).type = T_DIR := by
    rw [second.types, first.types, made.types]
    rfl
  refine wp_seq (wp_addFiles second.built ?_ (by rw [number]; decide) (fits.imp_right fun fine => ?_)
    (room.imp_right fun _ => by omega)) ?_
  · rw [number]
    change 2 + files.length ≤ 200
    change files.length ≤ 198 at few
    omega
  · refine ⟨fine.1, ?_⟩
    rw [two, List.length_append, length_dirent, length_dirent]
    omega
  intro _ s₄ stores
  have known : ROOTINO < NINODES := by decide
  have length := stores.built.sound.length
  unfold roundRoot balloc
  refine wp_bind (wp_rinode_bind length known (wp_winode length known (wp_get_bind ?_)))
  refine wp_ite (fun large => wp_fault ?_) fun fine => wp_wsect ?_ ?_
  · refine fits.resolve_right fun small => ?_
    change BSIZE * 8 ≤ s₄.freeblock at large
    have := stores.taken
    omega
  · change mkfsSb.bmapstart < s₄.length
    rw [length]
    decide
  · exact made_of_stores few stores two type number (Nat.lt_of_not_le fine)

def final : Except Stop (Unit × State) → Option State
  | .ok (_, s) => some s
  | .error _ => none

theorem final_some {r : Except Stop (Unit × State)} : final r = some s ↔ r = .ok ((), s) := by
  cases r with
  | error e => simp [final]
  | ok p =>
    obtain ⟨⟨⟩, t⟩ := p
    simp [final]

/- The image file that mkfs leaves, if it ends well. -/
def result (files : List Input) : Option State := final (main files start).2

theorem made_of_result (few : files.length ≤ NINODES - 2) (ran : result files = some s) : Made files s := by
  have whole := wp_main (M := ⟨fun _ => True, fun _ => True, fun _ => True⟩) few (Or.inl trivial) (Or.inl trivial)
  have made := wp_value whole (fun _ => trivial) (final_some.mp ran)
  exact made

theorem result_of_acceptable (few : files.length ≤ NINODES - 2) (acceptable : ∀ f ∈ files, Acceptable f)
    (room : nmeta + 2 * (2 * direntSize + bytesFor files) < BSIZE * 8) : ∃ s, result files = some s := by
  have disk : BSIZE * 8 ≤ FSSIZE := by decide
  have whole := wp_main (M := ⟨fun _ => True, fun _ => True, fun _ => False⟩) few (Or.inr ⟨acceptable, room⟩)
    (Or.inr (by omega))
  obtain ⟨⟨⟩, s, ended, -⟩ := wp_sure whole (fun _ => trivial) fun _ => id
  exact ⟨s, final_some.mpr ended⟩

end Main

section Holes
variable {files : List Input} {s : State}

/- Every block below the size of an inode in use is there, and is marked. -/
def NoHoles (disk : Nat → Block) (sb : Superblock) : Prop :=
  ∀ i < sb.ninodes, (inodeOf disk sb i).type ≠ 0 →
    ∀ bn < ((inodeOf disk sb i).size.toNat + BSIZE - 1) / BSIZE,
      bn < MAXFILE ∧ placeOf disk (inodeOf disk sb i) bn ≠ 0 ∧
        used disk sb (placeOf disk (inodeOf disk sb i) bn) = true

theorem Made.present {i bn : Nat} (h : Made files s) (below : bn < MAXFILE)
    (inside : bn * BSIZE < if i = ROOTINO then (rootBytes files).length else (s.inodes i).size.toNat) :
    placeOf s.image (s.inodes i) bn ≠ 0 ∧ used s.image mkfsSb (placeOf s.image (s.inodes i) bn) = true := by
  have some := (h.filled i bn below).mpr inside
  have range := h.range _ some
  have bound := h.bound.2
  have disk : BSIZE * 8 ≤ FSSIZE := by decide
  refine ⟨some, ?_⟩
  rw [h.marked (placeOf s.image (s.inodes i) bn) (lt_of_lt_of_le (range.2.trans bound) disk)]
  exact decide_eq_true range.2

theorem Made.noHoles (made : Made files s) (few : files.length ≤ NINODES - 2) :
    NoHoles s.image mkfsSb ↔ (files.length + 2) % 32 ≠ 0 := by
  have length := length_rootBytes files
  have short := few_short few
  simp only [NINODES, direntSize] at short length
  have rootSize := made.root.2
  have unit : BSIZE = 512 := rfl
  have top : MAXFILE = 140 := rfl
  rw [unit] at rootSize
  constructor
  · intro whole full
    obtain ⟨below, some, -⟩ := whole ROOTINO root_known (by
      rw [show inodeOf s.image mkfsSb ROOTINO = s.inodes ROOTINO from rfl, made.root.1]
      decide) ((rootBytes files).length / 512) (by
      change _ < ((s.inodes ROOTINO).size.toNat + BSIZE - 1) / BSIZE
      rw [rootSize, unit]
      omega)
    have inside := (made.filled ROOTINO _ below).mp some
    rw [if_pos rfl, unit] at inside
    omega
  · intro partly i known type bn inside
    have inside : bn < ((s.inodes i).size.toNat + BSIZE - 1) / BSIZE := inside
    rw [unit] at inside
    by_cases here : i = ROOTINO
    · subst here
      rw [rootSize] at inside
      have below : bn < MAXFILE := by omega
      refine ⟨below, made.present below ?_⟩
      rw [if_pos rfl, unit]
      omega
    · have small := made.small i here
      rw [unit, top] at small
      have below : bn < MAXFILE := by omega
      refine ⟨below, made.present below ?_⟩
      rw [if_neg here, unit]
      omega

/-- The image has no hole below the size of an inode exactly if the entries of the root
directory do not fill its last block. -/
theorem no_holes_iff (few : files.length ≤ NINODES - 2) (ran : result files = some s) :
    NoHoles s.image mkfsSb ↔ (files.length + 2) % 32 ≠ 0 :=
  (made_of_result few ran).noHoles few

theorem no_holes_without_files : ∃ s, result [] = some s ∧ NoHoles s.image mkfsSb := by
  obtain ⟨s, ran⟩ : ∃ s, result [] = some s := result_of_acceptable (by decide) (by simp) (by decide)
  exact ⟨s, ran, (no_holes_iff (by decide) ran).mpr (by decide)⟩

/- An empty file with a name of one letter. -/
def emptyFile (k : Fin 30) : Input :=
  ⟨⟨[BitVec.ofNat 8 (97 + k)], by revert k; decide⟩, [], fun _ none => (nomatch none)⟩

theorem emptyFile_acceptable (k : Fin 30) : Acceptable (emptyFile k) := by
  refine ⟨?_, Nat.zero_le _⟩
  revert k
  decide

/- With thirty files the root directory has 32 entries. -/
theorem root_with_hole :
    ((List.finRange 30).map fun k => (emptyFile k).name).Nodup ∧
    ∃ s, result ((List.finRange 30).map emptyFile) = some s ∧ ¬ NoHoles s.image mkfsSb := by
  have count : ((List.finRange 30).map emptyFile).length = 30 := by rw [List.length_map, List.length_finRange]
  have few : ((List.finRange 30).map emptyFile).length ≤ NINODES - 2 := by
    rw [count]
    decide
  have acceptable : ∀ f ∈ (List.finRange 30).map emptyFile, Acceptable f := by
    intro f listed
    obtain ⟨k, -, rfl⟩ := List.mem_map.mp listed
    exact emptyFile_acceptable k
  obtain ⟨s, ran⟩ := result_of_acceptable few acceptable (by decide +kernel)
  refine ⟨by decide +kernel, s, ran, fun whole => ?_⟩
  have partly := ((made_of_result few ran).noHoles few).mp whole
  rw [count] at partly
  exact partly rfl

end Holes

end Xv6c.Mkfs

import Xv6c.Fs.Growth

/-! itrunc gives the blocks of a file back. While the entries of a block of addresses are
freed, the inode still has it; the file's blocks are then followed as if it had gone. -/
namespace Xv6c.Fs
open Lib
open Function (update update_self update_of_ne)

/- The state behind a bfree of block b. -/
def FsState.freed (s : FsState) (b : Nat) : FsState :=
  { s.logged (BBLOCK b s.sb) (clearBit (s.disk (BBLOCK b s.sb)) (b % BPB)) with
    udsk := if BSIZE < s.udsk then s.udsk - BSIZE else s.udsk }

section Bfree
variable {M : Mode FsEvent Fault} {s : FsState} {ino : Nat → Dinode} {Y : Finset Nat} {b k : Nat}

theorem wp_bfree (grants : Grants M) (h : Owned s.disk s.sb ino) (inside : b < s.sb.size)
    (marked : used s.disk s.sb b = true) (room : Room M s.log Y k) (known : BBLOCK b s.sb ∈ Y) :
    wp M (bfree b) (fun _ t => t = s.freed b ∧ Room M t.log Y k) s := by
  have disk := h.formatted.disk
  have data := h.formatted.data
  have block : s.sb.bmapstart ≤ BBLOCK b s.sb ∧ BBLOCK b s.sb < dataStart s.sb := bblock_range inside
  have credited : (if BSIZE < s.udsk then { s with udsk := s.udsk - BSIZE } else s) =
      { s with udsk := if BSIZE < s.udsk then s.udsk - BSIZE else s.udsk } := by
    split <;> rfl
  have super : { s with sb := decodeSb (s.disk 1), udsk := if BSIZE < s.udsk then s.udsk - BSIZE else s.udsk } =
      { s with udsk := if BSIZE < s.udsk then s.udsk - BSIZE else s.udsk } := by rw [h.super]
  unfold bfree readsb
  refine wp_modify_bind ?_
  rw [credited, bind_assoc]
  refine wp_bread_bind (by decide) (wp_modify_bind ?_)
  change wp M _ _ { s with sb := decodeSb (s.disk 1), udsk := if BSIZE < s.udsk then s.udsk - BSIZE else s.udsk }
  rw [super]
  refine wp_get_bind (wp_bread_bind (by change BBLOCK b s.sb < FSSIZE; omega) ?_)
  rw [if_pos (show bit (s.disk (BBLOCK b s.sb)) (b % BPB) = true from marked)]
  exact wp_logWrite room known (grants.owes _)

end Bfree

/- t is s with the blocks in gone freed, none of which is in the maps of ino. -/
structure Released (ino : Nat → Dinode) (gone : Nat → Prop) (s t : FsState) : Prop where
  owned : Owned t.disk t.sb ino
  sb : t.sb = s.sb
  icache : t.icache = s.icache
  inodes : t.inodes = s.inodes
  frame : ∀ ip, Frame ip s t
  places : place t.disk ino = place s.disk ino
  blocks : fileBlock t.disk ino = fileBlock s.disk ino
  data : ∀ c, dataStart s.sb ≤ c → t.disk c = s.disk c
  marks : ∀ b < s.sb.size, used t.disk s.sb b = true ↔ used s.disk s.sb b = true ∧ ¬ gone b

section Released
variable {M : Mode FsEvent Fault} {s t u : FsState} {ino : Nat → Dinode} {Y : Finset Nat} {b k : Nat}
  {gone more : Nat → Prop}

theorem Released.refl (h : Owned s.disk s.sb ino) (none : ∀ b, ¬ gone b) : Released ino gone s s :=
  ⟨h, rfl, rfl, rfl, fun ip => Frame.refl ip s, rfl, rfl, fun _ _ => rfl, fun b _ => by simp [none b]⟩

theorem Released.trans (first : Released ino gone s t) (second : Released ino more t u) :
    Released ino (fun b => gone b ∨ more b) s u where
  owned := second.owned
  sb := second.sb.trans first.sb
  icache := second.icache.trans first.icache
  inodes := second.inodes.trans first.inodes
  frame ip := (first.frame ip).trans (second.frame ip)
  places := second.places.trans first.places
  blocks := second.blocks.trans first.blocks
  data c low := (second.data c (by rwa [first.sb])).trans (first.data c low)
  marks b inside := by
    have after := second.marks b (by rwa [first.sb])
    rw [first.sb] at after
    rw [after, first.marks b inside, not_or, and_assoc]

theorem released_freed (h : Owned s.disk s.sb ino) (inside : b < s.sb.size) (low : dataStart s.sb ≤ b)
    (free : ∀ x, place s.disk ino x ≠ b) : Released ino (· = b) s (s.freed b) := by
  obtain ⟨owned, places, blocks⟩ := h.clear inside low fun x _ => free x
  have map : s.sb.bmapstart ≤ BBLOCK b s.sb ∧ BBLOCK b s.sb < dataStart s.sb := bblock_range inside
  refine ⟨owned, rfl, rfl, ?_, fun ip => ⟨rfl, fun _ _ => rfl, rfl, rfl, rfl, rfl, rfl⟩, places, blocks, ?_, ?_⟩
  · exact inodes_write h.formatted fun c _ below => update_of_ne (by omega) _ _
  · exact fun c low => update_of_ne (by omega) _ _
  · intro c inside
    change used (update s.disk (BBLOCK b s.sb) (clearBit (s.disk (BBLOCK b s.sb)) (b % BPB))) s.sb c = true ↔ _
    rw [used_clear]
    simp

theorem wp_release (grants : Grants M) (h : Owned s.disk s.sb ino) (inside : b < s.sb.size) (low : dataStart s.sb ≤ b)
    (free : ∀ x, place s.disk ino x ≠ b) (marked : used s.disk s.sb b = true) (room : Room M s.log Y k)
    (known : BBLOCK b s.sb ∈ Y) :
    wp M (bfree b) (fun _ t => Released ino (· = b) s t ∧ Room M t.log Y k) s := by
  refine wp_mono (wp_bfree grants h inside marked room known) ?_
  rintro _ t ⟨rfl, room⟩
  exact ⟨released_freed h inside low free, room⟩

/- A block that can be freed: it is marked, and in no map of ino. -/
structure Loose (s : FsState) (ino : Nat → Dinode) (Y : Finset Nat) (b : Nat) : Prop where
  inside : b < s.sb.size
  low : dataStart s.sb ≤ b
  free : ∀ x, place s.disk ino x ≠ b
  marked : used s.disk s.sb b = true
  known : BBLOCK b s.sb ∈ Y

theorem Loose.after (loose : Loose s ino Y b) (h : Released ino gone s t) (kept : ¬ gone b) : Loose t ino Y b where
  inside := by
    rw [h.sb]
    exact loose.inside
  low := by
    rw [h.sb]
    exact loose.low
  free := by
    rw [h.places]
    exact loose.free
  marked := by
    rw [h.sb]
    exact (h.marks b loose.inside).mpr ⟨loose.marked, kept⟩
  known := by
    rw [h.sb]
    exact loose.known

theorem Released.congr (h : Released ino gone s t) (same : ∀ b, gone b ↔ more b) : Released ino more s t :=
  { h with marks := fun b inside => by rw [h.marks b inside, same b] }

theorem wp_freeIndirect {a : Block} {j n : Nat} (grants : Grants M) (h : Owned s.disk s.sb ino)
    (loose : ∀ l, j ≤ l → l < j + n → word a l ≠ 0 → Loose s ino Y (word a l).toNat)
    (apart : ∀ l m, j ≤ l → l < m → m < j + n → word a l ≠ 0 → word a l ≠ word a m) (room : Room M s.log Y k) :
    wp M (freeIndirect a n j) (fun _ t =>
      Released ino (fun b => ∃ l, j ≤ l ∧ l < j + n ∧ word a l ≠ 0 ∧ b = (word a l).toNat) s t ∧ Room M t.log Y k) s := by
  induction n generalizing s j with
  | zero => exact wp_pure ⟨.refl h fun b ⟨l, low, high, _⟩ => by omega, room⟩
  | succ n ih =>
    rw [freeIndirect]
    dsimp only
    refine wp_ite (fun some => ?_) fun none => ?_
    · have first := loose j (Nat.le_refl j) (by omega) some
      refine wp_seq (wp_release grants h first.inside first.low first.free first.marked room first.known) ?_
      rintro _ t ⟨released, room⟩
      refine wp_mono (ih released.owned (fun l low high some' => ?_) (fun l m low less high => ?_) room) ?_
      · refine (loose l (by omega) (by omega) some').after released fun same => ?_
        exact apart j l (Nat.le_refl j) (by omega) (by omega) some (BitVec.eq_of_toNat_eq same).symm
      · exact apart l m (by omega) less (by omega)
      · rintro _ u ⟨rest, room⟩
        refine ⟨(released.trans rest).congr fun b => ?_, room⟩
        constructor
        · rintro (rfl | ⟨l, low, high, some, same⟩)
          · exact ⟨j, Nat.le_refl j, by omega, some, rfl⟩
          · exact ⟨l, by omega, by omega, some, same⟩
        · rintro ⟨l, low, high, some, same⟩
          rcases Nat.eq_or_lt_of_le low with rfl | later
          · exact Or.inl same
          · exact Or.inr ⟨l, later, by omega, some, same⟩
    · refine wp_mono (ih h (fun l low high => loose l (by omega) (by omega))
        (fun l m low less high => apart l m (by omega) less (by omega)) room) ?_
      rintro _ u ⟨rest, room⟩
      refine ⟨rest.congr fun b => ?_, room⟩
      constructor
      · rintro ⟨l, low, high, some, same⟩
        exact ⟨l, by omega, by omega, some, same⟩
      · rintro ⟨l, low, high, some, same⟩
        rcases Nat.eq_or_lt_of_le low with rfl | later
        · exact absurd some none
        · exact ⟨l, later, by omega, some, same⟩

end Released

/- The positions in gone of inode i, in slot ip, have lost their blocks. -/
structure Cut (ip i : Nat) (gone : Nat → Prop) (s t : FsState) : Prop extends Frame ip s t where
  volume : Volume t.toFileSys
  loaded : Loaded t.toFileSys ip i
  inode : (t.icache ip).d = { (s.icache ip).d with addrs := (t.icache ip).d.addrs }
  others : ∀ j, j ≠ i → t.inodes j = s.inodes j
  blocks : ∀ j, j ≠ i → fileBlock t.disk t.inodes j = fileBlock s.disk s.inodes j
  dropped : ∀ r, gone r → place t.disk t.inodes (i, r) = 0
  kept : ∀ x : Nat × Nat, ¬ (x.1 = i ∧ gone x.2) → place t.disk t.inodes x = place s.disk s.inodes x
  marks : ∀ b < s.sb.size, used t.disk s.sb b = true ↔
    used s.disk s.sb b = true ∧ ¬ ∃ r, gone r ∧ place s.disk s.inodes (i, r) ≠ 0 ∧ b = place s.disk s.inodes (i, r)

section Cut
variable {M : Mode FsEvent Fault} {s t u : FsState} {Y : Finset Nat} {ip i b k : Nat} {gone more : Nat → Prop}

theorem Cut.refl (h : Volume s.toFileSys) (here : Loaded s.toFileSys ip i)
    (none : ∀ r, gone r → place s.disk s.inodes (i, r) = 0) : Cut ip i gone s s where
  toFrame := Frame.refl ip s
  volume := h
  loaded := here
  inode := rfl
  others _ _ := rfl
  blocks _ _ := rfl
  dropped := none
  kept _ _ := rfl
  marks b inside := by
    constructor
    · exact fun marked => ⟨marked, fun ⟨r, here, there, _⟩ => there (none r here)⟩
    · exact fun both => both.1

theorem Cut.trans (first : Cut ip i gone s t) (second : Cut ip i more t u) :
    Cut ip i (fun r => gone r ∨ more r) s u where
  toFrame := first.toFrame.trans second.toFrame
  volume := second.volume
  loaded := second.loaded
  inode := by rw [second.inode, first.inode]
  others j other := (second.others j other).trans (first.others j other)
  blocks j other := (second.blocks j other).trans (first.blocks j other)
  dropped r either := by
    by_cases later : more r
    · exact second.dropped r later
    · rw [second.kept (i, r) fun both => later both.2]
      exact first.dropped r (either.resolve_right later)
  kept x neither := by
    rw [second.kept x fun both => neither ⟨both.1, Or.inr both.2⟩,
      first.kept x fun both => neither ⟨both.1, Or.inl both.2⟩]
  marks b inside := by
    have after := second.marks b (by rwa [first.sb])
    rw [first.sb] at after
    rw [after, first.marks b inside]
    constructor
    · rintro ⟨⟨marked, before⟩, behind⟩
      refine ⟨marked, ?_⟩
      rintro ⟨r, either, some, same⟩
      by_cases early : gone r
      · exact before ⟨r, early, some, same⟩
      · have unchanged := first.kept (i, r) fun both => early both.2
        exact behind ⟨r, either.resolve_left early, by rwa [unchanged], by rwa [unchanged]⟩
    · rintro ⟨marked, neither⟩
      refine ⟨⟨marked, fun ⟨r, early, there, same⟩ => neither ⟨r, Or.inl early, there, same⟩⟩, ?_⟩
      rintro ⟨r, later, some, same⟩
      have late : ¬ gone r := fun early => some (first.dropped r early)
      rw [first.kept (i, r) fun both => late both.2] at some same
      exact neither ⟨r, Or.inr later, some, same⟩

theorem kept_or_dropped {disk : Nat → Block} {ino ino' : Nat → Dinode}
    (dropped : ∀ r, gone r → place disk ino' (i, r) = 0)
    (kept : ∀ x : Nat × Nat, ¬ (x.1 = i ∧ gone x.2) → place disk ino' x = place disk ino x) (x : Nat × Nat) :
    place disk ino' x = place disk ino x ∨ place disk ino' x = 0 := by
  by_cases both : x.1 = i ∧ gone x.2
  · refine Or.inr ?_
    rw [show x = (i, x.2) from Prod.ext both.1 rfl]
    exact dropped x.2 both.2
  · exact Or.inl (kept x both)

/- The blocks have been freed, and now the inode forgets them. -/
theorem Released.cut {e : Dinode} {freed : Nat → Prop} (h : Volume s.toFileSys) (here : Loaded s.toFileSys ip i)
    (rest : e = { (s.icache ip).d with addrs := e.addrs })
    (dropped : ∀ r, gone r → place s.disk (update s.inodes i e) (i, r) = 0)
    (kept : ∀ x : Nat × Nat, ¬ (x.1 = i ∧ gone x.2) → place s.disk (update s.inodes i e) x = place s.disk s.inodes x)
    (released : Released (update s.inodes i e) freed s t)
    (exact : ∀ b, freed b ↔ ∃ r, gone r ∧ place s.disk s.inodes (i, r) ≠ 0 ∧ b = place s.disk s.inodes (i, r)) :
    Cut ip i gone s (t.put ip { t.icache ip with d := e }) := by
  have used : e.type ≠ 0 := by
    rw [rest]
    exact here.used
  have size : e.size = (s.inodes i).size := by rw [rest, here.inodes h.cache]
  have cached : Cache t.toFileSys := ⟨by rw [released.icache]; exact h.cache.unique, by
    rw [released.icache, released.sb]
    exact h.cache.known⟩
  have holds : Loaded t.toFileSys ip i := by
    refine ⟨here.inside, ?_, ?_⟩
    · unfold FileSys.Holds
      rw [released.icache]
      exact here.holds
    · rw [released.icache]
      exact here.used
  obtain ⟨loaded, inodes⟩ := holds.put cached used
  rw [released.inodes] at inodes
  have before (x : Nat × Nat) : place t.disk (update s.inodes i e) x = place s.disk (update s.inodes i e) x :=
    congrFun released.places x
  refine ⟨(released.frame ip).trans (frame_put e), ⟨?_, cached.put rfl id, fun j => ?_⟩, loaded, ?_, fun j other => ?_,
    fun j other => ?_, fun r here => ?_, fun x other => ?_, fun b inside => ?_⟩
  · rw [inodes]
    exact released.owned
  · rw [inodes, Function.update_apply]
    split
    · rw [size]
      exact h.small i
    · exact h.small j
  · rw [icache_put]
    exact rest
  · rw [inodes, update_of_ne other]
  · rw [inodes]
    refine (congrFun released.blocks j).trans (funext fun q => ?_)
    unfold fileBlock
    have same := kept (j, q) fun both => other both.1
    rw [stored_congr same fun _ => rfl]
  · rw [inodes]
    exact (before (i, r)).trans (dropped r here)
  · rw [inodes]
    exact (before x).trans (kept x other)
  · exact (released.marks b inside).trans (by rw [exact b])

theorem Cut.congr (h : Cut ip i gone s t) (same : ∀ r, gone r ↔ more r) : Cut ip i more s t := by
  obtain rfl : gone = more := funext fun r => propext (same r)
  exact h

/- The free map blocks of inode i's blocks are in Y. -/
def MapsIn (s : FsState) (i : Nat) (Y : Finset Nat) : Prop :=
  ∀ r, place s.disk s.inodes (i, r) ≠ 0 → BBLOCK (place s.disk s.inodes (i, r)) s.sb ∈ Y

theorem MapsIn.cut (h : MapsIn s i Y) (cut : Cut ip i gone s t) : MapsIn t i Y := by
  intro r some
  have kept : ¬ gone r := fun here => some (cut.dropped r here)
  rw [cut.kept (i, r) fun both => kept both.2] at some ⊢
  rw [cut.sb]
  exact h r some

/- A block of inode i that an inode e in its place does not have. -/
theorem Volume.loose {e : Dinode} {r : Nat} (h : Volume s.toFileSys) (maps : MapsIn s i Y)
    (some : place s.disk s.inodes (i, r) ≠ 0) (dropped : place s.disk (update s.inodes i e) (i, r) = 0)
    (less : ∀ x, place s.disk (update s.inodes i e) x = place s.disk s.inodes x ∨
      place s.disk (update s.inodes i e) x = 0) :
    Loose s (update s.inodes i e) Y (place s.disk s.inodes (i, r)) := by
  refine ⟨(h.owned.range _ some).2, (h.owned.range _ some).1, fun x same => ?_, h.owned.marked _ some, maps r some⟩
  rcases less x with kept | none
  · rw [kept] at same
    have equal := h.owned.apart (i, r) x some same.symm
    rw [← equal, dropped] at kept
    exact some kept.symm
  · exact some (same.symm.trans none)

theorem wp_freeDirect {j n : Nat} (grants : Grants M) (h : Volume s.toFileSys) (here : Loaded s.toFileSys ip i)
    (direct : j + n ≤ NDIRECT) (maps : MapsIn s i Y) (room : Room M s.log Y k) :
    wp M (freeDirect ip n j) (fun _ t => Cut ip i (fun r => j ≤ r ∧ r < j + n) s t ∧ Room M t.log Y k) s := by
  induction n generalizing s j with
  | zero => exact wp_pure ⟨.refl h here fun r both => by omega, room⟩
  | succ n ih =>
    have direct' : j < NDIRECT := by omega
    have inode := here.inodes h.cache
    have position : place s.disk s.inodes (i, j) = ((s.icache ip).d.addrs (Fin.ofNat 13 j)).toNat := by
      rw [place_eq, inode]
      exact placeOf_direct direct'
    have joined (r : Nat) : (r = j ∨ j + 1 ≤ r ∧ r < j + 1 + n) ↔ j ≤ r ∧ r < j + (n + 1) := by omega
    rw [freeDirect]
    refine wp_get_bind ?_
    dsimp only
    refine wp_ite (fun some => ?_) fun none => ?_
    · have placed : place s.disk (update s.inodes i ((s.inodes i).setAddr (Fin.ofNat 13 j) 0)) =
          update (place s.disk s.inodes) (i, j) 0 := place_update (placeOf_setDirect direct') fun _ _ => rfl
      rw [inode] at placed
      have there : place s.disk s.inodes (i, j) ≠ 0 := by
        rw [position]
        exact toNat_ne_zero some
      have dropped (r : Nat) (same : r = j) :
          place s.disk (update s.inodes i ((s.icache ip).d.setAddr (Fin.ofNat 13 j) 0)) (i, r) = 0 := by
        rw [same, placed, update_self]
      have kept (x : Nat × Nat) (other : ¬ (x.1 = i ∧ x.2 = j)) :
          place s.disk (update s.inodes i ((s.icache ip).d.setAddr (Fin.ofNat 13 j) 0)) x = place s.disk s.inodes x := by
        rw [placed, update_of_ne]
        rintro rfl
        exact other ⟨rfl, rfl⟩
      have less := kept_or_dropped dropped kept
      have loose := h.loose maps there (dropped j rfl) less
      rw [position] at loose
      refine wp_seq (wp_release grants (h.owned.shrink less) loose.inside loose.low loose.free loose.marked room
        loose.known) ?_
      rintro _ t ⟨released, room⟩
      have first := released.cut h here rfl dropped kept fun b => by
        constructor
        · intro same
          exact ⟨j, rfl, there, same.trans position.symm⟩
        · rintro ⟨r, rfl, -, same⟩
          exact same.trans position
      have copy : (t.icache ip).d = (s.icache ip).d := by rw [released.icache]
      refine wp_setDinode_bind ?_
      rw [copy]
      refine wp_mono (ih first.volume first.loaded (by omega) (maps.cut first) room) ?_
      rintro _ u ⟨rest, room⟩
      exact ⟨(first.trans rest).congr joined, room⟩
    · have zero : place s.disk s.inodes (i, j) = 0 := by
        rw [position, not_not.mp none]
        rfl
      refine wp_mono (ih h here (by omega) maps room) ?_
      rintro _ t ⟨rest, room⟩
      have first : Cut ip i (· = j) s s := .refl h here fun r same => same ▸ zero
      exact ⟨(first.trans rest).congr joined, room⟩

theorem placeOf_dropTable {disk : Nat → Block} {d : Dinode} {r : Nat} :
    placeOf disk (d.setAddr indirect 0) r = if r < NDIRECT then placeOf disk d r else 0 := by
  unfold placeOf
  by_cases direct : r < NDIRECT
  · rw [if_pos direct, if_pos direct, if_pos direct, addrs_setAddr, update_of_ne (direct_ne_indirect direct)]
  · rw [if_neg direct, if_neg direct, addrs_setAddr, update_self, if_pos rfl]
    split
    · rfl
    · split <;> rfl

/- itrunc on the block of addresses. -/
theorem wp_freeTable {B : Type} {f : FsM B} {Q : B → FsState → Prop} (grants : Grants M) (h : Volume s.toFileSys)
    (here : Loaded s.toFileSys ip i) (some : (s.icache ip).d.addrs indirect ≠ 0) (maps : MapsIn s i Y)
    (room : Room M s.log Y k)
    (next : ∀ t, Cut ip i (NDIRECT ≤ ·) s t → Room M t.log Y k → wp M f Q t) :
    wp M (do
      let a ← bread ((s.icache ip).d.addrs indirect).toNat
      freeIndirect a NINDIRECT 0
      bfree ((s.icache ip).d.addrs indirect).toNat
      setDinode ip fun d => { d with addrs := update d.addrs indirect 0 }
      f) Q s := by
  have inode := here.inodes h.cache
  have disk := h.owned.formatted.disk
  have table : place s.disk s.inodes (i, MAXFILE) = ((s.icache ip).d.addrs indirect).toNat := by
    rw [place_eq, placeOf_table, inode]
  have there : place s.disk s.inodes (i, MAXFILE) ≠ 0 := by
    rw [table]
    exact toNat_ne_zero some
  have entry (l : Nat) (less : l < NINDIRECT) : place s.disk s.inodes (i, NDIRECT + l) =
      (word (s.disk ((s.icache ip).d.addrs indirect).toNat) l).toNat := by
    rw [place_eq, inode, placeOf_entry some (Nat.le_add_right _ _) (Nat.add_lt_add_left less _), placeOf_table,
      Nat.add_sub_cancel_left]
  have dropped (r : Nat) (high : NDIRECT ≤ r) :
      place s.disk (update s.inodes i ((s.icache ip).d.setAddr indirect 0)) (i, r) = 0 := by
    rw [place_eq, update_self, placeOf_dropTable, if_neg (Nat.not_lt.mpr high)]
  have kept (x : Nat × Nat) (other : ¬ (x.1 = i ∧ NDIRECT ≤ x.2)) :
      place s.disk (update s.inodes i ((s.icache ip).d.setAddr indirect 0)) x = place s.disk s.inodes x := by
    rw [place_eq, place_eq]
    by_cases same : x.1 = i
    · rw [same, update_self, placeOf_dropTable, if_pos (Nat.lt_of_not_le fun high => other ⟨same, high⟩), inode]
    · rw [update_of_ne same]
  have less := kept_or_dropped dropped kept
  have owned := h.owned.shrink less
  have range := h.owned.range _ there
  rw [table] at range
  refine wp_bread_bind (by omega) ?_
  refine wp_seq (wp_freeIndirect (Y := Y) (k := k) grants owned (fun l _ high nonzero => ?_)
    (fun l m _ order high nonzero equal => ?_) room) ?_
  · rw [Nat.zero_add] at high
    have position := entry l high
    rw [← position]
    refine h.loose maps ?_ (dropped _ (Nat.le_add_right _ _)) less
    rw [position]
    exact toNat_ne_zero nonzero
  · rw [Nat.zero_add] at high
    have first := entry l (by omega)
    have second := entry m high
    have same := h.owned.apart (i, NDIRECT + l) (i, NDIRECT + m) (by rw [first]; exact toNat_ne_zero nonzero)
      (by rw [first, second, equal])
    have := congrArg Prod.snd same
    dsimp only at this
    omega
  · rintro _ t ⟨entries, room⟩
    have loose := h.loose maps there (dropped MAXFILE (by decide)) less
    rw [table] at loose
    have loose := loose.after entries fun ⟨l, _, high, nonzero, equal⟩ => by
      rw [Nat.zero_add] at high
      have position := entry l high
      have same := h.owned.apart (i, MAXFILE) (i, NDIRECT + l) there (table.trans (equal.trans position.symm))
      have := congrArg Prod.snd same
      change NDIRECT + NINDIRECT = NDIRECT + l at this
      omega
    refine wp_seq (wp_release grants entries.owned loose.inside loose.low loose.free loose.marked room loose.known) ?_
    rintro _ u ⟨last, room⟩
    have released := entries.trans last
    have cut := released.cut h here rfl dropped kept fun b => by
      constructor
      · rintro (⟨l, _, high, nonzero, equal⟩ | equal)
        · rw [Nat.zero_add] at high
          have position := entry l high
          refine ⟨NDIRECT + l, Nat.le_add_right _ _, ?_, equal.trans position.symm⟩
          rw [position]
          exact toNat_ne_zero nonzero
        · exact ⟨MAXFILE, by decide, there, equal.trans table.symm⟩
      · rintro ⟨r, high, placed, equal⟩
        rcases Nat.lt_trichotomy r MAXFILE with below | rfl | above
        · obtain ⟨l, rfl⟩ := Nat.exists_eq_add_of_le high
          have less : l < NINDIRECT := Nat.lt_of_add_lt_add_left below
          rw [entry l less] at placed equal
          exact Or.inl ⟨l, Nat.zero_le l, by rwa [Nat.zero_add], fun zero => placed (by rw [zero]; rfl), equal⟩
        · exact Or.inr (equal.trans table)
        · refine absurd ?_ placed
          rw [place_eq]
          unfold placeOf
          rw [if_neg (by change ¬ r < 12; change 140 < r at above; omega), if_neg (by omega), if_neg (by omega)]
    have copy : (u.icache ip).d = (s.icache ip).d := by rw [released.icache]
    refine wp_setDinode_bind ?_
    rw [copy]
    exact next _ cut room

/- What itrunc leaves. -/
structure Emptied (ip i : Nat) (s t : FsState) : Prop extends Frame ip s t where
  volume : Volume t.toFileSys
  loaded : Loaded t.toFileSys ip i
  inode : (t.icache ip).d = { (s.icache ip).d with
    addrs := fun _ => 0
    size := 0 }
  others : ∀ j, j ≠ i → t.inodes j = s.inodes j
  blocks : ∀ j, j ≠ i → fileBlock t.disk t.inodes j = fileBlock s.disk s.inodes j
  marks : ∀ b < s.sb.size, used t.disk s.sb b = true ↔
    used s.disk s.sb b = true ∧ ¬ ∃ r, place s.disk s.inodes (i, r) ≠ 0 ∧ b = place s.disk s.inodes (i, r)

theorem addrs_of_unplaced {disk : Nat → Block} {d : Dinode} (none : ∀ r, placeOf disk d r = 0) :
    d.addrs = fun _ => 0 := by
  funext x
  refine BitVec.eq_of_toNat_eq ?_
  by_cases direct : x.val < NDIRECT
  · have zero := none x.val
    rw [placeOf_direct direct] at zero
    rwa [show Fin.ofNat 13 x.val = x from Fin.ext (Nat.mod_eq_of_lt x.isLt)] at zero
  · have zero := none MAXFILE
    rw [placeOf_table] at zero
    rwa [show x = indirect from Fin.ext (by change x.val = 12; change ¬ x.val < 12 at direct; omega)]

theorem wp_itrunc (grants : Grants M) (h : Volume s.toFileSys) (here : Loaded s.toFileSys ip i) (maps : MapsIn s i Y)
    (known : IBLOCK i s.sb ∈ Y) (room : Room M s.log Y k) :
    wp M (itrunc ip) (fun _ t => Emptied ip i s t ∧ Room M t.log Y k) s := by
  have finish (t : FsState) (cut : Cut ip i (fun _ => True) s t) (room : Room M t.log Y k) :
      wp M (do
        setDinode ip fun d => { d with size := 0 }
        iupdate ip) (fun _ t => Emptied ip i s t ∧ Room M t.log Y k) t := by
    have none (r : Nat) : placeOf t.disk (t.icache ip).d r = 0 := by
      rw [← cut.loaded.inodes cut.volume.cache]
      exact cut.dropped r trivial
    have addrs := addrs_of_unplaced none
    obtain ⟨volume, loaded, inodes, blocks⟩ := cut.volume.put (e := { (t.icache ip).d with size := 0 }) cut.loaded
      cut.loaded.used rfl (Nat.zero_le _)
    have block : IBLOCK i t.sb ∈ Y := by rwa [cut.sb]
    refine wp_setDinode_bind (wp_mono (wp_iupdate grants volume loaded block room) ?_)
    rintro _ u ⟨state, volume, loaded, same, blocks', marks, room⟩
    have copy : (u.icache ip).d = { (t.icache ip).d with size := 0 } := by
      rw [state]
      exact congrArg Inode.d (icache_put t ip _)
    have frame : Frame ip s u := by
      rw [state]
      exact (cut.toFrame.trans (frame_put _)).trans (frame_logged _ _)
    refine ⟨⟨frame, volume, loaded, ?_, fun j other => ?_, fun j other => ?_, fun b inside => ?_⟩, room⟩
    · have whole := cut.inode
      rw [addrs] at whole
      rw [copy, whole]
    · rw [same, inodes, update_of_ne other, cut.others j other]
    · rw [blocks', inodes, ← cut.blocks j other]
      exact congrFun blocks j
    · have unchanged := marks b (by change b < t.sb.size; rwa [cut.sb])
      have before := cut.marks b inside
      change used u.disk t.sb b = used t.disk t.sb b at unchanged
      rw [cut.sb] at unchanged
      rw [unchanged, before]
      simp only [true_and]
  unfold itrunc
  refine wp_seq (wp_freeDirect grants h here (by decide) maps room) ?_
  rintro _ t ⟨first, room⟩
  refine wp_get_bind ?_
  dsimp only
  have all (r : Nat) : (0 ≤ r ∧ r < 0 + NDIRECT ∨ NDIRECT ≤ r) ↔ True := iff_of_true (by omega) trivial
  refine wp_ite (fun some => ?_) fun none => ?_
  · exact wp_freeTable grants first.volume first.loaded some (maps.cut first) room fun u second room =>
      finish u ((first.trans second).congr all) room
  · have second : Cut ip i (NDIRECT ≤ ·) t t := .refl first.volume first.loaded fun r high => by
      rw [place_eq, first.loaded.inodes first.volume.cache]
      unfold placeOf
      rw [if_neg (Nat.not_lt.mpr high), if_pos (not_not.mp none)]
      split
      · rfl
      · split
        · rw [not_not.mp none]
          rfl
        · rfl
    exact finish t ((first.trans second).congr all) room

end Cut

end Xv6c.Fs

import Xv6c.Fs.Reading
import Xv6c.Fs.Room

/-! How files grow. Where balloc succeeds, bmap gives a position of a file a block that no
file has, filled with zeros; so it changes nothing that can be read, and writei changes
the bytes that it is given. -/
namespace Xv6c.Fs
open Lib
open Function (update update_self update_of_ne)

/- Nothing is said of runs in which balloc refuses or finds no block. -/
structure Grants (M : Mode FsEvent Fault) : Prop where
  refused : ¬ M.good .refused
  full : M.fails (.panic "balloc: out of blocks")
  owes : ∀ e, M.owes e

/- The state behind a balloc of block b. -/
def FsState.given (s : FsState) (b : Nat) : FsState :=
  { s with
    disk := allocate s.disk s.sb b
    log := { s.log with lh := Log.absorb (Log.absorb s.log.lh (BBLOCK b s.sb)) b }
    udsk := (s.udsk + BSIZE) % 2 ^ 32 }

section Balloc
variable {M : Mode FsEvent Fault} {s t : FsState} {ino : Nat → Dinode} {Y : Finset Nat} {b k n : Nat}

/- b is the first free block. -/
structure Given (M : Mode FsEvent Fault) (s : FsState) (Y : Finset Nat) (k b : Nat) (t : FsState) : Prop where
  state : t = s.given b
  inside : b < s.sb.size
  unused : used s.disk s.sb b = false
  free : freeBlocks s.disk s.sb = b :: freeBlocks t.disk t.sb
  room : Room M t.log (insert b Y) k

theorem wp_ballocFrom (grants : Grants M) (h : Owned s.disk s.sb ino) (rest : b + n = s.sb.size)
    (low : ∀ c < b, used s.disk s.sb c = true) (room : Room M s.log Y (k + 1))
    (maps : ∀ c ∈ (freeBlocks s.disk s.sb).head?, BBLOCK c s.sb ∈ Y) :
    wp M (ballocFrom n b) (fun b t => Given M s Y k b t) s := by
  induction n generalizing b with
  | zero => exact wp_fault grants.full
  | succ n ih =>
    have inside : b < s.sb.size := by omega
    have disk := h.formatted.disk
    have data := h.formatted.data
    have block : s.sb.bmapstart ≤ BBLOCK b s.sb ∧ BBLOCK b s.sb < dataStart s.sb := bblock_range inside
    refine wp_get_bind (wp_bread_bind (by omega) (wp_ite (fun taken => ?_) fun unused => ?_))
    · refine ih (by omega) fun c less => ?_
      rcases Nat.lt_succ_iff_lt_or_eq.mp less with earlier | rfl
      · exact low c earlier
      · exact taken
    · have unused : used s.disk s.sb b = false := Bool.eq_false_iff.mpr unused
      have free := freeBlocks_take inside low unused (h.allocate inside unused).marked
      have map : BBLOCK b s.sb ∈ insert b Y := Finset.mem_insert_of_mem (maps b (by rw [free]; rfl))
      refine wp_seq (wp_logWrite (room.take b) map (grants.owes _)) ?_
      rintro _ t ⟨rfl, room⟩
      unfold bzero
      rw [bind_assoc]
      refine wp_bread_bind (by omega) (wp_seq (wp_logWrite room (Finset.mem_insert_self b Y) (grants.owes _)) ?_)
      rintro _ t ⟨rfl, room⟩
      exact wp_modify_bind (wp_pure ⟨rfl, inside, unused, free, room⟩)

theorem wp_balloc (grants : Grants M) (h : Owned s.disk s.sb ino) (room : Room M s.log Y (k + 1))
    (maps : ∀ c ∈ (freeBlocks s.disk s.sb).head?, BBLOCK c s.sb ∈ Y) :
    wp M balloc (fun b t => Given M s Y k b t) s := by
  unfold balloc
  refine wp_get_bind (wp_ite (fun _ => ?_) fun _ => ?_)
  · exact wp_emit_bind fun refused => absurd refused grants.refused
  · exact wp_ballocFrom grants h (Nat.zero_add _) (fun c none => by omega) room maps

end Balloc

/- The file system between two calls. -/
structure Volume (fs : FileSys) : Prop where
  owned : Owned fs.disk fs.sb fs.inodes
  cache : Cache fs
  small : ∀ i, (fs.inodes i).size.toNat ≤ MAXFILE * BSIZE

theorem Volume.relog {fs : FileSys} (h : Volume fs) (l : Log.LogStruct) : Volume { fs with log := l } :=
  ⟨h.owned, ⟨h.cache.unique, h.cache.known⟩, h.small⟩

/- Of the cache only the copy in slot ip may have changed, and of the log the list of blocks. -/
structure Frame (ip : Nat) (s t : FsState) : Prop where
  sb : t.sb = s.sb
  slots : ∀ jp, jp ≠ ip → t.icache jp = s.icache jp
  slot : t.icache ip = { s.icache ip with d := (t.icache ip).d }
  log : t.log = { s.log with lh := t.log.lh }
  input : t.input = s.input
  mdsk : t.mdsk = s.mdsk
  cstate : t.cstate = s.cstate

/- Positions of inode i, in slot ip, may have been given blocks. -/
structure Extended (ip i : Nat) (s t : FsState) : Prop extends Frame ip s t where
  volume : Volume t.toFileSys
  loaded : Loaded t.toFileSys ip i
  inode : (t.icache ip).d = { (s.icache ip).d with addrs := (t.icache ip).d.addrs }
  others : ∀ j, j ≠ i → t.inodes j = s.inodes j
  blocks : fileBlock t.disk t.inodes = fileBlock s.disk s.inodes
  places : ∀ x, place s.disk s.inodes x ≠ 0 → place t.disk t.inodes x = place s.disk s.inodes x
  free : freeBlocks t.disk t.sb <:+ freeBlocks s.disk s.sb

section Frames
variable {ip i : Nat} {s t u : FsState}

theorem Frame.refl (ip : Nat) (s : FsState) : Frame ip s s := ⟨rfl, fun _ _ => rfl, rfl, rfl, rfl, rfl, rfl⟩

theorem Frame.trans (first : Frame ip s t) (second : Frame ip t u) : Frame ip s u where
  sb := second.sb.trans first.sb
  slots jp other := (second.slots jp other).trans (first.slots jp other)
  slot := by rw [second.slot, first.slot]
  log := by rw [second.log, first.log]
  input := second.input.trans first.input
  mdsk := second.mdsk.trans first.mdsk
  cstate := second.cstate.trans first.cstate

theorem frame_put (e : Dinode) : Frame ip s (s.put ip { s.icache ip with d := e }) :=
  ⟨rfl, fun _ other => icache_put_ne other, by rw [icache_put], rfl, rfl, rfl, rfl⟩

theorem frame_logged (b : Nat) (v : Block) : Frame ip s (s.logged b v) :=
  ⟨rfl, fun _ _ => rfl, rfl, rfl, rfl, rfl, rfl⟩

theorem Extended.refl (h : Volume s.toFileSys) (here : Loaded s.toFileSys ip i) : Extended ip i s s :=
  ⟨Frame.refl ip s, h, here, rfl, fun _ _ => rfl, rfl, fun _ _ => rfl, List.suffix_refl _⟩

theorem Extended.trans (first : Extended ip i s t) (second : Extended ip i t u) : Extended ip i s u where
  toFrame := first.toFrame.trans second.toFrame
  volume := second.volume
  loaded := second.loaded
  inode := by rw [second.inode, first.inode]
  others j other := (second.others j other).trans (first.others j other)
  blocks := second.blocks.trans first.blocks
  places x some := by
    have before := first.places x some
    rw [second.places x (by rwa [before]), before]
  free := second.free.trans first.free

end Frames

/- Room for a call that gives inode i, in slot ip, k more blocks at most. -/
structure Reserve (M : Mode FsEvent Fault) (s : FsState) (ip : Nat) (Y : Finset Nat) (k : Nat) : Prop where
  maps : ∀ c ∈ (freeBlocks s.disk s.sb).take k, BBLOCK c s.sb ∈ Y
  inode : IBLOCK (s.icache ip).inum s.sb ∈ Y
  table : (s.icache ip).d.addrs indirect ≠ 0 → ((s.icache ip).d.addrs indirect).toNat ∈ Y
  room : Room M s.log Y k

section Bmap
variable {M : Mode FsEvent Fault} {s t : FsState} {Y : Finset Nat} {ip i b k : Nat}

theorem Volume.given (h : Volume s.toFileSys) (inside : b < s.sb.size) (unused : used s.disk s.sb b = false) :
    Volume (s.given b).toFileSys ∧ (s.given b).inodes = s.inodes := by
  have allocated := h.owned.allocate inside unused
  have low := allocated.low
  obtain ⟨_, _, last⟩ := h.owned.formatted.start
  have same : (s.given b).inodes = s.inodes := inodes_write h.owned.formatted fun c _ below => by
    have map : c ≠ BBLOCK b s.sb := by
      have := (bblock_range inside).1
      omega
    have other : c ≠ b := by omega
    change allocate s.disk s.sb b c = s.disk c
    unfold allocate
    rw [update_of_ne other, update_of_ne map]
  refine ⟨⟨?_, ⟨h.cache.unique, h.cache.known⟩, ?_⟩, same⟩
  · rw [same]
    exact allocated.owned
  · rw [same]
    exact h.small

theorem Loaded.given (here : Loaded s.toFileSys ip i) : Loaded (s.given b).toFileSys ip i :=
  { here with }

theorem Given.extended (given : Given M s Y k b t) (h : Volume s.toFileSys) (here : Loaded s.toFileSys ip i) :
    Extended ip i s (s.given b) := by
  obtain ⟨rfl, inside, unused, free, -⟩ := given
  obtain ⟨volume, same⟩ := h.given inside unused
  have allocated := h.owned.allocate inside unused
  refine ⟨⟨rfl, fun _ _ => rfl, rfl, rfl, rfl, rfl, rfl⟩, volume, here.given, rfl, fun j _ => congrFun same j, ?_,
    fun x _ => ?_, by rw [free]; exact List.suffix_cons _ _⟩
  · rw [same]
    exact allocated.blocks
  · rw [same]
    exact congrFun allocated.places x

/- The new block is put into the inode. -/
theorem Volume.extended_put {e : Dinode} {r : Nat} (h : Volume s.toFileSys) (here : Loaded s.toFileSys ip i)
    (rest : e = { (s.icache ip).d with addrs := e.addrs })
    (placed : place s.disk (update s.inodes i e) = update (place s.disk s.inodes) (i, r) b)
    (blocks : fileBlock s.disk (update s.inodes i e) = fileBlock s.disk s.inodes)
    (none : place s.disk s.inodes (i, r) = 0) (low : dataStart s.sb ≤ b) (inside : b < s.sb.size)
    (marked : used s.disk s.sb b = true) (free : ∀ x, place s.disk s.inodes x ≠ b) :
    Extended ip i s (s.put ip { s.icache ip with d := e }) := by
  have used : e.type ≠ 0 := by
    rw [rest]
    exact here.used
  have size : e.size = (s.inodes i).size := by
    rw [rest, here.inodes h.cache]
  obtain ⟨loaded, same⟩ := here.put h.cache used
  have cached : Cache (s.put ip { s.icache ip with d := e }).toFileSys := h.cache.put rfl id
  have owned : Owned s.disk s.sb (update s.inodes i e) := h.owned.give rfl (fun _ _ => rfl) placed low inside marked free
  refine ⟨frame_put e, ⟨?_, cached, ?_⟩, loaded, by rw [icache_put]; exact rest, fun j other => ?_, ?_, fun x some => ?_, List.suffix_refl _⟩
  · rw [same]
    exact owned
  · intro j
    rw [same, Function.update_apply]
    split
    · rw [size]
      exact h.small i
    · exact h.small j
  · rw [same, update_of_ne other]
  · rw [same]
    exact blocks
  · rw [same]
    change place s.disk (update s.inodes i e) x = _
    rw [placed, update_of_ne]
    rintro rfl
    exact some none

/- A block of data, or of addresses, is written. -/
theorem Volume.logged_data {c : Nat} {v : Block} (h : Volume s.toFileSys) (data : dataStart s.sb ≤ c) :
    (s.logged c v).inodes = s.inodes ∧ Cache (s.logged c v).toFileSys ∧
      freeBlocks (s.logged c v).disk s.sb = freeBlocks s.disk s.sb := by
  obtain ⟨_, _, last⟩ := h.owned.formatted.start
  refine ⟨inodes_write h.owned.formatted fun b _ below => ?_, ⟨h.cache.unique, h.cache.known⟩, ?_⟩
  · exact update_of_ne (by omega) _ _
  · refine List.filter_congr fun b inside => ?_
    rw [used_congr (List.mem_range.mp inside) fun d _ below => update_of_ne (by omega) _ _]

/- The new block is put into the block of addresses. -/
theorem Volume.extended_entry {a : BitVec 32} {r : Nat} (h : Volume s.toFileSys) (here : Loaded s.toFileSys ip i)
    (some : (s.icache ip).d.addrs indirect ≠ 0) (high : NDIRECT ≤ r) (below : r < MAXFILE)
    (none : place s.disk s.inodes (i, r) = 0) (blank : s.disk a.toNat = zeros) (low : dataStart s.sb ≤ a.toNat)
    (inside : a.toNat < s.sb.size) (marked : used s.disk s.sb a.toNat = true)
    (free : ∀ x, place s.disk s.inodes x ≠ a.toNat) {table : Nat} (block : table = place s.disk s.inodes (i, MAXFILE)) :
    Extended ip i s (s.logged table (setWord (s.disk table) (r - NDIRECT) a)) ∧
      place (s.logged table (setWord (s.disk table) (r - NDIRECT) a)).disk s.inodes =
        update (place s.disk s.inodes) (i, r) a.toNat := by
  have inode := here.inodes h.cache
  have there : place s.disk s.inodes (i, MAXFILE) ≠ 0 := by
    rw [place_eq, inode]
    exact toNat_ne_zero some
  have range := h.owned.range _ there
  rw [← block] at range
  obtain ⟨_, _, last⟩ := h.owned.formatted.start
  obtain ⟨same, cached, free'⟩ := h.logged_data (v := setWord (s.disk table) (r - NDIRECT) a) range.1
  obtain ⟨placed, blocks⟩ := give_entry h.owned.apart (by rwa [inode]) high below none blank free block
  have owned : Owned (update s.disk table (setWord (s.disk table) (r - NDIRECT) a)) s.sb s.inodes :=
    h.owned.give (update_of_ne (by omega) _ _) (fun c inside => used_beside inside (Or.inr range.1)) placed low inside
      marked free
  refine ⟨⟨frame_logged _ _, ⟨?_, cached, ?_⟩, { here with }, rfl,
    fun j _ => congrFun same j, ?_, fun x some => ?_, by change freeBlocks _ s.sb <:+ _; rw [free']⟩, placed⟩
  · rw [same]
    exact owned
  · rw [same]
    exact h.small
  · rw [same]
    exact blocks
  · rw [same]
    refine (congrFun placed x).trans (update_of_ne ?_ _ _)
    rintro rfl
    exact some none

/- One more for the block of addresses, if there is none yet. -/
def credit (d : Dinode) : Nat := if d.addrs indirect = 0 then 1 else 0

theorem Reserve.touch (h : Reserve M s ip Y (k + 1)) (b : Nat) : Reserve M s ip (insert b Y) k where
  maps c inside := Finset.mem_insert_of_mem (h.maps c (List.take_subset_take_left _ (Nat.le_succ k) inside))
  inode := Finset.mem_insert_of_mem h.inode
  table some := Finset.mem_insert_of_mem (h.table some)
  room := h.room.take b

theorem Reserve.less {k' : Nat} (h : Reserve M s ip Y k) (less : k' ≤ k) : Reserve M s ip Y k' :=
  ⟨fun c inside => h.maps c (List.take_subset_take_left _ less inside), h.inode, h.table, h.room.less less⟩

theorem Reserve.given (h : Reserve M s ip Y (k + 1)) (given : Given M s Y k b t) : Reserve M t ip (insert b Y) k where
  maps c inside := by
    refine Finset.mem_insert_of_mem ?_
    rw [given.state]
    refine h.maps c ?_
    rw [given.free, List.take_succ_cons]
    exact List.mem_cons_of_mem _ inside
  inode := by
    rw [given.state]
    exact Finset.mem_insert_of_mem h.inode
  table := by
    rw [given.state]
    exact fun some => Finset.mem_insert_of_mem (h.table some)
  room := given.room

theorem Reserve.put {e : Dinode} (h : Reserve M s ip Y k)
    (table : e.addrs indirect ≠ 0 → (e.addrs indirect).toNat ∈ Y) :
    Reserve M (s.put ip { s.icache ip with d := e }) ip Y k where
  maps := h.maps
  inode := by
    rw [icache_put]
    exact h.inode
  table := by
    rw [icache_put]
    exact table
  room := h.room

theorem Reserve.logged {c : Nat} {v : Block} (h : Reserve M s ip Y k) (volume : Volume s.toFileSys)
    (data : dataStart s.sb ≤ c) (room : Room M (s.logged c v).log Y k) : Reserve M (s.logged c v) ip Y k where
  maps := by
    have same := (volume.logged_data (v := v) data).2.2
    change ∀ d ∈ (freeBlocks (s.logged c v).disk s.sb).take k, _
    rw [same]
    exact h.maps
  inode := h.inode
  table := h.table
  room := room

theorem Reserve.head (h : Reserve M s ip Y (k + 1)) : ∀ c ∈ (freeBlocks s.disk s.sb).head?, BBLOCK c s.sb ∈ Y := by
  intro c first
  refine h.maps c ?_
  rw [Option.mem_def, List.head?_eq_some_iff] at first
  obtain ⟨rest, list⟩ := first
  rw [list, List.take_succ_cons]
  exact List.mem_cons_self

theorem Given.word (h : Owned s.disk s.sb s.inodes) (given : Given M s Y k b t) : (BitVec.ofNat 32 b).toNat = b := by
  have disk := h.formatted.disk
  have limit : FSSIZE < 2 ^ 32 := by decide
  have inside := given.inside
  rw [BitVec.toNat_ofNat, Nat.mod_eq_of_lt (by omega)]

/- A position gets a block by way of an address in the inode. -/
theorem wp_grab {x : Fin 13} {r : Nat} (grants : Grants M) (h : Volume s.toFileSys) (here : Loaded s.toFileSys ip i)
    (reserve : Reserve M s ip Y (k + 1)) (none : place s.disk s.inodes (i, r) = 0)
    (gives : ∀ disk (a : BitVec 32), place disk s.inodes (i, r) = 0 → disk a.toNat = zeros →
      place disk (update s.inodes i ((s.inodes i).setAddr x a)) = update (place disk s.inodes) (i, r) a.toNat ∧
        fileBlock disk (update s.inodes i ((s.inodes i).setAddr x a)) = fileBlock disk s.inodes) :
    wp M (do
      let b ← balloc
      setDinode ip fun d => { d with addrs := update d.addrs x (BitVec.ofNat 32 b) }
      pure b)
      (fun b t => Extended ip i s t ∧ b = place t.disk t.inodes (i, r) ∧ b ≠ 0 ∧
        (t.icache ip).d = (s.icache ip).d.setAddr x (BitVec.ofNat 32 b) ∧ (BitVec.ofNat 32 b).toNat = b ∧
        Reserve M t ip (insert b Y) k) s := by
  refine wp_seq (wp_balloc grants h.owned reserve.room reserve.head) fun b t given => ?_
  obtain rfl := given.state
  have allocated := h.owned.allocate given.inside given.unused
  have first := given.extended h here
  have same := (h.given given.inside given.unused).2
  have low := allocated.low
  obtain ⟨_, _, last⟩ := h.owned.formatted.start
  have word := given.word h.owned
  have unplaced : place (s.given b).disk s.inodes (i, r) = 0 := (congrFun allocated.places (i, r)).trans none
  have blank : (s.given b).disk (BitVec.ofNat 32 b).toNat = zeros := by
    rw [word]
    exact allocate_self
  obtain ⟨placed, blocks⟩ := gives (s.given b).disk (BitVec.ofNat 32 b) unplaced blank
  rw [word, here.inodes h.cache] at placed
  rw [here.inodes h.cache] at blocks
  -- the state with the new address in the copy of the inode
  obtain ⟨u, state⟩ : ∃ u, u = (s.given b).put ip
    { (s.given b).icache ip with d := (s.icache ip).d.setAddr x (BitVec.ofNat 32 b) } := ⟨_, rfl⟩
  have copy : (u.icache ip).d = (s.icache ip).d.setAddr x (BitVec.ofNat 32 b) := by rw [state, icache_put]
  have inodes : u.inodes = update s.inodes i ((s.icache ip).d.setAddr x (BitVec.ofNat 32 b)) := by
    have put := first.loaded.put (d := (s.icache ip).d.setAddr x (BitVec.ofNat 32 b)) first.volume.cache here.used
    rw [state, put.2, same]
  have second : Extended ip i (s.given b) u := by
    rw [state]
    refine first.volume.extended_put (r := r) (b := b) first.loaded rfl ?_ ?_ ?_ low given.inside ?_ fun x => ?_ <;>
      try rw [same]
    · exact placed
    · exact blocks
    · exact unplaced
    · refine (allocated.marked b given.inside).trans ?_
      rw [decide_eq_true rfl, Bool.or_true]
    · exact (congrFun allocated.places x).trans_ne (allocated.free x)
  have block : b = place u.disk u.inodes (i, r) := by
    rw [inodes, state]
    change b = place (s.given b).disk _ _
    rw [placed, update_self]
  have reserves : Reserve M u ip (insert b Y) k := by
    rw [state]
    refine (reserve.given given).put fun some => ?_
    by_cases table : indirect = x
    · rw [← table, addrs_setAddr, update_self, word]
      exact Finset.mem_insert_self b Y
    · rw [addrs_setAddr, update_of_ne table] at some ⊢
      exact Finset.mem_insert_of_mem (reserve.table some)
  refine wp_modify_bind (wp_pure ?_)
  have whole : Extended ip i s u ∧ b = place u.disk u.inodes (i, r) ∧ b ≠ 0 ∧
      (u.icache ip).d = (s.icache ip).d.setAddr x (BitVec.ofNat 32 b) ∧ (BitVec.ofNat 32 b).toNat = b ∧
      Reserve M u ip (insert b Y) k := ⟨first.trans second, block, by omega, copy, word, reserves⟩
  rw [state] at whole
  exact whole

/- What bmap has found or made. -/
structure Mapped (M : Mode FsEvent Fault) (s : FsState) (ip i bn k b : Nat) (t : FsState) : Prop where
  extended : Extended ip i s t
  block : b = place t.disk t.inodes (i, bn)
  some : b ≠ 0
  reserve : ∃ Y, b ∈ Y ∧ Reserve M t ip Y (k + credit (t.icache ip).d)

theorem Mapped.after {bn : Nat} {u : FsState} (first : Extended ip i s t) (second : Mapped M t ip i bn k b u) :
    Mapped M s ip i bn k b u :=
  ⟨first.trans second.extended, second.block, second.some, second.reserve⟩

/- bmap behind the block of addresses. -/
theorem wp_entry {bn table : Nat} (grants : Grants M) (h : Volume s.toFileSys) (here : Loaded s.toFileSys ip i)
    (high : NDIRECT ≤ bn) (below : bn < MAXFILE) (some : (s.icache ip).d.addrs indirect ≠ 0)
    (block : table = place s.disk s.inodes (i, MAXFILE)) (reserve : Reserve M s ip Y (k + 1)) :
    wp M (do
      let a ← bread table
      if word a (bn - NDIRECT) = 0 then
        let b ← balloc
        let a ← bread table
        logWrite table (setWord a (bn - NDIRECT) (BitVec.ofNat 32 b))
        pure b
      else pure (word a (bn - NDIRECT)).toNat) (fun b t => Mapped M s ip i bn k b t) s := by
  have inode := here.inodes h.cache
  have number : table = ((s.icache ip).d.addrs indirect).toNat := by
    rw [block, place_eq, placeOf_table, inode]
  have there : table ≠ 0 := by
    rw [number]
    exact toNat_ne_zero some
  have range := h.owned.range (i, MAXFILE) (by rwa [← block])
  rw [← block] at range
  have disk := h.owned.formatted.disk
  have position : place s.disk s.inodes (i, bn) = (word (s.disk table) (bn - NDIRECT)).toNat := by
    rw [block, place_eq, place_eq, inode]
    exact placeOf_entry some high below
  have zero : credit (s.icache ip).d = 0 := if_neg some
  refine wp_bread_bind (by omega) (wp_ite (fun none => ?_) fun nonzero => wp_pure ?_)
  · rw [none] at position
    refine wp_seq (wp_balloc grants h.owned reserve.room reserve.head) fun b t given => ?_
    obtain rfl := given.state
    have allocated := h.owned.allocate given.inside given.unused
    have first := given.extended h here
    have same := (h.given given.inside given.unused).2
    have word := given.word h.owned
    have places : place (s.given b).disk (s.given b).inodes = place s.disk s.inodes := by
      rw [same]
      exact allocated.places
    have marked : used (s.given b).disk s.sb b = true := by
      refine (allocated.marked b given.inside).trans ?_
      rw [decide_eq_true rfl, Bool.or_true]
    have block' : table = place (s.given b).disk (s.given b).inodes (i, MAXFILE) := by rw [places, block]
    obtain ⟨second, placed⟩ := first.volume.extended_entry (a := BitVec.ofNat 32 b) first.loaded some high below
      (by rw [places]; exact position) (by rw [word]; exact allocate_self) (by rw [word]; exact allocated.low)
      (by rw [word]; exact given.inside) (by rw [word]; exact marked) (by rw [places, word]; exact allocated.free) block'
    have inside : table ∈ insert b Y := Finset.mem_insert_of_mem (number ▸ reserve.table some)
    have reserve := reserve.given given
    refine wp_bread_bind (by omega) (wp_seq (wp_logWrite reserve.room inside (grants.owes _)) ?_)
    rintro _ u ⟨rfl, room⟩
    have low := allocated.low
    obtain ⟨_, _, last⟩ := h.owned.formatted.start
    refine wp_pure ⟨first.trans second, ?_, by omega, _, Finset.mem_insert_self b Y, ?_⟩
    · have inodes := (first.volume.logged_data (v := setWord ((s.given b).disk table) (bn - NDIRECT) (BitVec.ofNat 32 b))
        range.1).1
      rw [inodes, placed, update_self, word]
    · exact zero.symm ▸ reserve.logged first.volume range.1 room
  · refine ⟨.refl h here, position.symm, toNat_ne_zero nonzero, _, Finset.mem_insert_self _ Y, ?_⟩
    rw [zero]
    exact reserve.touch _

theorem wp_bmap {bn : Nat} (grants : Grants M) (h : Volume s.toFileSys) (here : Loaded s.toFileSys ip i)
    (below : bn < MAXFILE) (reserve : Reserve M s ip Y (k + credit (s.icache ip).d + 1)) :
    wp M (bmap ip bn) (fun b t => Mapped M s ip i bn k b t) s := by
  have inode := here.inodes h.cache
  unfold bmap
  refine wp_get_bind (wp_ite (fun direct => ?_) fun high => ?_)
  · have position : place s.disk s.inodes (i, bn) = ((s.icache ip).d.addrs (Fin.ofNat 13 bn)).toNat := by
      rw [place_eq, inode]
      exact placeOf_direct direct
    dsimp only
    refine wp_ite (fun none => ?_) fun some => wp_pure ?_
    · rw [none] at position
      refine wp_mono (wp_grab grants h here reserve position fun disk a none blank => give_direct direct none blank) ?_
      rintro b t ⟨extended, block, some, d, -, reserve⟩
      have table : credit (t.icache ip).d = credit (s.icache ip).d := by
        unfold credit
        rw [d, addrs_setAddr, update_of_ne (direct_ne_indirect direct).symm]
      exact ⟨extended, block, some, _, Finset.mem_insert_self b Y, table ▸ reserve⟩
    · exact ⟨.refl h here, position.symm, toNat_ne_zero some, _, Finset.mem_insert_self _ Y, reserve.touch _⟩
  · rw [if_pos (by change bn - 12 < 128; change bn < 140 at below; omega)]
    dsimp only
    have high := Nat.le_of_not_lt high
    refine wp_ite (fun none => ?_) fun some => ?_
    · have position : place s.disk s.inodes (i, MAXFILE) = 0 := by
        rw [place_eq, placeOf_table, inode, none]
        rfl
      have both : k + credit (s.icache ip).d = k + 1 := by rw [credit, if_pos none]
      rw [both] at reserve
      have whole := wp_seq
        (wp_grab grants h here reserve position fun disk a _ blank => give_table (by rwa [inode]) blank)
        fun table t (made : Extended ip i s t ∧ table = place t.disk t.inodes (i, MAXFILE) ∧ table ≠ 0 ∧
            (t.icache ip).d = (s.icache ip).d.setAddr indirect (BitVec.ofNat 32 table) ∧
            (BitVec.ofNat 32 table).toNat = table ∧ Reserve M t ip (insert table Y) (k + 1)) => by
          obtain ⟨extended, block, some, d, word, reserve⟩ := made
          have there : (t.icache ip).d.addrs indirect ≠ 0 := by
            rw [d, addrs_setAddr, update_self]
            intro zero
            rw [zero] at word
            exact some word.symm
          exact wp_mono (wp_entry grants extended.volume extended.loaded high below there block reserve)
            fun b u mapped => Mapped.after extended mapped
      simp only [bind_assoc] at whole
      exact whole
    · have alone : k + credit (s.icache ip).d + 1 = k + 1 := by rw [credit, if_neg some]
      rw [alone] at reserve
      rw [pure_bind]
      refine wp_entry grants h here high below some ?_ reserve
      rw [place_eq, placeOf_table, inode]

end Bmap

/- Bytes of inode i, in slot ip, have been written. -/
structure Written (ip i off n : Nat) (src : Bytes) (s t : FsState) : Prop extends Frame ip s t where
  volume : Volume t.toFileSys
  loaded : Loaded t.toFileSys ip i
  inode : (t.icache ip).d = { (s.icache ip).d with addrs := (t.icache ip).d.addrs }
  others : ∀ j, j ≠ i → t.inodes j = s.inodes j
  bytes : ∀ j, fileByte t.disk t.inodes j =
    if j = i then copyIn (fileByte s.disk s.inodes i) off n src else fileByte s.disk s.inodes j
  free : freeBlocks t.disk t.sb <:+ freeBlocks s.disk s.sb

section Writing
variable {M : Mode FsEvent Fault} {s t u : FsState} {Y : Finset Nat} {ip i b k off n m : Nat} {src src' : Bytes}

theorem Extended.fileByte (h : Extended ip i s t) : Fs.fileByte t.disk t.inodes = Fs.fileByte s.disk s.inodes := by
  unfold Fs.fileByte
  rw [h.blocks]

theorem Extended.written (first : Extended ip i s t) (second : Written ip i off n src t u) :
    Written ip i off n src s u where
  toFrame := first.toFrame.trans second.toFrame
  volume := second.volume
  loaded := second.loaded
  inode := by rw [second.inode, first.inode]
  others j other := (second.others j other).trans (first.others j other)
  bytes j := by rw [second.bytes, first.fileByte]
  free := second.free.trans first.free

theorem Written.none (h : Volume s.toFileSys) (here : Loaded s.toFileSys ip i) : Written ip i off 0 src s s := by
  refine ⟨Frame.refl ip s, h, here, rfl, fun _ _ => rfl, fun j => ?_, List.suffix_refl _⟩
  rw [copyIn_zero]
  split
  · rename_i same
    rw [same]
  · rfl

/- Two pieces, one behind the other. -/
theorem Written.append (first : Written ip i off m src s t)
    (second : Written ip i (off + m) n (fun j => src (m + j)) t u) : Written ip i off (m + n) src s u where
  toFrame := first.toFrame.trans second.toFrame
  volume := second.volume
  loaded := second.loaded
  inode := by rw [second.inode, first.inode]
  others j other := (second.others j other).trans (first.others j other)
  bytes j := by
    rw [second.bytes]
    split
    · rw [first.bytes i, if_pos rfl, copyIn_append]
    · rename_i other
      rw [first.bytes j, if_neg other]
  free := second.free.trans first.free

/- One piece, into the block that bmap has found. -/
theorem Volume.piece (h : Volume s.toFileSys) (here : Loaded s.toFileSys ip i) (below : off / BSIZE < MAXFILE)
    (block : b = place s.disk s.inodes (i, off / BSIZE)) (some : b ≠ 0) (within : off % BSIZE + m ≤ BSIZE) :
    Written ip i off m src s (s.logged b (copyIn (s.disk b) (off % BSIZE) m src)) := by
  rw [block] at some
  have range := h.owned.range _ some
  rw [← block] at range
  obtain ⟨same, cached, free⟩ := h.logged_data (v := copyIn (s.disk b) (off % BSIZE) m src) range.1
  refine ⟨frame_logged _ _, ⟨?_, cached, ?_⟩, { here with }, rfl,
    fun j _ => congrFun same j, fun j => ?_, by change freeBlocks _ s.sb <:+ _; rw [free]⟩
  · rw [same]
    have owned := h.owned.write (v := copyIn (s.disk b) (off % BSIZE) m src) below some
    rw [← block] at owned
    exact owned
  · rw [same]
    exact h.small
  · rw [same]
    exact write_bytes src h.owned.apart below some within block j

/- The blocks from the one of off on are at most r. -/
theorem wp_writeLoop {left r tot : Nat} (grants : Grants M) (fuel : left ≤ n) (h : Volume s.toFileSys)
    (here : Loaded s.toFileSys ip i) (inside : off + left ≤ MAXFILE * BSIZE)
    (most : 0 < left → off + left ≤ (off / BSIZE + r) * BSIZE)
    (reserve : Reserve M s ip Y (r + credit (s.icache ip).d)) :
    wp M (writeLoop ip src n off left tot) (fun _ t => Written ip i off left (fun j => src (tot + j)) s t ∧
      ∃ Y, Reserve M t ip Y 0) s := by
  induction n generalizing s Y off left r tot with
  | zero =>
    obtain rfl : left = 0 := by omega
    exact wp_pure ⟨.none h here, Y, reserve.less (Nat.zero_le _)⟩
  | succ n ih =>
    rw [writeLoop]
    refine wp_ite (fun none => ?_) fun more => ?_
    · subst none
      exact wp_pure ⟨.none h here, Y, reserve.less (Nat.zero_le _)⟩
    have split := Nat.div_add_mod' off BSIZE
    have partly : off % BSIZE < BSIZE := Nat.mod_lt _ (by decide)
    have below : off / BSIZE < MAXFILE := Nat.lt_of_mul_lt_mul_right (a := BSIZE) (by omega)
    have most := most (by omega)
    cases r with
    | zero =>
      rw [Nat.add_zero] at most
      omega
    | succ r =>
      rw [Nat.add_right_comm] at reserve
      refine wp_seq (wp_bmap grants h here below reserve) fun b t mapped => ?_
      obtain ⟨extended, block, some, Y, known, reserve⟩ := mapped
      have range := extended.volume.owned.range (i, off / BSIZE) (by rwa [← block])
      rw [← block] at range
      have disk := extended.volume.owned.formatted.disk
      refine wp_bread_bind (by omega) ?_
      generalize piece : min left (BSIZE - off % BSIZE) = m
      refine wp_seq (wp_logWrite reserve.room known (grants.owes _)) ?_
      rintro _ u ⟨rfl, room⟩
      have first : Written ip i off m (fun j => src (tot + j)) s _ :=
        extended.written (extended.volume.piece extended.loaded below block some (by omega))
      have reserve := reserve.logged extended.volume range.1 room
      have following (more : 0 < left - m) : off + m = (off / BSIZE + 1) * BSIZE := by
        rw [Nat.add_mul]
        omega
      refine wp_mono (ih (by omega) first.volume first.loaded (by omega) (fun more => ?_) reserve) ?_
      · have next : (off + m) / BSIZE = off / BSIZE + 1 := by
          rw [following more, Nat.mul_div_cancel _ (by decide)]
        rw [next, Nat.add_assoc (off / BSIZE), Nat.add_comm 1 r]
        omega
      · rintro _ v ⟨second, reserve⟩
        refine ⟨?_, reserve⟩
        have rest : (fun j => src (tot + m + j)) = fun j => src (tot + (m + j)) :=
          funext fun j => congrArg src (Nat.add_assoc _ _ _)
        rw [rest] at second
        have whole := first.append second
        rwa [show m + (left - m) = left by omega] at whole

/- The copy in slot ip goes to the disk. -/
theorem wp_iupdate (grants : Grants M) (h : Volume s.toFileSys) (here : Loaded s.toFileSys ip i)
    (inside : IBLOCK i s.sb ∈ Y) (room : Room M s.log Y k) :
    wp M (iupdate ip) (fun _ t => t = s.logged (IBLOCK i s.sb) (putDinode (s.disk (IBLOCK i s.sb)) (i % IPB) (s.icache ip).d) ∧
      Volume t.toFileSys ∧ Loaded t.toFileSys ip i ∧ t.inodes = s.inodes ∧
      fileBlock t.disk t.inodes = fileBlock s.disk s.inodes ∧
      (∀ b < s.sb.size, used t.disk s.sb b = used s.disk s.sb b) ∧ Room M t.log Y k) s := by
  have known := here.known h.cache
  obtain ⟨low, high⟩ := h.owned.formatted.iblock known
  obtain ⟨_, _, last⟩ := h.owned.formatted.start
  have data := h.owned.formatted.data
  have disk := h.owned.formatted.disk
  have number := here.holds.2.2
  have same := here.flush h.cache (s.icache ip).d
  obtain ⟨owned, places, blocks⟩ := h.owned.beside (v := putDinode (s.disk (IBLOCK i s.sb)) (i % IPB) (s.icache ip).d)
    (b := IBLOCK i s.sb) (by omega) (Or.inl high) (h.owned.free_of_low (by omega))
  unfold iupdate
  refine wp_get_bind (wp_bread_bind (by rw [number]; omega) ?_)
  rw [number]
  refine wp_mono (wp_logWrite room inside (grants.owes _)) ?_
  rintro _ t ⟨rfl, room⟩
  have inodes : (s.logged (IBLOCK i s.sb) (putDinode (s.disk (IBLOCK i s.sb)) (i % IPB) (s.icache ip).d)).inodes =
    s.inodes := same
  refine ⟨rfl, ⟨?_, ⟨h.cache.unique, h.cache.known⟩, ?_⟩, { here with }, inodes, ?_, ?_, room⟩
  · rw [inodes]
    exact owned
  · rw [inodes]
    exact h.small
  · rw [inodes]
    exact blocks
  · exact fun b inside => used_beside inside (Or.inl high)

theorem wp_setDinode_bind {B : Type} {f : Dinode → Dinode} {g : Unit → FsM B} {Q : B → FsState → Prop}
    (next : wp M (g ()) Q (s.put ip { s.icache ip with d := f (s.icache ip).d })) :
    wp M (setDinode ip f >>= g) Q s := wp_modify_bind next

/- The copy in slot ip is changed, but for its addresses. -/
theorem Volume.put {e : Dinode} (h : Volume s.toFileSys) (here : Loaded s.toFileSys ip i) (used : e.type ≠ 0)
    (addrs : e.addrs = (s.icache ip).d.addrs) (small : e.size.toNat ≤ MAXFILE * BSIZE) :
    Volume (s.put ip { s.icache ip with d := e }).toFileSys ∧
      Loaded (s.put ip { s.icache ip with d := e }).toFileSys ip i ∧
      (s.put ip { s.icache ip with d := e }).inodes = update s.inodes i e ∧
      fileBlock s.disk (update s.inodes i e) = fileBlock s.disk s.inodes := by
  obtain ⟨loaded, same⟩ := here.put h.cache used
  have each (j : Nat) : (update s.inodes i e j).addrs = (s.inodes j).addrs := by
    by_cases other : j = i
    · rw [other, update_self, addrs, here.inodes h.cache]
    · rw [update_of_ne other]
  have places : place s.disk (update s.inodes i e) = place s.disk s.inodes := place_congr each
  refine ⟨⟨?_, h.cache.put rfl id, fun j => ?_⟩, loaded, same, fileBlock_addrs each⟩
  · rw [same]
    exact h.owned.shrink fun x => Or.inl (congrFun places x)
  · rw [same, Function.update_apply]
    split
    · exact small
    · exact h.small j

/- What writei leaves. -/
structure Stored (ip i off n : Nat) (src : Bytes) (s t : FsState) : Prop extends Frame ip s t where
  volume : Volume t.toFileSys
  loaded : Loaded t.toFileSys ip i
  inode : (t.icache ip).d = { (s.icache ip).d with
    addrs := (t.icache ip).d.addrs
    size := (t.icache ip).d.size }
  size : (t.icache ip).d.size.toNat = max (s.icache ip).d.size.toNat (off + n)
  others : ∀ j, j ≠ i → t.inodes j = s.inodes j
  bytes : ∀ j, fileByte t.disk t.inodes j =
    if j = i then copyIn (fileByte s.disk s.inodes i) off n src else fileByte s.disk s.inodes j
  free : freeBlocks t.disk t.sb <:+ freeBlocks s.disk s.sb

theorem wp_writei {r : Nat} (grants : Grants M) (h : Volume s.toFileSys) (here : Loaded s.toFileSys ip i)
    (plain : (s.icache ip).d.type ≠ T_DEV) (start : off ≤ (s.icache ip).d.size.toNat)
    (inside : off + n ≤ MAXFILE * BSIZE) (most : 0 < n → off + n ≤ (off / BSIZE + r) * BSIZE)
    (reserve : Reserve M s ip Y (r + credit (s.icache ip).d)) :
    wp M (writei ip src off n) (fun v t => v = n ∧ Stored ip i off n src s t) s := by
  have top : MAXFILE * BSIZE < 2 ^ 32 := by decide
  unfold writei
  refine wp_get_bind ?_
  rw [if_neg plain, if_neg (by rw [Nat.mod_eq_of_lt (by omega)]; omega), if_neg (by omega)]
  refine wp_seq (wp_writeLoop grants (Nat.le_refl n) h here inside most reserve) ?_
  rintro _ t ⟨written, Y, reserve⟩
  have same : (t.icache ip).d.size = (s.icache ip).d.size := by rw [written.inode]
  simp only [Nat.zero_add] at written
  refine wp_get_bind ?_
  dsimp only
  refine wp_ite (fun longer => ?_) fun short => wp_pure ⟨rfl, ?_⟩
  · have number : (BitVec.ofNat 32 (off + n)).toNat = off + n := by
      rw [BitVec.toNat_ofNat, Nat.mod_eq_of_lt (by omega)]
    obtain ⟨volume, loaded, inodes, blocks⟩ := written.volume.put
      (e := { (t.icache ip).d with size := BitVec.ofNat 32 (off + n) }) written.loaded written.loaded.used rfl
      (by rw [number]; exact inside)
    refine wp_setDinode_bind (wp_seq (wp_iupdate grants volume loaded (written.loaded.holds.2.2 ▸ reserve.inode)
      reserve.room) ?_)
    rintro _ u ⟨state, volume, loaded, same', blocks', marks, -⟩
    have copy : (u.icache ip).d = { (t.icache ip).d with size := BitVec.ofNat 32 (off + n) } := by
      rw [state]
      exact congrArg Inode.d (icache_put t ip _)
    have frame : Frame ip s u := by
      rw [state]
      exact (written.toFrame.trans (frame_put _)).trans (frame_logged _ _)
    have free : freeBlocks u.disk u.sb = freeBlocks t.disk t.sb := by
      have same : u.sb = t.sb := by rw [state]; rfl
      rw [same]
      refine List.filter_congr fun b inside => ?_
      exact congrArg not (marks b (List.mem_range.mp inside))
    refine wp_pure ⟨rfl, ⟨frame, volume, loaded, ?_, ?_, fun j other => ?_, fun j => ?_, ?_⟩⟩
    · rw [copy, written.inode]
    · rw [copy, number]
      rw [same] at longer
      omega
    · rw [same', inodes, update_of_ne other, written.others j other]
    · rw [← written.bytes j]
      unfold Fs.fileByte
      rw [blocks', inodes]
      exact congrArg (fun f => flat BSIZE (f j)) blocks
    · rw [free]
      exact written.free
  · refine ⟨written.toFrame, written.volume, written.loaded, by rw [same]; exact written.inode, ?_, written.others,
      written.bytes, written.free⟩
    rw [same] at short ⊢
    omega

end Writing

section Reading
variable {M : Mode FsEvent Fault} {s : FsState} {Y : Finset Nat} {ip i off n r : Nat}

/- readi gives blocks to the holes that it comes to, and delivers zeros from them. -/
theorem wp_readi (grants : Grants M) (h : Volume s.toFileSys) (here : Loaded s.toFileSys ip i)
    (plain : (s.icache ip).d.type ≠ T_DEV) (start : off ≤ (s.icache ip).d.size.toNat) (whole : off + n < 2 ^ 32)
    (most : off + min n ((s.icache ip).d.size.toNat - off) ≤ (off / BSIZE + r) * BSIZE)
    (reserve : Reserve M s ip Y (r + credit (s.icache ip).d)) :
    wp M (readi ip off n) (fun v t => Extended ip i s t ∧
      v = (((min n ((s.icache ip).d.size.toNat - off) : Nat) : Int),
        slice (fileByte s.disk s.inodes i) off (min n ((s.icache ip).d.size.toNat - off)))) s := by
  refine wp_congr (readi_eq plain start whole) ?_
  have small := h.small i
  rw [here.inodes h.cache] at small
  generalize count : min n ((s.icache ip).d.size.toNat - off) = m at most ⊢
  have maps : Maps M (fun bn t => Extended ip i s t ∧
      ∃ Y, Reserve M t ip Y (off / BSIZE + r - bn + credit (t.icache ip).d)) ip (fileBlock s.disk s.inodes i) (off + m) := by
    rintro t bn ⟨extended, Y, reserve⟩ inside
    have below : bn < MAXFILE := Nat.lt_of_mul_lt_mul_right (a := BSIZE) (by omega)
    have left : bn < off / BSIZE + r := Nat.lt_of_mul_lt_mul_right (a := BSIZE) (by omega)
    have one : off / BSIZE + r - bn + credit (t.icache ip).d =
        off / BSIZE + r - (bn + 1) + credit (t.icache ip).d + 1 := by omega
    rw [one] at reserve
    refine wp_mono (wp_bmap grants extended.volume extended.loaded below reserve) fun b u mapped => ?_
    have placed : place u.disk u.inodes (i, bn) ≠ 0 := mapped.block ▸ mapped.some
    have range := mapped.extended.volume.owned.range _ placed
    have disk := mapped.extended.volume.owned.formatted.disk
    obtain ⟨Y, -, reserve⟩ := mapped.reserve
    refine ⟨⟨extended.trans mapped.extended, Y, reserve⟩, ?_, ?_⟩
    · rw [mapped.block]
      omega
    · rw [← extended.blocks, ← mapped.extended.blocks, fileBlock_placed below placed, ← mapped.block]
  have first : off / BSIZE + r - off / BSIZE + credit (s.icache ip).d = r + credit (s.icache ip).d := by
    rw [Nat.add_sub_cancel_left]
  refine wp_seq (wp_readLoop maps (Nat.le_refl m) ⟨.refl h here, Y, by rwa [first]⟩ (fun _ => rfl) (Nat.le_refl _)) ?_
  rintro out t ⟨⟨_, extended, -⟩, rfl⟩
  exact wp_pure ⟨extended, rfl⟩

end Reading

section Locks
variable {M : Mode FsEvent Fault} {s : FsState} {ip : Nat} {j : Inode}

/- A slot changes, but not what it holds for the view. -/
theorem Volume.reslot (h : Volume s.toFileSys) (number : j.inum = (s.icache ip).inum)
    (refs : 0 < j.ref → 0 < (s.icache ip).ref) (same : (s.put ip j).inodes = s.inodes) :
    Volume (s.put ip j).toFileSys := by
  refine ⟨?_, h.cache.put number refs, ?_⟩
  · rw [same]
    exact h.owned
  · rw [same]
    exact h.small

theorem inodes_relock (locked : Bool) : (s.put ip { s.icache ip with locked := locked }).inodes = s.inodes := by
  have slot (k : Nat) : ((s.put ip { s.icache ip with locked := locked }).icache k).d = (s.icache k).d ∧
      ∀ i, (s.put ip { s.icache ip with locked := locked }).Holds k i ↔ s.Holds k i := by
    unfold FileSys.Holds
    by_cases here : k = ip
    · rw [here, icache_put]
      exact ⟨rfl, fun _ => Iff.rfl⟩
    · rw [icache_put_ne here]
      exact ⟨rfl, fun _ => Iff.rfl⟩
  exact inodes_congr (fun k _ => (slot k).2) (fun k _ _ _ => by rw [(slot k).1]) fun _ _ => rfl

theorem Loaded.lock (inside : ip < NINODE) (held : 0 < (s.icache ip).ref)
    (used : (s.inodes (s.icache ip).inum).type ≠ 0) :
    Loaded (s.put ip ((s.icache ip).lock (s.inodes (s.icache ip).inum))).toFileSys ip (s.icache ip).inum := by
  refine ⟨inside, ?_, by rwa [icache_put]⟩
  unfold FileSys.Holds
  rw [icache_put]
  exact ⟨held, rfl, rfl⟩

theorem inodes_lock (cache : Cache s.toFileSys) (inside : ip < NINODE) (held : 0 < (s.icache ip).ref)
    (used : (s.inodes (s.icache ip).inum).type ≠ 0) :
    (s.put ip ((s.icache ip).lock (s.inodes (s.icache ip).inum))).inodes = s.inodes := by
  funext k
  by_cases same : k = (s.icache ip).inum
  · rw [same, (Loaded.lock inside held used).inodes (cache.put rfl id), icache_put]
    rfl
  · exact inodes_put_ne rfl same

/- What ilock finds for a slot in use. -/
theorem inodes_slot (cache : Cache s.toFileSys) (inside : ip < NINODE) (held : 0 < (s.icache ip).ref)
    (used : (s.inodes (s.icache ip).inum).type ≠ 0) : s.inodes (s.icache ip).inum =
      if (s.icache ip).valid then (s.icache ip).d
      else getDinode (s.disk (IBLOCK (s.icache ip).inum s.sb)) ((s.icache ip).inum % IPB) := by
  have self {d : Dinode} (view : s.inodes (s.icache ip).inum = d.live) : d.live = d := by
    rw [view] at used
    unfold Dinode.live at used ⊢
    split
    · rename_i zero
      rw [if_pos zero] at used
      exact absurd rfl used
    · rfl
  split
  · rename_i valid
    have view := cache.inodes inside ⟨held, valid, rfl⟩
    rw [view, self view]
  · rename_i invalid
    have view : s.inodes (s.icache ip).inum = _ := inodes_free fun jp inside' holds => by
      obtain rfl := cache.unique jp ip inside' inside holds.1 held holds.2.2
      exact invalid holds.2.1
    rw [view, self view, inodeOf, if_pos (cache.known ip inside held)]

theorem wp_ilock (h : Volume s.toFileSys) (inside : ip < NINODE) (held : 0 < (s.icache ip).ref)
    (unlocked : (s.icache ip).locked = false) (used : (s.inodes (s.icache ip).inum).type ≠ 0) :
    wp M (ilock ip) (fun _ t => t = s.put ip ((s.icache ip).lock (s.inodes (s.icache ip).inum)) ∧
      t.inodes = s.inodes ∧ Volume t.toFileSys ∧ Loaded t.toFileSys ip (s.icache ip).inum) s := by
  have same := inodes_lock h.cache inside held used
  have whole : (s.put ip ((s.icache ip).lock (s.inodes (s.icache ip).inum))).inodes = s.inodes ∧
      Volume (s.put ip ((s.icache ip).lock (s.inodes (s.icache ip).inum))).toFileSys ∧
      Loaded (s.put ip ((s.icache ip).lock (s.inodes (s.icache ip).inum))).toFileSys ip (s.icache ip).inum :=
    ⟨same, h.reslot rfl id same, Loaded.lock inside held used⟩
  have slot := inodes_slot h.cache inside held used
  unfold ilock
  refine wp_get_bind ?_
  rw [if_neg (by omega)]
  unfold acquiresleep
  rw [bind_assoc]
  refine wp_get_bind ?_
  rw [if_neg (by rw [unlocked]; exact Bool.false_ne_true)]
  refine wp_modify_bind ?_
  change wp M _ _ (s.put ip { s.icache ip with locked := true })
  refine wp_ite (fun valid => wp_pure ?_) fun invalid => ?_
  · rw [if_pos valid] at slot
    have state : s.put ip { s.icache ip with locked := true } =
        s.put ip ((s.icache ip).lock (s.inodes (s.icache ip).inum)) := by
      unfold Inode.lock
      rw [slot, ← valid]
    rw [state]
    exact ⟨rfl, whole⟩
  · rw [if_neg invalid] at slot
    have range := h.owned.formatted.iblock (h.cache.known ip inside held)
    obtain ⟨_, _, last⟩ := h.owned.formatted.start
    have data := h.owned.formatted.data
    have disk := h.owned.formatted.disk
    refine wp_bread_bind (by omega) (wp_modify_bind ?_)
    have state : (s.put ip { s.icache ip with locked := true }).put ip
        { (s.put ip { s.icache ip with locked := true }).icache ip with
          d := s.inodes (s.icache ip).inum
          valid := true } = s.put ip ((s.icache ip).lock (s.inodes (s.icache ip).inum)) := by
      rw [put_put, icache_put]
      rfl
    change wp M _ _ ((s.put ip { s.icache ip with locked := true }).put ip
      { (s.put ip { s.icache ip with locked := true }).icache ip with
        d := getDinode (s.disk (IBLOCK (s.icache ip).inum s.sb)) ((s.icache ip).inum % IPB)
        valid := true })
    change wp M (if (getDinode (s.disk (IBLOCK (s.icache ip).inum s.sb)) ((s.icache ip).inum % IPB)).type = 0 then _
      else _) _ _
    rw [← slot, if_neg used, state]
    exact wp_pure ⟨rfl, whole⟩

theorem wp_iunlock (h : Volume s.toFileSys) (held : 0 < (s.icache ip).ref) (locked : (s.icache ip).locked = true) :
    wp M (iunlock ip) (fun _ t => t = s.put ip { s.icache ip with locked := false } ∧ t.inodes = s.inodes ∧
      Volume t.toFileSys) s := by
  unfold iunlock
  refine wp_get_bind ?_
  rw [if_neg (by rw [locked]; simp; omega)]
  exact wp_modify ⟨rfl, inodes_relock false, h.reslot rfl id (inodes_relock false)⟩

end Locks

end Xv6c.Fs

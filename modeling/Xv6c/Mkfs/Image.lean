import Xv6c.Mkfs.Model

/-! What mkfs has written at each point: the blocks that it has given out, each to one
position of one file, and the files that they hold. -/
namespace Xv6c.Mkfs
open Lib Fs
open Function (update update_self update_of_ne update_apply update_eq_self update_idem)

def State.inodes (s : State) : Nat → Dinode := inodeOf s.image mkfsSb

/- The blocks from nmeta up to freeblock are given out, each to one position at most; all
others hold zeros, but for the super block and the inodes. -/
structure Sound (s : State) (ino : Nat → Dinode) : Prop where
  apart : Apart (place s.image ino)
  range : ∀ x, place s.image ino x ≠ 0 → nmeta ≤ place s.image ino x ∧ place s.image ino x < s.freeblock
  first : nmeta ≤ s.freeblock
  blank : ∀ b, s.freeblock ≤ b → s.image b = zeros
  bitmap : ∀ b, mkfsSb.bmapstart ≤ b → b < nmeta → s.image b = zeros
  super : s.image 1 = encodeSb mkfsSb
  length : s.length = FSSIZE

/- A file has blocks up to its size and no others. -/
def Filled (image : Nat → Block) (ino : Nat → Dinode) : Prop :=
  ∀ i r, r < MAXFILE → (place image ino (i, r) ≠ 0 ↔ r * BSIZE < (ino i).size.toNat)

theorem nearlypos : 0 < nmeta := by decide

theorem bmapstart_lt : mkfsSb.bmapstart < nmeta := by decide

section Blocks
variable {A B : Type} {M : Mode Empty Stop} {s s' : State} {ino ino' : Nat → Dinode} {inum fbn x : Nat}
  {din e : Dinode} {w : BitVec 32}

theorem wp_rsect_bind {sec : Nat} {f : Block → MkM B} {Q : B → State → Prop}
    (inside : M.fails .exit ∨ sec < s.length) (next : sec < s.length → wp M (f (s.image sec)) Q s) :
    wp M (rsect sec >>= f) Q s := by
  unfold rsect
  refine wp_bind (wp_get_bind (wp_ite (fun there => wp_pure (next there)) fun behind => wp_fault ?_))
  exact inside.resolve_right behind

theorem wp_wsect {sec : Nat} {buf : Block} {Q : Unit → State → Prop} (inside : sec < s.length)
    (next : Q () { s with image := update s.image sec buf }) : wp M (wsect sec buf) Q s := by
  unfold wsect
  refine wp_modify ?_
  rw [Nat.max_eq_left inside]
  exact next

theorem Sound.fresh (h : Sound s ino) (x : Nat × Nat) : place s.image ino x ≠ s.freeblock := by
  intro same
  have first := h.first
  have low := nearlypos
  have range := h.range x (by omega)
  omega

/- One position gets the next block. -/
structure Gives (s : State) (ino : Nat → Dinode) (y : Nat × Nat) (s' : State) (ino' : Nat → Dinode) : Prop where
  placed : place s'.image ino' = update (place s.image ino) y s.freeblock
  data : fileBlock s'.image ino' = fileBlock s.image ino
  same : ∀ b, b < nmeta ∨ s.freeblock ≤ b → s'.image b = s.image b
  freeblock : s'.freeblock = s.freeblock + 1
  freeinode : s'.freeinode = s.freeinode
  length : s'.length = s.length

theorem Sound.gives {y : Nat × Nat} (h : Sound s ino) (gives : Gives s ino y s' ino') : Sound s' ino' := by
  obtain ⟨placed, -, same, freeblock, -, length⟩ := gives
  have first := h.first
  refine ⟨?_, fun x some => ?_, by omega, fun b high => ?_, fun b low high => ?_, ?_, length.trans h.length⟩
  · rw [placed]
    exact h.apart.update h.fresh y
  · rw [placed, update_apply] at some ⊢
    split at some
    · rename_i here
      rw [if_pos here]
      omega
    · rename_i elsewhere
      rw [if_neg elsewhere]
      have range := h.range x some
      omega
  · rw [same b (by omega), h.blank b (by omega)]
  · rw [same b (Or.inl high), h.bitmap b low high]
  · rw [same 1 (Or.inl (by decide)), h.super]

/- The contents of blocks that are given out change, or those of inodes. -/
theorem Sound.change {image : Nat → Block} (h : Sound s ino) (placed : place image ino' = place s.image ino)
    (blank : ∀ b, s.freeblock ≤ b → image b = s.image b)
    (bitmap : ∀ b, mkfsSb.bmapstart ≤ b → b < nmeta → image b = s.image b) (super : image 1 = s.image 1) :
    Sound { s with image := image } ino' := by
  refine ⟨?_, ?_, h.first, fun b high => ?_, fun b low high => ?_, super.trans h.super, h.length⟩
  · exact placed ▸ h.apart
  · exact placed ▸ h.range
  · exact (blank b high).trans (h.blank b high)
  · exact (bitmap b low high).trans (h.bitmap b low high)

theorem Sound.numbered (h : Sound s ino) (same : ∀ j, (ino' j).addrs = (ino j).addrs) (next : Nat) :
    Sound { s with freeinode := next } ino' := by
  have moved : Sound s ino' := h.change (place_congr same) (fun _ _ => rfl) (fun _ _ _ => rfl) rfl
  exact { moved with }

theorem toNat_block (bound : s.freeblock ≤ FSSIZE + 1) : (BitVec.ofNat 32 s.freeblock).toNat = s.freeblock := by
  rw [BitVec.toNat_ofNat]
  refine Nat.mod_eq_of_lt (lt_of_le_of_lt bound ?_)
  decide

def State.take (s : State) : State := { s with freeblock := s.freeblock + 1 }

theorem gives_direct (h : Sound s ino) (bound : s.freeblock ≤ FSSIZE + 1) (direct : fbn < NDIRECT)
    (none : place s.image ino (inum, fbn) = 0) :
    Gives s ino (inum, fbn) s.take
      (update ino inum ((ino inum).setAddr (Fin.ofNat 13 fbn) (BitVec.ofNat 32 s.freeblock))) := by
  have number := toNat_block bound
  obtain ⟨placed, data⟩ := give_direct (a := BitVec.ofNat 32 s.freeblock) direct none
    (by rw [number]; exact h.blank _ le_rfl)
  rw [number] at placed
  exact ⟨placed, data, fun _ _ => rfl, rfl, rfl, rfl⟩

theorem gives_table (h : Sound s ino) (bound : s.freeblock ≤ FSSIZE + 1) (none : (ino inum).addrs indirect = 0) :
    Gives s ino (inum, MAXFILE) s.take
      (update ino inum ((ino inum).setAddr indirect (BitVec.ofNat 32 s.freeblock))) := by
  have number := toNat_block bound
  obtain ⟨placed, data⟩ := give_table (a := BitVec.ofNat 32 s.freeblock) none
    (by rw [number]; exact h.blank _ le_rfl)
  rw [number] at placed
  exact ⟨placed, data, fun _ _ => rfl, rfl, rfl, rfl⟩

theorem gives_entry (h : Sound s ino) (bound : s.freeblock ≤ FSSIZE + 1) (some : (ino inum).addrs indirect ≠ 0)
    (high : NDIRECT ≤ fbn) (below : fbn < MAXFILE) (none : place s.image ino (inum, fbn) = 0)
    (table : x = place s.image ino (inum, MAXFILE)) :
    Gives s ino (inum, fbn) { s.take with
      image := update s.image x (setWord (s.image x) (fbn - NDIRECT) (BitVec.ofNat 32 s.freeblock)) } ino := by
  have number := toNat_block bound
  obtain ⟨placed, data⟩ := give_entry (a := BitVec.ofNat 32 s.freeblock) h.apart some high below none
    (by rw [number]; exact h.blank _ le_rfl) (fun x => by rw [number]; exact h.fresh x) table
  rw [number] at placed
  refine ⟨placed, data, fun b outside => update_of_ne ?_ _ _, rfl, rfl, rfl⟩
  have range := h.range (inum, MAXFILE) (toNat_ne_zero some)
  omega

/- The block x of index fbn is found for inode inum, which is e now. -/
structure Located (s : State) (ino : Nat → Dinode) (inum fbn x : Nat) (e : Dinode) (s' : State) : Prop where
  sound : Sound s' (update ino inum e)
  data : fileBlock s'.image (update ino inum e) = fileBlock s.image ino
  here : place s'.image (update ino inum e) (inum, fbn) = x
  some : x ≠ 0
  others : ∀ i r, r < MAXFILE → (i, r) ≠ (inum, fbn) →
    place s'.image (update ino inum e) (i, r) = place s.image ino (i, r)
  same : ∀ b < nmeta, s'.image b = s.image b
  taken : s'.freeblock = s.freeblock ∧ place s.image ino (inum, fbn) = x ∨
    s'.freeblock = x + 1 ∧ (x = s.freeblock ∨ x = s.freeblock + 1 ∧ (ino inum).addrs indirect = 0)
  freeinode : s'.freeinode = s.freeinode

theorem located_there (h : Sound s ino) (same : e = ino inum) (here : place s.image ino (inum, fbn) = x)
    (some : x ≠ 0) : Located s ino inum fbn x e s := by
  subst same
  refine ⟨?_, ?_, ?_, some, ?_, fun _ _ => rfl, Or.inl ⟨rfl, here⟩, rfl⟩ <;>
    rw [update_eq_self]
  · exact h
  · exact here
  · exact fun _ _ _ _ => rfl

theorem Gives.located (h : Sound s ino) (gives : Gives s ino (inum, fbn) s' (update ino inum e)) :
    Located s ino inum fbn s.freeblock e s' := by
  have first := h.first
  have low := nearlypos
  refine ⟨h.gives gives, gives.data, ?_, by omega, fun i r _ other => ?_, fun b small => ?_,
    Or.inr ⟨gives.freeblock, Or.inl rfl⟩, gives.freeinode⟩
  · rw [gives.placed, update_self]
  · rw [gives.placed, update_of_ne other]
  · exact gives.same b (Or.inl small)

/- A block of addresses was given out before. -/
theorem Located.after {e₁ : Dinode} {s₁ : State} (none : (ino inum).addrs indirect = 0)
    (high : NDIRECT ≤ fbn) (below : fbn < MAXFILE) (gives : Gives s ino (inum, MAXFILE) s₁ (update ino inum e₁))
    (table : e₁.addrs indirect ≠ 0)
    (located : Located s₁ (update ino inum e₁) inum fbn x e s') : Located s ino inum fbn x e s' := by
  obtain ⟨sound, data, here, some, others, same, taken, freeinode⟩ := located
  rw [update_idem] at sound data here others
  have before (i r : Nat) (small : r < MAXFILE) :
      place s₁.image (update ino inum e₁) (i, r) = place s.image ino (i, r) := by
    rw [gives.placed, update_of_ne]
    intro table
    have := congrArg Prod.snd table
    dsimp only at this
    omega
  refine ⟨sound, data.trans gives.data, here, some, fun i r small other => ?_, fun b small => ?_, Or.inr ?_,
    freeinode.trans gives.freeinode⟩
  · rw [others i r small other, before i r small]
  · rw [same b small, gives.same b (Or.inl small)]
  · have next := gives.freeblock
    rcases taken with ⟨-, there⟩ | ⟨last, top⟩
    · rw [before inum fbn below, place_eq, placeOf, if_neg (Nat.not_lt.mpr high), if_pos below, if_pos none] at there
      exact absurd there.symm some
    · rw [update_self] at top
      exact ⟨last, Or.inr ⟨(top.resolve_right fun more => table more.2).trans next, none⟩⟩

theorem wp_addrOr {k : Fin 13} {Q : Dinode → State → Prop}
    (take : din.addrs k = 0 → Q (din.setAddr k (BitVec.ofNat 32 s.freeblock)) s.take)
    (keep : din.addrs k ≠ 0 → Q din s) : wp M (addrOr din k) Q s := by
  unfold addrOr takeBlock
  refine wp_ite (fun zero => ?_) fun nonzero => wp_pure (keep nonzero)
  exact wp_bind (wp_get_bind (wp_modify_bind (wp_pure (wp_pure (take zero)))))

theorem wp_tableOr {Q : Block → State → Prop} (inum fbn : Nat) (h : Sound s ino) (bound : s.freeblock ≤ FSSIZE + 1)
    (some : (ino inum).addrs indirect ≠ 0) (high : NDIRECT ≤ fbn) (below : fbn < MAXFILE)
    (inside : M.fails .exit ∨ s.freeblock ≤ FSSIZE)
    (next : ∀ table s', Located s ino inum fbn (word table (fbn - NDIRECT)).toNat (ino inum) s' → Q table s') :
    wp M (tableOr (place s.image ino (inum, MAXFILE)) (fbn - NDIRECT)) Q s := by
  have range := h.range (inum, MAXFILE) (toNat_ne_zero some)
  have entry : place s.image ino (inum, fbn) =
      (word (s.image (place s.image ino (inum, MAXFILE))) (fbn - NDIRECT)).toNat := placeOf_entry some high below
  unfold tableOr takeBlock
  refine wp_rsect_bind (inside.imp_right fun bound => ?_) fun there => wp_ite (fun zero => ?_) fun nonzero => ?_
  · rw [h.length]
    omega
  · have none : place s.image ino (inum, fbn) = 0 := by
      rw [entry, zero]
      rfl
    refine wp_bind (wp_get_bind (wp_modify_bind (wp_pure (wp_bind (wp_wsect there (wp_pure (next _ _ ?_)))))))
    rw [word_setWord_self, toNat_block bound]
    refine Gives.located h ?_
    rw [update_eq_self]
    exact gives_entry h bound some high below none rfl
  · exact wp_pure (next _ _ (located_there h rfl entry (toNat_ne_zero nonzero)))

theorem wp_locate {Q : Nat × Dinode → State → Prop} (h : Sound s ino) (here : ino inum = { din with size := w })
    (bound : s.freeblock ≤ FSSIZE) (below : fbn < MAXFILE) (inside : M.fails .exit ∨ s.freeblock < FSSIZE)
    (next : ∀ x e s', (∃ a, e = { din with addrs := a }) → Located s ino inum fbn x { e with size := w } s' →
      Q (x, e) s') : wp M (locate din fbn) Q s := by
  have addrs : (ino inum).addrs = din.addrs := by rw [here]
  have number := toNat_block (s := s) (by omega)
  unfold locate
  refine wp_ite (fun direct => ?_) fun high => ?_
  · have there : place s.image ino (inum, fbn) = (din.addrs (Fin.ofNat 13 fbn)).toNat := by
      rw [place_eq, placeOf_direct direct, addrs]
    refine wp_bind (wp_addrOr (fun zero => wp_pure ?_) fun nonzero => wp_pure ?_)
    · have none : place s.image ino (inum, fbn) = 0 := by
        rw [there, zero]
        rfl
      have gives := gives_direct h (by omega) direct none
      rw [here] at gives
      rw [addrs_setAddr, update_self, number]
      exact next _ _ _ ⟨_, rfl⟩ (Gives.located h gives)
    · exact next _ _ _ ⟨_, rfl⟩ (located_there h here.symm there (toNat_ne_zero nonzero))
  · have high := Nat.le_of_not_lt high
    have first := h.first
    have low := nearlypos
    refine wp_bind (wp_addrOr (fun zero => wp_bind ?_) fun nonzero => wp_bind ?_)
    · -- the block of addresses is new, and so is the entry
      have none : (ino inum).addrs indirect = 0 := by rw [addrs, zero]
      have gives := gives_table h (by omega) none
      rw [here] at gives
      have some : (din.setAddr indirect (BitVec.ofNat 32 s.freeblock)).addrs indirect ≠ 0 := fun zero => by
        rw [addrs_setAddr, update_self] at zero
        rw [zero] at number
        exact absurd number (by change 0 ≠ s.freeblock; omega)
      have table := wp_tableOr (M := M) (s := s.take)
        (Q := fun table s' => wp M (pure ((word table (fbn - NDIRECT)).toNat,
          din.setAddr indirect (BitVec.ofNat 32 s.freeblock))) Q s') inum fbn (h.gives gives)
        (by change s.freeblock + 1 ≤ FSSIZE + 1; omega) (by rwa [update_self]) high below inside
        fun table s' located => wp_pure (next _ _ _ ⟨_, rfl⟩ ?_)
      · rwa [place_eq, placeOf_table, update_self] at table
      · rw [update_self] at located
        exact Located.after none high below gives some located
    · have table := wp_tableOr (M := M)
        (Q := fun table s' => wp M (pure ((word table (fbn - NDIRECT)).toNat, din)) Q s') inum fbn h (by omega)
        (by rwa [addrs]) high below (inside.imp_right Nat.le_of_lt)
        fun table s' located => wp_pure (next _ _ _ ⟨_, rfl⟩ ?_)
      · rwa [place_eq, placeOf_table, addrs] at table
      · rwa [here] at located

end Blocks

section Append
variable {M : Mode Empty Stop} {s s' s₁ : State} {inum off n left tot : Nat} {din din' : Dinode} {p src : Bytes}

/- The inodes while iappend holds a copy of inode inum, with the size that it will get. -/
def pending (s : State) (inum : Nat) (din : Dinode) (off : Nat) : Nat → Dinode :=
  update s.inodes inum { din with size := BitVec.ofNat 32 off }

structure Appending (s : State) (inum : Nat) (din : Dinode) (off : Nat) : Prop where
  sound : Sound s (pending s inum din off)
  filled : Filled s.image (pending s inum din off)
  bound : s.freeblock ≤ FSSIZE
  small : off ≤ MAXFILE * BSIZE

/- n bytes of src are behind the first off bytes of inode inum now. -/
structure Appended (s : State) (inum : Nat) (din : Dinode) (off n : Nat) (src : Bytes) (din' : Dinode)
    (s' : State) : Prop where
  state : Appending s' inum din' (off + n)
  bytes : ∀ j, fileByte s'.image (pending s' inum din' (off + n)) j =
    if j = inum then copyIn (fileByte s.image (pending s inum din off) inum) off n src
    else fileByte s.image (pending s inum din off) j
  same : ∀ b < nmeta, s'.image b = s.image b
  addrs : ∃ a, din' = { din with addrs := a }
  taken : s.freeblock ≤ s'.freeblock ∧ s'.freeblock ≤ s.freeblock + 2 * n
  freeinode : s'.freeinode = s.freeinode

theorem pending_size (small : off ≤ MAXFILE * BSIZE) : (pending s inum din off inum).size.toNat = off := by
  unfold pending
  rw [update_self]
  change (BitVec.ofNat 32 off).toNat = off
  rw [BitVec.toNat_ofNat]
  exact Nat.mod_eq_of_lt (lt_of_le_of_lt small (by decide))

theorem pending_ne {j : Nat} (other : j ≠ inum) : pending s inum din off j = s.inodes j := update_of_ne other _ _

theorem inodes_congr (same : ∀ b < nmeta, s'.image b = s.image b) : s'.inodes = s.inodes :=
  inodeOf_congr formatted_mkfs fun b _ below => same b (below.trans bmapstart_lt)

theorem Appending.nothing (h : Appending s inum din off) : Appended s inum din off 0 src din s := by
  refine ⟨h, fun j => ?_, fun _ _ => rfl, ⟨_, rfl⟩, ⟨le_rfl, Nat.le_add_right _ _⟩, rfl⟩
  rw [copyIn_zero]
  split
  · rename_i here
    rw [here]
    rfl
  · rfl

theorem Appended.trans {m : Nat} {din₁ : Dinode} (first : Appended s inum din off n src din₁ s₁)
    (second : Appended s₁ inum din₁ (off + n) m (fun i => src (n + i)) din' s') :
    Appended s inum din off (n + m) src din' s' := by
  obtain ⟨a, rfl⟩ := first.addrs
  obtain ⟨a', rfl⟩ := second.addrs
  have state := second.state
  have bytes := second.bytes
  rw [Nat.add_assoc] at state bytes
  refine ⟨state, fun j => ?_, fun b small => (second.same b small).trans (first.same b small), ⟨a', rfl⟩, ?_,
    second.freeinode.trans first.freeinode⟩
  · rw [bytes j]
    by_cases here : j = inum
    · rw [if_pos here, if_pos here, first.bytes inum, if_pos rfl, copyIn_append]
    · rw [if_neg here, if_neg here, first.bytes j, if_neg here]
  · have := first.taken
    have := second.taken
    omega

/- The blocks below an offset, but for the one that it lies in. -/
theorem below_block {r : Nat} (apart : r ≠ off / BSIZE) (within : off % BSIZE + n ≤ BSIZE) :
    r * BSIZE < off ↔ r * BSIZE < off + n := by
  have split := Nat.div_add_mod' off BSIZE
  rcases Nat.lt_or_gt_of_ne apart with less | more
  · have lower : (r + 1) * BSIZE ≤ off / BSIZE * BSIZE := Nat.mul_le_mul_right _ less
    have positive : 0 < BSIZE := by decide
    rw [Nat.add_mul] at lower
    omega
  · have upper : (off / BSIZE + 1) * BSIZE ≤ r * BSIZE := Nat.mul_le_mul_right _ more
    rw [Nat.add_mul] at upper
    omega

/- One round of the loop of iappend, behind locate. -/
theorem Appending.step {x : Nat} (h : Appending s inum din off) (below : off / BSIZE < MAXFILE) (some : 0 < n)
    (within : off % BSIZE + n ≤ BSIZE) (addrs : ∃ a, din' = { din with addrs := a })
    (located : Located s (pending s inum din off) inum (off / BSIZE) x
      { din' with size := BitVec.ofNat 32 off } s₁) (inside : x < FSSIZE) :
    Appended s inum din off n src din'
      { s₁ with image := update s₁.image x (copyIn (s₁.image x) (off % BSIZE) n src) } := by
  obtain ⟨sound, data, here, placed, others, same, taken, freeinode⟩ := located
  have inodes : s₁.inodes = s.inodes := inodes_congr same
  have ghost : update (pending s inum din off) inum { din' with size := BitVec.ofNat 32 off } =
      pending s₁ inum din' off := by
    unfold pending
    rw [update_idem, inodes]
  rw [ghost] at sound data here others
  have range := sound.range (inum, off / BSIZE) (by rw [here]; exact placed)
  rw [here] at range
  generalize written : copyIn (s₁.image x) (off % BSIZE) n src = v
  have low := nearlypos
  have first := bmapstart_lt
  -- the inodes have another size now, and the same addresses
  have early (b : Nat) (small : b < nmeta) : update s₁.image x v b = s₁.image b := update_of_ne (by omega) _ _
  have after : State.inodes { s₁ with image := update s₁.image x v } = s₁.inodes := inodes_congr early
  have addresses (j : Nat) : (pending { s₁ with image := update s₁.image x v } inum din' (off + n) j).addrs =
      (pending s₁ inum din' off j).addrs := by
    unfold pending
    rw [after, update_apply, update_apply]
    split <;> rfl
  have placed' : place (update s₁.image x v) (pending s₁ inum din' off) = place s₁.image (pending s₁ inum din' off) := by
    rw [← here]
    exact (write_data sound.apart below (by rwa [here])).1
  have whole : place (update s₁.image x v) (pending { s₁ with image := update s₁.image x v } inum din' (off + n)) =
      place s₁.image (pending s₁ inum din' off) := (place_congr addresses).trans placed'
  have small : off + n ≤ MAXFILE * BSIZE := by
    have top : (off / BSIZE + 1) * BSIZE ≤ MAXFILE * BSIZE := Nat.mul_le_mul_right _ below
    have split := Nat.div_add_mod' off BSIZE
    rw [Nat.add_mul] at top
    omega
  refine ⟨⟨?_, ?_, ?_, small⟩, fun j => ?_, fun b low => (early b low).trans (same b low), addrs, ?_, freeinode⟩
  · refine sound.change whole (fun b high => update_of_ne (by omega) _ _) (fun b _ below => early b below)
      (early 1 (by decide))
  · intro i r below'
    rw [whole]
    by_cases target : (i, r) = (inum, off / BSIZE)
    · obtain ⟨rfl, rfl⟩ := Prod.mk.inj target
      rw [here, pending_size small]
      have split := Nat.div_add_mod' off BSIZE
      exact ⟨fun _ => by omega, fun _ => placed⟩
    · rw [others i r below' target, h.filled i r below']
      by_cases own : i = inum
      · subst own
        rw [pending_size h.small, pending_size small]
        have apart : r ≠ off / BSIZE := fun same => target (by rw [same])
        exact below_block apart within
      · rw [pending_ne own, pending_ne own, after, inodes]
  · rcases taken with ⟨same, -⟩ | ⟨next, -⟩
    · change s₁.freeblock ≤ FSSIZE
      rw [same]
      exact h.bound
    · change s₁.freeblock ≤ FSSIZE
      omega
  · have bytes := write_bytes (n := n) src sound.apart below (by rwa [here]) within here.symm j
    rw [written] at bytes
    have before : fileByte s₁.image (pending s₁ inum din' off) = fileByte s.image (pending s inum din off) := by
      unfold fileByte
      rw [data]
    rw [before] at bytes
    rw [← bytes]
    unfold fileByte
    rw [fileBlock_addrs addresses]
  · change s.freeblock ≤ s₁.freeblock ∧ s₁.freeblock ≤ s.freeblock + 2 * n
    rcases taken with ⟨same, -⟩ | ⟨next, last⟩
    · omega
    · omega

/- The whole loop; mkfs stops in it for a file that is too long, or at the end of the
disk. -/
theorem wp_appendLoop (fuel : left ≤ n) (h : Appending s inum din off)
    (fits : M.fails .assertion ∨ off + left ≤ MAXFILE * BSIZE)
    (room : M.fails .exit ∨ s.freeblock + 2 * left ≤ FSSIZE) :
    wp M (appendLoop p n off left tot din) (fun r s' =>
      r.1 = off + left ∧ Appended s inum din off left (fun i => p (tot + i)) r.2 s') s := by
  induction n generalizing off left tot din s with
  | zero =>
    obtain rfl : left = 0 := by omega
    exact wp_pure ⟨rfl, h.nothing⟩
  | succ n ih =>
    rw [appendLoop]
    refine wp_ite (fun none => ?_) fun some => wp_ite (fun long => wp_fault ?_) fun below => ?_
    · subst none
      exact wp_pure ⟨rfl, h.nothing⟩
    · refine fits.resolve_right fun short => ?_
      have quot := Nat.div_add_mod' off BSIZE
      have top : MAXFILE * BSIZE ≤ off / BSIZE * BSIZE := Nat.mul_le_mul_right _ long
      omega
    · have below : off / BSIZE < MAXFILE := by omega
      refine wp_bind (wp_locate h.sound (update_self _ _ _) h.bound below (room.imp_right fun _ => by omega) ?_)
      intro x e s₁ addrs located
      have split := Nat.div_add_mod' off BSIZE
      have rest : (off / BSIZE + 1) * BSIZE - off = BSIZE - off % BSIZE := by
        rw [Nat.add_mul]
        omega
      have start : off - off / BSIZE * BSIZE = off % BSIZE := by omega
      have partly : off % BSIZE < BSIZE := Nat.mod_lt _ (by decide)
      rw [rest, start]
      generalize piece : min left (BSIZE - off % BSIZE) = m
      have range := located.sound.range (inum, off / BSIZE) (by rw [located.here]; exact located.some)
      rw [located.here] at range
      have length := located.sound.length
      refine wp_rsect_bind (room.imp_right fun _ => ?_) fun inside => wp_bind (wp_wsect inside ?_)
      · rcases located.taken with ⟨same, -⟩ | ⟨next, last⟩ <;> omega
      have first : Appended s inum din off m (fun i => p (tot + i)) e _ :=
        h.step below (by omega) (by omega) addrs located (by omega)
      refine wp_mono (ih (by omega) first.state (fits.imp_right fun _ => by omega)
        (room.imp_right fun _ => ?_)) ?_
      · have := first.taken
        omega
      · rintro ⟨off', din'⟩ s' ⟨rfl, second⟩
        have both : off + m + (left - m) = off + left ∧ m + (left - m) = left := by omega
        have shifted : (fun i => p (tot + m + i)) = fun i => p (tot + (m + i)) :=
          funext fun i => congrArg p (Nat.add_assoc _ _ _)
        rw [shifted] at second
        have whole := first.trans second
        rw [both.2] at whole
        exact ⟨both.1, whole⟩

end Append

/- Between two calls, for the inodes on the disk. -/
structure Built (s : State) : Prop where
  sound : Sound s s.inodes
  filled : Filled s.image s.inodes
  bound : s.freeblock ≤ FSSIZE
  small : ∀ i, (s.inodes i).size.toNat ≤ MAXFILE * BSIZE
  unused : ∀ i, s.freeinode ≤ i → s.inodes i = .zero
  number : s.freeinode ≤ NINODES

def State.contents (s : State) : Nat → List Byte := Fs.contents s.image s.inodes

section Files
variable {M : Mode Empty Stop} {s s' s₁ : State} {inum n : Nat} {d : Dinode} {p : Bytes}

def State.put (s : State) (inum : Nat) (d : Dinode) : State :=
  { s with
    image := update s.image (IBLOCK inum mkfsSb) (putDinode (s.image (IBLOCK inum mkfsSb)) (inum % IPB) d) }

theorem inodes_put (known : inum < NINODES) : (s.put inum d).inodes = update s.inodes inum d := inodeOf_put known

theorem put_image {b : Nat} (known : inum < NINODES) (outside : b ≤ 1 ∨ mkfsSb.bmapstart ≤ b) :
    (s.put inum d).image b = s.image b := by
  obtain ⟨low, high⟩ := formatted_mkfs.iblock (i := inum) known
  exact update_of_ne (by omega) _ _

theorem place_put {ino : Nat → Dinode} (h : Sound s ino) (known : inum < NINODES) :
    place (s.put inum d).image ino = place s.image ino := by
  obtain ⟨low, high⟩ := formatted_mkfs.iblock (i := inum) known
  refine place_beside fun j some => ?_
  have range := h.range _ some
  have := bmapstart_lt
  omega

theorem fileBlock_put {ino : Nat → Dinode} (h : Sound s ino) (known : inum < NINODES) :
    fileBlock (s.put inum d).image ino = fileBlock s.image ino := by
  refine fileBlock_congr fun j q _ => stored_congr (congrFun (place_put h known) _) fun some => ?_
  have range := h.range _ some
  exact put_image known (Or.inr (Nat.le_trans (Nat.le_of_lt bmapstart_lt) range.1))

theorem Sound.put {ino : Nat → Dinode} (h : Sound s ino) (known : inum < NINODES) : Sound (s.put inum d) ino := by
  have first := h.first
  have map := bmapstart_lt
  refine h.change (place_put (d := d) h known) (fun b high => ?_) (fun b low _ => ?_) ?_
  · exact put_image known (by omega)
  · exact put_image known (Or.inr low)
  · exact put_image (d := d) known (Or.inl le_rfl)

theorem wp_winode {Q : Unit → State → Prop} (length : s.length = FSSIZE) (known : inum < NINODES)
    (next : Q () (s.put inum d)) : wp M (winode inum d) Q s := by
  obtain ⟨-, high⟩ := formatted_mkfs.iblock (i := inum) known
  have inside : IBLOCK inum mkfsSb < s.length := by
    rw [length]
    exact high.trans (by decide)
  unfold winode
  exact wp_rsect_bind (Or.inr inside) fun _ => wp_wsect inside next

theorem wp_rinode_bind {B : Type} {f : Dinode → MkM B} {Q : B → State → Prop} (length : s.length = FSSIZE)
    (known : inum < NINODES) (next : wp M (f (s.inodes inum)) Q s) : wp M (rinode inum >>= f) Q s := by
  obtain ⟨-, high⟩ := formatted_mkfs.iblock (i := inum) known
  have inside : IBLOCK inum mkfsSb < s.length := by
    rw [length]
    exact high.trans (by decide)
  have here : s.inodes inum = getDinode (s.image (IBLOCK inum mkfsSb)) (inum % IPB) := if_pos known
  unfold rinode
  rw [here] at next
  exact wp_bind (wp_rsect_bind (Or.inr inside) fun _ => wp_pure next)

/- Inode inum has got more bytes, and nothing else is seen of it. -/
structure Grown (s : State) (inum : Nat) (bytes : List Byte) (s' : State) : Prop where
  built : Built s'
  contents : s'.contents = update s.contents inum (s.contents inum ++ bytes)
  types : ∀ j, (s'.inodes j).type = (s.inodes j).type
  taken : s.freeblock ≤ s'.freeblock ∧ s'.freeblock ≤ s.freeblock + 2 * bytes.length
  freeinode : s'.freeinode = s.freeinode

theorem length_contents (i : Nat) : (s.contents i).length = (s.inodes i).size.toNat := by
  unfold State.contents Fs.contents
  rw [List.length_map, List.length_range]

theorem map_copyIn {f src : Bytes} {off n : Nat} :
    (List.range (off + n)).map (copyIn f off n src) = (List.range off).map f ++ (List.range n).map src := by
  rw [List.range_add, List.map_append, List.map_map]
  congr 1
  · refine List.map_congr_left fun j below => ?_
    have below := List.mem_range.mp below
    exact if_neg (by omega)
  · refine List.map_congr_left fun j below => ?_
    have below := List.mem_range.mp below
    unfold copyIn
    rw [Function.comp_apply, if_pos (by omega), Nat.add_sub_cancel_left]

theorem pending_inodes : pending s inum (s.inodes inum) (s.inodes inum).size.toNat = s.inodes := by
  unfold pending
  rw [BitVec.ofNat_toNat, BitVec.setWidth_eq]
  exact update_eq_self _ _

/- What iappend has written back. -/
theorem Appended.put {din' : Dinode} {off : Nat} (h : Built s) (known : inum < s.freeinode)
    (off_ : off = (s.inodes inum).size.toNat) (appended : Appended s inum (s.inodes inum) off n p din' s₁) :
    Grown s inum ((List.range n).map p) (s₁.put inum { din' with size := BitVec.ofNat 32 (off + n) }) := by
  subst off_
  obtain ⟨state, bytes, same, ⟨a, addrs⟩, taken, freeinode⟩ := appended
  have number : inum < NINODES := lt_of_lt_of_le known h.number
  have inodes : s₁.inodes = s.inodes := inodes_congr same
  rw [pending_inodes] at bytes
  generalize now : (s.inodes inum).size.toNat + n = size at *
  have after : (s₁.put inum { din' with size := BitVec.ofNat 32 size }).inodes = pending s₁ inum din' size :=
    inodes_put number
  have others {j : Nat} (other : j ≠ inum) : pending s₁ inum din' size j = s.inodes j := by
    rw [pending_ne other, inodes]
  have data (j : Nat) : fileByte (s₁.put inum { din' with size := BitVec.ofNat 32 size }).image
      (pending s₁ inum din' size) j = fileByte s₁.image (pending s₁ inum din' size) j := by
    unfold fileByte
    rw [fileBlock_put state.sound number]
  refine ⟨⟨?_, ?_, state.bound, fun i => ?_, fun i high => ?_, ?_⟩, ?_, fun j => ?_, ?_, freeinode⟩
  · rw [after]
    exact state.sound.put number
  · rw [after]
    intro i r below
    rw [place_put state.sound number]
    exact state.filled i r below
  · rw [after]
    by_cases here : i = inum
    · rw [here, pending_size state.small]
      exact state.small
    · rw [others here]
      exact h.small i
  · have high : s.freeinode ≤ i := freeinode ▸ high
    rw [after, others (by omega), h.unused i high]
  · exact freeinode.le.trans h.number
  · funext j
    unfold State.contents Fs.contents
    rw [after, data, bytes j]
    by_cases here : j = inum
    · rw [here, if_pos rfl, update_self, pending_size state.small, ← now, map_copyIn]
    · rw [if_neg here, update_of_ne here, others here]
  · rw [after]
    by_cases here : j = inum
    · rw [here, pending, update_self, addrs]
    · rw [others here]
  · rw [List.length_map, List.length_range]
    exact taken

theorem wp_iappend (h : Built s) (known : inum < s.freeinode)
    (fits : M.fails .assertion ∨ (s.contents inum).length + n ≤ MAXFILE * BSIZE)
    (room : M.fails .exit ∨ s.freeblock + 2 * n ≤ FSSIZE) :
    wp M (iappend inum p n) (fun _ s' => Grown s inum ((List.range n).map p) s') s := by
  have number : inum < NINODES := lt_of_lt_of_le known h.number
  rw [length_contents] at fits
  have start : Appending s inum (s.inodes inum) (s.inodes inum).size.toNat := by
    refine ⟨?_, ?_, h.bound, h.small inum⟩ <;> rw [pending_inodes]
    · exact h.sound
    · exact h.filled
  unfold iappend
  refine wp_rinode_bind h.sound.length number (wp_seq (wp_appendLoop le_rfl start fits room) ?_)
  rintro ⟨_, din'⟩ s₁ ⟨rfl, appended⟩
  simp only [Nat.zero_add] at appended
  exact wp_winode appended.state.sound.length number (appended.put h known rfl)

theorem Grown.refl (h : Built s) : Grown s inum [] s := by
  refine ⟨h, ?_, fun _ => rfl, ⟨le_rfl, Nat.le_add_right _ _⟩, rfl⟩
  rw [List.append_nil, update_eq_self]

theorem Grown.trans {bytes more : List Byte} (first : Grown s inum bytes s₁) (second : Grown s₁ inum more s') :
    Grown s inum (bytes ++ more) s' := by
  refine ⟨second.built, ?_, fun j => (second.types j).trans (first.types j), ?_,
    second.freeinode.trans first.freeinode⟩
  · rw [second.contents, first.contents, update_self, update_idem, List.append_assoc]
  · have := first.taken
    have := second.taken
    rw [List.length_append]
    omega

theorem map_toBytes (l : List Byte) : (List.range l.length).map (toBytes l) = l := by
  refine List.ext_getElem (by rw [List.length_map, List.length_range]) fun i _ inside => ?_
  rw [List.getElem_map, List.getElem_range, toBytes, List.getD_eq_getElem?_getD, List.getElem?_eq_getElem inside,
    Option.getD_some]

theorem wp_copyFile {reads : List (List Byte)} (h : Built s) (known : inum < s.freeinode)
    (fits : M.fails .assertion ∨ (s.contents inum).length + reads.flatten.length ≤ MAXFILE * BSIZE)
    (room : M.fails .exit ∨ s.freeblock + 2 * reads.flatten.length ≤ FSSIZE) :
    wp M (copyFile inum reads) (fun _ s' => Grown s inum reads.flatten s') s := by
  induction reads generalizing s with
  | nil => exact wp_pure (Grown.refl h)
  | cons r reads ih =>
    rw [List.flatten_cons, List.length_append] at fits room
    unfold copyFile
    refine wp_seq (wp_iappend h known (fits.imp_right fun _ => by omega) (room.imp_right fun _ => by omega)) ?_
    intro _ s₁ first
    rw [map_toBytes] at first
    have length : (s₁.contents inum).length = (s.contents inum).length + r.length := by
      rw [first.contents, update_self, List.length_append]
    have taken := first.taken
    refine wp_mono (ih first.built (by rw [first.freeinode]; exact known) (fits.imp_right fun _ => by omega)
      (room.imp_right fun _ => by omega)) fun _ s' second => ?_
    exact first.trans second

/- A new inode without contents. -/
structure Allocated (s : State) (type : BitVec 16) (s' : State) : Prop where
  built : Built s'
  contents : s'.contents = s.contents
  types : ∀ j, (s'.inodes j).type = if j = s.freeinode then type else (s.inodes j).type
  freeblock : s'.freeblock = s.freeblock
  freeinode : s'.freeinode = s.freeinode + 1

theorem wp_ialloc {type : BitVec 16} (h : Built s) (few : s.freeinode < NINODES) :
    wp M (ialloc type) (fun inum s' => inum = s.freeinode ∧ Allocated s type s') s := by
  unfold ialloc
  refine wp_get_bind (wp_modify_bind (wp_bind (wp_winode h.sound.length few (wp_pure ⟨rfl, ?_⟩))))
  generalize fresh : ({ Dinode.zero with type := type, nlink := 1 } : Dinode) = d
  have zero := h.unused s.freeinode le_rfl
  have after : (State.put { s with freeinode := s.freeinode + 1 } s.freeinode d).inodes =
      update s.inodes s.freeinode d := inodes_put few
  have addresses (j : Nat) : (update s.inodes s.freeinode d j).addrs = (s.inodes j).addrs :=
    update_same (by rw [zero, ← fresh]) j
  have sizes (j : Nat) : (update s.inodes s.freeinode d j).size = (s.inodes j).size :=
    update_same (by rw [zero, ← fresh]) j
  have sound : Sound { s with freeinode := s.freeinode + 1 } (update s.inodes s.freeinode d) :=
    h.sound.numbered addresses _
  refine ⟨⟨?_, ?_, h.bound, fun i => ?_, fun i high => ?_, few⟩, ?_, fun j => ?_, rfl, rfl⟩
  · rw [after]
    exact sound.put few
  · rw [after]
    intro i r below
    rw [place_put sound few, place_congr addresses, sizes]
    exact h.filled i r below
  · rw [after, sizes]
    exact h.small i
  · have high : s.freeinode + 1 ≤ i := high
    rw [after, update_of_ne (by omega), h.unused i (by omega)]
  · funext j
    unfold State.contents Fs.contents fileByte
    rw [after, sizes, fileBlock_put sound few, fileBlock_addrs addresses]
  · rw [after, update_apply]
    split
    · rw [← fresh]
    · rfl

end Files

end Xv6c.Mkfs

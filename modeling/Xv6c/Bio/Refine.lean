import Mathlib.Data.List.Perm.Basic
import Xv6c.Bio.Model

/-! The buffer cache stands for a plain block store. One invariant relates the
two; every step touches one buffer, so that it is kept is shown once for any such
step and the steps themselves have only that buffer to account for. -/
namespace Xv6c.Bio
open Lib
open Function (update update_self update_of_ne update_eq_self update_idem)

/- What is true of one buffer, of the calls that wait for it and of whether its
data is changed, given the store. -/
structure Sound (v : Store) (b : Buf) (waiting : List Request) (changed : Bool) : Prop where
  refs : b.refcnt = waiting.length + (if b.lock.isSome then 1 else 0)
  asked : ∀ r ∈ waiting, b.dev = ROOTDEV ∧ b.blockno = r.blockno
  locked : b.lock.isSome → b.dev = ROOTDEV ∧ b.valid = true
  dirty : b.dirty = true → b.dev = ROOTDEV ∧ b.valid = true ∧ v.logged b.blockno = true
  held : changed = true → b.lock.isSome
  cached : b.dev = ROOTDEV → b.valid = true → changed = false → b.data = v.contents b.blockno

/- The list is a ring of all buffers, the one freed last in front. -/
def Ordered (link : Links Nat) (freed : List Nat) : Prop :=
  ∃ l, Circular link head l ∧ l.Perm (List.range NBUF) ∧
    l.Pairwise (fun i j => freed.idxOf i ≤ freed.idxOf j)

structure Coherent (w : World) : Prop where
  order : Ordered w.state.cache.link w.store.freed
  sound : ∀ i, Sound w.store (w.state.cache.buf i) (w.state.waiting i) (w.state.changed i)
  inside : ∀ i, (w.state.cache.buf i).dev = ROOTDEV → i < NBUF
  unique : ∀ i j, (w.state.cache.buf i).dev = ROOTDEV → (w.state.cache.buf j).dev = ROOTDEV →
    (w.state.cache.buf i).blockno = (w.state.cache.buf j).blockno → i = j
  stored : ∀ b, w.store.logged b = false → w.state.cache.memdisk b = w.store.contents b
  pinned : ∀ b, w.store.logged b = true → ∃ i, (w.state.cache.buf i).dev = ROOTDEV ∧
    (w.state.cache.buf i).blockno = b ∧ (w.state.cache.buf i).dirty = true

/- The step from w to t leaves every buffer but i as it was. -/
structure Touch (w t : World) (i : Nat) : Prop where
  buf : ∀ j, j ≠ i → t.state.cache.buf j = w.state.cache.buf j
  waiting : ∀ j, j ≠ i → t.state.waiting j = w.state.waiting j
  changed : ∀ j, j ≠ i → t.state.changed j = w.state.changed j
  memdisk : ∀ b, b ≠ (t.state.cache.buf i).blockno →
    t.state.cache.memdisk b = w.state.cache.memdisk b
  contents : ∀ b, b ≠ (t.state.cache.buf i).blockno → t.store.contents b = w.store.contents b
  logged : ∀ b, b ≠ (t.state.cache.buf i).blockno → t.store.logged b = w.store.logged b

variable {v : Store} {b : Buf} {waiting : List Request} {changed : Bool}

theorem sound_congr {u : Store} (sound : Sound v b waiting changed)
    (contents : b.dev = ROOTDEV → u.contents b.blockno = v.contents b.blockno)
    (logged : b.dev = ROOTDEV → u.logged b.blockno = v.logged b.blockno) : Sound u b waiting changed := by
  refine { sound with dirty := ?_, cached := ?_ }
  · intro isDirty
    obtain ⟨root, valid, log⟩ := sound.dirty isDirty
    exact ⟨root, valid, (logged root).trans log⟩
  · intro root valid same
    exact (sound.cached root valid same).trans (contents root).symm

variable {w t : World} {i : Nat}

/-- A step that touches buffer i keeps the invariant when it keeps what is said
of that buffer and of the block it now carries. -/
theorem coherent_touch (coherent : Coherent w) (touch : Touch w t i)
    (order : Ordered t.state.cache.link t.store.freed)
    (sound : Sound t.store (t.state.cache.buf i) (t.state.waiting i) (t.state.changed i)) (inside : i < NBUF)
    (apart : ∀ j, j ≠ i → (w.state.cache.buf j).dev = ROOTDEV →
      (w.state.cache.buf j).blockno ≠ (t.state.cache.buf i).blockno)
    (kept : (w.state.cache.buf i).dirty = true →
      (t.state.cache.buf i).blockno = (w.state.cache.buf i).blockno)
    (stored : t.store.logged (t.state.cache.buf i).blockno = false →
      t.state.cache.memdisk (t.state.cache.buf i).blockno =
        t.store.contents (t.state.cache.buf i).blockno)
    (pinned : t.store.logged (t.state.cache.buf i).blockno = true →
      (t.state.cache.buf i).dev = ROOTDEV ∧ (t.state.cache.buf i).dirty = true) : Coherent t := by
  refine ⟨order, ?_, ?_, ?_, ?_, ?_⟩
  · intro j
    by_cases here : j = i
    · rw [here]
      exact sound
    · rw [touch.buf j here, touch.waiting j here, touch.changed j here]
      refine sound_congr (coherent.sound j) ?_ ?_
      · exact fun root => touch.contents _ (apart j here root)
      · exact fun root => touch.logged _ (apart j here root)
  · intro j root
    by_cases here : j = i
    · exact here ▸ inside
    · rw [touch.buf j here] at root
      exact coherent.inside j root
  · intro j k rootJ rootK same
    by_cases hereJ : j = i
    · by_cases hereK : k = i
      · exact hereJ.trans hereK.symm
      · rw [touch.buf k hereK] at rootK same
        rw [hereJ] at same
        exact absurd same.symm (apart k hereK rootK)
    · rw [touch.buf j hereJ] at rootJ same
      by_cases hereK : k = i
      · rw [hereK] at same
        exact absurd same (apart j hereJ rootJ)
      · rw [touch.buf k hereK] at rootK same
        exact coherent.unique j k rootJ rootK same
  · intro b clean
    by_cases here : b = (t.state.cache.buf i).blockno
    · rw [here] at clean ⊢
      exact stored clean
    · rw [touch.logged b here] at clean
      rw [touch.memdisk b here, touch.contents b here]
      exact coherent.stored b clean
  · intro b log
    by_cases here : b = (t.state.cache.buf i).blockno
    · rw [here] at log ⊢
      exact ⟨i, (pinned log).1, rfl, (pinned log).2⟩
    · rw [touch.logged b here] at log
      obtain ⟨j, root, carried, dirty⟩ := coherent.pinned b log
      have other : j ≠ i := by
        rintro rfl
        exact here ((kept dirty).trans carried).symm
      exact ⟨j, by rw [touch.buf j other]; exact ⟨root, carried, dirty⟩⟩

/- Without a change of what a buffer carries, no other buffer comes to carry it. -/
theorem carried_apart (coherent : Coherent w) {j : Nat} (other : j ≠ i)
    (root : (w.state.cache.buf i).dev = ROOTDEV) (rootJ : (w.state.cache.buf j).dev = ROOTDEV) :
    (w.state.cache.buf j).blockno ≠ (w.state.cache.buf i).blockno :=
  fun same => other (coherent.unique j i rootJ root same)

theorem logged_dirty (coherent : Coherent w) (root : (w.state.cache.buf i).dev = ROOTDEV)
    (log : w.store.logged (w.state.cache.buf i).blockno = true) : (w.state.cache.buf i).dirty = true := by
  obtain ⟨j, rootJ, carried, dirty⟩ := coherent.pinned _ log
  rwa [← coherent.unique j i rootJ root carried]

variable {c d : Bcache}

/- bget takes a reference to the buffer that carries the block or, when none
does, recycles the last buffer of the list that may be. -/
theorem bget_spec {freed : List Nat} {dev blockno : Nat} (order : Ordered c.link freed)
    (got : bget c dev blockno = some (i, d)) : i < NBUF ∧
      ((carries c dev blockno i = true ∧
          d = c.set i { c.buf i with refcnt := (c.buf i).refcnt + 1 }) ∨
        ((∀ j < NBUF, carries c dev blockno j = false) ∧ recyclable c i = true ∧
          d = c.set i { c.buf i with
            dev := dev, blockno := blockno, valid := false, dirty := false, refcnt := 1 })) := by
  obtain ⟨l, ring, perm, -⟩ := order
  have enough : l.length < NBUF + 1 := by
    rw [perm.length_eq, List.length_range]
    exact Nat.lt_succ_self NBUF
  have bound : ∀ j ∈ l, j < NBUF := fun j hj => List.mem_range.mp (perm.mem_iff.mp hj)
  rw [bget, scan_forward ring _ enough, scan_backward ring _ enough] at got
  cases found : l.find? (carries c dev blockno) with
  | some j =>
    rw [found] at got
    obtain ⟨rfl, rfl⟩ := Prod.mk.inj (Option.some.inj got)
    exact ⟨bound j (List.mem_of_find?_eq_some found), .inl ⟨List.find?_some found, rfl⟩⟩
  | none =>
    rw [found] at got
    dsimp only at got
    cases free : l.reverse.find? (recyclable c) with
    | none =>
      rw [free] at got
      cases got
    | some j =>
      rw [free] at got
      obtain ⟨rfl, rfl⟩ := Prod.mk.inj (Option.some.inj got)
      have member := List.mem_reverse.mp (List.mem_of_find?_eq_some free)
      refine ⟨bound j member, .inr ⟨?_, List.find?_some free, rfl⟩⟩
      intro k hk
      have all := List.find?_eq_none.mp found k (perm.mem_iff.mpr (List.mem_range.mpr hk))
      exact Bool.not_eq_true _ ▸ all

theorem carries_iff {dev blockno : Nat} :
    carries c dev blockno i = true ↔ (c.buf i).dev = dev ∧ (c.buf i).blockno = blockno := by
  rw [carries, Bool.and_eq_true, beq_iff_eq, beq_iff_eq]

theorem recyclable_iff : recyclable c i = true ↔ (c.buf i).refcnt = 0 ∧ (c.buf i).dirty = false := by
  rw [recyclable, Bool.and_eq_true, beq_iff_eq, Bool.not_eq_true']

/- The data of a buffer that no process holds is not changed. -/
theorem Sound.settled (sound : Sound v b waiting changed) (free : b.lock = none) : changed = false := by
  by_contra same
  have held := sound.held (Bool.not_eq_false _ ▸ same)
  rw [free] at held
  cases held

/- A dirty buffer is valid, so that iderw never writes one it was asked to read. -/
theorem Sound.invalid_clean (sound : Sound v b waiting changed) (invalid : b.valid = false) : b.dirty = false := by
  by_contra isDirty
  have valid := (sound.dirty (Bool.not_eq_false _ ▸ isDirty)).2.1
  rw [invalid] at valid
  cases valid

/- No call waits for an unreferenced buffer and no process holds it. -/
theorem Sound.unreferenced (sound : Sound v b waiting changed) (zero : b.refcnt = 0) :
    waiting = [] ∧ b.lock = none ∧ changed = false := by
  have refs := sound.refs
  rw [zero] at refs
  have free : b.lock = none := by
    by_contra holder
    simp [Option.isSome_iff_ne_none.mpr holder] at refs
  exact ⟨List.length_eq_zero_iff.mp (by omega), free, sound.settled free⟩

variable {l : Label}

theorem act_some (acted : act w l = some t) :
    step w.state l = some t.state ∧ t.store = observe w.state w.store l := by
  obtain ⟨s, stepped, rfl⟩ := Option.map_eq_some_iff.mp acted
  exact ⟨stepped, rfl⟩

/- A buffer, its calls and its mark replaced, with the links, the disk and the
log header as given. -/
def State.put (s : State) (i : Nat) (b : Buf) (waiting : List Request) (changed : Bool)
    (link : Links Nat) (memdisk : Nat → Block) (lh : List Nat) : State :=
  ⟨⟨update s.cache.buf i b, link, s.cache.disksize, memdisk⟩,
    update s.waiting i waiting, update s.changed i changed, lh⟩

/- A label other than clear puts one buffer; these are the buffers it may put. -/
inductive Put (s : State) (i : Nat) : Label → State → Prop where
  | found (r : Request) : carries s.cache ROOTDEV r.blockno i = true →
      Put s i (.bget r) (s.put i { s.cache.buf i with refcnt := (s.cache.buf i).refcnt + 1 }
        (r :: s.waiting i) (s.changed i) s.cache.link s.cache.memdisk s.lh)
  | recycled (r : Request) : (∀ j < NBUF, carries s.cache ROOTDEV r.blockno j = false) →
      recyclable s.cache i = true →
      Put s i (.bget r) (s.put i { s.cache.buf i with
          dev := ROOTDEV, blockno := r.blockno, valid := false, dirty := false, refcnt := 1 }
        (r :: s.waiting i) (s.changed i) s.cache.link s.cache.memdisk s.lh)
  | hit (r : Request) : r ∈ s.waiting i → (s.cache.buf i).lock = none →
      (s.cache.buf i).valid = true →
      Put s i (.lock r i) (s.put i { s.cache.buf i with lock := some r.pid }
        ((s.waiting i).erase r) (s.changed i) s.cache.link s.cache.memdisk s.lh)
  | fill (r : Request) : r ∈ s.waiting i → (s.cache.buf i).lock = none →
      (s.cache.buf i).valid = false → (s.cache.buf i).dirty = false →
      Put s i (.lock r i) (s.put i { s.cache.buf i with
          lock := some r.pid, data := s.cache.memdisk (s.cache.buf i).blockno, valid := true }
        ((s.waiting i).erase r) (s.changed i) s.cache.link s.cache.memdisk s.lh)
  | modify (pid : Nat) (v : Block) : (s.cache.buf i).lock = some pid →
      Put s i (.modify pid i v) (s.put i { s.cache.buf i with data := v }
        (s.waiting i) true s.cache.link s.cache.memdisk s.lh)
  | logWrite (pid : Nat) : (s.cache.buf i).lock = some pid →
      Put s i (.logWrite pid i) (s.put i { s.cache.buf i with dirty := true }
        (s.waiting i) false s.cache.link s.cache.memdisk
        (Log.absorb s.lh (s.cache.buf i).blockno))
  | bwrite (pid : Nat) : (s.cache.buf i).lock = some pid →
      Put s i (.bwrite pid i) (s.put i { s.cache.buf i with dirty := false, valid := true }
        (s.waiting i) false s.cache.link
        (update s.cache.memdisk (s.cache.buf i).blockno (s.cache.buf i).data) s.lh)
  | brelse (pid : Nat) : (s.cache.buf i).lock = some pid → s.changed i = false →
      Put s i (.brelse pid i) (s.put i
        { s.cache.buf i with lock := none, refcnt := (s.cache.buf i).refcnt - 1 }
        (s.waiting i) (s.changed i)
        (if (s.cache.buf i).refcnt - 1 = 0 then (s.cache.link.unlink i).insertFront head i
          else s.cache.link) s.cache.memdisk s.lh)

variable {pid : Nat}

theorem holdingsleep_iff : holdingsleep c pid i = true ↔ (c.buf i).lock = some pid := by
  rw [holdingsleep, beq_iff_eq]

/- A locked buffer is one of the NBUF. -/
theorem Coherent.locked_inside (coherent : Coherent w) (holder : (w.state.cache.buf i).lock = some pid) :
    i < NBUF := by
  refine coherent.inside i ((coherent.sound i).locked ?_).1
  rw [holder]
  rfl

theorem breadLocked_spec (read : breadLocked c pid i = some d)
    (clean : (c.buf i).valid = false → (c.buf i).dirty = false) : (c.buf i).lock = none ∧
      (((c.buf i).valid = true ∧ d = c.set i { c.buf i with lock := some pid }) ∨
        ((c.buf i).valid = false ∧ d = c.set i { c.buf i with
          lock := some pid, data := c.memdisk (c.buf i).blockno, valid := true })) := by
  obtain ⟨e, acquired, read⟩ := Option.bind_eq_some_iff.mp read
  rw [acquiresleep, Option.ite_none_right_eq_some] at acquired
  obtain ⟨free, acquired⟩ := acquired
  cases Option.some.inj acquired
  refine ⟨free, ?_⟩
  cases valid : (c.buf i).valid with
  | true =>
    simp only [Bcache.set, update_self, valid, if_true] at read
    refine .inl ⟨rfl, ?_⟩
    rw [← Option.some.inj read]
    simp only [Bcache.set, valid]
  | false =>
    simp only [Bcache.set, iderw, holdingsleep, update_self, valid, clean valid, beq_self_eq_true,
      Bool.not_true, Bool.false_eq_true, if_false, Bool.false_and, update_idem,
      Option.ite_none_left_eq_some] at read
    refine .inr ⟨rfl, ?_⟩
    rw [← Option.some.inj read.2.2]
    simp only [Bcache.set, clean valid]

theorem bwrite_spec (written : bwrite c pid i = some d) : (c.buf i).lock = some pid ∧
      d = { c.set i { c.buf i with dirty := false, valid := true } with
        memdisk := update c.memdisk (c.buf i).blockno (c.buf i).data } := by
  rw [bwrite] at written
  split at written
  · cases written
  · next held =>
    rw [Bool.not_eq_true, Bool.not_eq_false', holdingsleep_iff] at held
    simp only [Bcache.set, iderw, holdingsleep, update_self, held, beq_self_eq_true, Bool.not_true,
      Bool.false_eq_true, if_false, Bool.and_false, if_true, update_idem,
      Option.ite_none_left_eq_some] at written
    refine ⟨held, ?_⟩
    rw [← Option.some.inj written.2.2]
    simp only [Bcache.set, held]

theorem brelse_spec (released : brelse c pid i = some d) : (c.buf i).lock = some pid ∧
      d = { c.set i { c.buf i with lock := none, refcnt := (c.buf i).refcnt - 1 } with
        link := if (c.buf i).refcnt - 1 = 0 then (c.link.unlink i).insertFront head i
          else c.link } := by
  rw [brelse] at released
  split at released
  · cases released
  · next held =>
    rw [Bool.not_eq_true, Bool.not_eq_false', holdingsleep_iff] at held
    refine ⟨held, ?_⟩
    rw [← Option.some.inj released]
    split <;> rfl

theorem step_put {s : State} (coherent : Coherent w) (stepped : step w.state l = some s) :
    (l = .clear ∧ s = { w.state with lh := [] }) ∨ ∃ i < NBUF, Put w.state i l s := by
  cases l with
  | bget r =>
    obtain ⟨⟨i, c⟩, got, rfl⟩ := Option.map_eq_some_iff.mp stepped
    obtain ⟨inside, ⟨carried, rfl⟩ | ⟨absent, free, rfl⟩⟩ := bget_spec coherent.order got
    · refine .inr ⟨i, inside, ?_⟩
      simpa only [State.put, Bcache.set, update_eq_self] using Put.found (s := w.state) r carried
    · refine .inr ⟨i, inside, ?_⟩
      simpa only [State.put, Bcache.set, update_eq_self] using Put.recycled (s := w.state) r absent free
  | lock r i =>
    obtain ⟨waits, stepped⟩ := Option.ite_none_right_eq_some.mp stepped
    obtain ⟨c, read, rfl⟩ := Option.map_eq_some_iff.mp stepped
    have root := ((coherent.sound i).asked r waits).1
    have clean := (coherent.sound i).invalid_clean
    obtain ⟨free, ⟨valid, rfl⟩ | ⟨invalid, rfl⟩⟩ := breadLocked_spec read clean
    · refine .inr ⟨i, coherent.inside i root, ?_⟩
      simpa only [State.put, Bcache.set, update_eq_self] using Put.hit (s := w.state) r waits free valid
    · refine .inr ⟨i, coherent.inside i root, ?_⟩
      simpa only [State.put, Bcache.set, update_eq_self] using Put.fill (s := w.state) r waits free invalid (clean invalid)
  | modify pid i v =>
    obtain ⟨holds, rfl⟩ := guarded stepped
    have held := holdingsleep_iff.mp holds
    refine .inr ⟨i, coherent.locked_inside held, ?_⟩
    simpa only [State.put, Bcache.set, update_eq_self] using Put.modify (s := w.state) pid v held
  | logWrite pid i =>
    obtain ⟨holds, rfl⟩ := guarded stepped
    have held := holdingsleep_iff.mp holds
    refine .inr ⟨i, coherent.locked_inside held, ?_⟩
    simpa only [State.put, Bcache.set, update_eq_self] using Put.logWrite (s := w.state) pid held
  | bwrite pid i =>
    obtain ⟨c, written, rfl⟩ := Option.map_eq_some_iff.mp stepped
    obtain ⟨held, rfl⟩ := bwrite_spec written
    refine .inr ⟨i, coherent.locked_inside held, ?_⟩
    simpa only [State.put, Bcache.set, update_eq_self] using Put.bwrite (s := w.state) pid held
  | brelse pid i =>
    obtain ⟨unchanged, stepped⟩ := Option.ite_none_left_eq_some.mp stepped
    obtain ⟨c, released, rfl⟩ := Option.map_eq_some_iff.mp stepped
    obtain ⟨held, rfl⟩ := brelse_spec released
    refine .inr ⟨i, coherent.locked_inside held, ?_⟩
    have put := Put.brelse (s := w.state) pid held (Bool.not_eq_true _ ▸ unchanged)
    rwa [State.put, update_eq_self, update_eq_self] at put
  | clear => exact .inl ⟨rfl, (Option.some.inj stepped).symm⟩

variable {link : Links Nat} {lh : List Nat}

theorem touch_put {memdisk : Nat → Block} (disk : ∀ n, n ≠ b.blockno → memdisk n = w.state.cache.memdisk n)
    (contents : ∀ n, n ≠ b.blockno → v.contents n = w.store.contents n)
    (logged : ∀ n, n ≠ b.blockno → v.logged n = w.store.logged n) :
    Touch w ⟨w.state.put i b waiting changed link memdisk lh, v⟩ i := by
  refine ⟨?_, ?_, ?_, ?_, ?_, ?_⟩
  · exact fun j other => update_of_ne other _ _
  · exact fun j other => update_of_ne other _ _
  · exact fun j other => update_of_ne other _ _
  · simpa only [State.put, update_self] using disk
  · simpa only [State.put, update_self] using contents
  · simpa only [State.put, update_self] using logged

/- The general rule for a put buffer that carries the block it carried before. -/
theorem coherent_put {memdisk : Nat → Block} (coherent : Coherent w)
    (root : (w.state.cache.buf i).dev = ROOTDEV) (same : b.blockno = (w.state.cache.buf i).blockno)
    (disk : ∀ n, n ≠ b.blockno → memdisk n = w.state.cache.memdisk n)
    (contents : ∀ n, n ≠ b.blockno → v.contents n = w.store.contents n)
    (logged : ∀ n, n ≠ b.blockno → v.logged n = w.store.logged n) (order : Ordered link v.freed)
    (sound : Sound v b waiting changed)
    (stored : v.logged b.blockno = false → memdisk b.blockno = v.contents b.blockno)
    (pinned : v.logged b.blockno = true → b.dev = ROOTDEV ∧ b.dirty = true) :
    Coherent ⟨w.state.put i b waiting changed link memdisk lh, v⟩ := by
  refine coherent_touch coherent (touch_put disk contents logged) order ?_
    (coherent.inside i root) ?_ ?_ ?_ ?_
  · simpa only [State.put, update_self] using sound
  · intro j other rootJ
    simp only [State.put, update_self, same]
    exact carried_apart coherent other root rootJ
  · intro _
    simp only [State.put, update_self, same]
  · simpa only [State.put, update_self] using stored
  · simpa only [State.put, update_self] using pinned

/- The same where the store and the disk stay as they are. -/
theorem coherent_put_quiet (coherent : Coherent w) (root : (w.state.cache.buf i).dev = ROOTDEV)
    (same : b.blockno = (w.state.cache.buf i).blockno) (dev : b.dev = (w.state.cache.buf i).dev)
    (dirty : b.dirty = (w.state.cache.buf i).dirty) (contents : v.contents = w.store.contents)
    (logged : v.logged = w.store.logged) (order : Ordered link v.freed) (sound : Sound v b waiting changed) :
    Coherent ⟨w.state.put i b waiting changed link w.state.cache.memdisk lh, v⟩ := by
  refine coherent_put coherent root same (fun _ _ => rfl) (fun _ _ => by rw [contents])
    (fun _ _ => by rw [logged]) order sound ?_ ?_
  · rw [contents, logged]
    exact coherent.stored b.blockno
  · rw [logged, same, dev, dirty]
    exact fun log => ⟨root, logged_dirty coherent root log⟩

/- Moving the freed buffer to the front keeps the order. -/
theorem ordered_free {freed : List Nat} (order : Ordered link freed) (inside : i < NBUF) :
    Ordered ((link.unlink i).insertFront head i) (i :: freed) := by
  obtain ⟨l, ring, perm, sorted⟩ := order
  obtain ⟨xs, ys, rfl⟩ := List.append_of_mem (perm.mem_iff.mpr (List.mem_range.mpr inside))
  have nodup := (List.nodup_cons.mp ring.nodup).2
  have absent : i ∉ xs ++ ys := (List.nodup_cons.mp (List.nodup_middle.mp nodup)).1
  refine ⟨i :: (xs ++ ys), circular_insertFront (circular_unlink ring) ?_, ?_, ?_⟩
  · rw [List.mem_cons]
    rintro (rfl | member)
    · exact (List.nodup_cons.mp ring.nodup).1 (by simp)
    · exact absent member
  · exact List.perm_middle.symm.trans perm
  · refine List.pairwise_cons.mpr ⟨?_, ?_⟩
    · intro j _
      rw [List.idxOf_cons_self]
      exact Nat.zero_le _
    · have rest := List.Pairwise.sublist
        (List.Sublist.append_left (List.sublist_cons_self i ys) xs) sorted
      refine rest.imp_of_mem ?_
      intro j k hj hk le
      have neJ : i ≠ j := fun same => absent (same ▸ hj)
      have neK : i ≠ k := fun same => absent (same ▸ hk)
      rw [List.idxOf_cons_ne freed neJ, List.idxOf_cons_ne freed neK]
      exact Nat.succ_le_succ le

theorem Sound.locked_of (sound : Sound v b waiting changed) (holder : b.lock = some pid) :
    b.dev = ROOTDEV ∧ b.valid = true ∧ b.refcnt = waiting.length + 1 := by
  have held : b.lock.isSome = true := by rw [holder]; rfl
  obtain ⟨root, valid⟩ := sound.locked held
  refine ⟨root, valid, ?_⟩
  rw [sound.refs, if_pos held]

/- The buffer that the second half of bread locks, when it has been filled. -/
theorem Sound.lock {d : Buf} {r : Request} (sound : Sound v b waiting changed) (waits : r ∈ waiting)
    (free : b.lock = none) (after : d = { b with lock := some r.pid, data := d.data, valid := true })
    (data : d.data = v.contents b.blockno) : Sound v d (waiting.erase r) changed := by
  have refs := sound.refs
  have some_waits : 0 < waiting.length := List.length_pos_of_mem waits
  rw [free] at refs
  rw [after]
  refine ⟨?_, ?_, ?_, ?_, ?_, ?_⟩
  · rw [List.length_erase_of_mem waits]
    simp only [Option.isSome_none, Option.isSome_some, Bool.false_eq_true, if_false, if_true] at refs ⊢
    omega
  · exact fun q hq => sound.asked q (List.mem_of_mem_erase hq)
  · exact fun _ => ⟨(sound.asked r waits).1, rfl⟩
  · intro dirty
    obtain ⟨root, -, log⟩ := sound.dirty dirty
    exact ⟨root, rfl, log⟩
  · exact fun _ => rfl
  · exact fun _ _ _ => data

theorem put_coherent {s : State} (coherent : Coherent w) (inside : i < NBUF) (put : Put w.state i l s) :
    Coherent ⟨s, observe w.state w.store l⟩ := by
  have sound := coherent.sound i
  cases put with
  | found r carried =>
    obtain ⟨root, block⟩ := carries_iff.mp carried
    refine coherent_put_quiet coherent root rfl rfl rfl rfl rfl coherent.order ?_
    refine { sound with refs := ?_, asked := ?_ }
    · have refs := sound.refs
      dsimp only
      rw [List.length_cons, refs]
      omega
    · intro q hq
      rcases List.mem_cons.mp hq with rfl | hq
      · exact ⟨root, block⟩
      · exact sound.asked q hq
  | recycled r absent free =>
    obtain ⟨zero, clean⟩ := recyclable_iff.mp free
    obtain ⟨empty, unlocked, unchanged⟩ := sound.unreferenced zero
    have nowhere : ∀ j, (w.state.cache.buf j).dev = ROOTDEV →
        (w.state.cache.buf j).blockno ≠ r.blockno := by
      intro j root same
      have carried : carries w.state.cache ROOTDEV r.blockno j = true := carries_iff.mpr ⟨root, same⟩
      rw [absent j (coherent.inside j root)] at carried
      cases carried
    have unlogged : w.store.logged r.blockno = false := by
      by_contra log
      obtain ⟨j, root, same, -⟩ := coherent.pinned r.blockno (Bool.not_eq_false _ ▸ log)
      exact nowhere j root same
    refine coherent_touch coherent (touch_put (fun _ _ => rfl) (fun _ _ => rfl) (fun _ _ => rfl))
      coherent.order ?_ inside ?_ ?_ ?_ ?_
    · simp only [State.put, update_self, empty, unchanged, unlocked]
      refine ⟨rfl, ?_, nofun, nofun, nofun, nofun⟩
      intro q hq
      rw [List.mem_singleton.mp hq]
      exact ⟨rfl, rfl⟩
    · intro j _ rootJ
      simpa only [State.put, update_self] using nowhere j rootJ
    · intro dirty
      rw [clean] at dirty
      cases dirty
    · simpa only [State.put, update_self, observe] using coherent.stored r.blockno
    · intro log
      simp only [State.put, update_self, observe, unlogged] at log
      cases log
  | hit r waits free valid =>
    have root := (sound.asked r waits).1
    refine coherent_put_quiet coherent root rfl rfl rfl rfl rfl coherent.order ?_
    refine sound.lock waits free ?_ (sound.cached root valid (sound.settled free))
    simp only [valid]
  | fill r waits free invalid clean =>
    have root := (sound.asked r waits).1
    have unlogged : w.store.logged (w.state.cache.buf i).blockno = false := by
      by_contra log
      have dirty := logged_dirty coherent root (Bool.not_eq_false _ ▸ log)
      rw [clean] at dirty
      cases dirty
    refine coherent_put_quiet coherent root rfl rfl rfl rfl rfl coherent.order ?_
    exact sound.lock waits free rfl (coherent.stored _ unlogged)
  | modify pid v holder =>
    obtain ⟨root, valid, -⟩ := sound.locked_of holder
    refine coherent_put_quiet coherent root rfl rfl rfl rfl rfl coherent.order ?_
    exact { sound with held := fun _ => holder ▸ rfl, cached := nofun }
  | logWrite pid holder =>
    obtain ⟨root, valid, -⟩ := sound.locked_of holder
    refine coherent_put coherent root rfl (fun _ _ => rfl)
      (fun _ other => update_of_ne other _ _) (fun _ other => update_of_ne other _ _)
      coherent.order ?_ ?_ ?_
    · refine { sound with dirty := ?_, held := nofun, cached := ?_ }
      · intro _
        refine ⟨root, valid, ?_⟩
        simp only [observe, Store.write, update_self]
      · intro _ _ _
        simp only [observe, Store.write, update_self]
    · intro log
      simp only [observe, Store.write, update_self] at log
      cases log
    · exact fun _ => ⟨root, rfl⟩
  | bwrite pid holder =>
    obtain ⟨root, valid, -⟩ := sound.locked_of holder
    refine coherent_put coherent root rfl (fun _ other => update_of_ne other _ _)
      (fun _ other => update_of_ne other _ _) (fun _ other => update_of_ne other _ _)
      coherent.order ?_ ?_ ?_
    · refine { sound with locked := fun _ => ⟨root, rfl⟩, dirty := nofun, held := nofun, cached := ?_ }
      intro _ _ _
      simp only [observe, Store.write, update_self]
    · intro _
      simp only [observe, Store.write, update_self]
    · intro log
      simp only [observe, Store.write, update_self] at log
      cases log
  | brelse pid holder unchanged =>
    obtain ⟨root, valid, refs⟩ := sound.locked_of holder
    refine coherent_put_quiet coherent root rfl rfl rfl rfl rfl ?_ ?_
    · -- The buffer moves exactly when its last reference goes.
      simp only [observe]
      by_cases last : (w.state.cache.buf i).refcnt = 1
      · rw [if_pos last, if_pos (by omega)]
        exact ordered_free coherent.order inside
      · rw [if_neg last, if_neg (by omega)]
        exact coherent.order
    · refine { sound with refs := ?_, locked := nofun, held := ?_ }
      · simp only [Option.isSome_none, Bool.false_eq_true, if_false]
        omega
      · intro same
        rw [unchanged] at same
        cases same

/- What a step preserves, a run preserves. -/
theorem act_coherent (coherent : Coherent w) (acted : act w l = some t) : Coherent t := by
  obtain ⟨stepped, store⟩ := act_some acted
  obtain ⟨state, ostore⟩ := t
  cases store
  rcases step_put coherent stepped with ⟨rfl, rfl⟩ | ⟨i, inside, put⟩
  · exact { coherent with }
  · exact put_coherent coherent inside put

theorem binit_ordered : Ordered binitLinks [] := by
  have fresh : (List.range NBUF ++ head :: []).Nodup := by decide
  have ring := circular_insertFront_all (circular_empty head) fresh
  rw [List.append_nil] at ring
  refine ⟨(List.range NBUF).reverse, ring, List.reverse_perm _, ?_⟩
  exact List.Pairwise.imp (fun _ => Nat.le_refl 0) (List.pairwise_of_forall (R := fun _ _ => True)
    (fun _ _ => trivial))

theorem boot_coherent (disksize : Nat) (memdisk : Nat → Block) :
    Coherent (boot disksize memdisk) := by
  have root : ∀ i, ((boot disksize memdisk).state.cache.buf i).dev ≠ ROOTDEV := by
    intro i same
    cases same
  refine ⟨binit_ordered, ?_, fun i same => absurd same (root i),
    fun i _ same => absurd same (root i), fun _ _ => rfl, ?_⟩
  · intro i
    exact ⟨rfl, nofun, nofun, nofun, nofun, fun same => absurd same (root i)⟩
  · exact nofun

theorem run_coherent {ls : List Label} (coherent : Coherent w) (reached : exec act w ls = some t) : Coherent t :=
  run_invariant (fun _ _ _ inv _ acted => act_coherent inv acted) coherent (along_true w ls) reached

end Xv6c.Bio

import Mathlib.Data.List.Perm.Subperm
import Xv6c.Bio.Refine
import Xv6c.Ide.Model

/-! The queue of ide.c, the device and the buffers over whole runs in which the device
reports no error. -/
namespace Xv6c.Ide
open Lib Bio
open Function (update update_self update_of_ne forall_update_iff)

/- The buffers that qnext links from a pointer on. -/
def Threads (qnext : Nat → Option Nat) : Option Nat → List Nat → Prop
  | none, [] => True
  | some i, j :: l => i = j ∧ Threads qnext (qnext i) l
  | _, _ => False

section Threads
variable {qnext : Nat → Option Nat} {p : Option Nat} {l : List Nat} {i h : Nat}

theorem threads_nil : Threads qnext p [] ↔ p = none := by
  cases p <;> simp [Threads]

theorem threads_cons : Threads qnext p (i :: l) ↔ p = some i ∧ Threads qnext (qnext i) l := by
  cases p with
  | none => simp [Threads]
  | some j =>
    rw [Threads, Option.some.injEq]
    exact and_congr_right fun same => by rw [same]

theorem threads_head (threads : Threads qnext p l) : p = l.head? := by
  cases l with
  | nil => exact threads_nil.mp threads
  | cons i l => exact (threads_cons.mp threads).1

/- A link outside of the queue does not matter to it. -/
theorem threads_update (threads : Threads qnext p l) (outside : i ∉ l) (v : Option Nat) :
    Threads (update qnext i v) p l := by
  induction l generalizing p with
  | nil => exact threads_nil.mpr (threads_nil.mp threads)
  | cons j l ih =>
    obtain ⟨first, rest⟩ := threads_cons.mp threads
    obtain ⟨other, later⟩ := not_or.mp (List.mem_cons.not.mp outside)
    exact threads_cons.mpr ⟨first, by rw [update_of_ne (Ne.symm other)]; exact ih rest later⟩

/- The walk to the end of the queue, and a buffer linked behind it. -/
theorem threads_last {n : Nat} (threads : Threads qnext (some h) (h :: l)) (nodup : (h :: l).Nodup)
    (enough : l.length < n) (outside : i ∉ h :: l) (ends : qnext i = none) :
    ∃ j ∈ h :: l, last qnext n h = some j ∧
      Threads (update qnext j (some i)) (some h) (h :: l ++ [i]) := by
  induction l generalizing h n with
  | nil =>
    obtain ⟨n, rfl⟩ := Nat.exists_eq_add_of_lt enough
    have alone : qnext h = none := threads_nil.mp (threads_cons.mp threads).2
    have apart : i ≠ h := fun same => outside (same ▸ List.mem_cons_self)
    refine ⟨h, List.mem_cons_self, ?_, ?_⟩
    · simp [last, alone]
    · refine threads_cons.mpr ⟨rfl, threads_cons.mpr ⟨update_self _ _ _, threads_nil.mpr ?_⟩⟩
      rw [update_of_ne apart, ends]
  | cons k l ih =>
    obtain ⟨n, rfl⟩ : ∃ m, n = m + 1 := ⟨n - 1, by simp only [List.length_cons] at enough; omega⟩
    obtain ⟨-, rest⟩ := threads_cons.mp threads
    have next := (threads_cons.mp rest).1
    obtain ⟨fresh, later⟩ := List.nodup_cons.mp nodup
    have shorter : l.length < n := by
      simp only [List.length_cons] at enough
      omega
    obtain ⟨j, member, found, linked⟩ := ih (next ▸ rest) later shorter
      fun inside => outside (List.mem_cons_of_mem _ inside)
    refine ⟨j, List.mem_cons_of_mem _ member, ?_, threads_cons.mpr ⟨rfl, ?_⟩⟩
    · rw [last, next]
      exact found
    · have apart : h ≠ j := fun same => fresh (same ▸ member)
      rw [update_of_ne apart, next]
      exact linked

end Threads

/- The requests among the acts. -/
def requests (done : List Act) : List Nat :=
  done.filterMap fun a => match a with
    | .iderw _ i => some i
    | _ => none

/- The machine with its queue q. -/
structure Inv (s : State) (q : List Nat) : Prop where
  threads : Threads s.qnext s.idequeue q
  nodup : q.Nodup
  held : ∀ i ∈ q, ∃ pid, (s.cache.buf i).lock = some pid ∧ s.proc pid = .sleeping i
  asks : ∀ i ∈ q, (s.cache.buf i).dev = ROOTDEV ∧
    ((s.cache.buf i).valid = false ∨ (s.cache.buf i).dirty = true)
  asleep : ∀ pid i, s.proc pid = .sleeping i → i ∈ q ∧ (s.cache.buf i).lock = some pid
  woken : ∀ pid i, s.proc pid = .runnable i → i ∉ q ∧ (s.cache.buf i).lock = some pid ∧
    (s.cache.buf i).valid = true ∧ (s.cache.buf i).dirty = false ∧ i ∈ requests s.done
  device : s.device.cmd = q.head?.map fun i => command (s.cache.buf i)
  range : ∀ i, q.head? = some i → (s.cache.buf i).blockno < FSSIZE
  error : s.device.error = false
  medium : s.device.raised = true → ∃ i, q.head? = some i ∧ if (s.cache.buf i).dirty
    then s.cache.memdisk (s.cache.buf i).blockno = (s.cache.buf i).data
    else s.device.port = s.cache.memdisk (s.cache.buf i).blockno
  queued : s.queued = requests s.done ++ q
  order : ∃ freed, Ordered s.cache.link freed
  refs : ∀ i, (s.cache.buf i).refcnt =
    (s.waiting i).length + (if (s.cache.buf i).lock.isSome then 1 else 0)
  rooted : ∀ i, (s.cache.buf i).dev = ROOTDEV → i < NBUF
  used : ∀ i, (s.cache.buf i).refcnt ≠ 0 → (s.cache.buf i).dev = ROOTDEV
  unique : ∀ i j, (s.cache.buf i).dev = ROOTDEV → (s.cache.buf j).dev = ROOTDEV →
    (s.cache.buf i).blockno = (s.cache.buf j).blockno → i = j
  cached : ∀ i, (s.cache.buf i).dev = ROOTDEV → (s.cache.buf i).valid = true → s.changed i = false →
    (s.cache.buf i).data = s.cache.memdisk (s.cache.buf i).blockno

/- Up to its reference count, a buffer is as it was. -/
def Steady (b d : Buf) : Prop := d = { b with refcnt := d.refcnt }

section Acts
variable {s t : State} {q : List Nat} {i : Nat}

/- The parts of the machine that an act on a buffer leaves alone. -/
structure Aside (s t : State) : Prop where
  idequeue : t.idequeue = s.idequeue
  qnext : t.qnext = s.qnext
  device : t.device = s.device
  proc : t.proc = s.proc
  queued : t.queued = s.queued
  requests : requests t.done = requests s.done

/- An act on buffer i. As long as a process is in iderw, only the reference counts of the
buffers that it has locked change. -/
theorem Inv.touch (inv : Inv s q) (aside : Aside s t) {b : Buf} {link : Links Nat}
    (cache : t.cache = { s.cache.set i b with link := link })
    (waiting : ∀ j, j ≠ i → t.waiting j = s.waiting j)
    (changed : ∀ j, j ≠ i → t.changed j = s.changed j)
    (steady : ∀ pid, (s.cache.buf i).lock = some pid → s.proc pid ≠ .idle → Steady (s.cache.buf i) b)
    (order : ∃ freed, Ordered link freed)
    (refs : b.refcnt = (t.waiting i).length + (if b.lock.isSome then 1 else 0))
    (rooted : b.dev = ROOTDEV → i < NBUF) (used : b.refcnt ≠ 0 → b.dev = ROOTDEV)
    (apart : ∀ j, j ≠ i → (s.cache.buf j).dev = ROOTDEV → b.dev = ROOTDEV →
      (s.cache.buf j).blockno ≠ b.blockno)
    (cached : b.dev = ROOTDEV → b.valid = true → t.changed i = false →
      b.data = s.cache.memdisk b.blockno) : Inv t q := by
  have here : t.cache.buf i = b := by rw [cache]; exact update_self _ _ _
  have there (j : Nat) (other : j ≠ i) : t.cache.buf j = s.cache.buf j := by
    rw [cache]; exact update_of_ne other _ _
  have memdisk : t.cache.memdisk = s.cache.memdisk := by rw [cache]; rfl
  have busy (j pid : Nat) (lock : (s.cache.buf j).lock = some pid) (inside : s.proc pid ≠ .idle) :
      Steady (s.cache.buf j) (t.cache.buf j) := by
    by_cases same : j = i
    · subst same
      rw [here]
      exact steady pid lock inside
    · rw [there j same]
      rfl
  have queued (j : Nat) (member : j ∈ q) : Steady (s.cache.buf j) (t.cache.buf j) := by
    obtain ⟨pid, lock, asleep⟩ := inv.held j member
    exact busy j pid lock (by rw [asleep]; nofun)
  have first (j : Nat) (head : q.head? = some j) : Steady (s.cache.buf j) (t.cache.buf j) :=
    queued j (List.mem_of_head? head)
  refine ⟨?_, inv.nodup, ?_, ?_, ?_, ?_, ?_, ?_, ?_, ?_, ?_, ?_, ?_, ?_, ?_, ?_, ?_⟩
  · rw [aside.qnext, aside.idequeue]
    exact inv.threads
  · intro j member
    obtain ⟨pid, lock, asleep⟩ := inv.held j member
    rw [queued j member, aside.proc]
    exact ⟨pid, lock, asleep⟩
  · intro j member
    rw [queued j member]
    exact inv.asks j member
  · intro pid j asleep
    rw [aside.proc] at asleep
    obtain ⟨member, lock⟩ := inv.asleep pid j asleep
    rw [queued j member]
    exact ⟨member, lock⟩
  · intro pid j woken
    rw [aside.proc] at woken
    have now := inv.woken pid j woken
    rw [busy j pid now.2.1 (by rw [woken]; nofun), aside.requests]
    exact now
  · rw [aside.device, inv.device]
    cases head : q.head? with
    | none => rfl
    | some j =>
      rw [Option.map_some, Option.map_some, first j head]
      rfl
  · intro j head
    rw [first j head]
    exact inv.range j head
  · rw [aside.device]
    exact inv.error
  · intro raised
    rw [aside.device] at raised ⊢
    obtain ⟨j, head, same⟩ := inv.medium raised
    rw [memdisk]
    exact ⟨j, head, by rw [first j head]; exact same⟩
  · rw [aside.queued, aside.requests]
    exact inv.queued
  · rw [cache]
    exact order
  · rw [cache]
    refine (forall_update_iff s.cache.buf fun j b =>
      b.refcnt = (t.waiting j).length + (if b.lock.isSome then 1 else 0)).mpr ⟨refs, fun j other => ?_⟩
    rw [waiting j other]
    exact inv.refs j
  · rw [cache]
    exact (forall_update_iff s.cache.buf fun j b => b.dev = ROOTDEV → j < NBUF).mpr
      ⟨rooted, fun j _ => inv.rooted j⟩
  · rw [cache]
    exact (forall_update_iff s.cache.buf fun _ b => b.refcnt ≠ 0 → b.dev = ROOTDEV).mpr
      ⟨used, fun j _ => inv.used j⟩
  · intro j k devJ devK block
    by_cases sameJ : j = i
    · by_cases sameK : k = i
      · exact sameJ.trans sameK.symm
      · subst sameJ
        rw [here] at devJ block
        rw [there k sameK] at devK block
        exact absurd block.symm (apart k sameK devK devJ)
    · rw [there j sameJ] at devJ block
      by_cases sameK : k = i
      · subst sameK
        rw [here] at devK block
        exact absurd block (apart j sameJ devJ devK)
      · rw [there k sameK] at devK block
        exact inv.unique j k devJ devK block
  · intro j dev valid unchanged
    rw [memdisk]
    by_cases same : j = i
    · subst same
      rw [here] at dev valid ⊢
      exact cached dev valid unchanged
    · rw [there j same] at dev valid ⊢
      exact inv.cached j dev valid (changed j same ▸ unchanged)

variable {pid : Nat}

theorem Inv.locked_refs (inv : Inv s q) (lock : (s.cache.buf i).lock = some pid) :
    (s.cache.buf i).refcnt = (s.waiting i).length + 1 ∧ (s.cache.buf i).dev = ROOTDEV := by
  have refs := inv.refs i
  rw [lock] at refs
  refine ⟨refs, inv.used i ?_⟩
  rw [refs]
  exact Nat.succ_ne_zero _

/- What an act other than iderw leaves alone. -/
theorem aside_performed {a : Act} (plain : requests [a] = []) (c : Bcache) (waiting : Nat → List Request)
    (changed : Nat → Bool) : Aside s { performed s a c with waiting := waiting, changed := changed } :=
  ⟨rfl, rfl, rfl, rfl, rfl, by rw [← List.append_nil (requests s.done), ← plain]; exact List.filterMap_append⟩

theorem Inv.bget (inv : Inv s q) {r : Request} (taken : act s (.bget r) = some t) : Inv t q := by
  obtain ⟨⟨i, c⟩, got, rfl⟩ := Option.map_eq_some_iff.mp taken
  obtain ⟨freed, order⟩ := inv.order
  have other {A : Type} (f : Nat → A) (v : A) (j : Nat) (apart : j ≠ i) : update f i v j = f j :=
    update_of_ne apart _ _
  obtain ⟨inside, ⟨carried, rfl⟩ | ⟨absent, free, rfl⟩⟩ := bget_spec order got
  · obtain ⟨dev, -⟩ := carries_iff.mp carried
    refine inv.touch (aside_performed rfl _ _ _) rfl (other _ _) (other _ _) (fun _ _ _ => rfl) inv.order ?_
      (fun _ => inside) (fun _ => dev) ?_ ?_
    · dsimp only [performed]
      rw [update_self, List.length_cons, inv.refs i]
      omega
    · intro j apart devJ _ same
      exact apart (inv.unique j i devJ dev same)
    · intro _ valid unchanged
      have valid' : (s.cache.buf i).valid = true := valid
      simp only [Bcache.set, update_self, valid', if_true] at unchanged
      exact inv.cached i dev valid' unchanged
  · obtain ⟨zero, clean⟩ := recyclable_iff.mp free
    have refs := inv.refs i
    rw [zero] at refs
    have unlocked : (s.cache.buf i).lock = none := by
      by_contra lock
      simp [Option.isSome_iff_ne_none.mpr lock] at refs
    have empty : (s.waiting i).length = 0 := by omega
    refine inv.touch (aside_performed rfl _ _ _) rfl (other _ _) (other _ _) ?_ inv.order ?_
      (fun _ => inside) (fun _ => rfl) ?_ (fun _ valid => absurd valid Bool.false_ne_true)
    · intro pid lock
      cases unlocked.symm.trans lock
    · dsimp only [performed]
      rw [update_self, List.length_cons, empty, unlocked]
      rfl
    · intro j apart devJ _ same
      have carried := absent j (inv.rooted j devJ)
      rw [carries_iff.mpr ⟨devJ, same⟩] at carried
      cases carried

theorem Inv.acquire (inv : Inv s q) {r : Request} (taken : act s (.acquire r i) = some t) :
    Inv t q := by
  obtain ⟨asked, taken⟩ := Option.ite_none_right_eq_some.mp taken
  obtain ⟨c, acquired, rfl⟩ := Option.map_eq_some_iff.mp taken
  obtain ⟨free, rfl⟩ := guarded acquired
  have refs := inv.refs i
  rw [free] at refs
  have some : (s.cache.buf i).refcnt ≠ 0 := by
    rw [refs]
    exact fun zero => List.ne_nil_of_mem asked (List.length_eq_zero_iff.mp zero)
  have dev := inv.used i some
  refine inv.touch (aside_performed rfl _ _ _) rfl (fun j apart => update_of_ne apart _ _) (fun _ _ => rfl)
    ?_ inv.order ?_ (fun _ => inv.rooted i dev) (fun _ => dev) ?_ (fun _ => inv.cached i dev)
  · exact fun pid lock => nomatch free.symm.trans lock
  · dsimp only [performed]
    have positive := List.length_pos_of_mem asked
    rw [update_self, List.length_erase_of_mem asked, refs]
    simp only [Option.isSome_none, Option.isSome_some, Bool.false_eq_true, if_true, if_false]
    omega
  · intro j apart devJ _ same
    exact apart (inv.unique j i devJ dev same)

/- A process that is not in iderw works on a buffer it has locked. -/
theorem Inv.work (inv : Inv s q) (aside : Aside s t) {b : Buf} {link : Links Nat} (idle : s.proc pid = .idle)
    (lock : (s.cache.buf i).lock = some pid) (cache : t.cache = { s.cache.set i b with link := link })
    (waiting : t.waiting = s.waiting) (changed : ∀ j, j ≠ i → t.changed j = s.changed j)
    (order : ∃ freed, Ordered link freed)
    (refs : b.refcnt = (s.waiting i).length + (if b.lock.isSome then 1 else 0))
    (carries : b.dev = (s.cache.buf i).dev ∧ b.blockno = (s.cache.buf i).blockno)
    (cached : b.valid = true → t.changed i = false → b.data = s.cache.memdisk b.blockno) : Inv t q := by
  have dev := (inv.locked_refs lock).2
  refine inv.touch aside cache (fun j _ => by rw [waiting]) changed ?_ order (by rw [waiting]; exact refs)
    (fun _ => inv.rooted i dev) (fun _ => carries.1.trans dev) ?_ (fun _ => cached)
  · intro other same busy
    cases lock.symm.trans same
    exact absurd idle busy
  · intro j apart devJ _ same
    exact apart (inv.unique j i devJ dev (same.trans carries.2))

theorem Inv.modify (inv : Inv s q) {v : Block} (idle : s.proc pid = .idle)
    (taken : act s (.modify pid i v) = some t) : Inv t q := by
  obtain ⟨c, modified, rfl⟩ := Option.map_eq_some_iff.mp taken
  obtain ⟨holds, rfl⟩ := guarded modified
  refine inv.work (b := { s.cache.buf i with data := v }) (aside_performed rfl _ _ _)
    idle (holdingsleep_iff.mp holds) rfl rfl (fun j apart => update_of_ne apart _ _) inv.order
    (inv.refs i) ⟨rfl, rfl⟩ ?_
  intro _ unchanged
  cases (update_self i true s.changed).symm.trans unchanged

theorem Inv.mark (inv : Inv s q) (idle : s.proc pid = .idle) (taken : act s (.mark pid i) = some t) : Inv t q := by
  obtain ⟨c, marked, rfl⟩ := Option.map_eq_some_iff.mp taken
  obtain ⟨holds, rfl⟩ := guarded marked
  have lock := holdingsleep_iff.mp holds
  exact inv.work (b := { s.cache.buf i with dirty := true }) (aside_performed rfl _ _ _) idle lock rfl rfl
    (fun _ _ => rfl) inv.order (inv.refs i) ⟨rfl, rfl⟩ (inv.cached i (inv.locked_refs lock).2)

theorem Inv.brelse (inv : Inv s q) (idle : s.proc pid = .idle) (taken : act s (.brelse pid i) = some t) :
    Inv t q := by
  obtain ⟨c, released, rfl⟩ := Option.map_eq_some_iff.mp taken
  obtain ⟨lock, rfl⟩ := brelse_spec released
  obtain ⟨refs, dev⟩ := inv.locked_refs lock
  obtain ⟨freed, order⟩ := inv.order
  refine inv.work (b := { s.cache.buf i with lock := none, refcnt := (s.cache.buf i).refcnt - 1 })
    (aside_performed rfl _ _ _) idle lock rfl rfl (fun _ _ => rfl) ?_ ?_
    ⟨rfl, rfl⟩ (inv.cached i dev)
  · split
    · exact ⟨_, ordered_free order (inv.rooted i dev)⟩
    · exact ⟨_, order⟩
  · dsimp only
    rw [refs]
    rfl

end Acts

section Driver
variable {s t : State} {q : List Nat} {i : Nat}

theorem Inv.short (inv : Inv s q) : q.length ≤ NBUF := by
  have inside : q ⊆ List.range NBUF := fun i member =>
    List.mem_range.mpr (inv.rooted i (inv.asks i member).1)
  have fewer := (List.Nodup.subperm inv.nodup inside).length_le
  rwa [List.length_range] at fewer

/- The links behind an append, which changes nothing else. -/
theorem enqueue_some (threads : Threads s.qnext s.idequeue q) (nodup : q.Nodup)
    (short : q.length ≤ NBUF) (outside : i ∉ q) (taken : enqueue s i = some t) :
    ∃ idequeue qnext, t = { s with idequeue := idequeue, qnext := qnext } ∧
      Threads qnext idequeue (q ++ [i]) := by
  unfold enqueue at taken
  have cleared := threads_update threads outside none
  cases q with
  | nil =>
    rw [threads_nil.mp threads] at taken
    cases taken
    exact ⟨_, _, rfl, threads_cons.mpr ⟨rfl, threads_nil.mpr (update_self _ _ _)⟩⟩
  | cons h l =>
    have first := (threads_cons.mp threads).1
    rw [first] at taken cleared
    obtain ⟨k, member, found, linked⟩ := threads_last (n := NBUF + 1) cleared nodup
      (by simp only [List.length_cons] at short; omega) outside (update_self _ _ _)
    dsimp only at taken
    rw [found] at taken
    cases taken
    exact ⟨_, _, rfl, first ▸ linked⟩

variable {pid : Nat}

/- What iderw leaves behind: the request is queued, and started if the queue was empty. -/
theorem iderw_some (inv : Inv s q) (idle : s.proc pid = .idle) (taken : iderw s pid i = some t) :
    (s.cache.buf i).lock = some pid ∧ i ∉ q ∧ (s.cache.buf i).dev = ROOTDEV ∧
      ((s.cache.buf i).valid = false ∨ (s.cache.buf i).dirty = true) ∧
      (q = [] → (s.cache.buf i).blockno < FSSIZE) ∧
      ∃ idequeue qnext, Threads qnext idequeue (q ++ [i]) ∧ t = { s with
        idequeue := idequeue, qnext := qnext, queued := s.queued ++ [i]
        proc := update s.proc pid (.sleeping i)
        device := if q = [] then { s.device with cmd := some (command (s.cache.buf i)), raised := false }
          else s.device } := by
  obtain ⟨holds, taken⟩ := Option.ite_none_left_eq_some.mp taken
  obtain ⟨wants, taken⟩ := Option.ite_none_left_eq_some.mp taken
  obtain ⟨root, taken⟩ := Option.ite_none_left_eq_some.mp taken
  have lock : (s.cache.buf i).lock = some pid := holdingsleep_iff.mp (by simpa using holds)
  have outside : i ∉ q := by
    intro member
    obtain ⟨other, same, asleep⟩ := inv.held i member
    cases lock.symm.trans same
    cases idle.symm.trans asleep
  have work : (s.cache.buf i).valid = false ∨ (s.cache.buf i).dirty = true := by
    cases valid : (s.cache.buf i).valid
    · exact Or.inl rfl
    · rw [valid] at wants
      exact Or.inr (by simpa using wants)
  obtain ⟨u, appended, started⟩ := Option.bind_eq_some_iff.mp taken
  obtain ⟨idequeue, qnext, rfl, threads⟩ := enqueue_some (s := { s with
    queued := s.queued ++ [i], proc := update s.proc pid (.sleeping i) }) inv.threads inv.nodup inv.short
    outside appended
  have head := threads_head threads
  cases q with
  | nil =>
    dsimp only [List.nil_append, List.head?_cons] at head
    rw [if_pos head] at started
    obtain ⟨range, started⟩ := Option.ite_none_left_eq_some.mp started
    obtain ⟨-, started⟩ := Option.ite_none_left_eq_some.mp started
    cases started
    exact ⟨lock, outside, not_not.mp root, work, fun _ => Nat.not_le.mp range, _, _, threads, rfl⟩
  | cons h l =>
    have apart : idequeue ≠ some i := by
      rw [head]
      intro first
      exact outside (Option.some.inj first ▸ List.mem_cons_self)
    rw [if_neg apart] at started
    cases started
    refine ⟨lock, outside, not_not.mp root, work, nofun, _, _, threads, ?_⟩
    rw [if_neg (List.cons_ne_nil h l)]

theorem Inv.iderw (inv : Inv s q) (idle : s.proc pid = .idle) (taken : Ide.iderw s pid i = some t) :
    Inv t (q ++ [i]) := by
  obtain ⟨lock, outside, dev, work, range, idequeue, qnext, threads, rfl⟩ := iderw_some inv idle taken
  refine { inv with
    threads := threads, nodup := ?_, held := ?_, asks := ?_, asleep := ?_, woken := ?_, device := ?_, range := ?_
    error := ?_, medium := ?_, queued := ?_ }
  · exact List.nodup_append.mpr ⟨inv.nodup, List.nodup_singleton i, by
      intro j member k last
      rw [List.mem_singleton.mp last]
      rintro rfl
      exact outside member⟩
  · intro j member
    rcases List.mem_append.mp member with queued | last
    · obtain ⟨holder, same, asleep⟩ := inv.held j queued
      refine ⟨holder, same, (update_of_ne ?_ _ _).trans asleep⟩
      rintro rfl
      cases idle.symm.trans asleep
    · rw [List.mem_singleton.mp last]
      exact ⟨pid, lock, update_self _ _ _⟩
  · intro j member
    rcases List.mem_append.mp member with queued | last
    · exact inv.asks j queued
    · rw [List.mem_singleton.mp last]
      exact ⟨dev, work⟩
  · intro p j asleep
    by_cases mine : p = pid
    · subst mine
      cases (update_self p _ s.proc).symm.trans asleep
      exact ⟨List.mem_append_right _ List.mem_cons_self, lock⟩
    · obtain ⟨member, holder⟩ := inv.asleep p j ((update_of_ne mine _ _).symm.trans asleep)
      exact ⟨List.mem_append_left _ member, holder⟩
  · intro p j woken
    by_cases mine : p = pid
    · subst mine
      cases (update_self p _ s.proc).symm.trans woken
    · obtain ⟨absent, holder, rest⟩ := inv.woken p j ((update_of_ne mine _ _).symm.trans woken)
      refine ⟨fun member => ?_, holder, rest⟩
      rcases List.mem_append.mp member with queued | last
      · exact absent queued
      · rw [List.mem_singleton.mp last, lock] at holder
        exact mine (Option.some.inj holder).symm
  · cases q with
    | nil => rfl
    | cons h l => exact inv.device
  · intro j head
    cases q with
    | nil =>
      cases head
      exact range rfl
    | cons h l => exact inv.range j head
  · dsimp only
    split <;> exact inv.error
  · cases q with
    | nil => nofun
    | cons h l => exact inv.medium
  · dsimp only
    rw [inv.queued, List.append_assoc]

/- The medium once the request of buffer b is done, and the data of b then. -/
def settledDisk (b : Buf) (memdisk : Nat → Block) : Nat → Block :=
  if b.dirty then update memdisk b.blockno b.data else memdisk

def settledData (b : Buf) (port : Block) : Block := if b.dirty then b.data else port

theorem complete_some (inv : Inv s q) (taken : complete s false = some t) :
    ∃ h port, q.head? = some h ∧ s.device.raised = false ∧
      ((s.cache.buf h).dirty = false → port = s.cache.memdisk (s.cache.buf h).blockno) ∧
      t = { s with
        cache := { s.cache with memdisk := settledDisk (s.cache.buf h) s.cache.memdisk }
        device := { s.device with raised := true, error := false, port := port } } := by
  unfold complete at taken
  rw [inv.device] at taken
  cases head : q.head? with
  | none =>
    rw [head] at taken
    cases taken
  | some h =>
    rw [head] at taken
    obtain ⟨before, taken⟩ := Option.ite_none_left_eq_some.mp taken
    rw [if_neg Bool.false_ne_true] at taken
    unfold command at taken
    dsimp only at taken
    split at taken
    · rename_i dirty
      cases taken
      refine ⟨h, s.device.port, rfl, by simpa using before, ?_, ?_⟩
      · rw [dirty]
        nofun
      · simp only [settledDisk, dirty, if_true]
    · rename_i clean
      cases taken
      refine ⟨h, s.cache.memdisk (s.cache.buf h).blockno, rfl, by simpa using before, fun _ => rfl, ?_⟩
      simp only [settledDisk, if_neg clean]

theorem Inv.complete (inv : Inv s q) (taken : Ide.complete s false = some t) : Inv t q := by
  obtain ⟨h, port, head, -, read, rfl⟩ := complete_some inv taken
  have dev := (inv.asks h (List.mem_of_head? head)).1
  refine { inv with error := rfl, medium := fun _ => ⟨h, head, ?_⟩, cached := ?_ }
  · dsimp only [settledDisk]
    split
    · exact update_self _ _ _
    · rename_i clean
      exact read (by simpa using clean)
  · intro j devJ valid unchanged
    have same := inv.cached j devJ valid unchanged
    dsimp only [settledDisk] at devJ ⊢
    split
    · by_cases block : (s.cache.buf j).blockno = (s.cache.buf h).blockno
      · cases inv.unique j h devJ dev block
        rw [update_self]
      · rw [update_of_ne block]
        exact same
    · exact same

/- The interrupt ends the request at the head of the queue and starts the next. -/
theorem ideintr_some (inv : Inv s q) (raised : s.device.raised = true) (taken : ideintr s = some t) :
    ∃ h l c, q = h :: l ∧ Threads s.qnext l.head? l ∧
      (∀ j, l.head? = some j → (c.buf j).blockno < FSSIZE) ∧ c = s.cache.set h { s.cache.buf h with
        data := settledData (s.cache.buf h) s.device.port, valid := true, dirty := false } ∧ t = { s with
        idequeue := l.head?
        cache := c
        proc := wakeup h s.proc
        done := s.done ++ [Act.iderw ((s.cache.buf h).lock.getD 0) h]
        changed := update s.changed h false
        device := { s.device with cmd := l.head?.map fun j => command (c.buf j), raised := false } } := by
  obtain ⟨h, head, -⟩ := inv.medium raised
  obtain ⟨l, rfl⟩ : ∃ l, q = h :: l := by
    cases q with
    | nil => cases head
    | cons _ l =>
      cases head
      exact ⟨l, rfl⟩
  obtain ⟨first, rest⟩ := threads_cons.mp inv.threads
  have data : (if !(s.cache.buf h).dirty && !s.device.error then s.device.port else (s.cache.buf h).data) =
      settledData (s.cache.buf h) s.device.port := by
    rw [inv.error, settledData]
    cases (s.cache.buf h).dirty <;> rfl
  have next := threads_head rest
  unfold ideintr at taken
  rw [first] at taken
  dsimp only at taken
  rw [data] at taken
  rw [next] at taken rest
  cases l with
  | nil =>
    cases taken
    exact ⟨h, [], _, rfl, rest, nofun, rfl, rfl⟩
  | cons j l =>
    obtain ⟨range, taken⟩ := Option.ite_none_left_eq_some.mp taken
    rw [if_neg (by nofun)] at taken
    cases taken
    refine ⟨h, j :: l, _, rfl, rest, ?_, rfl, rfl⟩
    rintro k ⟨⟩
    exact Nat.not_le.mp range

theorem wakeup_eq_sleeping {proc : Nat → Waiter} {h p j : Nat} :
    wakeup h proc p = .sleeping j ↔ proc p = .sleeping j ∧ j ≠ h := by
  unfold wakeup
  split
  · rename_i asleep
    rw [asleep]
    simp only [reduceCtorEq, Waiter.sleeping.injEq, false_iff, not_and, not_not]
    exact Eq.symm
  · rename_i other
    constructor
    · intro asleep
      exact ⟨asleep, fun same => other (same ▸ asleep)⟩
    · exact And.left

theorem wakeup_eq_runnable {proc : Nat → Waiter} {h p j : Nat} :
    wakeup h proc p = .runnable j ↔ (proc p = .sleeping h ∧ j = h) ∨ proc p = .runnable j := by
  unfold wakeup
  split
  · rename_i asleep
    rw [asleep]
    simp [eq_comm]
  · rename_i other
    simp [other]

theorem Inv.ideintr (inv : Inv s q) (raised : s.device.raised = true)
    (taken : Ide.ideintr s = some t) : Inv t q.tail := by
  obtain ⟨h, l, c, rfl, threads, range, cache, rfl⟩ := ideintr_some inv raised taken
  obtain ⟨first, nodup⟩ := List.nodup_cons.mp inv.nodup
  have done : requests (s.done ++ [Act.iderw ((s.cache.buf h).lock.getD 0) h]) = requests s.done ++ [h] := by
    simp [requests]
  have here : c.buf h = { s.cache.buf h with
      data := settledData (s.cache.buf h) s.device.port, valid := true, dirty := false } := by
    rw [cache]
    exact update_self _ _ _
  have there (j : Nat) (other : j ≠ h) : c.buf j = s.cache.buf j := by
    rw [cache]
    exact update_of_ne other _ _
  have lock (j : Nat) : (c.buf j).lock = (s.cache.buf j).lock ∧ (c.buf j).refcnt = (s.cache.buf j).refcnt ∧
      (c.buf j).dev = (s.cache.buf j).dev ∧ (c.buf j).blockno = (s.cache.buf j).blockno := by
    by_cases own : j = h
    · rw [own, here]
      exact ⟨rfl, rfl, rfl, rfl⟩
    · rw [there j own]
      exact ⟨rfl, rfl, rfl, rfl⟩
  have apart (j : Nat) (member : j ∈ l) : j ≠ h := fun own => first (own ▸ member)
  refine ⟨threads, nodup, ?_, ?_, ?_, ?_, rfl, range, inv.error, nofun, ?_, by rw [cache]; exact inv.order,
    ?_, ?_, ?_, ?_, ?_⟩ <;> dsimp only
  · intro j member
    obtain ⟨pid, holder, asleep⟩ := inv.held j (List.mem_cons_of_mem _ member)
    exact ⟨pid, (lock j).1.trans holder, wakeup_eq_sleeping.mpr ⟨asleep, apart j member⟩⟩
  · intro j member
    rw [there j (apart j member)]
    exact inv.asks j (List.mem_cons_of_mem _ member)
  · intro pid j asleep
    obtain ⟨asleep, other⟩ := wakeup_eq_sleeping.mp asleep
    obtain ⟨member, holder⟩ := inv.asleep pid j asleep
    exact ⟨(List.mem_cons.mp member).resolve_left other, (lock j).1.trans holder⟩
  · intro pid j woken
    rw [done]
    rcases wakeup_eq_runnable.mp woken with ⟨asleep, rfl⟩ | woken
    · rw [here]
      exact ⟨first, (inv.asleep pid j asleep).2, rfl, rfl, List.mem_append_right _ List.mem_cons_self⟩
    · obtain ⟨absent, holder, valid, clean, before⟩ := inv.woken pid j woken
      obtain ⟨other, later⟩ := not_or.mp (List.mem_cons.not.mp absent)
      rw [there j other]
      exact ⟨later, holder, valid, clean, List.mem_append_left _ before⟩
  · rw [done, inv.queued, List.append_assoc, List.singleton_append]
    rfl
  · intro j
    rw [(lock j).1, (lock j).2.1]
    exact inv.refs j
  · intro j dev
    exact inv.rooted j ((lock j).2.2.1 ▸ dev)
  · intro j count
    rw [(lock j).2.2.1]
    exact inv.used j ((lock j).2.1 ▸ count)
  · intro j k devJ devK block
    rw [(lock j).2.2.1] at devJ
    rw [(lock k).2.2.1] at devK
    rw [(lock j).2.2.2, (lock k).2.2.2] at block
    exact inv.unique j k devJ devK block
  · intro j dev valid unchanged
    have memdisk : c.memdisk = s.cache.memdisk := by rw [cache]; rfl
    rw [memdisk, (lock j).2.2.2]
    by_cases own : j = h
    · subst own
      rw [here]
      obtain ⟨k, head, medium⟩ := inv.medium raised
      cases head
      dsimp only [settledData]
      split at medium
      · rename_i dirty
        rw [if_pos dirty]
        exact medium.symm
      · rename_i clean
        rw [if_neg clean]
        exact medium
    · rw [there j own] at dev valid ⊢
      rw [update_of_ne own] at unchanged
      exact inv.cached j dev valid unchanged

/- A process that is woken in iderw returns from it. -/
theorem resume_some (inv : Inv s q) (taken : resume s pid = some t) :
    ∃ i, s.proc pid = .runnable i ∧ t = { s with proc := update s.proc pid .idle } := by
  unfold resume at taken
  split at taken
  · rename_i i woken
    obtain ⟨-, -, valid, clean, -⟩ := inv.woken pid i woken
    refine ⟨i, woken, ?_⟩
    simp only [valid, clean, Bool.not_false, Bool.and_self, if_true] at taken
    exact (Option.some.inj taken).symm
  · cases taken

theorem Inv.resume (inv : Inv s q) (taken : Ide.resume s pid = some t) : Inv t q := by
  obtain ⟨i, woken, rfl⟩ := resume_some inv taken
  have before {p : Nat} {x : Waiter} (now : update s.proc pid .idle p = x) (busy : x ≠ .idle) :
      p ≠ pid ∧ s.proc p = x := by
    by_cases mine : p = pid
    · rw [mine, update_self] at now
      exact absurd now.symm busy
    · rw [update_of_ne mine] at now
      exact ⟨mine, now⟩
  refine { inv with held := ?_, asleep := ?_, woken := ?_ }
  · intro j member
    obtain ⟨holder, lock, asleep⟩ := inv.held j member
    refine ⟨holder, lock, ?_⟩
    dsimp only
    rw [update_of_ne ?_, asleep]
    rintro rfl
    cases asleep.symm.trans woken
  · intro p j asleep
    exact inv.asleep p j (before asleep nofun).2
  · intro p j again
    exact inv.woken p j (before again nofun).2

end Driver

/- The device reports no error. -/
def NoError (_ : State) : Label → Prop
  | .complete error => error = false
  | _ => True

theorem step_inv {s t : State} {l : Label} (inv : ∃ q, Inv s q) (clean : NoError s l)
    (taken : step s l = some t) : ∃ q, Inv t q := by
  obtain ⟨q, inv⟩ := inv
  cases l with
  | act a =>
    obtain ⟨idle, taken⟩ := Option.ite_none_right_eq_some.mp taken
    cases a with
    | bget r => exact ⟨q, inv.bget taken⟩
    | acquire r i => exact ⟨q, inv.acquire taken⟩
    | modify pid i v => exact ⟨q, inv.modify idle taken⟩
    | mark pid i => exact ⟨q, inv.mark idle taken⟩
    | brelse pid i => exact ⟨q, inv.brelse idle taken⟩
    | iderw pid i => exact ⟨_, inv.iderw idle taken⟩
  | complete error =>
    cases clean
    exact ⟨q, inv.complete taken⟩
  | intr =>
    obtain ⟨raised, taken⟩ := Option.ite_none_right_eq_some.mp taken
    exact ⟨_, inv.ideintr raised taken⟩
  | resume pid => exact ⟨q, inv.resume taken⟩

theorem boot_inv (memdisk : Nat → Block) : Inv (boot memdisk) [] where
  threads := trivial
  nodup := List.nodup_nil
  held := nofun
  asks := nofun
  asleep := nofun
  woken := nofun
  device := rfl
  range := nofun
  error := rfl
  medium := nofun
  queued := rfl
  order := ⟨[], binit_ordered⟩
  refs _ := rfl
  rooted := nofun
  used _ count := absurd rfl count
  unique := nofun
  cached := nofun

end Xv6c.Ide

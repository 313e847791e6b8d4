import Xv6c.Ide.Queue

/-! The driver of ide.c refines the disk of memide.c: a request takes effect when its
interrupt is handled. -/
namespace Xv6c.Ide
open Lib Bio
open Function (update update_self update_of_ne)

/- The medium when the device has completed a command that ideintr has not answered yet,
from the medium without that command. -/
def pending (device : Device) (memdisk : Nat → Block) : Nat → Block :=
  match device.cmd with
  | some c => if device.raised && c.write then update memdisk c.blockno c.data else memdisk
  | none => memdisk

/- The acts done, run at once over the disk of memide.c from c₀, lead to the same cache. -/
structure Replays (c₀ : Bcache) (s : State) (c : Bcache) : Prop where
  run : exec atomic c₀ s.done = some c
  same : s.cache = { c with memdisk := pending s.device c.memdisk }
  size : c.disksize = FSSIZE

section Steps
variable {s t : State} {q : List Nat} {c₀ c : Bcache} {a : Act}

theorem bget_memdisk (c : Bcache) (memdisk : Nat → Block) (dev b : Nat) :
    bget { c with memdisk := memdisk } dev b =
      (bget c dev b).map fun (i, d) => (i, { d with memdisk := memdisk }) := by
  have hits : carries { c with memdisk := memdisk } dev b = carries c dev b := rfl
  have unused : recyclable { c with memdisk := memdisk } = recyclable c := rfl
  unfold bget
  dsimp only
  rw [hits, unused]
  cases scan c.link.next (carries c dev b) head (NBUF + 1) (c.link.next head) with
  | some i => rfl
  | none => cases scan c.link.prev (recyclable c) head (NBUF + 1) (c.link.prev head) <;> rfl

theorem bget_keeps {d : Bcache} {dev b i : Nat} (got : bget c dev b = some (i, d)) :
    d.memdisk = c.memdisk ∧ d.disksize = c.disksize := by
  unfold bget at got
  split at got
  · cases got
    exact ⟨rfl, rfl⟩
  · split at got
    · cases got
      exact ⟨rfl, rfl⟩
    · cases got

/- An act other than iderw does not look at the medium. -/
theorem atomic_memdisk {d : Bcache} (memdisk : Nat → Block) (own : ∀ pid i, a ≠ .iderw pid i)
    (taken : atomic { c with memdisk := memdisk } a = some d) :
    ∃ e, atomic c a = some e ∧ d = { e with memdisk := memdisk } ∧ e.memdisk = c.memdisk ∧
      e.disksize = c.disksize := by
  cases a with
  | bget r =>
    dsimp only [atomic] at taken ⊢
    rw [bget_memdisk] at taken
    cases got : bget c ROOTDEV r.blockno with
    | none =>
      rw [got] at taken
      cases taken
    | some found =>
      rw [got] at taken
      cases taken
      exact ⟨found.2, rfl, rfl, bget_keeps got⟩
  | acquire r i =>
    obtain ⟨free, rfl⟩ := guarded taken
    exact ⟨_, if_pos free, rfl, rfl, rfl⟩
  | modify pid i v =>
    obtain ⟨holds, rfl⟩ := guarded taken
    exact ⟨_, if_pos holds, rfl, rfl, rfl⟩
  | mark pid i =>
    obtain ⟨holds, rfl⟩ := guarded taken
    exact ⟨_, if_pos holds, rfl, rfl, rfl⟩
  | brelse pid i =>
    dsimp only [atomic, brelse] at taken ⊢
    split at taken
    · cases taken
    · rename_i holds
      cases taken
      refine ⟨_, if_neg holds, ?_⟩
      dsimp only [Bcache.set]
      split <;> exact ⟨rfl, rfl, rfl⟩
  | iderw pid i => exact absurd rfl (own pid i)

/- An act that is done at once, over either disk. -/
theorem Replays.performs (replays : Replays c₀ s c) (own : ∀ pid i, a ≠ .iderw pid i) {d : Bcache}
    (taken : atomic s.cache a = some d) (cache : t.cache = d) (done : t.done = s.done ++ [a])
    (device : t.device = s.device) : ∃ e, Replays c₀ t e := by
  rw [replays.same] at taken
  obtain ⟨e, made, same, memdisk, size⟩ := atomic_memdisk _ own taken
  refine ⟨e, ?_, ?_, size.trans replays.size⟩
  · rw [done, exec_append, replays.run]
    simp [exec, made]
  · rw [cache, same, device, memdisk]

theorem Replays.act (replays : Replays c₀ s c) (own : ∀ pid i, a ≠ .iderw pid i)
    (taken : Ide.act s a = some t) : ∃ e, Replays c₀ t e := by
  cases a with
  | bget r =>
    obtain ⟨⟨i, d⟩, got, rfl⟩ := Option.map_eq_some_iff.mp taken
    refine replays.performs own (d := d) ?_ rfl rfl rfl
    dsimp only [atomic]
    rw [got]
    rfl
  | acquire r i =>
    obtain ⟨d, made, rfl⟩ := Option.map_eq_some_iff.mp (Option.ite_none_right_eq_some.mp taken).2
    exact replays.performs own made rfl rfl rfl
  | modify pid i v =>
    obtain ⟨d, made, rfl⟩ := Option.map_eq_some_iff.mp taken
    exact replays.performs own made rfl rfl rfl
  | mark pid i =>
    obtain ⟨d, made, rfl⟩ := Option.map_eq_some_iff.mp taken
    exact replays.performs own made rfl rfl rfl
  | brelse pid i =>
    obtain ⟨d, made, rfl⟩ := Option.map_eq_some_iff.mp taken
    exact replays.performs own made rfl rfl rfl
  | iderw pid i => exact absurd rfl (own pid i)

/- A call of iderw changes neither buffers nor medium. -/
theorem Replays.iderw (replays : Replays c₀ s c) (inv : Inv s q) {pid i : Nat}
    (idle : s.proc pid = .idle) (taken : Ide.iderw s pid i = some t) : Replays c₀ t c := by
  obtain ⟨-, -, -, -, -, idequeue, qnext, -, rfl⟩ := iderw_some inv idle taken
  refine ⟨replays.run, ?_, replays.size⟩
  have device := inv.device
  dsimp only
  rw [replays.same]
  congr 1
  cases q with
  | nil =>
    rw [if_pos rfl]
    unfold pending
    rw [device]
    rfl
  | cons h l => rw [if_neg (List.cons_ne_nil h l)]

theorem Replays.complete (replays : Replays c₀ s c) (inv : Inv s q)
    (taken : Ide.complete s false = some t) : Replays c₀ t c := by
  obtain ⟨h, port, head, before, -, rfl⟩ := complete_some inv taken
  refine ⟨replays.run, ?_, replays.size⟩
  have device := inv.device
  rw [head] at device
  have memdisk : s.cache.memdisk = c.memdisk := by
    rw [replays.same]
    unfold pending
    rw [device, before]
    rfl
  have now : settledDisk (s.cache.buf h) s.cache.memdisk =
      pending { s.device with raised := true, error := false, port := port } c.memdisk := by
    unfold pending settledDisk
    rw [device, memdisk]
    dsimp only [Option.map_some, command]
    cases (s.cache.buf h).dirty <;> rfl
  dsimp only
  rw [now, replays.same]

/- The cache when the request of buffer h is done at once. -/
def settledCache (c : Bcache) (h : Nat) : Bcache :=
  { c.set h { c.buf h with
      data := settledData (c.buf h) (c.memdisk (c.buf h).blockno), valid := true, dirty := false } with
    memdisk := settledDisk (c.buf h) c.memdisk }

/- memide's iderw of a locked buffer that asks for something. -/
theorem atomic_iderw {pid h : Nat} (lock : (c.buf h).lock = some pid)
    (work : (c.buf h).valid = false ∨ (c.buf h).dirty = true) (dev : (c.buf h).dev = ROOTDEV)
    (range : (c.buf h).blockno < c.disksize) :
    atomic c (.iderw pid h) = some (settledCache c h) := by
  dsimp only [atomic, Bio.iderw]
  have asks : ¬((c.buf h).valid && !(c.buf h).dirty) = true := by
    rcases work with invalid | dirty
    · simp [invalid]
    · simp [dirty]
  rw [if_neg (by simp [holdingsleep, lock]), if_neg asks, if_neg (not_not.mpr dev),
    if_neg (Nat.not_le.mpr range)]
  unfold settledCache settledData settledDisk
  cases (c.buf h).dirty <;> rfl

/- The interrupt is where the request is done at once. -/
theorem Replays.ideintr (replays : Replays c₀ s c) (inv : Inv s q) (raised : s.device.raised = true)
    (taken : Ide.ideintr s = some t) : ∃ e, Replays c₀ t e := by
  obtain ⟨h, l, d, rfl, -, -, cache, rfl⟩ := ideintr_some inv raised taken
  obtain ⟨pid, lock, -⟩ := inv.held h List.mem_cons_self
  obtain ⟨dev, work⟩ := inv.asks h List.mem_cons_self
  have range := inv.range h rfl
  obtain ⟨k, head, medium⟩ := inv.medium raised
  cases head
  have buf : s.cache.buf = c.buf := by rw [replays.same]
  have disk : s.cache.memdisk = settledDisk (s.cache.buf h) c.memdisk := by
    rw [replays.same]
    unfold pending settledDisk
    rw [inv.device, raised, buf]
    dsimp only [List.head?_cons, Option.map_some, command]
    cases (c.buf h).dirty <;> rfl
  have data : settledData (s.cache.buf h) s.device.port =
      settledData (c.buf h) (c.memdisk (c.buf h).blockno) := by
    rw [disk] at medium
    unfold settledData settledDisk at *
    rw [buf] at medium ⊢
    split
    · rfl
    · rename_i clean
      rw [if_neg clean, if_neg clean] at medium
      exact medium
  rw [buf] at lock work dev range
  refine ⟨settledCache c h, ?_, ?_, replays.size⟩
  · dsimp only
    rw [exec_append, replays.run, buf, lock]
    simp [exec, atomic_iderw lock work dev (replays.size ▸ range)]
  · have memdisk (cmd : Option Command) : pending { s.device with cmd := cmd, raised := false }
        (settledDisk (c.buf h) c.memdisk) = s.cache.memdisk := by
      rw [disk, buf]
      unfold pending
      cases cmd <;> rfl
    dsimp only [settledCache]
    rw [memdisk, cache, data, buf, replays.same]
    rfl

end Steps

/- A run without errors is a run of the acts at once, in the order in which they are
done. -/
theorem run_replays {memdisk : Nat → Block} {ls : List Label} {s : State}
    (clean : Along step NoError (boot memdisk) ls) (reached : exec step (boot memdisk) ls = some s) :
    ∃ q c, Inv s q ∧ Replays (binit FSSIZE memdisk) s c := by
  have preserves (s : State) (l : Label) (t : State)
      (h : ∃ q c, Inv s q ∧ Replays (binit FSSIZE memdisk) s c) (clean : NoError s l)
      (taken : step s l = some t) : ∃ q c, Inv t q ∧ Replays (binit FSSIZE memdisk) t c := by
    obtain ⟨q, c, inv, replays⟩ := h
    obtain ⟨q', inv'⟩ := step_inv ⟨q, inv⟩ clean taken
    refine ⟨q', ?_⟩
    cases l with
    | act a =>
      obtain ⟨idle, taken⟩ := Option.ite_none_right_eq_some.mp taken
      by_cases own : ∀ pid i, a ≠ .iderw pid i
      · obtain ⟨e, again⟩ := replays.act own taken
        exact ⟨e, inv', again⟩
      · simp only [not_forall, not_not] at own
        obtain ⟨pid, i, rfl⟩ := own
        exact ⟨c, inv', replays.iderw inv idle taken⟩
    | complete error =>
      cases clean
      exact ⟨c, inv', replays.complete inv taken⟩
    | intr =>
      obtain ⟨raised, taken⟩ := Option.ite_none_right_eq_some.mp taken
      obtain ⟨e, again⟩ := replays.ideintr inv raised taken
      exact ⟨e, inv', again⟩
    | resume pid =>
      obtain ⟨i, -, rfl⟩ := resume_some inv taken
      exact ⟨c, inv', { replays with }⟩
  exact run_invariant preserves ⟨[], binit FSSIZE memdisk, boot_inv memdisk, rfl, rfl, rfl⟩ clean reached

/-- In every run in which the device reports no error, idequeue links a list q without
repetitions; the device has a command exactly when q is not empty, and that is the
command of its head; the requests of all calls so far are those that are done, in order,
followed by q; and the buffers and the medium are those after the acts done so far with
memide's iderw for each request, but for a command that the device has completed and
ideintr has not answered yet. A process that is woken in iderw returns from it, with its
buffer valid and in step with the disk. -/
theorem ide_refines_atomic {memdisk : Nat → Block} {ls : List Label} {s : State}
    (clean : Along step NoError (boot memdisk) ls) (reached : exec step (boot memdisk) ls = some s) :
    ∃ q c, Threads s.qnext s.idequeue q ∧ q.Nodup ∧
      s.device.cmd = (q.head?.map fun i => command (s.cache.buf i)) ∧
      s.queued = requests s.done ++ q ∧
      exec atomic (binit FSSIZE memdisk) s.done = some c ∧
      s.cache = { c with memdisk := pending s.device c.memdisk } ∧
      ∀ pid t, step s (.resume pid) = some t → t.proc pid = .idle ∧ ∃ i, s.proc pid = .runnable i ∧
        i ∈ requests s.done ∧ (c.buf i).valid = true ∧ (c.buf i).dirty = false ∧
        t.cache.buf i = c.buf i := by
  obtain ⟨q, c, inv, replays⟩ := run_replays clean reached
  refine ⟨q, c, inv.threads, inv.nodup, inv.device, inv.queued, replays.run, replays.same, ?_⟩
  intro pid t taken
  obtain ⟨i, woken, rfl⟩ := resume_some inv taken
  obtain ⟨-, -, valid, dirty, done⟩ := inv.woken pid i woken
  have buf : s.cache.buf = c.buf := by rw [replays.same]
  rw [buf] at valid dirty
  exact ⟨update_self _ _ _, i, woken, done, valid, dirty, congrFun buf i⟩

/- Two processes read two blocks, and the second asks while the first is served. -/
def readBlocks : List Label :=
  [.act (.bget ⟨0, 5⟩), .act (.acquire ⟨0, 5⟩ 0), .act (.iderw 0 0),
    .act (.bget ⟨1, 6⟩), .act (.acquire ⟨1, 6⟩ 1), .act (.iderw 1 1),
    .complete false, .intr]

theorem readBlocks_clean (memdisk : Nat → Block) : Along step NoError (boot memdisk) readBlocks := by
  apply along_of_forall
  simp [readBlocks, NoError]

theorem ide_refines_atomic_reads : ∃ s, exec step (boot fun _ => zeros) readBlocks = some s ∧
    s.queued = [0, 1] ∧ s.proc 0 = .runnable 0 ∧ s.proc 1 = .sleeping 1 ∧
    ∃ q c, Threads s.qnext s.idequeue q ∧ s.queued = requests s.done ++ q ∧
      exec atomic (binit FSSIZE fun _ => zeros) s.done = some c ∧
      s.cache = { c with memdisk := pending s.device c.memdisk } := by
  obtain ⟨s, reached, queued, first, second⟩ : ∃ s, exec step (boot fun _ => zeros) readBlocks = some s ∧
      s.queued = [0, 1] ∧ s.proc 0 = .runnable 0 ∧ s.proc 1 = .sleeping 1 := by decide +kernel
  obtain ⟨q, c, threads, -, -, order, run, same, -⟩ :=
    ide_refines_atomic (readBlocks_clean _) reached
  exact ⟨s, reached, queued, first, second, q, c, threads, order, run, same⟩

/-- In every run in which the device reports no error, a buffer that bget has taken for
a block and that is valid holds the block as it is on the disk, unless its holder has
changed it since it was last the same as on the disk. -/
theorem valid_holds_block {memdisk : Nat → Block} {ls : List Label} {s : State}
    (clean : Along step NoError (boot memdisk) ls) (reached : exec step (boot memdisk) ls = some s)
    {i : Nat} (taken : (s.cache.buf i).dev = ROOTDEV) (valid : (s.cache.buf i).valid = true)
    (kept : s.changed i = false) :
    (s.cache.buf i).data = s.cache.memdisk (s.cache.buf i).blockno := by
  obtain ⟨q, c, inv, -⟩ := run_replays clean reached
  exact inv.cached i taken valid kept

theorem valid_holds_block_read : ∃ s, exec step (boot fun _ _ => 7) readBlocks = some s ∧
    (s.cache.buf 0).valid = true ∧ (s.cache.buf 0).data = s.cache.memdisk 5 := by
  obtain ⟨s, reached, taken, block, valid, kept⟩ : ∃ s, exec step (boot fun _ _ => 7) readBlocks = some s ∧
      (s.cache.buf 0).dev = ROOTDEV ∧ (s.cache.buf 0).blockno = 5 ∧ (s.cache.buf 0).valid = true ∧
      s.changed 0 = false := by decide +kernel
  refine ⟨s, reached, valid, ?_⟩
  rw [valid_holds_block (readBlocks_clean _) reached taken valid kept, block]

/- A read command reports an error: ideintr skips insl and sets B_VALID all the same. -/
theorem valid_without_block : ∃ s,
    exec step (boot fun _ _ => 7) [.act (.bget ⟨0, 5⟩), .act (.acquire ⟨0, 5⟩ 0), .act (.iderw 0 0),
      .complete true, .intr, .resume 0] = some s ∧
    (s.cache.buf 0).dev = ROOTDEV ∧ (s.cache.buf 0).blockno = 5 ∧ (s.cache.buf 0).valid = true ∧
    s.changed 0 = false ∧ s.proc 0 = .idle ∧ (s.cache.buf 0).data ≠ s.cache.memdisk 5 := by
  obtain ⟨s, reached, taken, block, valid, kept, idle, other⟩ :
      ∃ s, exec step (boot fun _ _ => 7) [.act (.bget ⟨0, 5⟩), .act (.acquire ⟨0, 5⟩ 0), .act (.iderw 0 0),
        .complete true, .intr, .resume 0] = some s ∧ (s.cache.buf 0).dev = ROOTDEV ∧ (s.cache.buf 0).blockno = 5 ∧
        (s.cache.buf 0).valid = true ∧ s.changed 0 = false ∧ s.proc 0 = .idle ∧
        (s.cache.buf 0).data 0 ≠ s.cache.memdisk 5 0 := by decide +kernel
  exact ⟨s, reached, taken, block, valid, kept, idle, fun same => other (congrFun same 0)⟩

end Xv6c.Ide

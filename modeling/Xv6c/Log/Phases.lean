import Xv6c.Log.Cache

/-! The phases of the redo log. Each phase relates the disk, the contents seen
through the cache and the in-memory header to the groups of the specification.
A disk is recoverable to h when what its header block announces, installed over
its home blocks, gives h; this is all that survives a loss of power. -/
namespace Xv6c.Log
open Lib GroupCommit

def InLog (sb : Superblock) (b : Nat) : Prop := sb.logstart ≤ b ∧ b < sb.logstart + sb.nlog
def Home (sb : Superblock) (b : Nat) : Prop := ¬ InLog sb b

/- The log has a header block and does not cover the super block. -/
structure Layout (sb : Superblock) : Prop where
  super : Home sb 1
  head : 0 < sb.nlog

def HomeIs (sb : Superblock) (d h : Nat → Block) : Prop := ∀ b, Home sb b → d b = h b

def Fits (sb : Superblock) (n : Nat) : Prop := n ≤ LOGSIZE ∧ n ≤ sb.nlog - 1

structure Recoverable (sb : Superblock) (disk h : Nat → Block) : Prop where
  room : Fits sb (getHead (disk sb.logstart)).length
  homes : ∀ b ∈ getHead (disk sb.logstart), Home sb b ∧ b < FSSIZE
  rest : ∀ b, Home sb b → b ∉ getHead (disk sb.logstart) → disk b = h b
  copies : ∀ (i b : Nat), (getHead (disk sb.logstart))[i]? = some b → disk (sb.logstart + i + 1) = h b
  super : decodeSb (disk 1) = sb

/- Home contents after the durable groups, after the closed group too, and after
everything recorded so far. -/
def settled (d : Nat → Block) (a : Spec Block) : Nat → Block := replay d a.durable
def closed (d : Nat → Block) (a : Spec Block) : Nat → Block :=
  match a.pending with
  | some g => replayGroup (settled d a) g
  | none => settled d a
def latest (d : Nat → Block) (a : Spec Block) : Nat → Block := replayGroup (closed d a) a.current

structure Steady (sb : Superblock) (m : Machine) : Prop where
  start : m.log.start = sb.logstart
  size : m.log.size = sb.nlog
  room : Fits sb (m.log.lh.length + m.calls.length)
  homes : ∀ b ∈ m.log.lh, Home sb b ∧ b < FSSIZE
  calls : ∀ c ∈ m.calls, Home sb c.blockno ∧ c.blockno < FSSIZE
  clean : ∀ b, dirty m b = false → view m b = m.disk b
  pinned : ∀ b, dirty m b = true → b ∈ m.log.lh
  super : decodeSb (m.disk 1) = sb

structure Quiet (m : Machine) (a : Spec Block) : Prop where
  sections : m.sections = []
  calls : m.calls = []
  count : m.log.outstanding = 0
  current : a.current = []

structure Idle (sb : Superblock) (d : Nat → Block) (m : Machine) (a : Spec Block) : Prop where
  steady : Steady sb m
  pending : a.pending = none
  calm : m.log.committing = false
  empty : getHead (m.disk sb.logstart) = []
  disk : HomeIs sb m.disk (settled d a)
  cached : HomeIs sb (view m) (latest d a)
  inside : inside a.current = some (m.sections.map Section.pid)
  nodup : (m.sections.map Section.pid).Nodup
  count : m.log.outstanding = m.sections.length
  callers : ∀ c ∈ m.calls, c.pid ∈ m.sections.map Section.pid

/- write_log has copied the first t blocks. -/
structure Copying (sb : Superblock) (d : Nat → Block) (t : Nat) (m : Machine) (a : Spec Block) :
    Prop where
  steady : Steady sb m
  quiet : Quiet m a
  pending : a.pending.isSome
  committing : m.log.committing = true
  empty : getHead (m.disk sb.logstart) = []
  disk : HomeIs sb m.disk (settled d a)
  cached : HomeIs sb (view m) (closed d a)
  copies : ∀ i b, i < t → m.log.lh[i]? = some b → m.disk (sb.logstart + i + 1) = closed d a b

/- install_trans has written the first t blocks home, in commit or in recovery. -/
structure Installing (sb : Superblock) (d : Nat → Block) (t : Nat) (m : Machine) (a : Spec Block) :
    Prop where
  steady : Steady sb m
  quiet : Quiet m a
  committing : m.log.committing = a.pending.isSome
  head : getHead (m.disk sb.logstart) = m.log.lh
  copies : ∀ (i b : Nat), m.log.lh[i]? = some b → m.disk (sb.logstart + i + 1) = closed d a b
  rest : ∀ b, Home sb b → b ∉ m.log.lh.drop t → m.disk b = closed d a b
  left : ∀ b, dirty m b = true → b ∈ m.log.lh.drop t

structure Clearing (sb : Superblock) (d : Nat → Block) (m : Machine) (a : Spec Block) : Prop where
  steady : Steady sb m
  quiet : Quiet m a
  committing : m.log.committing = a.pending.isSome
  lh : m.log.lh = []
  disk : HomeIs sb m.disk (closed d a)
  recoverable : Recoverable sb m.disk (closed d a)

structure Committed (sb : Superblock) (d : Nat → Block) (m : Machine) (a : Spec Block) : Prop where
  steady : Steady sb m
  quiet : Quiet m a
  pending : a.pending.isSome
  lh : m.log.lh = []
  empty : getHead (m.disk sb.logstart) = []
  disk : HomeIs sb m.disk (closed d a)

structure Off (sb : Superblock) (d : Nat → Block) (m : Machine) (a : Spec Block) : Prop where
  fresh : m = powerOff m.disk
  pending : a.pending = none
  current : a.current = []
  recoverable : Recoverable sb m.disk (settled d a)

def Phase (sb : Superblock) (d : Nat → Block) (m : Machine) (a : Spec Block) : Prop :=
  match m.pc with
  | .off => Off sb d m a
  | .panic _ => a.pending = none ∧ Recoverable sb m.disk (settled d a)
  | .idle => Idle sb d m a
  | .writeLog t => t < m.log.lh.length ∧ Copying sb d t m a
  | .writeHead => m.log.lh ≠ [] ∧ Copying sb d m.log.lh.length m a
  | .install t => t < m.log.lh.length ∧ Installing sb d t m a
  | .clearHead => Clearing sb d m a
  | .commitDone => Committed sb d m a

/- Whatever is written to block 1 describes the same log. -/
structure SuperKept (sb : Superblock) (d : Nat → Block) (a : Spec Block) : Prop where
  settled : decodeSb (settled d a 1) = sb
  closed : decodeSb (closed d a 1) = sb
  latest : decodeSb (latest d a 1) = sb

structure Rel (sb : Superblock) (d : Nat → Block) (m : Machine) (a : Spec Block) : Prop where
  super : SuperKept sb d a
  phase : Phase sb d m a

section Facts
variable {sb : Superblock} {d disk h : Nat → Block} {m n : Machine} {a : Spec Block}

theorem copy_inLog {i n : Nat} (short : n ≤ sb.nlog - 1) (bound : i < n) :
    InLog sb (sb.logstart + i + 1) := by
  simp only [InLog]
  omega

/-- Nothing unlogged is dirty, so the cache shows the disk. -/
theorem Steady.shown {b : Nat} (steady : Steady sb m) (unlogged : b ∉ m.log.lh) : view m b = m.disk b := by
  apply steady.clean
  by_contra h
  exact unlogged (steady.pinned b (by simpa using h))

theorem closed_none (none : a.pending = none) : closed d a = settled d a := by
  simp [closed, none]

theorem latest_current (empty : a.current = []) : latest d a = closed d a := by
  simp [latest, empty]

/-- An empty header leaves recovery nothing to do. -/
theorem recoverable_of_empty (empty : getHead (disk sb.logstart) = [])
    (homes : HomeIs sb disk h) (super : decodeSb (disk 1) = sb) : Recoverable sb disk h := by
  constructor
  · simp [empty, Fits]
  · simp [empty]
  · intro b hb _; exact homes b hb
  · simp [empty]
  · exact super

theorem recoverable_installing {t : Nat} (inst : Installing sb d t m a) :
    Recoverable sb m.disk (closed d a) := by
  have hr := inst.steady.room
  simp only [inst.quiet.calls, List.length_nil, Nat.add_zero] at hr
  constructor
  · rw [inst.head]; exact hr
  · rw [inst.head]; exact inst.steady.homes
  · intro b hb hn
    rw [inst.head] at hn
    exact inst.rest b hb (fun hm => hn (List.mem_of_mem_drop hm))
  · rw [inst.head]; exact inst.copies
  · exact inst.steady.super

theorem recoverable_copying {t : Nat} (copy : Copying sb d t m a) :
    Recoverable sb m.disk (settled d a) :=
  recoverable_of_empty copy.empty copy.disk copy.steady.super

/- Fields compared by SameFor are all that a phase mentions, except that a
machine without power has an empty cache. -/
theorem steady_same (same : SameFor m n) (steady : Steady sb m) : Steady sb n := by
  obtain ⟨h1, h2, h3, h4, h5, h6, h7, h8⟩ := steady
  constructor <;> simp only [same.disk, same.view, same.dirty, same.log, same.calls] <;> assumption

theorem quiet_same (same : SameFor m n) (quiet : Quiet m a) : Quiet n a :=
  ⟨same.sections ▸ quiet.sections, same.calls ▸ quiet.calls, same.log ▸ quiet.count, quiet.current⟩

theorem idle_same (same : SameFor m n) (idle : Idle sb d m a) : Idle sb d n a := by
  obtain ⟨h1, h2, h3, h4, h5, h6, h7, h8, h9, h10⟩ := idle
  refine ⟨steady_same same h1, h2, ?_, ?_, ?_, ?_, ?_, ?_, ?_, ?_⟩ <;>
    simp only [same.disk, same.view, same.log, same.sections, same.calls] <;> assumption

theorem copying_same {t : Nat} (same : SameFor m n) (copy : Copying sb d t m a) :
    Copying sb d t n a := by
  obtain ⟨h1, h2, h3, h4, h5, h6, h7, h8⟩ := copy
  refine ⟨steady_same same h1, quiet_same same h2, h3, ?_, ?_, ?_, ?_, ?_⟩ <;>
    simp only [same.disk, same.view, same.log] <;> assumption

theorem installing_same {t : Nat} (same : SameFor m n) (inst : Installing sb d t m a) :
    Installing sb d t n a := by
  obtain ⟨h1, h2, h3, h4, h5, h6, h7⟩ := inst
  refine ⟨steady_same same h1, quiet_same same h2, ?_, ?_, ?_, ?_, ?_⟩ <;>
    simp only [same.disk, same.dirty, same.log] <;> assumption

theorem phase_same (same : SameFor m n) (powered : m.pc ≠ .off) (phase : Phase sb d m a) :
    Phase sb d n a := by
  unfold Phase at *
  rw [same.pc]
  split at phase
  · exact absurd (by assumption) powered
  · simp only [same.disk]; exact phase
  · exact idle_same same phase
  · exact ⟨same.log ▸ phase.1, copying_same same phase.2⟩
  · exact same.log ▸ ⟨phase.1, copying_same same phase.2⟩
  · exact ⟨same.log ▸ phase.1, installing_same same phase.2⟩
  · obtain ⟨h1, h2, h3, h4, h5, h6⟩ := phase
    refine ⟨steady_same same h1, quiet_same same h2, ?_, ?_, ?_, ?_⟩ <;>
      simp only [same.disk, same.log] <;> assumption
  · obtain ⟨h1, h2, h3, h4, h5, h6⟩ := phase
    refine ⟨steady_same same h1, quiet_same same h2, h3, ?_, ?_, ?_⟩ <;>
      simp only [same.disk, same.log] <;> assumption

end Facts

end Xv6c.Log

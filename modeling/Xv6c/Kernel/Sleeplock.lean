import Xv6c.Lib.Monitor

/-! sleeplock.c. The lock of the monitor is lk->lk and its table ptable.lock; a kick is kill's.
A process releases the lock only while it has it, as iunlock and brelse are used. -/
namespace Xv6c.Sleep
open Lib Monitor

structure Sleeplock where
  locked : Bool
  pid : Int

def initsleeplock : Sleeplock := ⟨false, 0⟩

inductive Call where
  | acquiresleep (pid : Int)
  | releasesleep
  | holdingsleep

/- A process that has the lock is known by the pid it acquired it with. -/
def sleeplock : Monitor Sleeplock Call (Option Int) Unit where
  may
    | k, .releasesleep => k.isSome
    | _, _ => true
  blocked
    | .acquiresleep _, lk => lk.locked
    | _, _ => false
  act
    | .acquiresleep pid, _ => ⟨true, pid⟩
    | .releasesleep, _ => ⟨false, 0⟩
    | .holdingsleep, lk => lk
  after
    | _, .acquiresleep pid, _ => some pid
    | _, .releasesleep, _ => none
    | k, .holdingsleep, _ => k
  wakes
    | .releasesleep, _ => some ()
    | _, _ => none
  chan _ := ()
  signals i j lk free blocked := by
    cases i with
    | acquiresleep => cases j <;> simp_all
    | releasesleep => exact .inr rfl
    | holdingsleep => exact .inl blocked

variable {T : Type} [DecidableEq T] {ls : List (T × Act Call)} {s : State T sleeplock}

/- A taken lock has an owner, who has it alone and has left its pid there. -/
def Owned (x : Sleeplock × (T → Option Int)) : Prop := (x.1.locked = true → ∃ t, x.2 t ≠ none) ∧
  ∀ t pid, x.2 t = some pid → x.1 = ⟨true, pid⟩ ∧ ∀ u, x.2 u ≠ none → u = t

theorem call_owned (x y : Sleeplock × (T → Option Int)) (owned : Owned x) (called : Atomic sleeplock x y) :
    Owned y := by
  obtain ⟨t, j, may, free, rfl⟩ := called
  obtain ⟨owner, known⟩ := owned
  cases j with
  | acquiresleep pid =>
    have nobody (u) : x.2 u = none := by
      cases has : x.2 u with
      | none => rfl
      | some pid' => simp [sleeplock, (known u pid' has).1] at free
    refine ⟨fun _ => ⟨t, ?_⟩, fun u pid' has => ?_⟩ <;> grind [sleeplock, Function.update]
  | releasesleep => constructor <;> grind [sleeplock, Function.update]
  | holdingsleep => simpa [Owned, sleeplock] using ⟨owner, known⟩

/-- Whatever the processes do, at most one has the lock, and where no process can go on each one
that is inside a call sleeps for a lock that is taken. -/
theorem sleeplock_exclusive (reached : exec sleeplock.step (sleeplock.start initsleeplock none) ls = some s) :
    Owned s.view ∧ (s.Still → ∀ t, (∃ k, s.place t = .outside k) ∨
      ∃ k pid h, s.place t = .waits k (.acquiresleep pid) h .asleep ∧ ∃ u, (s.place u).client ≠ none) := by
  obtain ⟨inv, owned⟩ := reached_inv call_owned ⟨by simp [initsleeplock], by simp⟩ reached
  refine ⟨owned, fun still t => (still_places inv still t).imp_right ?_⟩
  rintro ⟨k, j, h, asleep, blocked⟩
  cases j with
  | acquiresleep pid => exact ⟨k, pid, h, asleep, owned.1 blocked⟩
  | _ => cases blocked

theorem sleeplock_exclusive_one : ∃ (ls : List (Bool × Act Call)) (s : State Bool sleeplock),
    exec sleeplock.step (sleeplock.start initsleeplock none) ls = some s ∧ ∃ t, (s.place t).client ≠ none := by
  have reached : exec sleeplock.step (sleeplock.start initsleeplock none)
    [(true, .call (Call.acquiresleep 1)), (true, .run), (true, .run)] = some _ := rfl
  exact ⟨_, _, reached, (sleeplock_exclusive reached).1.1 rfl⟩

end Xv6c.Sleep

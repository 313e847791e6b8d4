import Xv6c.Lib.Count
import Xv6c.Lib.Monitor
import Xv6c.Log.Cache

/-! How processes wait for the log. The lock of the monitor is log.lock, and the channel &log.
log_write's tests before its lock are in the log's own model, and so is commit. -/
namespace Xv6c.Waiting
open Lib Log Monitor

inductive Client where
  | out
  | inside
  | commits
  deriving DecidableEq

inductive Region where
  | beginOp
  | logWrite (b : Nat)
  | endOp
  /- The last locked region of end_op; commit has emptied the header. -/
  | finish

/- end_op has ended the last operation. -/
def last (l : LogStruct) : Bool := l.outstanding - 1 = 0

def waiting : Monitor LogStruct Region Client Unit where
  may
    | .out, .beginOp | .inside, .logWrite _ | .inside, .endOp | .commits, .finish => true
    | _, _ => false
  blocked
    | .beginOp, l => !admits l
    | _, _ => false
  act
    | .beginOp, l => { l with outstanding := l.outstanding + 1 }
    | .logWrite b, l => { l with lh := absorb l.lh b }
    | .endOp, l => { l with outstanding := l.outstanding - 1, committing := l.committing || last l }
    | .finish, l => { l with committing := false, lh := [] }
  after
    | _, .beginOp, _ => .inside
    | k, .logWrite _, _ => k
    | _, .endOp, l => if last l then .commits else .out
    | _, .finish, _ => .out
  wakes
    | .endOp, l => if last l then none else some ()
    | .finish, _ => some ()
    | _, _ => none
  chan _ := ()
  signals i j l free blocked := by
    cases j with
    | beginOp =>
      cases i with
      | beginOp => simp_all
      | logWrite b =>
        refine .inl ?_
        simp only [admits, absorb_eq] at blocked ⊢
        split <;> grind
      | endOp => by_cases last : last l = true <;> simp [last, admits]
      | finish => exact .inr rfl
    | _ => cases blocked

variable {T : Type} [DecidableEq T] [Fintype T] {ls : List (T × Act Region)} {s : State T waiting}

/- The log counts the operations, and one process commits while there are none. -/
def Counted (x : LogStruct × (T → Client)) : Prop :=
  pointers Finset.univ (some ∘ x.2) .inside = x.1.outstanding ∧
  pointers Finset.univ (some ∘ x.2) .commits = x.1.committing.toNat ∧
  (x.1.outstanding = 0 ∨ x.1.committing = false) ∧ (x.1.outstanding = 0 → x.1.committing = false → x.1.lh = [])

theorem region_counted (x y : LogStruct × (T → Client)) (counted : Counted x) (called : Atomic waiting x y) :
    Counted y := by
  obtain ⟨t, j, may, free, rfl⟩ := called
  obtain ⟨inside, commits, apart, empty⟩ := counted
  have here : 0 < pointers Finset.univ (some ∘ x.2) (x.2 t) := pointers_pos (Finset.mem_univ t) rfl
  have count (k) (c) := pointers_update (some ∘ x.2) (Finset.mem_univ t) (some k) c
  unfold Counted
  simp only [Function.comp_apply, Function.comp_update] at count ⊢
  -- What a client may call leaves four cases.
  cases at_t : x.2 t <;> cases j <;> rw [at_t] at may here <;> try cases may
  all_goals simp only [waiting] at free ⊢
  case out.beginOp => grind [admits]
  case inside.logWrite => grind
  case inside.endOp =>
    have idle : x.1.committing = false := apart.resolve_left (by omega)
    cases ended : last x.1 <;> grind [last]
  case commits.finish =>
    have := Bool.toNat_le x.1.committing
    grind

/-- However processes use the log, it counts their operations, one of them commits while there
are none, and where nobody can go on each one that waits in begin_op waits for another. -/
theorem waiters_have_reason {a n : Nat}
    (reached : exec waiting.step (waiting.start ⟨a, n, 0, false, []⟩ .out) ls = some s) : Counted s.view ∧
    (s.Still → ∀ t, (∃ k, s.place t = .outside k) ∨ ∃ k h, s.place t = .waits k .beginOp h .asleep ∧
      ∃ u, (s.place u).client ≠ .out) := by
  obtain ⟨inv, counted⟩ := reached_inv region_counted (by simp [Counted, pointers]) reached
  refine ⟨counted, fun still t => (still_places inv still t).imp_right ?_⟩
  rintro ⟨k, j, h, asleep, blocked⟩
  cases j with
  | beginOp =>
    refine ⟨k, h, asleep, ?_⟩
    by_contra nobody
    have idle : s.view.2 = fun _ => .out := funext fun u => not_not.mp (not_exists.mp nobody u)
    obtain ⟨inside, commits, -, empty⟩ := counted
    rw [idle] at inside commits
    have none : s.data.outstanding = 0 := by simpa [pointers, State.view] using inside.symm
    have free : s.data.committing = false := by simpa [pointers, State.view] using commits.symm
    have fits : admits s.data = true := by
      simp [admits, none, free, show s.data.lh = [] from empty none free, LOGSIZE, MAXOPBLOCKS]
    simp [waiting, fits] at blocked
  | _ => cases blocked

theorem waiters_have_reason_one : ∃ (ls : List (Bool × Act Region)) (s : State Bool waiting),
    exec waiting.step (waiting.start ⟨2, 30, 0, false, []⟩ .out) ls = some s ∧ Counted s.view := by
  have reached : exec waiting.step (waiting.start ⟨2, 30, 0, false, []⟩ .out)
    [(true, .call Region.beginOp), (true, .run), (true, .run)] = some _ := rfl
  exact ⟨_, _, reached, (waiters_have_reason reached).1⟩

end Xv6c.Waiting

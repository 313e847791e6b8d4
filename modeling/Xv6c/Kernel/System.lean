import Xv6c.Kernel.Syscall

/-! The kernel as a machine: a process that can run makes a system call or stores to
its memory, and the scheduler gives up a container that has no process left. -/
namespace Xv6c
open Lib

inductive Label where
  | call (p : ProcId) (c : Syscall)
  | store (p : ProcId) (va : Nat) (b : Byte)
  | cexit (c : Nat)

def perform : Label → KM Unit
  | .call p c => do
    let _ ← syscall p c
    pure ()
  | .store p va b => do
    let k ← Prog.get
    let _ ← onMem p (Mem.userStore (k.procAt p).pgdir va b)
    pure ()
  | .cexit c => cexit c

/- A slot of the process table whose process the scheduler may run. -/
def CanRun (k : Kernel) (p : ProcId) : Prop :=
  p.cont < NCONT ∧ p.slot < NPROC ∧
    ((k.procAt p).state = .runnable ∨ (k.procAt p).state = .running)

def Enabled (k : Kernel) : Label → Prop
  | .call p _ => CanRun k p
  | .store p _ _ => CanRun k p
  | .cexit c => (k.cont c).uproc = 0

instance (k : Kernel) (l : Label) : Decidable (Enabled k l) := by
  cases l <;> unfold Enabled <;> try unfold CanRun
  all_goals infer_instance

/- A step of the kernel; one that faults has no successor. -/
def step (k : Kernel) (l : Label) : Option Kernel :=
  if Enabled k l then
    match (perform l k).2 with
    | .ok (_, t) => some t
    | .error _ => none
  else none

/- What a step reports, also if it faults. -/
def events (k : Kernel) (l : Label) : List Event := if Enabled k l then (perform l k).1 else []

/- A program that meets its specification, taken as a step. -/
theorem step_spec {M : Mode Event Fault} {k : Kernel} {l : Label} {Q : Kernel → Prop}
    (spec : Enabled k l → wp M (perform l) (fun _ t => Q t) k)
    (good : ∀ e ∈ events k l, M.good e) :
    (∀ e ∈ events k l, M.owes e) ∧ ∀ t, step k l = some t → Q t := by
  unfold events step at *
  by_cases enabled : Enabled k l
  · simp only [if_pos enabled] at good ⊢
    obtain ⟨owed, result⟩ := spec enabled good
    refine ⟨owed, fun t ht => ?_⟩
    rcases outcome : (perform l k).2 with e | ⟨_, u⟩
    · simp [outcome] at ht
    · simp only [outcome, Option.some.injEq] at result ht
      exact ht ▸ result
  · simp [if_neg enabled]

end Xv6c

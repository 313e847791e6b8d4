import Xv6c.Kernel.System

/-! The scheduler of container.c. Each CPU runs it; while it runs a process, the CPU
remembers the container in whose visit it chose the process. The order in which a CPU
visits the containers is left open. -/
namespace Xv6c
open Lib

/- &cont->ptable[n] of container i, as an index of the NCONT * NPROC slots. -/
def slotAddr (i : Nat) (n : Int) : Int := i * NPROC + n

/- The slot at an address; none outside of the table. -/
def slotAt (a : Int) : Option ProcId :=
  if 0 ≤ a ∧ a < NCONT * NPROC then some ⟨(a / NPROC).toNat, (a % NPROC).toNat⟩ else none

/- The containers in which the scheduler looks at a slot. -/
def Scheduled (c : Cont) : Prop := c.state = .crunnable ∨ c.state = .cstopping

instance (c : Cont) : Decidable (Scheduled c) := inferInstanceAs (Decidable (_ ∨ _))

/- The body of the loop over the containers up to swtch: the process it switches to. -/
def visit (i : Nat) : KM (Option ProcId) := do
  let k ← Prog.get
  if ¬ Scheduled (k.cont i) then pure none
  else
    match slotAt (slotAddr i (k.cont i).nextproc) with
    | none => Prog.fault .trap
    | some p =>
      modifyCont i fun c => { c with
        nextproc := if c.nextproc + 1 = c.mproc then 0 else c.nextproc + 1 }
      if (k.procAt p).state ≠ .runnable then pure none
      else
        -- p->state is RUNNABLE, so the wakeup of a sleeping process does nothing here
        if (k.cont i).state = .cstopping then modifyProc p fun q => { q with killed := true }
        switchuvm p
        modifyProc p fun q => { q with state := .running }
        pure (some p)

/- The rest of the body, when the process is done running for now. -/
def afterRun (i : Nat) : KM Unit := do
  let k ← Prog.get
  if (k.cont i).uproc = 0 then cexit i

/- yield, up to the switch to the scheduler. -/
def yield (p : ProcId) : KM Unit := modifyProc p fun q => { q with state := .runnable }

/- The state after a program that ends. -/
def after {A : Type} (x : KM A) (k : Kernel) : Option (A × Kernel) :=
  match (x k).2 with
  | .ok r => some r
  | .error _ => none

/- The CPUs and what each of them runs. -/
structure Smp where
  kernel : Kernel
  cpu : Nat → Option (Nat × ProcId)

inductive Turn where
  | visit (cpu i : Nat)
  | call (cpu : Nat) (c : Syscall)
  | store (cpu va : Nat) (b : Byte)
  | yield (cpu : Nat)

/- A process that no longer runs has switched back to the scheduler of its CPU, with
ptable.lock held from its change of state on. -/
def switchBack (s : Smp) (cpu i : Nat) (p : ProcId) (k : Kernel) : Option Smp :=
  if (k.procAt p).state = .running then some { s with kernel := k }
  else (after (afterRun i) k).map fun (_, k) => ⟨k, Function.update s.cpu cpu none⟩

def Running (k : Kernel) (p : ProcId) : Prop :=
  p.cont < NCONT ∧ p.slot < NPROC ∧ (k.procAt p).state = .running

instance (k : Kernel) (p : ProcId) : Decidable (Running k p) := inferInstanceAs (Decidable (_ ∧ _))

/- A step of the process that a CPU runs. -/
def runs (s : Smp) (cpu : Nat) (x : ProcId → Option Kernel) : Option Smp :=
  match s.cpu cpu with
  | none => none
  | some (i, p) => if Running s.kernel p then (x p).bind (switchBack s cpu i p) else none

def turn (s : Smp) : Turn → Option Smp
  | .visit cpu i =>
    if s.cpu cpu = none ∧ i < NCONT then
      (after (visit i) s.kernel).map fun (r, k) =>
        ⟨k, Function.update s.cpu cpu (r.map fun p => (i, p))⟩
    else none
  | .call cpu c => runs s cpu fun p => step s.kernel (.call p c)
  | .store cpu va b => runs s cpu fun p => step s.kernel (.store p va b)
  | .yield cpu => runs s cpu fun p => (after (yield p) s.kernel).map Prod.snd

end Xv6c

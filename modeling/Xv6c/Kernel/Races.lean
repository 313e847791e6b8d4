import Xv6c.Kernel.Turns

/-! fork, exit and the scheduler as they interleave: the steps are the parts of these
functions between lock operations, and kalloc and copyuvm deliver any result. Parents
are left out, so wait can reap any zombie of the caller's container, and the wakeups of
exit are steps of their own. Creating a container is one step, and the state of a
container can be set at any time. -/
namespace Xv6c.Races
open Lib
open Function (update update_apply update_of_ne)

/- How far a process is in fork. -/
inductive Lane where
  | idle
  /- the container is known -/
  | found (c : Nat)
  /- allocproc has tested its state -/
  | checked (c : Nat)
  /- slot q is EMBRYO -/
  | marked (q : ProcId)
  /- and counted in uproc -/
  | counted (q : ProcId)
  deriving DecidableEq

/- lock is the CPU that holds ptable.lock from a change of state in exit, sleep or yield
on until its scheduler has tested uproc. -/
structure World where
  kernel : Kernel
  lane : ProcId → Lane
  cpu : Nat → Option (Nat × ProcId)
  lock : Option Nat

inductive Label where
  | find (cpu : Nat) (into : Option Int)
  | check (cpu : Nat)
  | mark (cpu : Nat)
  | stack (cpu kstack : Nat)
  | copy (cpu pgdir : Nat)
  | exit (cpu : Nat)
  | sleep (cpu : Nat) (chan : Chan)
  | yield (cpu : Nat)
  | leave (cpu : Nat)
  | visit (cpu i : Nat)
  | wakeup (chan : Chan)
  | wait (cpu j : Nat)
  | create (mproc : Int)
  | change (c : Nat) (state : ContState)

namespace World

def setLane (s : World) (p : ProcId) (l : Lane) : World := { s with lane := update s.lane p l }

def setProc (s : World) (q : ProcId) (f : Proc → Proc) : World :=
  { s with kernel := s.kernel.setProc q (f (s.kernel.procAt q)) }

def setCont (s : World) (i : Nat) (f : Cont → Cont) : World :=
  { s with kernel := { s.kernel with cont := update s.kernel.cont i (f (s.kernel.cont i)) } }

/- nextpid++ and nextcid++. -/
def nextPid (s : World) : World := { s with kernel := { s.kernel with nextpid := incr s.kernel.nextpid } }
def nextCid (s : World) : World := { s with kernel := { s.kernel with nextcid := incr s.kernel.nextcid } }

end World

/- A step of the process that a CPU runs. -/
def acts (s : World) (cpu : Nat) (f : ProcId → Option World) : Option World :=
  match s.cpu cpu with
  | none => none
  | some (_, p) => if Running s.kernel p then f p else none

/- acquireptable. -/
def locked (s : World) (x : Option World) : Option World := if s.lock = none then x else none

/- fork and cfork, up to the container they fork into. -/
def find (s : World) (p : ProcId) (into : Option Int) : Option World :=
  match s.lane p, into with
  | .idle, none => some (s.setLane p (.found (s.kernel.contOf p)))
  | .idle, some cid =>
    match cid2cont s.kernel cid with
    | some c => some (s.setLane p (.found c))
    | none => some s
  | _, _ => none

/- The test of allocproc, before it takes the lock. -/
def check (s : World) (p : ProcId) : Option World :=
  match s.lane p with
  | .found c =>
    if (s.kernel.cont c).state ≠ .crunnable ∧ (s.kernel.cont c).state ≠ .crunning then
      some (s.setLane p .idle)
    else some (s.setLane p (.checked c))
  | _ => none

def mark (s : World) (p : ProcId) : Option World :=
  match s.lane p with
  | .checked c =>
    match findProc s.kernel c (fun q => q.state = .unused) with
    | none => some (s.setLane p .idle)
    | some j => some ((s.setProc ⟨c, j⟩ fun q => { q with
        state := .embryo, pid := s.kernel.nextpid }).nextPid.setLane p (.marked ⟨c, j⟩))
  | _ => none

/- allocproc behind kalloc. -/
def stack (s : World) (p : ProcId) (kstack : Nat) : Option World :=
  match s.lane p with
  | .marked q =>
    if kstack = 0 then
      some ((s.setProc q fun r => { r with kstack := 0, state := .unused }).setLane p .idle)
    else
      some (((s.setProc q fun r => { r with kstack := kstack, ticks := 0, cont := q.cont }).setCont q.cont
        fun c => { c with uproc := c.uproc + 1 }).setLane p (.counted q))
  | _ => none

/- fork behind copyuvm. -/
def copy (s : World) (p : ProcId) (pgdir : Nat) : Option World :=
  match s.lane p with
  | .counted q =>
    if pgdir = 0 then
      some ((s.setProc q fun r => { r with pgdir := 0, kstack := 0, state := .unused }).setLane p .idle)
    else
      locked s (some ((s.setProc q fun r => { r with pgdir := pgdir, state := .runnable }).setLane p .idle))
  | _ => none

/- The scheduler behind swtch. -/
def leave (s : World) (cpu : Nat) : Option World :=
  match s.cpu cpu with
  | none => none
  | some (i, _) =>
    if s.lock = some cpu then
      let s := { s with cpu := update s.cpu cpu none, lock := none }
      if (s.kernel.cont i).uproc = 0 then
        some (s.setCont i fun c => { c with
          name := [], msz := 0, mdsk := 0, mproc := 0, upg := 0, udsk := 0, rootdir := none
          nextproc := 0, cid := 0, state := .cunused })
      else some s
    else none

def visit (s : World) (cpu i : Nat) : Option World :=
  if s.cpu cpu = none ∧ i < NCONT then
    if Scheduled (s.kernel.cont i) then
      match slotAt (slotAddr i (s.kernel.cont i).nextproc) with
      | none => none
      | some p =>
        let t := s.setCont i fun c => { c with
          nextproc := if c.nextproc + 1 = c.mproc then 0 else c.nextproc + 1 }
        if (s.kernel.procAt p).state = .runnable then
          some { t.setProc p fun q => { q with state := .running } with
            cpu := update s.cpu cpu (some (i, p)) }
        else some t
    else some s
  else none

def step (s : World) : Label → Option World
  | .find cpu into => acts s cpu fun p => find s p into
  | .check cpu => acts s cpu (check s)
  | .mark cpu => acts s cpu fun p => locked s (mark s p)
  | .stack cpu kstack => acts s cpu fun p => stack s p kstack
  | .copy cpu pgdir => acts s cpu fun p => copy s p pgdir
  | .exit cpu => acts s cpu fun p => locked s <|
    if s.lane p = .idle ∧ p ≠ s.kernel.initproc then
      some { (s.setCont (s.kernel.contOf p) fun c => { c with uproc := c.uproc - 1 }).setProc p
        fun q => { q with state := .zombie } with lock := some cpu }
    else none
  | .sleep cpu chan => acts s cpu fun p => locked s <|
    if s.lane p = .idle then
      some { s.setProc p fun q => { q with chan := some chan, state := .sleeping } with lock := some cpu }
    else none
  | .yield cpu => acts s cpu fun p => locked s <|
    some { s.setProc p fun q => { q with state := .runnable } with lock := some cpu }
  | .leave cpu => leave s cpu
  | .visit cpu i => locked s (visit s cpu i)
  | .wakeup chan => locked s (some { s with kernel := { s.kernel with proc := woken s.kernel chan } })
  | .wait cpu j => acts s cpu fun p => locked s <|
    let q : ProcId := ⟨s.kernel.contOf p, j⟩
    if s.lane p = .idle ∧ (j : Int) < (s.kernel.cont q.cont).mproc ∧ (s.kernel.procAt q).state = .zombie then
      some (s.setProc q fun r => { r with
        kstack := 0, pid := 0, parent := none, name := [], killed := false, state := .unused })
    else none
  | .create mproc =>
    match findCont (fun i => (s.kernel.cont i).state = .cunused) with
    | some i => if mproc ≤ NPROC then
        some (s.setCont i fun c => { c with
          mproc := mproc, state := .cready, cid := s.kernel.nextcid }).nextCid
      else none
    | none => none
  | .change c state => if state ≠ .cunused then some (s.setCont c fun x => { x with state := state })
    else none

/- p is making a process in slot q. -/
def Held (s : World) (p q : ProcId) : Prop := s.lane p = .marked q ∨ s.lane p = .counted q

/- Slot q is in use and not yet counted. -/
def Uncounted (s : World) (q : ProcId) : Prop := ∃ p, s.lane p = .marked q

def Alive (q : Proc) : Prop := q.state ≠ .unused ∧ q.state ≠ .zombie

instance (q : Proc) : Decidable (Alive q) := inferInstanceAs (Decidable (_ ∧ _))

/- A live process is in a container in use, below its mproc. -/
def Housed (k : Kernel) (q : ProcId) : Prop :=
  q.cont < NCONT ∧ (q.slot : Int) < (k.cont q.cont).mproc ∧ (k.cont q.cont).state ≠ .cunused

/- Slot q holds a process that uproc counts. -/
def Counts (s : World) (q : ProcId) : Prop := Alive (s.kernel.procAt q) ∧ ¬ Uncounted s q

open Classical in
noncomputable def countedIn (s : World) (c : Nat) : Nat :=
  ((Finset.range NPROC).filter fun j => Counts s ⟨c, j⟩).card

section Counted
variable {s t : World} {c : Nat} {q : ProcId}

theorem countedIn_same (same : ∀ j, Counts t ⟨c, j⟩ ↔ Counts s ⟨c, j⟩) :
    countedIn t c = countedIn s c := by
  classical
  exact card_filter_same fun j _ => same j

open Classical in
/- What the slot counted for and counts for now stands on either side. -/
theorem countedIn_change (inside : q.slot < NPROC) (same : ∀ x, x ≠ q → (Counts t x ↔ Counts s x)) :
    countedIn t q.cont + (if Counts s q then 1 else 0) = countedIn s q.cont + (if Counts t q then 1 else 0) :=
  card_filter_change inside fun j other => same ⟨q.cont, j⟩ fun h => other (congrArg ProcId.slot h)

theorem countedIn_pos (inside : q.slot < NPROC) (counts : Counts s q) : 0 < countedIn s q.cont := by
  classical
  exact card_filter_pos inside counts

end Counted

structure Inv (s : World) : Prop where
  embryo : ∀ p q, Held s p q → (s.kernel.procAt q).state = .embryo
  single : ∀ p p' q, Held s p q → Held s p' q → p = p'
  home : ∀ q, Alive (s.kernel.procAt q) → ¬ Uncounted s q → s.kernel.contOf q = q.cont
  housed : ∀ q, Alive (s.kernel.procAt q) → Housed s.kernel q
  capped : ∀ c, (s.kernel.cont c).mproc ≤ NPROC
  empty : ∀ c, (s.kernel.cont c).state = .cunused → (s.kernel.cont c).mproc ≤ 0
  counts : ∀ c, (countedIn s c : Int) ≤ (s.kernel.cont c).uproc
  inside : ∀ p c, s.lane p = .found c ∨ s.lane p = .checked c → c < NCONT

theorem alive_embryo {q : Proc} (embryo : q.state = .embryo) : Alive q := by
  unfold Alive
  rw [embryo]
  decide

variable {q : ProcId} {s : World}

theorem Inv.slot_lt (inv : Inv s) (alive : Alive (s.kernel.procAt q)) : q.slot < NPROC := by
  have below := (inv.housed q alive).2.1
  have capped := inv.capped q.cont
  omega

/- A process that runs is counted. -/
theorem Inv.not_uncounted (inv : Inv s) (other : (s.kernel.procAt q).state ≠ .embryo) : ¬ Uncounted s q := by
  rintro ⟨p, marked⟩
  exact other (inv.embryo p q (Or.inl marked))

section Frame
variable {s t : World}

/- A process goes on, asleep or awake, or its remains are cleared. -/
def Stirs (q r : Proc) : Prop :=
  r.cont = q.cont ∧ (r.state = q.state ∨ (q.state ≠ .embryo ∧ (Alive r ↔ Alive q)))

variable {q r : Proc}

theorem Stirs.alive (stirs : Stirs q r) : Alive r ↔ Alive q := by
  rcases stirs.2 with same | ⟨-, same⟩
  · unfold Alive
    rw [same]
  · exact same

theorem Stirs.refl (q : Proc) : Stirs q q := ⟨rfl, Or.inl rfl⟩

theorem Stirs.between {a b : ProcState} (cont : r.cont = q.cont) (before : q.state = a) (after : r.state = b)
    (goes : a ≠ .embryo ∧ ((b ≠ .unused ∧ b ≠ .zombie) ↔ a ≠ .unused ∧ a ≠ .zombie)) : Stirs q r := by
  subst before after
  exact ⟨cont, Or.inr goes⟩

theorem Stirs.embryo (stirs : Stirs q r) (embryo : q.state = .embryo) : r.state = .embryo := by
  rcases stirs.2 with same | ⟨other, -⟩
  · exact same.trans embryo
  · exact absurd embryo other

/- Steps that make and end no process. -/
theorem Inv.frame (inv : Inv s) (procs : ∀ q, Stirs (s.kernel.procAt q) (t.kernel.procAt q))
    (held : ∀ p q, Held t p q → Held s p q) (marks : ∀ q, Uncounted t q ↔ Uncounted s q)
    (conts : ∀ c, (t.kernel.cont c).mproc = (s.kernel.cont c).mproc ∧
      (t.kernel.cont c).uproc = (s.kernel.cont c).uproc ∧
      ((t.kernel.cont c).state = .cunused → (s.kernel.cont c).state = .cunused))
    (inside : ∀ p c, t.lane p = .found c ∨ t.lane p = .checked c → c < NCONT) : Inv t := by
  refine ⟨?_, ?_, ?_, ?_, ?_, ?_, ?_, inside⟩
  · intro p q h
    exact (procs q).embryo (inv.embryo p q (held p q h))
  · intro p p' q h h'
    exact inv.single p p' q (held p q h) (held p' q h')
  · intro q alive counted
    refine (procs q).1.trans (inv.home q ((procs q).alive.mp alive) ?_)
    rwa [← marks q]
  · intro q alive
    obtain ⟨row, below, used⟩ := inv.housed q ((procs q).alive.mp alive)
    refine ⟨row, ?_, fun unused => used ((conts q.cont).2.2 unused)⟩
    rw [(conts q.cont).1]
    exact below
  · intro c
    rw [(conts c).1]
    exact inv.capped c
  · intro c unused
    rw [(conts c).1]
    exact inv.empty c ((conts c).2.2 unused)
  · intro c
    have same : countedIn t c = countedIn s c := countedIn_same fun j =>
      and_congr (procs ⟨c, j⟩).alive (not_congr (marks ⟨c, j⟩))
    rw [same, (conts c).2.1]
    exact inv.counts c

theorem lane_setLane (s : World) (p x : ProcId) (l : Lane) :
    (s.setLane p l).lane x = if x = p then l else s.lane x := update_apply _ _ _ _

theorem cont_setCont (s : World) (i c : Nat) (f : Cont → Cont) :
    (s.setCont i f).kernel.cont c = if c = i then f (s.kernel.cont i) else s.kernel.cont c :=
  update_apply _ _ _ _

/- Nobody moves on in fork. -/
theorem Inv.quiet (inv : Inv s) (procs : ∀ q, Stirs (s.kernel.procAt q) (t.kernel.procAt q))
    (lanes : t.lane = s.lane) (conts : ∀ c, (t.kernel.cont c).mproc = (s.kernel.cont c).mproc ∧
      (t.kernel.cont c).uproc = (s.kernel.cont c).uproc ∧
      ((t.kernel.cont c).state = .cunused → (s.kernel.cont c).state = .cunused)) : Inv t := by
  refine inv.frame procs (fun p q held => ?_) (fun q => ?_) conts (lanes ▸ inv.inside)
  · rwa [Held, lanes] at held
  · rw [Uncounted, lanes]
    rfl

theorem stirs_setProc {k : Kernel} {p : ProcId} (stirs : Stirs (k.procAt p) r) (x : ProcId) :
    Stirs (k.procAt x) ((k.setProc p r).procAt x) := by
  rw [procAt_setProc]
  split
  · rename_i here
    rw [here]
    exact stirs
  · exact .refl _

/- A process moves on in fork, with no slot in hand. -/
theorem Inv.moves (inv : Inv s) {p : ProcId} {l : Lane} (before : ∀ q, ¬ Held s p q)
    (after : l = .idle ∨ ∃ c, c < NCONT ∧ (l = .found c ∨ l = .checked c)) : Inv (s.setLane p l) := by
  have lane (x q : ProcId) : (s.setLane p l).lane x = .marked q ↔ s.lane x = .marked q := by
    rw [lane_setLane]
    split
    · rename_i here
      subst here
      refine iff_of_false ?_ fun marked => before q (Or.inl marked)
      rcases after with rfl | ⟨c, -, rfl | rfl⟩ <;> exact nofun
    · rfl
  refine inv.frame (fun _ => .refl _) ?_ ?_ (fun _ => ⟨rfl, rfl, id⟩) ?_
  · intro x q held
    unfold Held at held
    rw [lane_setLane] at held
    split at held
    · rcases after with rfl | ⟨c, -, rfl | rfl⟩ <;> rcases held with h | h <;> cases h
    · exact held
  · exact fun q => exists_congr fun x => lane x q
  · intro x c found
    rw [lane_setLane] at found
    split at found
    · rcases after with rfl | ⟨d, inside, rfl | rfl⟩ <;> rcases found with h | h <;> cases h <;> exact inside
    · exact inv.inside x c found

end Frame

section Slots
variable {s t : World} {p q : ProcId} {r : Proc} {l : Lane} {d : Int}

/- One slot and the lane of one process change. The process has this slot in hand or none,
before and after, and no other process has it; uproc changes by what the slot counts for. -/
theorem Inv.slot (inv : Inv s) (procs : ∀ x, t.kernel.procAt x = if x = q then r else s.kernel.procAt x)
    (lanes : ∀ x, t.lane x = if x = p then l else s.lane x)
    (conts : ∀ c, (t.kernel.cont c).mproc = (s.kernel.cont c).mproc ∧
      (t.kernel.cont c).state = (s.kernel.cont c).state ∧
      (t.kernel.cont c).uproc = (s.kernel.cont c).uproc + if c = q.cont then d else 0)
    (inside : q.slot < NPROC) (before : ∀ y, Held s p y → y = q) (alone : ∀ x, x ≠ p → ¬ Held s x q)
    (after : ∀ y, l = .marked y ∨ l = .counted y → y = q ∧ r.state = .embryo)
    (neither : ∀ c, l ≠ .found c ∧ l ≠ .checked c) (housed : Alive r → Housed s.kernel q)
    (home : Alive r → l ≠ .marked q → r.cont = q.cont)
    (gain : Alive r → l ≠ .marked q → Counts s q ∧ 0 ≤ d ∨ 1 ≤ d) (loss : Counts s q ∧ -1 ≤ d ∨ 0 ≤ d) :
    Inv t := by
  have held {x y : ProcId} (h : Held t x y) :
      x = p ∧ (l = .marked y ∨ l = .counted y) ∨ x ≠ p ∧ Held s x y := by
    unfold Held at *
    rw [lanes] at h
    split at h
    · exact Or.inl ⟨‹_›, h⟩
    · exact Or.inr ⟨‹_›, h⟩
  have own : Uncounted t q ↔ l = .marked q := by
    constructor
    · rintro ⟨x, marked⟩
      rw [lanes] at marked
      split at marked
      · exact marked
      · exact absurd (Or.inl marked) (alone x ‹_›)
    · exact fun marked => ⟨p, (lanes p).trans ((if_pos rfl).trans marked)⟩
  have others {y : ProcId} (other : y ≠ q) : t.kernel.procAt y = s.kernel.procAt y ∧
      (Uncounted t y ↔ Uncounted s y) := by
    refine ⟨(procs y).trans (if_neg other), ?_, ?_⟩
    · rintro ⟨x, marked⟩
      rw [lanes] at marked
      split at marked
      · exact absurd (after y (Or.inl marked)).1 other
      · exact ⟨x, marked⟩
    · rintro ⟨x, marked⟩
      refine ⟨x, (lanes x).trans ((if_neg ?_).trans marked)⟩
      rintro rfl
      exact other (before y (Or.inl marked))
  have here : t.kernel.procAt q = r := (procs q).trans (if_pos rfl)
  refine ⟨?_, ?_, ?_, ?_, ?_, ?_, ?_, ?_⟩
  · intro x y h
    rcases held h with ⟨-, now⟩ | ⟨away, h⟩
    · obtain ⟨rfl, embryo⟩ := after y now
      rwa [here]
    · rw [(others _).1]
      · exact inv.embryo x y h
      · rintro rfl
        exact alone x away h
  · intro x x' y h h'
    rcases held h with ⟨first, now⟩ | ⟨away, h⟩ <;> rcases held h' with ⟨second, now'⟩ | ⟨away', h'⟩
    · exact first.trans second.symm
    · exact absurd ((after y now).1 ▸ h') (alone x' away')
    · exact absurd ((after y now').1 ▸ h) (alone x away)
    · exact inv.single x x' y h h'
  · intro y alive counted
    unfold Kernel.contOf
    by_cases slot : y = q
    · subst slot
      rw [here] at alive ⊢
      exact home alive (own.not.mp counted)
    · rw [(others slot).1] at alive ⊢
      exact inv.home y alive ((others slot).2.not.mp counted)
  · intro y alive
    unfold Housed
    rw [(conts y.cont).1, (conts y.cont).2.1]
    by_cases slot : y = q
    · subst slot
      exact housed (here ▸ alive)
    · exact inv.housed y ((others slot).1 ▸ alive)
  · intro c
    rw [(conts c).1]
    exact inv.capped c
  · intro c
    rw [(conts c).1, (conts c).2.1]
    exact inv.empty c
  · intro c
    have same (y : ProcId) (other : y ≠ q) : Counts t y ↔ Counts s y := by
      unfold Counts
      rw [(others other).1, (others other).2]
    have counts := inv.counts c
    rw [(conts c).2.2]
    split
    · rename_i row
      subst row
      have change := countedIn_change inside same
      by_cases now : Counts t q
      · rw [if_pos now] at change
        rcases gain (here ▸ now.1) (own.not.mp now.2) with ⟨was, low⟩ | more
        · rw [if_pos was] at change
          omega
        · omega
      · rw [if_neg now] at change
        rcases loss with ⟨was, low⟩ | low
        · rw [if_pos was] at change
          omega
        · omega
    · rename_i away
      rw [countedIn_same fun j => same ⟨c, j⟩ fun h => away (congrArg ProcId.cont h), add_zero]
      exact counts
  · intro x c found
    rw [lanes] at found
    split at found
    · rcases found with h | h
      · exact absurd h (neither c).1
      · exact absurd h (neither c).2
    · exact inv.inside x c found

/- A process lets go of its slot: the slot is given back when kalloc or copyuvm failed, or
its process is ready. -/
theorem Inv.releases (inv : Inv s) (procs : ∀ x, t.kernel.procAt x = if x = q then r else s.kernel.procAt x)
    (lanes : ∀ x, t.lane x = if x = p then .idle else s.lane x) (conts : t.kernel.cont = s.kernel.cont)
    (held : Held s p q) (ready : Alive r → s.lane p = .counted q ∧ r.cont = s.kernel.contOf q) : Inv t := by
  have live := alive_embryo (inv.embryo p q held)
  have counted (alive : Alive r) : Counts s q := by
    refine ⟨live, fun ⟨x, marked⟩ => ?_⟩
    cases inv.single x p q (Or.inl marked) held
    cases (ready alive).1.symm.trans marked
  refine inv.slot (d := 0) procs lanes (fun c => ?_) (inv.slot_lt live) ?_ ?_ ?_ (fun _ => ⟨nofun, nofun⟩)
    (fun _ => inv.housed q live) ?_ (fun alive _ => Or.inl ⟨counted alive, le_rfl⟩) (Or.inr le_rfl)
  · rw [conts, ite_self, add_zero]
    exact ⟨rfl, rfl, rfl⟩
  · rintro y (h | h) <;> rcases held with g | g <;> cases h.symm.trans g <;> rfl
  · exact fun x other held' => other (inv.single x p q held' held)
  · rintro y (h | h) <;> cases h
  · intro alive _
    exact (ready alive).2.trans (inv.home q live (counted alive).2)

end Slots

section Containers
variable {s t : World}

/- A container without live processes is given up or made anew. -/
theorem Inv.refits (inv : Inv s) {i : Nat} (vacant : ∀ q, Alive (s.kernel.procAt q) → q.cont ≠ i)
    (procs : t.kernel.proc = s.kernel.proc) (lanes : t.lane = s.lane)
    (conts : ∀ c, c ≠ i → charter (t.kernel.cont c) = charter (s.kernel.cont c))
    (capped : (t.kernel.cont i).mproc ≤ NPROC)
    (empty : (t.kernel.cont i).state = .cunused → (t.kernel.cont i).mproc ≤ 0)
    (uproc : (t.kernel.cont i).uproc = (s.kernel.cont i).uproc) : Inv t := by
  have mproc (c : Nat) (other : c ≠ i) : (t.kernel.cont c).mproc = (s.kernel.cont c).mproc :=
    congrArg Census.Charter.mproc (conts c other)
  have state (c : Nat) (other : c ≠ i) : (t.kernel.cont c).state = (s.kernel.cont c).state :=
    congrArg Census.Charter.state (conts c other)
  have uprocs (c : Nat) (other : c ≠ i) : (t.kernel.cont c).uproc = (s.kernel.cont c).uproc :=
    congrArg Census.Charter.uproc (conts c other)
  have marks (x : ProcId) : Uncounted t x ↔ Uncounted s x := by
    unfold Uncounted
    rw [lanes]
  have same (x : ProcId) : t.kernel.procAt x = s.kernel.procAt x := by
    unfold Kernel.procAt
    rw [procs]
  have held {x y : ProcId} (after : Held t x y) : Held s x y := by
    unfold Held at after ⊢
    rwa [lanes] at after
  refine ⟨?_, ?_, ?_, ?_, ?_, ?_, ?_, ?_⟩
  · intro x y after
    rw [same]
    exact inv.embryo x y (held after)
  · intro x x' y after after'
    exact inv.single x x' y (held after) (held after')
  · intro x alive settled
    unfold Kernel.contOf
    rw [same] at alive ⊢
    exact inv.home x alive ((marks x).not.mp settled)
  · intro x alive
    rw [same] at alive
    unfold Housed
    rw [mproc _ (vacant x alive), state _ (vacant x alive)]
    exact inv.housed x alive
  · intro c
    by_cases here : c = i
    · exact here ▸ capped
    · rw [mproc c here]
      exact inv.capped c
  · intro c
    by_cases here : c = i
    · exact here ▸ empty
    · rw [mproc c here, state c here]
      exact inv.empty c
  · intro c
    have counts := inv.counts c
    rw [countedIn_same (s := s) fun j => by
      unfold Counts
      rw [same, marks]]
    by_cases here : c = i
    · subst here
      rw [uproc]
      exact counts
    · rw [uprocs c here]
      exact counts
  · intro x c found
    rw [lanes] at found
    exact inv.inside x c found

/- A container whose counter is at zero, and in which no slot waits to be counted. -/
theorem Inv.vacant (inv : Inv s) {i : Nat} (zero : (s.kernel.cont i).uproc = 0)
    (clear : ∀ j, ¬ Uncounted s ⟨i, j⟩) (q : ProcId) (alive : Alive (s.kernel.procAt q)) : q.cont ≠ i := by
  rintro rfl
  have positive := countedIn_pos (inv.slot_lt alive) ⟨alive, clear q.slot⟩
  have counts := inv.counts q.cont
  omega

end Containers

/- When the scheduler finds uproc at zero, no slot of the container waits to be counted. -/
def Clear (s : World) : Label → Prop
  | .leave cpu => ∀ i p, s.cpu cpu = some (i, p) → (s.kernel.cont i).uproc = 0 →
      ∀ j, ¬ Uncounted s ⟨i, j⟩
  | _ => True

section Step
variable {s t : World} {cpu : Nat}

theorem acts_some {f : ProcId → Option World} (taken : acts s cpu f = some t) :
    ∃ i p, s.cpu cpu = some (i, p) ∧ Running s.kernel p ∧ f p = some t := by
  unfold acts at taken
  split at taken
  · cases taken
  · rename_i i p current
    exact ⟨i, p, current, Option.ite_none_right_eq_some.mp taken⟩

theorem locked_some {x : Option World} (taken : locked s x = some t) : s.lock = none ∧ x = some t :=
  Option.ite_none_right_eq_some.mp taken

variable {p : ProcId}

theorem Inv.runs_home (inv : Inv s) (running : Running s.kernel p) : s.kernel.contOf p = p.cont := by
  refine inv.home p ?_ (inv.not_uncounted ?_)
  · unfold Alive
    rw [running.2.2]
    decide
  · rw [running.2.2]
    decide

/- The visit of the scheduler moves nextproc on. -/
def advance (c : Cont) : Cont :=
  { c with nextproc := if c.nextproc + 1 = c.mproc then 0 else c.nextproc + 1 }

/- What a step can do. -/
inductive Outcome (s : World) : Label → World → Prop where
  | stays {l : Label} : Outcome s l s
  | lane {l : Label} {p : ProcId} {lane : Lane} : (∀ q, ¬ Held s p q) →
      (lane = .idle ∨ ∃ c, (Running s.kernel p ∧ s.kernel.contOf p = c ∨ c < NCONT ∨ s.lane p = .found c) ∧
        (lane = .found c ∨ lane = .checked c)) → Outcome s l (s.setLane p lane)
  | marks {l : Label} {p q : ProcId} {f : Proc → Proc} : s.lane p = .checked q.cont →
      (q.slot : Int) < (s.kernel.cont q.cont).mproc → (s.kernel.procAt q).state = .unused →
      (f (s.kernel.procAt q)).state = .embryo → Outcome s l ((s.setProc q f).nextPid.setLane p (.marked q))
  | releases {l : Label} {p q : ProcId} {f : Proc → Proc} : Held s p q →
      (Alive (f (s.kernel.procAt q)) → s.lane p = .counted q ∧
        (f (s.kernel.procAt q)).cont = s.kernel.contOf q) → Outcome s l ((s.setProc q f).setLane p .idle)
  | counts {l : Label} {p q : ProcId} {f : Proc → Proc} : s.lane p = .marked q →
      (f (s.kernel.procAt q)).state = (s.kernel.procAt q).state → (f (s.kernel.procAt q)).cont = q.cont →
      Outcome s l (((s.setProc q f).setCont q.cont fun c => { c with uproc := c.uproc + 1 }).setLane p (.counted q))
  | exits {l : Label} {cpu i : Nat} {p : ProcId} : s.cpu cpu = some (i, p) → Running s.kernel p →
      s.lock = none → s.lane p = .idle →
      Outcome s l { (s.setCont (s.kernel.contOf p) fun c => { c with uproc := c.uproc - 1 }).setProc p
        fun q => { q with state := .zombie } with lock := some cpu }
  | rests {l : Label} {cpu i : Nat} {p : ProcId} {f : Proc → Proc} : s.cpu cpu = some (i, p) →
      s.lock = none → Stirs (s.kernel.procAt p) (f (s.kernel.procAt p)) →
      Outcome s l { s.setProc p f with lock := some cpu }
  | reaps {l : Label} {q : ProcId} {f : Proc → Proc} : (s.kernel.procAt q).state = .zombie →
      Stirs (s.kernel.procAt q) (f (s.kernel.procAt q)) → Outcome s l (s.setProc q f)
  | wakes {l : Label} {chan : Chan} : Outcome s l { s with kernel := { s.kernel with proc := woken s.kernel chan } }
  | leaves {cpu i : Nat} {p : ProcId} : s.cpu cpu = some (i, p) → s.lock = some cpu →
      Outcome s (.leave cpu) { s with cpu := update s.cpu cpu none, lock := none }
  | ends {cpu i : Nat} {p : ProcId} {f : Cont → Cont} : s.cpu cpu = some (i, p) → s.lock = some cpu →
      (s.kernel.cont i).uproc = 0 → charter (f (s.kernel.cont i)) = ⟨.cunused, 0, 0, (s.kernel.cont i).uproc⟩ →
      (f (s.kernel.cont i)).rootdir = none →
      Outcome s (.leave cpu) (World.setCont { s with cpu := update s.cpu cpu none, lock := none } i f)
  | passes {cpu i : Nat} : s.lock = none → s.cpu cpu = none → i < NCONT → Scheduled (s.kernel.cont i) →
      Outcome s (.visit cpu i) (s.setCont i advance)
  | picks {cpu i : Nat} {p : ProcId} : s.lock = none → s.cpu cpu = none → i < NCONT →
      Scheduled (s.kernel.cont i) → slotAt (slotAddr i (s.kernel.cont i).nextproc) = some p →
      (s.kernel.procAt p).state = .runnable →
      Outcome s (.visit cpu i) { (s.setCont i advance).setProc p fun q => { q with state := .running } with
        cpu := update s.cpu cpu (some (i, p)) }
  | creates {mproc : Int} {i : Nat} {f : Cont → Cont} : (s.kernel.cont i).state = .cunused →
      (f (s.kernel.cont i)).mproc ≤ NPROC → (f (s.kernel.cont i)).state ≠ .cunused →
      (f (s.kernel.cont i)).uproc = (s.kernel.cont i).uproc →
      (f (s.kernel.cont i)).rootdir = (s.kernel.cont i).rootdir → Outcome s (.create mproc) (s.setCont i f).nextCid
  | changes {c : Nat} {state : ContState} : state ≠ .cunused →
      Outcome s (.change c state) (s.setCont c fun x => { x with state := state })

theorem step_outcome {l : Label} (taken : step s l = some t) : Outcome s l t := by
  cases l with
  | find cpu into =>
    obtain ⟨-, p, -, running, done⟩ := acts_some taken
    have none (idle : s.lane p = .idle) (q : ProcId) : ¬ Held s p q := by
      rintro (h | h) <;> cases idle.symm.trans h
    unfold find at done
    split at done
    · rename_i idle
      cases done
      exact .lane (none idle) (Or.inr ⟨_, Or.inl ⟨running, rfl⟩, Or.inl rfl⟩)
    · rename_i idle
      split at done
      · rename_i found
        cases done
        exact .lane (none idle) (Or.inr ⟨_, Or.inr (Or.inl (findCont_some found).1), Or.inl rfl⟩)
      · cases done
        exact .stays
    · cases done
  | check cpu =>
    obtain ⟨-, p, -, -, done⟩ := acts_some taken
    unfold check at done
    split at done
    · rename_i c found
      have none (q : ProcId) : ¬ Held s p q := by
        rintro (h | h) <;> cases found.symm.trans h
      split at done
      · cases done
        exact .lane none (Or.inl rfl)
      · cases done
        exact .lane none (Or.inr ⟨c, Or.inr (Or.inr found), Or.inr rfl⟩)
    · cases done
  | mark cpu =>
    obtain ⟨-, p, -, -, done⟩ := acts_some taken
    have done := (locked_some done).2
    unfold mark at done
    split at done
    · rename_i c checked
      split at done
      · cases done
        refine .lane ?_ (Or.inl rfl)
        rintro q (h | h) <;> cases checked.symm.trans h
      · rename_i j found
        cases done
        obtain ⟨below, unused⟩ := findProc_some found
        exact .marks (q := ⟨c, j⟩) checked below (of_decide_eq_true unused) rfl
    · cases done
  | stack cpu kstack =>
    obtain ⟨-, p, -, -, done⟩ := acts_some taken
    unfold stack at done
    split at done
    · rename_i q marked
      split at done
      · cases done
        exact .releases (Or.inl marked) fun alive => absurd rfl alive.1
      · cases done
        exact .counts marked rfl rfl
    · cases done
  | copy cpu pgdir =>
    obtain ⟨-, p, -, -, done⟩ := acts_some taken
    unfold copy at done
    split at done
    · rename_i q counted
      split at done
      · cases done
        exact .releases (Or.inr counted) fun alive => absurd rfl alive.1
      · cases (locked_some done).2
        exact .releases (Or.inr counted) fun _ => ⟨counted, rfl⟩
    · cases done
  | exit cpu =>
    obtain ⟨i, p, current, running, done⟩ := acts_some taken
    obtain ⟨unlocked, done⟩ := locked_some done
    obtain ⟨idle, rfl⟩ := guarded done
    exact .exits current running unlocked idle.1
  | sleep cpu chan =>
    obtain ⟨i, p, current, running, done⟩ := acts_some taken
    obtain ⟨unlocked, done⟩ := locked_some done
    obtain ⟨-, rfl⟩ := guarded done
    exact .rests current unlocked (.between (b := .sleeping) rfl running.2.2 rfl (by decide))
  | yield cpu =>
    obtain ⟨i, p, current, running, done⟩ := acts_some taken
    obtain ⟨unlocked, done⟩ := locked_some done
    cases done
    exact .rests current unlocked (.between (b := .runnable) rfl running.2.2 rfl (by decide))
  | leave cpu =>
    dsimp only [step, leave] at taken
    split at taken
    · cases taken
    · rename_i i p current
      obtain ⟨held, taken⟩ := Option.ite_none_right_eq_some.mp taken
      split at taken
      · rename_i zero
        cases taken
        exact .ends current held zero rfl rfl
      · cases taken
        exact .leaves current held
  | visit cpu i =>
    obtain ⟨unlocked, done⟩ := locked_some taken
    obtain ⟨free, done⟩ := Option.ite_none_right_eq_some.mp done
    split at done
    · rename_i scheduled
      split at done
      · cases done
      · rename_i p found
        dsimp only at done
        split at done
        · rename_i runnable
          cases done
          exact .picks unlocked free.1 free.2 scheduled found runnable
        · cases done
          exact .passes unlocked free.1 free.2 scheduled
    · cases done
      exact .stays
  | wakeup chan =>
    cases (locked_some taken).2
    exact .wakes
  | wait cpu j =>
    obtain ⟨-, p, -, -, done⟩ := acts_some taken
    obtain ⟨found, rfl⟩ := guarded (locked_some done).2
    exact .reaps found.2.2 (.between (b := .unused) rfl found.2.2 rfl (by decide))
  | create mproc =>
    dsimp only [step] at taken
    split at taken
    · rename_i i found
      obtain ⟨small, rfl⟩ := guarded taken
      exact .creates (of_decide_eq_true (findCont_some found).2) small (by simp) rfl rfl
    · cases taken
  | change c state =>
    obtain ⟨used, rfl⟩ := guarded taken
    exact .changes used

theorem recounted {i : Nat} {d : Int} {f : Cont → Cont}
    (kept : ∀ x, (f x).mproc = x.mproc ∧ (f x).state = x.state ∧ (f x).uproc = x.uproc + d) (c : Nat) :
    ((s.setCont i f).kernel.cont c).mproc = (s.kernel.cont c).mproc ∧
    ((s.setCont i f).kernel.cont c).state = (s.kernel.cont c).state ∧
    ((s.setCont i f).kernel.cont c).uproc = (s.kernel.cont c).uproc + if c = i then d else 0 := by
  rw [cont_setCont]
  split
  · rename_i here
    rw [here]
    exact kept _
  · exact ⟨rfl, rfl, (add_zero _).symm⟩

theorem step_inv {l : Label} (inv : Inv s) (clear : Clear s l) (taken : step s l = some t) : Inv t := by
  have moved (i c : Nat) := (recounted (s := s) (i := i) (f := advance) (fun _ => ⟨rfl, rfl, (add_zero _).symm⟩) c).imp_right
    fun ⟨state, uproc⟩ => (⟨uproc.trans (by rw [ite_self, add_zero]), state.symm.trans⟩ : _ ∧ (_ = ContState.cunused → _))
  cases step_outcome taken with
  | stays => exact inv
  | @lane _ p _ none after =>
    refine inv.moves none (after.imp_right fun ⟨c, known, goes⟩ => ⟨c, ?_, goes⟩)
    rcases known with ⟨running, rfl⟩ | inside | found
    · rw [inv.runs_home running]
      exact running.1
    · exact inside
    · exact inv.inside p c (Or.inl found)
  | @marks _ p q f checked below unused embryo =>
    have free (x : ProcId) : ¬ Held s x q := fun held => nomatch unused.symm.trans (inv.embryo x q held)
    have capped := inv.capped q.cont
    refine inv.slot (d := 0) (procAt_setProc s.kernel q · _) (lane_setLane _ p · _)
      (fun c => ⟨rfl, rfl, by rw [ite_self, add_zero]; rfl⟩) (by omega) ?_ (fun x _ => free x) ?_
      (fun _ => ⟨nofun, nofun⟩) (fun _ => ⟨inv.inside p _ (Or.inr checked), below, fun never => ?_⟩)
      (fun _ h => absurd rfl h) (fun _ h => absurd rfl h) (Or.inr le_rfl)
    · rintro y (h | h) <;> cases checked.symm.trans h
    · rintro y (h | h) <;> cases h
      exact ⟨rfl, embryo⟩
    · have := inv.empty q.cont never
      omega
  | @releases _ p q f held ready =>
    exact inv.releases (procAt_setProc s.kernel q · _) (lane_setLane _ p · _) rfl held ready
  | @counts _ p q f marked state cont =>
    have embryo := inv.embryo p q (Or.inl marked)
    have live := alive_embryo embryo
    refine inv.slot (d := 1) (procAt_setProc s.kernel q · _) (lane_setLane _ p · _)
      (recounted (s := s) (f := fun c => { c with uproc := c.uproc + 1 }) fun _ => ⟨rfl, rfl, rfl⟩)
      (inv.slot_lt live) ?_ ?_ ?_ (fun _ => ⟨nofun, nofun⟩) (fun _ => inv.housed q live) (fun _ _ => cont)
      (fun _ _ => Or.inr le_rfl) (Or.inr (by decide))
    · rintro y (h | h) <;> cases marked.symm.trans h
      rfl
    · exact fun x other held => other (inv.single x p q held (Or.inl marked))
    · rintro y (h | h) <;> cases h
      exact ⟨rfl, state.trans embryo⟩
  | @exits _ cpu i p _ running _ idle =>
    have state := running.2.2
    have live : Alive (s.kernel.procAt p) := by
      unfold Alive
      rw [state]
      decide
    have counted : Counts s p := ⟨live, inv.not_uncounted (by rw [state]; decide)⟩
    refine inv.slot (d := -1) (p := p) (l := .idle) (procAt_setProc _ p · _) (fun x => ?_) (fun c => ?_)
      (inv.slot_lt live) ?_ ?_ nofun (fun _ => ⟨nofun, nofun⟩) (fun alive => absurd rfl alive.2)
      (fun alive => absurd rfl alive.2) (fun alive => absurd rfl alive.2) (Or.inl ⟨counted, le_rfl⟩)
    · split
      · rename_i here
        rw [here]
        exact idle
      · rfl
    · rw [← inv.runs_home running]
      exact recounted (s := s) (f := fun c => { c with uproc := c.uproc - 1 }) (fun _ => ⟨rfl, rfl, rfl⟩) c
    · rintro y (h | h) <;> cases idle.symm.trans h
    · exact fun x _ held => nomatch state.symm.trans (inv.embryo x p held)
  | rests _ _ stirs => exact inv.quiet (stirs_setProc stirs) rfl fun _ => ⟨rfl, rfl, id⟩
  | reaps _ stirs => exact inv.quiet (stirs_setProc stirs) rfl fun _ => ⟨rfl, rfl, id⟩
  | @wakes _ chan =>
    refine inv.quiet (fun q => ?_) rfl fun _ => ⟨rfl, rfl, id⟩
    change Stirs (s.kernel.proc q.cont q.slot) (woken s.kernel chan q.cont q.slot)
    unfold woken
    dsimp only
    split
    · rename_i asleep
      exact .between (b := .runnable) rfl asleep.2.2.1 rfl (by decide)
    · exact .refl _
  | leaves => exact inv.quiet (fun _ => .refl _) rfl fun _ => ⟨rfl, rfl, id⟩
  | @ends cpu i p f current _ zero gone _ =>
    have state : (f (s.kernel.cont i)).state = .cunused := congrArg Census.Charter.state gone
    have mproc : (f (s.kernel.cont i)).mproc = 0 := congrArg Census.Charter.mproc gone
    refine inv.refits (i := i) (inv.vacant zero (clear i p current zero)) rfl rfl ?_ ?_ ?_ ?_
    · exact fun c other => congrArg charter (update_of_ne other _ _)
    all_goals rw [cont_setCont, if_pos rfl]
    · exact mproc.trans_le (Int.natCast_nonneg NPROC)
    · exact fun _ => mproc.le
    · exact congrArg Census.Charter.uproc gone
  | @passes cpu i => exact inv.quiet (fun _ => .refl _) rfl (moved i)
  | @picks cpu i p _ _ _ _ _ runnable =>
    refine inv.quiet (stirs_setProc ?_) rfl (moved i)
    exact .between (b := .running) rfl runnable rfl (by decide)
  | @creates mproc i f unused small used uproc _ =>
    have vacant (q : ProcId) (alive : Alive (s.kernel.procAt q)) : q.cont ≠ i := by
      rintro rfl
      exact (inv.housed q alive).2.2 unused
    refine inv.refits (i := i) vacant rfl rfl ?_ ?_ ?_ ?_
    · exact fun c other => congrArg charter (update_of_ne other _ _)
    all_goals simp only [World.nextCid, cont_setCont, if_pos]
    · exact small
    · exact fun never => absurd never used
    · exact uproc
  | changes used =>
    refine inv.quiet (fun _ => .refl _) rfl fun d => ?_
    rw [cont_setCont]
    split
    · rename_i here
      rw [here]
      exact ⟨rfl, rfl, fun never => absurd never used⟩
    · exact ⟨rfl, rfl, id⟩

end Step

/- The machine when userinit has made the first process: no CPU has run anything. -/
structure Booted (s : World) : Prop where
  census : census s.kernel = Census.boot
  lanes : ∀ p, s.lane p = .idle
  cpus : ∀ cpu, s.cpu cpu = none
  unlocked : s.lock = none

theorem Booted.alive (booted : Booted s) (alive : Alive (s.kernel.procAt q)) :
    q = ⟨0, 0⟩ ∧ s.kernel.contOf q = 0 := by
  have live : (Xv6c.census s.kernel).role q = .live (s.kernel.contOf q) (s.kernel.procAt q).parent :=
    role_eq_live.mpr ⟨alive, rfl, rfl⟩
  rw [booted.census] at live
  obtain ⟨here, home, -⟩ := Census.boot_live live
  exact ⟨here, home⟩

theorem Booted.inv (booted : Booted s) : Inv s := by
  have idle (p : ProcId) {l : Lane} (at_l : s.lane p = l) : l = .idle := at_l.symm.trans (booted.lanes p)
  have held (p q : ProcId) : ¬ Held s p q := by
    rintro (h | h) <;> cases idle p h
  have record (c : Nat) : charter (s.kernel.cont c) = Census.boot.cont c :=
    congrArg (fun a : Census.State => a.cont c) booted.census
  have root : charter (s.kernel.cont 0) = ⟨.crunnable, NPROC, 0, 1⟩ := record 0
  have other {c : Nat} (away : c ≠ 0) : charter (s.kernel.cont c) = ⟨.cunused, 0, 0, 0⟩ :=
    (record c).trans (if_neg away)
  refine ⟨fun p q h => absurd h (held p q), fun p p' q h => absurd h (held p q), ?_, ?_, ?_, ?_, ?_, ?_⟩
  · intro q alive _
    obtain ⟨rfl, home⟩ := booted.alive alive
    exact home
  · intro q alive
    obtain ⟨rfl, -⟩ := booted.alive alive
    refine ⟨by decide, ?_, ?_⟩
    · change (0 : Int) < (charter (s.kernel.cont 0)).mproc
      rw [root]
      decide
    · change (charter (s.kernel.cont 0)).state ≠ _
      rw [root]
      exact nofun
  · intro c
    change (charter (s.kernel.cont c)).mproc ≤ _
    by_cases here : c = 0
    · rw [here, root]
    · rw [other here]
      decide
  · intro c unused
    change (charter (s.kernel.cont c)).mproc ≤ _
    by_cases here : c = 0
    · subst here
      cases (congrArg Census.Charter.state root).symm.trans unused
    · rw [other here]
  · intro c
    have fewer : countedIn s c ≤ Census.lives Census.boot c := by
      classical
      refine card_filter_mono fun j counts => ?_
      obtain ⟨here, -⟩ := booted.alive counts.1
      cases here
      rfl
    rw [Census.boot_lives] at fewer
    change (countedIn s c : Int) ≤ (charter (s.kernel.cont c)).uproc
    by_cases here : c = 0
    · rw [here, root]
      rw [here] at fewer
      exact Int.ofNat_le.mpr fewer
    · rw [other here]
      rw [if_neg here] at fewer
      exact Int.ofNat_le.mpr fewer
  · rintro p c (h | h) <;> cases idle p h

section Runs
variable {s t u : World}

/- Every process is in a container in use, at a slot that its loops reach. -/
def AllHoused (k : Kernel) : Prop := ∀ q, Alive (k.procAt q) → Housed k q

theorem clear_of_housed {l : Label} (inv : Inv t) (taken : step t l = some u) (housed : AllHoused u.kernel) :
    Clear t l := by
  cases l with
  | leave cpu =>
    intro i p current zero j uncounted
    obtain ⟨x, marked⟩ := uncounted
    have alive := alive_embryo (inv.embryo x ⟨i, j⟩ (Or.inl marked))
    dsimp only [step, leave] at taken
    rw [current] at taken
    obtain ⟨-, taken⟩ := Option.ite_none_right_eq_some.mp taken
    cases (if_pos zero).symm.trans taken
    refine (housed ⟨i, j⟩ alive).2.2 ?_
    rw [cont_setCont, if_pos rfl]
  | _ => trivial

/-- In every run in which the scheduler never finds uproc at zero while a slot of the
container waits to be counted, every live process is in a container in use and below its
mproc, so that wakeup1 reaches it; and the next step keeps this exactly if it is not such
a test. -/
theorem live_in_live_container {ls : List Label} (booted : Booted s) (clear : Along step Clear s ls)
    (reached : Lib.exec step s ls = some t) :
    AllHoused t.kernel ∧
    (∀ chan q, (t.kernel.procAt q).state = .sleeping → (t.kernel.procAt q).chan = some chan →
      (woken t.kernel chan q.cont q.slot).state = .runnable) ∧
    ∀ l u, step t l = some u → (AllHoused u.kernel ↔ Clear t l) := by
  have inv : Inv t := run_invariant (fun _ _ _ inv clear taken => step_inv inv clear taken) booted.inv clear
    reached
  refine ⟨inv.housed, ?_, ?_⟩
  · intro chan q asleep on
    have alive : Alive (t.kernel.procAt q) := by
      unfold Alive
      rw [asleep]
      decide
    obtain ⟨row, below, -⟩ := inv.housed q alive
    unfold woken
    dsimp only
    rw [if_pos ⟨row, below, asleep, on⟩]
  · intro l u taken
    exact ⟨clear_of_housed inv taken, fun clear => (step_inv inv clear taken).housed⟩

end Runs

def bootWorld : World := ⟨bootKernel, fun _ => .idle, fun _ => none, none⟩

theorem bootWorld_booted : Booted bootWorld :=
  ⟨(booted_of rfl rfl rfl).census, fun _ => rfl, fun _ => rfl, rfl⟩

/- The first process starts a container and forks a process into it, which runs on a
second CPU. -/
def twoRun : List Label :=
  [.create 2, .change 1 .crunnable, .visit 0 0, .find 0 (some 2), .check 0, .mark 0, .stack 0 1, .copy 0 1,
    .visit 1 1]

theorem live_in_live_container_two :
    ∃ t, Lib.exec step bootWorld (twoRun ++ [.sleep 1 (.proc ⟨1, 0⟩)]) = some t ∧
      (t.kernel.procAt ⟨1, 0⟩).state = .sleeping ∧ AllHoused t.kernel := by
  obtain ⟨t, reached, asleep⟩ : ∃ t, Lib.exec step bootWorld (twoRun ++ [.sleep 1 (.proc ⟨1, 0⟩)]) = some t ∧
      (t.kernel.procAt ⟨1, 0⟩).state = .sleeping := by decide +kernel
  refine ⟨t, reached, asleep, (live_in_live_container bootWorld_booted ?_ reached).1⟩
  refine along_of_forall (fun l member s => ?_) _
  have stays : (twoRun ++ [Label.sleep 1 (.proc ⟨1, 0⟩)]).all fun
    | .leave _ => false
    | _ => true := rfl
  have stay := List.all_eq_true.mp stays l member
  cases l with
  | leave cpu => cases stay
  | _ => trivial

/- While the first process makes a second one, the one that runs exits: the new slot is
not yet counted, and the container is given up under it. -/
theorem exit_between_mark_and_count :
    Booted bootWorld ∧
    ∃ t, Lib.exec step bootWorld (twoRun ++ [.find 0 (some 2), .check 0, .mark 0, .exit 1, .leave 1,
        .stack 0 1, .copy 0 1]) = some t ∧
      (t.kernel.procAt ⟨1, 1⟩).state = .runnable ∧ (t.kernel.cont 1).state = .cunused ∧
      (t.kernel.cont 1).mproc = 0 := by
  refine ⟨bootWorld_booted, ?_⟩
  decide +kernel

end Xv6c.Races

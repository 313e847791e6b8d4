import Mathlib.Tactic.Ring
import Xv6c.Kernel.State
import Xv6c.Lib.Count

/-! Who is alive, and in which container: the process tree and the life cycle of the
containers, apart from all that the processes do. The moves are those of container.c
and proc.c; what holds in every reachable census is shown for each move by itself. -/
namespace Xv6c.Census
open Lib

/- A slot of the process table: p->cont and p->parent are kept while it is in use. -/
inductive Role where
  | unused
  | live (cont : Nat) (parent : Option ProcId)
  | zombie (cont : Nat) (parent : Option ProcId)
  deriving DecidableEq, Repr

def Role.alive : Role → Bool
  | .live _ _ => true
  | _ => false

/- What the scheduler and allocproc read of a container. -/
structure Charter where
  state : ContState
  mproc : Int
  nextproc : Int
  uproc : Int
  deriving DecidableEq, Repr

structure State where
  role : ProcId → Role
  cont : Nat → Charter
  init : ProcId

def State.setRole (a : State) (q : ProcId) (r : Role) : State :=
  { a with role := Function.update a.role q r }

def State.setCont (a : State) (c : Nat) (f : Charter → Charter) : State :=
  { a with cont := Function.update a.cont c (f (a.cont c)) }

/- The scheduler's step of nextproc: it wraps only on equality. -/
def advance (c : Charter) : Charter :=
  { c with nextproc := if c.nextproc + 1 = c.mproc then 0 else c.nextproc + 1 }

/- A child of p becomes a child of init. -/
def adopt (p init : ProcId) : Role → Role
  | .live d (some r) => .live d (some (if r = p then init else r))
  | .zombie d (some r) => .zombie d (some (if r = p then init else r))
  | other => other

/- The loop of exit that passes the children of p to init. -/
def orphan (a : State) (p : ProcId) (c : Nat) : ProcId → Role := fun q =>
  if q.cont = c ∧ (q.slot : Int) < (a.cont c).mproc then adopt p a.init (a.role q) else a.role q

def bury : Role → Role
  | .live d r => .zombie d r
  | other => other

inductive Act where
  | kill (c : Nat)
  | spawn (q parent : ProcId)
  | leak (c : Nat)
  | exit (p : ProcId)
  | reap (q : ProcId)
  | create (c : Nat) (mproc : Int)
  | start (c : Nat)
  | change (c : Nat) (target : ContState)
  | visit (c : Nat)
  | cexit (c : Nat)
  deriving DecidableEq

/- A container in which allocproc finds slots. -/
def Open (c : Charter) : Prop := c.state = .crunnable ∨ c.state = .crunning

inductive Move (a : State) : Act → State → Prop where
  /- ckill of the container of a process -/
  | kill {q : ProcId} {c : Nat} {parent : Option ProcId} : a.role q = .live c parent →
      Move a (.kill c) (a.setCont c fun x => { x with state := .cstopping })
  /- fork or cfork: the parent is a process of the same container, or init -/
  | spawn {q parent : ProcId} : q.cont < NCONT → Open (a.cont q.cont) → a.role q = .unused →
      (q.slot : Int) < (a.cont q.cont).mproc →
      (parent = a.init ∨ ∃ r, a.role parent = .live q.cont r) →
      Move a (.spawn q parent) ((a.setRole q (.live q.cont (some parent))).setCont q.cont
        fun x => { x with uproc := x.uproc + 1 })
  /- fork that fails in copyuvm -/
  | leak {c : Nat} : Open (a.cont c) →
      Move a (.leak c) (a.setCont c fun x => { x with uproc := x.uproc + 1 })
  | exit {p : ProcId} {c : Nat} {parent : Option ProcId} : p ≠ a.init →
      a.role p = .live c parent →
      Move a (.exit p) (({ a with role := orphan a p c }.setRole p (bury (orphan a p c p))).setCont c
        fun x => { x with uproc := x.uproc - 1 })
  | reap {q : ProcId} {c : Nat} {parent : Option ProcId} : a.role q = .zombie c parent →
      Move a (.reap q) (a.setRole q .unused)
  | create {c : Nat} {mproc : Int} : (a.cont c).state = .cunused → mproc ≤ NPROC →
      Move a (.create c mproc) (a.setCont c fun x => { x with state := .cready, mproc := mproc })
  | start {c : Nat} : (a.cont c).state = .cready →
      Move a (.start c) (a.setCont c fun x => { x with state := .crunnable })
  | change {c : Nat} {target : ContState} :
      (a.cont c).state = .crunnable ∨ (a.cont c).state = .cpaused →
      target ∈ [ContState.crunnable, .cpaused, .cstopping] →
      Move a (.change c target) (a.setCont c fun x => { x with state := target })
  | visit {c : Nat} : (a.cont c).state = .crunnable ∨ (a.cont c).state = .cstopping →
      Move a (.visit c) (a.setCont c advance)
  | cexit {c : Nat} : (a.cont c).uproc = 0 →
      Move a (.cexit c) (a.setCont c fun x =>
        { x with mproc := 0, nextproc := 0, state := .cunused })

@[simp] theorem setRole_cont (a : State) (q : ProcId) (r : Role) : (a.setRole q r).cont = a.cont := rfl

@[simp] theorem setCont_role (a : State) (c : Nat) (f : Charter → Charter) :
    (a.setCont c f).role = a.role := rfl

@[simp] theorem setCont_init (a : State) (c : Nat) (f : Charter → Charter) :
    (a.setCont c f).init = a.init := rfl

@[simp] theorem setRole_init (a : State) (q : ProcId) (r : Role) : (a.setRole q r).init = a.init := rfl

theorem setCont_cont (a : State) (c d : Nat) (f : Charter → Charter) :
    (a.setCont c f).cont d = if d = c then f (a.cont c) else a.cont d := Function.update_apply _ _ _ _

theorem setRole_role (a : State) (q p : ProcId) (r : Role) :
    (a.setRole q r).role p = if p = q then r else a.role p := Function.update_apply _ _ _ _

/- The number of live slots of container c. -/
def lives (a : State) (c : Nat) : Nat :=
  ((Finset.range NPROC).filter fun j => (a.role ⟨c, j⟩).alive).card

/- What uproc counts too much. -/
def slack (a : State) (c : Nat) : Int := (a.cont c).uproc - lives a c

variable {a b : State} {c : Nat}

theorem lives_congr (same : ∀ j < NPROC, (b.role ⟨c, j⟩).alive = (a.role ⟨c, j⟩).alive) : lives b c = lives a c :=
  card_filter_same fun j inside => by rw [same j inside]

variable {q : ProcId}

/- One slot comes to life. -/
theorem lives_born (inside : q.slot < NPROC) (before : (a.role q).alive = false)
    (after : (b.role q).alive = true)
    (same : ∀ j, j ≠ q.slot → (b.role ⟨q.cont, j⟩).alive = (a.role ⟨q.cont, j⟩).alive) :
    lives b q.cont = lives a q.cont + 1 := by
  have change := card_filter_change (P := fun j => (a.role ⟨q.cont, j⟩).alive = true)
    (Q := fun j => (b.role ⟨q.cont, j⟩).alive = true) inside fun j other => by rw [same j other]
  rw [if_neg (by rw [before]; exact nofun), if_pos after] at change
  exact change

theorem lives_pos (inside : q.slot < NPROC) (alive : (a.role q).alive = true) :
    0 < lives a q.cont := card_filter_pos inside alive

/- A container that has been started and not yet given up. -/
def Started (c : Charter) : Prop :=
  c.state ≠ .cunused ∧ c.state ≠ .cembryo ∧ c.state ≠ .cready

structure Sound (a : State) : Prop where
  home : ∀ q c r, a.role q = .live c r → c = q.cont
  started : ∀ q c r, a.role q = .live c r → Started (a.cont c)
  below : ∀ q c r, a.role q = .live c r → (q.slot : Int) < (a.cont c).mproc
  capped : ∀ c, (a.cont c).mproc ≤ NPROC
  counted : ∀ c, 0 ≤ slack a c

theorem alive_live {r : Role} (alive : r.alive = true) : ∃ c parent, r = .live c parent := by
  cases r with
  | live c parent => exact ⟨c, parent, rfl⟩
  | _ => cases alive

section Exit
variable {a : State} {p q : ProcId} {c d : Nat} {r : Option ProcId}

theorem adopt_alive (x : Role) : (adopt p q x).alive = x.alive := by
  cases x with
  | unused => rfl
  | live d r => cases r <;> rfl
  | zombie d r => cases r <;> rfl

theorem adopt_live {x : Role} : (∃ r, adopt p q x = .live d r) ↔ ∃ r, x = .live d r := by
  cases x with
  | unused => rfl
  | live c r => cases r <;> simp [adopt]
  | zombie c r => cases r <;> simp [adopt]

theorem orphan_alive : (orphan a p c q).alive = (a.role q).alive := by
  unfold orphan
  split
  · exact adopt_alive _
  · rfl

theorem orphan_live (live : orphan a p c q = .live d r) : ∃ r', a.role q = .live d r' := by
  unfold orphan at live
  split at live
  · exact adopt_live.mp ⟨r, live⟩
  · exact ⟨r, live⟩

theorem bury_alive (x : Role) : (bury x).alive = false := by cases x <;> rfl

end Exit

variable {r : Option ProcId}

theorem Sound.slot_lt (sound : Sound a) (live : a.role q = .live c r) : q.slot < NPROC := by
  have below := sound.below q c r live
  have capped := sound.capped c
  omega

variable {m : Act}

/- The counter and the slots move together, but for the leak. -/
theorem move_slack (sound : Sound a) (move : Move a m b) (c : Nat) :
    slack b c = slack a c + if m = .leak c then 1 else 0 := by
  cases move with
  | spawn inside opened free below parent =>
    rename_i q parent'
    have slot : q.slot < NPROC := by
      have capped := sound.capped q.cont
      omega
    rw [if_neg (by simp), add_zero]
    by_cases here : c = q.cont
    · subst here
      have born : lives ((a.setRole q (.live q.cont (some parent'))).setCont q.cont
          fun x => { x with uproc := x.uproc + 1 }) q.cont = lives a q.cont + 1 := by
        refine lives_born slot ?_ ?_ ?_
        · rw [free]
          rfl
        · rw [setCont_role, setRole_role, if_pos rfl]
          rfl
        · intro j other
          rw [setCont_role, setRole_role, if_neg]
          intro same
          exact other (congrArg ProcId.slot same)
      rw [slack, slack, born, setCont_cont, if_pos rfl]
      push_cast
      rw [setRole_cont]
      ring
    · have same : lives ((a.setRole q (.live q.cont (some parent'))).setCont q.cont
          fun x => { x with uproc := x.uproc + 1 }) c = lives a c := by
        refine lives_congr fun j _ => ?_
        rw [setCont_role, setRole_role, if_neg]
        intro same
        exact here (congrArg ProcId.cont same)
      rw [slack, slack, same, setCont_cont, if_neg here]
      rfl
  | exit notInit live =>
    rename_i p d parent
    have home := sound.home p d parent live
    subst home
    rw [if_neg (by simp), add_zero]
    have alive (q : ProcId) : ((({ a with role := orphan a p p.cont }.setRole p
        (bury (orphan a p p.cont p))).setCont p.cont
          fun x => { x with uproc := x.uproc - 1 }).role q).alive =
        if q = p then false else (a.role q).alive := by
      rw [setCont_role, setRole_role]
      split
      · exact bury_alive _
      · exact orphan_alive
    by_cases here : c = p.cont
    · subst here
      have died := lives_born (sound.slot_lt live) ((alive p).trans (if_pos rfl)) (by rw [live]; rfl)
        (fun j other => ((alive ⟨p.cont, j⟩).trans (if_neg fun same =>
          other (congrArg ProcId.slot same))).symm)
      rw [slack, slack, died, setCont_cont, if_pos rfl]
      push_cast
      rw [setRole_cont]
      ring
    · have same := lives_congr (b := _) (a := a) (c := c) (fun j _ => (alive ⟨c, j⟩).trans
        (if_neg fun same => here (congrArg ProcId.cont same)))
      rw [slack, slack, same, setCont_cont, if_neg here]
      rfl
  | reap zombie =>
    rename_i q d r
    have same : lives (a.setRole q .unused) c = lives a c := by
      refine lives_congr fun j _ => ?_
      rw [setRole_role]
      split
      · rename_i here
        rw [here, zombie]
        rfl
      · rfl
    rw [if_neg (by simp), add_zero, slack, slack, same, setRole_cont]
  | leak opened =>
    rename_i d
    rw [slack, slack, setCont_cont]
    by_cases here : c = d
    · subst here
      rw [if_pos rfl, if_pos rfl]
      change (a.cont c).uproc + 1 - (lives a c : Int) = _
      ring
    · rw [if_neg here, if_neg (by simpa using Ne.symm here), add_zero]
      rfl
  | kill | create | start | change | visit | cexit =>
    rw [if_neg (by simp), add_zero, slack, slack, setCont_cont]
    split
    · rename_i here
      subst here
      rfl
    · rfl

/- A container whose counter is at zero has no live process. -/
theorem Sound.no_live (sound : Sound a) (zero : (a.cont c).uproc = 0) : a.role q ≠ .live c r := by
  intro live
  have home := sound.home q c r live
  subst home
  have positive := lives_pos (sound.slot_lt live) (by rw [live]; rfl)
  have counted := sound.counted q.cont
  rw [slack, zero] at counted
  omega

variable {f : Charter → Charter}

/- What the moves other than those of fork and exit do: the record of one container
changes, and no role does. -/
theorem sound_setCont (sound : Sound a) (started : Started (a.cont c) → (∃ q r, a.role q = .live c r) →
      Started (f (a.cont c)) ∧ (f (a.cont c)).mproc = (a.cont c).mproc) (capped : (f (a.cont c)).mproc ≤ NPROC)
    (counted : ∀ d, 0 ≤ slack (a.setCont c f) d) : Sound (a.setCont c f) := by
  refine ⟨sound.home, ?_, ?_, ?_, counted⟩
  · intro q d r live
    rw [setCont_cont]
    split
    · rename_i here
      subst here
      exact (started (sound.started q d r live) ⟨q, r, live⟩).1
    · exact sound.started q d r live
  · intro q d r live
    rw [setCont_cont]
    split
    · rename_i here
      subst here
      rw [(started (sound.started q d r live) ⟨q, r, live⟩).2]
      exact sound.below q d r live
    · exact sound.below q d r live
  · intro d
    rw [setCont_cont]
    split
    · exact capped
    · exact sound.capped d

/- A charter keeps its numbers and goes to another of the states of a started one. -/
theorem sound_setState {target : ContState} (sound : Sound a)
    (running : target ≠ .cunused ∧ target ≠ .cembryo ∧ target ≠ .cready)
    (counted : ∀ d, 0 ≤ slack (a.setCont c fun x => { x with state := target }) d) :
    Sound (a.setCont c fun x => { x with state := target }) :=
  sound_setCont sound (fun _ _ => ⟨running, rfl⟩) (sound.capped c) counted

/- The states to which cstop, cpause and cresume take a container. -/
theorem started_target {target : ContState} (h : target ∈ [ContState.crunnable, .cpaused, .cstopping]) :
    target ≠ .cunused ∧ target ≠ .cembryo ∧ target ≠ .cready := by
  simp only [List.mem_cons, List.not_mem_nil, or_false] at h
  rcases h with rfl | rfl | rfl <;> decide

theorem move_sound (sound : Sound a) (move : Move a m b) : Sound b := by
  have counted : ∀ d, 0 ≤ slack b d := by
    intro d
    rw [move_slack sound move d]
    have := sound.counted d
    split <;> omega
  cases move with
  | kill live => exact sound_setState sound (by decide) counted
  | spawn inside opened free below parent =>
    rename_i q parent'
    have started : Started (a.cont q.cont) := by
      unfold Started
      rcases opened with h | h <;> rw [h] <;> decide
    refine ⟨?_, ?_, ?_, ?_, counted⟩
    · intro p c r live
      rw [setCont_role, setRole_role] at live
      split at live
      · rename_i here
        cases live
        rw [here]
      · exact sound.home p c r live
    · intro p c r live
      rw [setCont_role, setRole_role] at live
      rw [setCont_cont, setRole_cont]
      split at live
      · cases live
        rw [if_pos rfl]
        exact started
      · have before := sound.started p c r live
        split
        · exact started
        · exact before
    · intro p c r live
      rw [setCont_role, setRole_role] at live
      rw [setCont_cont, setRole_cont]
      split at live
      · rename_i here
        cases live
        rw [if_pos rfl, here]
        exact below
      · have before := sound.below p c r live
        split
        · rename_i same
          rw [same] at before
          exact before
        · exact before
    · intro c
      rw [setCont_cont, setRole_cont]
      split
      · exact sound.capped q.cont
      · exact sound.capped c
  | leak opened =>
    exact sound_setCont sound (fun started _ => ⟨started, rfl⟩) (sound.capped _) counted
  | exit notInit live =>
    rename_i p d parent
    have back {q : ProcId} {c : Nat} {r : Option ProcId}
        (after : (({ a with role := orphan a p d }.setRole p (bury (orphan a p d p))).setCont d
          fun x => { x with uproc := x.uproc - 1 }).role q = .live c r) :
        ∃ r', a.role q = .live c r' := by
      rw [setCont_role, setRole_role] at after
      split at after
      · have dead := bury_alive (orphan a p d p)
        rw [after] at dead
        cases dead
      · exact orphan_live after
    have charter (c : Nat) : ∃ n, (({ a with role := orphan a p d }.setRole p
        (bury (orphan a p d p))).setCont d fun x => { x with uproc := x.uproc - 1 }).cont c =
          { a.cont c with uproc := n } := by
      rw [setCont_cont, setRole_cont]
      split
      · rename_i here
        rw [here]
        exact ⟨_, rfl⟩
      · exact ⟨_, rfl⟩
    refine ⟨?_, ?_, ?_, ?_, counted⟩
    · intro q c r after
      obtain ⟨r', before⟩ := back after
      exact sound.home q c r' before
    · intro q c r after
      obtain ⟨r', before⟩ := back after
      obtain ⟨n, same⟩ := charter c
      rw [same]
      exact sound.started q c r' before
    · intro q c r after
      obtain ⟨r', before⟩ := back after
      obtain ⟨n, same⟩ := charter c
      rw [same]
      exact sound.below q c r' before
    · intro c
      obtain ⟨n, same⟩ := charter c
      rw [same]
      exact sound.capped c
  | reap zombie =>
    rename_i q d r
    have back {x : ProcId} {c : Nat} {r : Option ProcId} (after : (a.setRole q .unused).role x = .live c r) :
        a.role x = .live c r := by
      rw [setRole_role] at after
      split at after
      · cases after
      · exact after
    exact ⟨fun x c r after => sound.home x c r (back after),
      fun x c r after => sound.started x c r (back after),
      fun x c r after => sound.below x c r (back after), sound.capped, counted⟩
  | create unused limit =>
    exact sound_setCont sound (fun started _ => absurd unused started.1) limit counted
  | start ready => exact sound_setState sound (by decide) counted
  | change source target => exact sound_setState sound (started_target target) counted
  | visit active =>
    exact sound_setCont sound (fun started _ => ⟨started, rfl⟩) (sound.capped _) counted
  | cexit zero =>
    refine sound_setCont sound ?_ (Int.natCast_nonneg NPROC) counted
    rintro - ⟨q, r, live⟩
    exact absurd live (sound.no_live zero)

/- The scheduler's index and the size of the table. -/
def Bounded (c : Charter) : Prop := 0 ≤ c.nextproc ∧ c.nextproc < c.mproc ∧ c.mproc ≤ NPROC

theorem bounded_advance {c : Charter} (bounded : Bounded c) : Bounded (advance c) := by
  obtain ⟨low, high, size⟩ := bounded
  unfold advance Bounded
  dsimp only
  split <;> omega

structure Ranged (a : State) : Prop where
  bounded : ∀ c, Started (a.cont c) → Bounded (a.cont c)
  fresh : ∀ c, ¬ Started (a.cont c) → (a.cont c).nextproc = 0

/- A container is started with room for a process. -/
def Roomy (a : State) : Act → Prop
  | .start c => 1 ≤ (a.cont c).mproc
  | _ => True

theorem ranged_setCont (ranged : Ranged a) (bounded : Started (f (a.cont c)) → Bounded (f (a.cont c)))
    (fresh : ¬ Started (f (a.cont c)) → (f (a.cont c)).nextproc = 0) : Ranged (a.setCont c f) := by
  refine ⟨fun d => ?_, fun d => ?_⟩
  · rw [setCont_cont]
    split
    · exact bounded
    · exact ranged.bounded d
  · rw [setCont_cont]
    split
    · exact fresh
    · exact ranged.fresh d

/- A started container goes to another state, or has its counter changed. -/
theorem ranged_started (ranged : Ranged a) (before : Started (a.cont c)) (after : Started (f (a.cont c)))
    (kept : (f (a.cont c)).nextproc = (a.cont c).nextproc ∧ (f (a.cont c)).mproc = (a.cont c).mproc) :
    Ranged (a.setCont c f) := by
  refine ranged_setCont ranged (fun _ => ?_) fun idle => absurd after idle
  have bounded := ranged.bounded c before
  unfold Bounded at bounded ⊢
  rw [kept.1, kept.2]
  exact bounded

theorem ranged_roles (ranged : Ranged a) (same : b.cont = a.cont) : Ranged b := by
  refine ⟨?_, ?_⟩
  · rw [same]
    exact ranged.bounded
  · rw [same]
    exact ranged.fresh

theorem started_open {c : Charter} (opened : Open c) : Started c := by
  unfold Started
  rcases opened with h | h <;> rw [h] <;> decide

/- A container that the scheduler looks at. -/
theorem started_active {c : Charter} (active : c.state = .crunnable ∨ c.state = .cstopping) : Started c := by
  unfold Started
  rcases active with h | h <;> rw [h] <;> decide

theorem move_ranged (sound : Sound a) (ranged : Ranged a) (move : Move a m b) (roomy : Roomy a m) : Ranged b := by
  cases move with
  | kill live =>
    exact ranged_started ranged (sound.started _ _ _ live) ⟨nofun, nofun, nofun⟩ ⟨rfl, rfl⟩
  | spawn inside opened free below parent =>
    have started := started_open opened
    exact ranged_started (ranged_roles ranged rfl) started started ⟨rfl, rfl⟩
  | leak opened =>
    have started := started_open opened
    exact ranged_started ranged started started ⟨rfl, rfl⟩
  | exit notInit live =>
    have started := sound.started _ _ _ live
    exact ranged_started (ranged_roles ranged rfl) started started ⟨rfl, rfl⟩
  | reap zombie => exact ranged_roles ranged rfl
  | create unused limit =>
    refine ranged_setCont ranged (fun started => absurd rfl started.2.2) fun _ => ?_
    exact ranged.fresh _ fun started => started.1 unused
  | start ready =>
    rename_i c
    refine ranged_setCont ranged (fun _ => ?_) fun idle => absurd ⟨nofun, nofun, nofun⟩ idle
    have zero := ranged.fresh c fun started => started.2.2 ready
    have room : 1 ≤ (a.cont c).mproc := roomy
    exact ⟨zero.ge, by dsimp only; omega, sound.capped c⟩
  | change source target =>
    refine ranged_started ranged ?_ (started_target target) ⟨rfl, rfl⟩
    unfold Started
    rcases source with h | h <;> rw [h] <;> decide
  | visit active =>
    have started := started_active active
    exact ranged_setCont ranged (fun _ => bounded_advance (ranged.bounded _ started)) fun idle =>
      absurd started idle
  | cexit zero =>
    exact ranged_setCont ranged (fun started => absurd rfl started.1) fun _ => rfl

/- init is nobody's child, parents are live, only init has children in other containers,
and the parent of a zombie is in its container. -/
structure Tidy (a : State) : Prop where
  init : a.role a.init = .live a.init.cont none
  parents : ∀ q c p, a.role q = .live c (some p) → p ≠ q ∧ (p = a.init ∨ ∃ r, a.role p = .live c r)
  zombies : ∀ q c r, a.role q = .zombie c r → c = q.cont ∧ (q.slot : Int) < (a.cont c).mproc ∧
    (a.cont c).state ≠ .cunused ∧ ∃ p r', r = some p ∧ a.role p = .live c r'

/- The parent of a process that exits is in its container, and so is init if it leaves
children behind that have exited already. -/
def Waited (a : State) : Act → Prop
  | .exit p => (∃ q, (∃ c, a.role p = .live c (some q)) ∧ q.cont = p.cont) ∧
      (a.init.cont = p.cont ∨ ∀ q c, a.role q ≠ .zombie c (some p))
  | _ => True

/- The zombies when no role has changed. -/
theorem tidy_setCont (tidy : Tidy a) (kept : (∃ q r, a.role q = .zombie c r) →
      (f (a.cont c)).mproc = (a.cont c).mproc ∧ (f (a.cont c)).state ≠ .cunused) : Tidy (a.setCont c f) := by
  refine ⟨tidy.init, tidy.parents, ?_⟩
  intro q d r zombie
  obtain ⟨home, below, used, reaper⟩ := tidy.zombies q d r zombie
  rw [setCont_cont]
  split
  · rename_i here
    subst here
    obtain ⟨mproc, live⟩ := kept ⟨q, r, zombie⟩
    rw [mproc]
    exact ⟨home, below, live, reaper⟩
  · exact ⟨home, below, used, reaper⟩

/- One slot takes a role in place of another that no parent had. -/
theorem tidy_setRole {x : Role} (tidy : Tidy a) (dead : ∀ c r, a.role q ≠ .live c r)
    (child : ∀ c p, x = .live c (some p) → p ≠ q ∧ (p = a.init ∨ ∃ r, a.role p = .live c r))
    (alive : ∀ c r, x ≠ .zombie c r) : Tidy (a.setRole q x) := by
  have stays {p : ProcId} {c : Nat} {r : Option ProcId} (live : a.role p = .live c r) :
      (a.setRole q x).role p = .live c r := by
    rw [setRole_role, if_neg]
    · exact live
    · rintro rfl
      exact dead c r live
  refine ⟨stays tidy.init, ?_, ?_⟩
  · intro p c parent live
    rw [setRole_role] at live
    split at live
    · rename_i here
      obtain ⟨other, known⟩ := child c parent live
      rw [here]
      exact ⟨other, known.imp_right fun ⟨r, h⟩ => ⟨r, stays h⟩⟩
    · obtain ⟨other, known⟩ := tidy.parents p c parent live
      exact ⟨other, known.imp_right fun ⟨r, h⟩ => ⟨r, stays h⟩⟩
  · intro p c r zombie
    rw [setRole_role] at zombie
    split at zombie
    · exact absurd zombie (alive c r)
    · obtain ⟨home, below, used, parent, r', same, live⟩ := tidy.zombies p c r zombie
      exact ⟨home, below, used, parent, r', same, stays live⟩

/- Every child of a process is found by its exit. -/
theorem orphan_eq (sound : Sound a) (tidy : Tidy a) {p : ProcId} {d : Nat} (live : a.role p = .live d r)
    (other : p ≠ a.init) (q : ProcId) : orphan a p d q = adopt p a.init (a.role q) := by
  unfold orphan
  split
  · rfl
  rename_i away
  cases role : a.role q with
  | unused => rfl
  | live c s =>
    cases s with
    | none => rfl
    | some s =>
      have distinct : s ≠ p := by
        rintro rfl
        have home := sound.home q c _ role
        rcases (tidy.parents q c s role).2 with same | ⟨r', same⟩
        · exact other same
        · cases same.symm.trans live
          exact away ⟨home.symm, sound.below q d _ role⟩
      rw [adopt, if_neg distinct]
  | zombie c s =>
    obtain ⟨home, below, -, s', r', rfl, same⟩ := tidy.zombies q c s role
    have distinct : s' ≠ p := by
      rintro rfl
      cases same.symm.trans live
      exact away ⟨home.symm, below⟩
    rw [adopt, if_neg distinct]

theorem tidy_exit (sound : Sound a) (tidy : Tidy a) {p : ProcId} {d : Nat} {parent : Option ProcId}
    (other : p ≠ a.init) (live : a.role p = .live d parent) (waited : Waited a (.exit p))
    (kept : ∀ c, (f c).mproc = c.mproc ∧ (f c).state = c.state) :
    Tidy (({ a with role := orphan a p d }.setRole p (bury (orphan a p d p))).setCont d f) := by
  obtain ⟨⟨q₀, ⟨c₀, child⟩, near⟩, reaper⟩ := waited
  cases live.symm.trans child
  have home := sound.home p d _ live
  obtain ⟨self, known⟩ := tidy.parents p d q₀ live
  generalize after : ({ a with role := orphan a p d }.setRole p (bury (orphan a p d p))).setCont d f = b
  have init : b.init = a.init := by
    rw [← after, setCont_init, setRole_init]
  have roles (q : ProcId) : b.role q = if q = p then .zombie d (some q₀) else adopt p a.init (a.role q) := by
    rw [← after, setCont_role, setRole_role]
    split
    · rw [orphan_eq sound tidy live other, live, adopt, if_neg self]
      rfl
    · exact orphan_eq sound tidy live other q
  have stays {q : ProcId} {c : Nat} {r : Option ProcId} (alive : a.role q = .live c r) (apart : q ≠ p) :
      ∃ r', b.role q = .live c r' := by
    rw [roles, if_neg apart]
    exact adopt_live.mpr ⟨r, alive⟩
  have root {c : Nat} (here : a.init.cont = c) : ∃ r', b.role a.init = .live c r' :=
    here ▸ stays tidy.init other.symm
  have charter (c : Nat) : (b.cont c).mproc = (a.cont c).mproc ∧ (b.cont c).state = (a.cont c).state := by
    rw [← after, setCont_cont, setRole_cont]
    split
    · rename_i here
      rw [here]
      exact kept _
    · exact ⟨rfl, rfl⟩
  refine ⟨?_, ?_, ?_⟩
  · rw [init, roles, if_neg other.symm, tidy.init]
    rfl
  · intro q c s after
    rw [roles] at after
    split at after
    · cases after
    rename_i apart
    cases role : a.role q with
    | unused =>
      rw [role] at after
      cases after
    | zombie e t =>
      rw [role] at after
      cases t <;> cases after
    | live e t =>
      rw [role] at after
      cases t with
      | none => cases after
      | some t =>
        obtain ⟨distinct, source⟩ := tidy.parents q e t role
        cases after
        rw [init]
        split
        · -- A child of p, now of init; init itself has no parent.
          refine ⟨?_, Or.inl rfl⟩
          rintro rfl
          rw [tidy.init] at role
          cases role
        · rename_i notP
          refine ⟨distinct, source.imp_right ?_⟩
          rintro ⟨r', alive⟩
          exact stays alive notP
  · intro q c s after
    rw [roles] at after
    rw [(charter c).1, (charter c).2]
    split at after
    · rename_i here
      cases after
      subst here
      refine ⟨home, sound.below q d _ live, (sound.started q d _ live).1, q₀, ?_⟩
      rcases known with same | ⟨r', alive⟩
      · obtain ⟨r', alive⟩ := root (c := d) (same ▸ near.trans home.symm)
        exact ⟨r', rfl, same ▸ alive⟩
      · obtain ⟨r'', alive⟩ := stays alive self
        exact ⟨r'', rfl, alive⟩
    · cases role : a.role q with
      | unused =>
        rw [role] at after
        cases after
      | live e t =>
        rw [role] at after
        cases t <;> cases after
      | zombie e t =>
        obtain ⟨row, below, used, t, r', rfl, alive⟩ := tidy.zombies q e t role
        rw [role] at after
        cases after
        refine ⟨row, below, used, ?_⟩
        split
        · rename_i isP
          subst isP
          cases alive.symm.trans live
          rcases reaper with near' | none
          · obtain ⟨r'', alive⟩ := root (near'.trans home.symm)
            exact ⟨a.init, r'', rfl, alive⟩
          · exact absurd role (none q _)
        · rename_i notP
          obtain ⟨r'', alive⟩ := stays alive notP
          exact ⟨t, r'', rfl, alive⟩

theorem move_tidy (sound : Sound a) (tidy : Tidy a) (move : Move a m b) (waited : Waited a m) : Tidy b := by
  cases move with
  | kill live => exact tidy_setCont tidy fun _ => ⟨rfl, nofun⟩
  | spawn inside opened free below parent =>
    rename_i q parent'
    have apart : parent' ≠ q := by
      rintro rfl
      rcases parent with same | ⟨r, live⟩
      · rw [same, tidy.init] at free
        cases free
      · cases free.symm.trans live
    refine tidy_setCont (tidy_setRole tidy ?_ ?_ ?_) ?_
    · intro c r live
      cases free.symm.trans live
    · rintro c p same
      cases same
      exact ⟨apart, parent⟩
    · exact fun c r impossible => nomatch impossible
    · intro _
      refine ⟨rfl, ?_⟩
      rcases opened with h | h <;> rw [setRole_cont] <;> dsimp only <;> rw [h] <;> decide
  | leak opened =>
    refine tidy_setCont tidy fun _ => ⟨rfl, ?_⟩
    rcases opened with h | h <;> dsimp only <;> rw [h] <;> decide
  | exit notInit live => exact tidy_exit sound tidy notInit live waited fun _ => ⟨rfl, rfl⟩
  | reap zombie =>
    refine tidy_setRole tidy ?_ ?_ ?_
    · intro c r live
      cases zombie.symm.trans live
    · exact fun c p impossible => nomatch impossible
    · exact fun c r impossible => nomatch impossible
  | create unused limit =>
    refine tidy_setCont tidy ?_
    rintro ⟨q, r, zombie⟩
    exact absurd unused (tidy.zombies q _ r zombie).2.2.1
  | start ready => exact tidy_setCont tidy fun _ => ⟨rfl, nofun⟩
  | change source target =>
    exact tidy_setCont tidy fun _ => ⟨rfl, (started_target target).1⟩
  | visit active =>
    refine tidy_setCont tidy fun _ => ⟨rfl, ?_⟩
    rcases active with h | h <;> unfold advance <;> dsimp only <;> rw [h] <;> decide
  | cexit zero =>
    refine tidy_setCont tidy ?_
    rintro ⟨q, r, zombie⟩
    obtain ⟨-, -, -, p, r', -, live⟩ := tidy.zombies q _ r zombie
    exact absurd live (sound.no_live zero)

/- A container that is not in use has no slot in use. -/
theorem unused_clean (sound : Sound a) (tidy : Tidy a) (unused : (a.cont c).state = .cunused) (j : Nat) :
    a.role ⟨c, j⟩ = .unused := by
  cases role : a.role ⟨c, j⟩ with
  | unused => rfl
  | live d r =>
    have home := sound.home _ d r role
    subst home
    exact absurd unused (sound.started _ _ r role).1
  | zombie d r =>
    obtain ⟨home, -, used, -⟩ := tidy.zombies _ d r role
    subst home
    exact absurd unused used

/- Moves one after the other, each with a condition on it. -/
inductive Path (ok : State → Act → Prop) : State → State → Prop where
  | refl (a : State) : Path ok a a
  | tail {a b c : State} {m : Act} : Path ok a b → ok b m → Move b m c → Path ok a c

variable {ok : State → Act → Prop}

theorem Path.single (move : Move a m b) (allowed : ok a m) : Path ok a b := .tail (.refl a) allowed move

theorem Path.mono {ok' : State → Act → Prop} (weaker : ∀ c m, ok c m → ok' c m) (path : Path ok a b) :
    Path ok' a b := by
  induction path with
  | refl => exact .refl _
  | tail _ allowed move ih => exact .tail ih (weaker _ _ allowed) move

theorem path_invariant (inv : State → Prop) (preserves : ∀ a m b, inv a → ok a m → Move a m b → inv b)
    (path : Path ok a b) (initial : inv a) : inv b := by
  induction path with
  | refl => exact initial
  | tail _ allowed move ih => exact preserves _ _ _ ih allowed move

/- After userinit: the root container with its first process. -/
def boot : State where
  role q := if q.cont = 0 ∧ q.slot = 0 then .live 0 none else .unused
  cont c := if c = 0 then ⟨.crunnable, NPROC, 0, 1⟩ else ⟨.cunused, 0, 0, 0⟩
  init := ⟨0, 0⟩

theorem boot_live (live : boot.role q = .live c r) : q = ⟨0, 0⟩ ∧ c = 0 ∧ r = none := by
  unfold boot at live
  dsimp only at live
  split at live
  · rename_i here
    cases live
    exact ⟨congrArg₂ ProcId.mk here.1 here.2, rfl, rfl⟩
  · cases live

theorem boot_zombie (q : ProcId) (c : Nat) (r : Option ProcId) : boot.role q ≠ .zombie c r := by
  unfold boot
  dsimp only
  split <;> exact nofun

theorem boot_lives (c : Nat) : lives boot c = if c = 0 then 1 else 0 := by
  split
  · rename_i root
    subst root
    decide +kernel
  · rename_i other
    unfold lives boot
    simp [other, Role.alive]

theorem boot_slack (c : Nat) : slack boot c = 0 := by
  rw [slack, boot_lives]
  unfold boot
  dsimp only
  split <;> rfl

theorem boot_sound : Sound boot := by
  refine ⟨?_, ?_, ?_, ?_, fun c => (boot_slack c).ge⟩
  · intro q c r live
    obtain ⟨rfl, rfl, -⟩ := boot_live live
    rfl
  · intro q c r live
    obtain ⟨-, rfl, -⟩ := boot_live live
    exact ⟨nofun, nofun, nofun⟩
  · intro q c r live
    obtain ⟨rfl, rfl, -⟩ := boot_live live
    decide
  · intro c
    unfold boot
    dsimp only
    split <;> decide

theorem boot_ranged : Ranged boot := by
  refine ⟨fun c => ?_, fun c => ?_⟩
  · unfold boot Started Bounded
    dsimp only
    split
    · exact fun _ => by decide
    · exact fun started => absurd rfl started.1
  · unfold boot
    dsimp only
    split <;> exact fun _ => rfl

theorem boot_tidy : Tidy boot := by
  refine ⟨rfl, ?_, ?_⟩
  · intro q c p live
    exact nomatch (boot_live live).2.2
  · intro q c r zombie
    exact absurd zombie (boot_zombie q c r)

end Xv6c.Census

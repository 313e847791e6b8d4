import Xv6c.Kernel.Races

/-! The calls on containers as they interleave. cstop, cpause, cresume, cstart and ccreate
are split where they take and release ctable.lock, and between their parts the steps of
fork, exit and the scheduler run, other processes use the file system, and containers are
killed at their limits. -/
namespace Xv6c.Control
open Lib

/- cstop, cpause and cresume. -/
inductive Op where
  | stop | pause | resume
  deriving DecidableEq

def Op.source : Op → List ContState
  | .stop => [.crunnable, .cpaused]
  | .pause => [.crunnable]
  | .resume => [.cpaused]

def Op.target : Op → ContState
  | .stop => .cstopping
  | .pause => .cpaused
  | .resume => .crunnable

/- The arguments of ccreate. -/
structure Wish where
  name : Fs.CStr
  mproc : Int
  msz : Nat
  mdsk : Nat

/- How far a process is in its call, and what it holds in local variables. -/
inductive Hand where
  | idle
  /- container c has passed the test of cstop, cpause or cresume -/
  | change (c : Nat) (op : Op)
  /- cstart has found container c -/
  | start (c : Nat) (rootdir : Option Nat) (mdsk : Nat) (name : Fs.CStr)
  /- and dirsize has found it small enough -/
  | sized (c udsk : Nat)
  /- ccreate has made its checks -/
  | wanted (w : Wish)
  | alloced (c : Nat) (w : Wish)
  /- namei has found the root directory, or failed -/
  | rooted (c ip : Nat) (w : Wish)
  | failed (c : Nat)

section Parts

/- The unlocked lookup and test of cstop, cpause and cresume, and their assignment. -/
def test (p : ProcId) (op : Op) (name : Fs.CStr) : KM Hand := do
  let k ← Prog.get
  if (k.cont (k.contOf p)).cid ≠ ROOTCONT then pure .idle
  else
    match name2cont k name with
    | none => pure .idle
    | some c => if (k.cont c).state ∈ op.source then pure (.change c op) else pure .idle

def assign (c : Nat) (op : Op) : KM Hand := do
  modifyCont c fun c => { c with state := op.target }
  pure .idle

/- The search of cstart, under the lock, its dirsize without it, and its assignment. -/
def seek (name : Fs.CStr) : KM Hand := do
  let k ← Prog.get
  match findCont (fun i => nameMatches name (k.cont i) ∧ (k.cont i).state = .cready) with
  | none => pure .idle
  | some nc => pure (.start nc (k.cont nc).rootdir (k.cont nc).mdsk name)

def size (p : ProcId) (nc : Nat) (rootdir : Option Nat) (mdsk : Nat) (name : Fs.CStr) : KM Hand := do
  let k ← Prog.get
  let udsk ← onFs p (do
    let rootdir ← Fs.deref rootdir
    Fs.dirsize (k.walker p) rootdir name)
  if udsk < 1 ∨ mdsk < udsk then pure .idle else pure (.sized nc udsk)

def launch (nc udsk : Nat) : KM Hand := do
  modifyCont nc fun c => { c with udsk := udsk, state := .crunnable }
  pure .idle

/- The checks of ccreate, without the lock, alloccont, namei, and the two ends. -/
def want (w : Wish) : KM Hand := do
  let k ← Prog.get
  if (name2cont k w.name).isSome then pure .idle
  else if w.mproc > NPROC ∨ w.msz > MAX_CONT_MEM ∨ w.mdsk > MAX_CONT_DSK then pure .idle
  else pure (.wanted w)

def alloc (w : Wish) : KM Hand := do
  match ← alloccont with
  | none => pure .idle
  | some nc => pure (.alloced nc w)

def lookup (p : ProcId) (nc : Nat) (w : Wish) : KM Hand := do
  let k ← Prog.get
  match ← onFs p (Fs.namei (k.walker p) w.name) with
  | none => pure (.failed nc)
  | some ip => pure (.rooted nc ip w)

def abandon (nc : Nat) : KM Hand := do
  modifyCont nc fun c => { c with state := .cunused }
  pure .idle

def publish (p : ProcId) (nc ip : Nat) (w : Wish) : KM Hand := do
  let rootdir ← onFs p (Fs.idup ip)
  modifyCont nc fun c => { c with
    mproc := w.mproc, msz := w.msz, mdsk := w.mdsk, rootdir := some rootdir
    name := strncpy w.name.bytes 16, state := .cready }
  pure .idle

/- Without interleaving, the parts of a call are the call. -/
theorem changeState_parts (p : ProcId) (op : Op) (name : Fs.CStr) :
    changeState p name op.source op.target = (do
      match ← test p op name with
      | .change c op =>
        let _ ← assign c op
        pure 1
      | _ => pure (-1)) := by
  unfold changeState test assign
  rw [bind_assoc]
  refine congrArg _ (funext fun k => ?_)
  split
  · rw [pure_bind]
  · cases name2cont k name with
    | none => simp only [pure_bind]
    | some c =>
      dsimp only
      split
      · simp only [pure_bind, bind_assoc]
      · simp only [pure_bind]

theorem cstart_parts (p : ProcId) (name : Fs.CStr) :
    cstart p name = (do
      match ← seek name with
      | .start nc rootdir mdsk name =>
        match ← size p nc rootdir mdsk name with
        | .sized nc udsk =>
          let _ ← launch nc udsk
          let k ← Prog.get
          pure (k.cont nc).cid
        | _ => pure (-1)
      | _ => pure (-1)) := by
  unfold cstart seek size launch
  funext k
  rw [bind_assoc, Prog.get_bind, Prog.get_bind]
  cases findCont fun i => nameMatches name (k.cont i) ∧ (k.cont i).state = .cready with
  | none => simp only [pure_bind]
  | some nc =>
    -- size reads the tables again; in a call of its own they are those of the search.
    simp only [pure_bind, bind_assoc]
    rw [Prog.get_bind]
    refine congrFun (congrArg _ (funext fun udsk => ?_)) k
    split
    · simp only [pure_bind]
    · simp only [pure_bind]

theorem ccreate_parts (p : ProcId) (w : Wish) :
    ccreate p w.name w.mproc w.msz w.mdsk = (do
      match ← want w with
      | .wanted w =>
        match ← alloc w with
        | .alloced nc w =>
          match ← lookup p nc w with
          | .rooted nc ip w =>
            let _ ← publish p nc ip w
            pure 1
          | _ =>
            let _ ← abandon nc
            pure (-1)
        | _ => pure (-1)
      | _ => pure (-1)) := by
  unfold ccreate want alloc lookup publish abandon
  rw [bind_assoc]
  refine congrArg _ (funext fun k => ?_)
  split
  · rw [pure_bind]
  · split
    · rw [pure_bind]
    · simp only [pure_bind, bind_assoc]
      refine congrArg _ (funext fun r => ?_)
      cases r with
      | none => simp only [pure_bind]
      | some nc =>
        simp only [pure_bind]
        refine congrArg _ (funext fun k => congrArg _ (funext fun r => ?_))
        cases r with
        | none => simp only [pure_bind]
        | some ip => simp only [pure_bind]

end Parts

inductive Part where
  | test (op : Op) (name : Fs.CStr)
  | assign
  | seek (name : Fs.CStr)
  | size
  | launch
  | want (w : Wish)
  | alloc
  | lookup
  | abandon
  | publish

/- What a process does next in its call. -/
def part (p : ProcId) : Hand → Part → Option (KM Hand)
  | .idle, .test op name => some (test p op name)
  | .change c op, .assign => some (assign c op)
  | .idle, .seek name => some (seek name)
  | .start nc rootdir mdsk name, .size => some (size p nc rootdir mdsk name)
  | .sized nc udsk, .launch => some (launch nc udsk)
  | .idle, .want w => some (want w)
  | .wanted w, .alloc => some (alloc w)
  | .alloced nc w, .lookup => some (lookup p nc w)
  | .failed nc, .abandon => some (abandon nc)
  | .rooted nc ip w, .publish => some (publish p nc ip w)
  | _, _ => none

structure State where
  world : Races.World
  hand : ProcId → Hand

inductive Label where
  | part (cpu : Nat) (l : Part)
  /- kalloc or balloc finds the container of the process at its limit -/
  | kill (cpu : Nat)
  /- the file system changes under other processes -/
  | files (fs : FileSys)
  /- a step of fork, exit or the scheduler -/
  | other (l : Races.Label)

/- The process that a CPU runs is not in a call on containers. -/
def unoccupied (s : State) (cpu : Nat) : Bool :=
  match s.world.cpu cpu with
  | some (_, p) => match s.hand p with
    | .idle => true
    | _ => false
  | none => true

/- The steps of fork, exit and wait are calls of their own. The steps that stand for
changes of the containers are made here by the parts. -/
def apart (s : State) : Races.Label → Bool
  | .find cpu _ => unoccupied s cpu
  | .exit cpu => unoccupied s cpu
  | .wait cpu _ => unoccupied s cpu
  | .create _ => false
  | .change _ _ => false
  | _ => true

def step (s : State) : Label → Option State
  | .part cpu l =>
    match s.world.cpu cpu with
    | none => none
    | some (_, p) =>
      if Running s.world.kernel p ∧ s.world.lane p = .idle then
        (part p (s.hand p) l).bind fun x => (after x s.world.kernel).map fun (h, k) =>
          ⟨{ s.world with kernel := k }, Function.update s.hand p h⟩
      else none
  | .kill cpu => (Races.acts s.world cpu fun p => some (s.world.setCont (s.world.kernel.contOf p)
      fun c => { c with state := .cstopping })).map fun w => { s with world := w }
  | .files fs => some { s with world := { s.world with kernel := { s.world.kernel with fs := fs } } }
  | .other l => if apart s l then (Races.step s.world l).map fun w => { s with world := w } else none

/- The charter of container c becomes that of f, and nothing else changes that counts here. -/
def Sets (c : Nat) (f : Census.Charter → Census.Charter) (k k' : Kernel) : Prop :=
  k'.proc = k.proc ∧
    ∀ d, charter (k'.cont d) = if d = c then f (charter (k.cont c)) else charter (k.cont d)

def setState (state : ContState) (x : Census.Charter) : Census.Charter := { x with state := state }

/- The slot that a ccreate has taken. -/
def Hand.Takes : Hand → Nat → Prop
  | .alloced c _, d => c = d
  | .rooted c _ _, d => c = d
  | .failed c, d => c = d
  | _, _ => False

/- The arguments of the ccreate that a process is in. -/
def Hand.Wishes : Hand → Wish → Prop
  | .wanted w, v => w = v
  | .alloced _ w, v => w = v
  | .rooted _ _ w, v => w = v
  | _, _ => False

def Hand.Fewer (h h' : Hand) : Prop := (∀ c, h'.Takes c → h.Takes c) ∧ ∀ w, h'.Wishes w → h.Wishes w

/- What a part can do. -/
inductive Stroke (p : ProcId) (k : Kernel) : Part → Hand → Hand → Kernel → Prop where
  | plans {l : Part} {h h' : Hand} {k' : Kernel} : Sets (k.contOf p) id k k' → h.Fewer h' →
      Stroke p k l h h' k'
  | killed {l : Part} {h h' : Hand} {k' : Kernel} : Sets (k.contOf p) (setState .cstopping) k k' →
      h.Fewer h' → Stroke p k l h h' k'
  | wants {w : Wish} : w.mproc ≤ NPROC → Stroke p k (.want w) .idle (.wanted w) k
  | assigns {c : Nat} {op : Op} {k' : Kernel} : Sets c (setState op.target) k k' →
      Stroke p k .assign (.change c op) .idle k'
  | launches {c udsk : Nat} {k' : Kernel} : Sets c (setState .crunnable) k k' →
      Stroke p k .launch (.sized c udsk) .idle k'
  | allocs {c : Nat} {w : Wish} {k' : Kernel} : (k.cont c).state = .cunused →
      Sets c (setState .cembryo) k k' → Stroke p k .alloc (.wanted w) (.alloced c w) k'
  | abandons {c : Nat} {k' : Kernel} : Sets c (setState .cunused) k k' →
      Stroke p k .abandon (.failed c) .idle k'
  | publishes {c ip : Nat} {w : Wish} {k' : Kernel} :
      Sets c (fun x => { x with state := .cready, mproc := w.mproc }) k k' →
      Stroke p k .publish (.rooted c ip w) .idle k'

section Strokes
variable {p : ProcId} {k : Kernel}

theorem Sets.refl (c : Nat) (k : Kernel) : Sets c id k k := by
  refine ⟨rfl, fun d => ?_⟩
  split
  · rename_i here
    rw [here]
    rfl
  · rfl

theorem sets_update {k' : Kernel} {i : Nat} {c : Cont} {f : Census.Charter → Census.Charter}
    (procs : k'.proc = k.proc) (conts : k'.cont = Function.update k.cont i c)
    (same : charter c = f (charter (k.cont i))) : Sets i f k k' := by
  refine ⟨procs, fun d => ?_⟩
  rw [conts, Function.update_apply]
  split
  · exact same
  · rfl

theorem modifyCont_sets {i : Nat} {f : Cont → Cont} {g : Census.Charter → Census.Charter}
    (same : charter (f (k.cont i)) = g (charter (k.cont i))) :
    wp anyMode (modifyCont i f) (fun _ k' => Sets i g k k') k := wp_modify (sets_update rfl rfl same)

/- The file system can kill the container of its caller. -/
theorem onFs_sets {A : Type} (x : Fs.FsM A) [acts : Fs.Acts x] :
    wp anyMode (onFs p x) (fun _ k' =>
      Sets (k.contOf p) id k k' ∨ Sets (k.contOf p) (setState .cstopping) k k') k := by
  refine wp_zoom (wp_mono (acts.does (fun _ => trivial) (fun _ _ => trivial) _) fun _ t done => ?_)
  rcases Fs.Effects.cstate done with same | stopped
  · refine Or.inl (sets_update rfl rfl ?_)
    simp only [charter, same]
    rfl
  · refine Or.inr (sets_update rfl rfl ?_)
    simp only [charter, stopped]
    rfl

theorem idup_spec (ip : Nat) (s : Fs.FsState) : wp (anyMode.comap Event.fs) (Fs.idup ip)
    (fun r t => r = ip ∧ t.udsk = s.udsk ∧ t.cstate = s.cstate) s := by
  have counts : wp (anyMode.comap Event.fs) (Fs.addRef ip)
      (fun _ t => t.udsk = s.udsk ∧ t.cstate = s.cstate) s := by
    refine wp_get_bind ?_
    dsimp only
    split
    · exact wp_emit_bind fun _ => ⟨trivial, wp_modify ⟨rfl, rfl⟩⟩
    · exact wp_modify ⟨rfl, rfl⟩
  exact wp_seq counts fun _ _ same => wp_pure ⟨rfl, same⟩

theorem onFs_idup (ip : Nat) : wp anyMode (onFs p (Fs.idup ip))
    (fun r k' => r = ip ∧ k'.proc = k.proc ∧ k'.cont = k.cont) k := by
  refine wp_zoom (wp_mono (idup_spec ip _) ?_)
  rintro r t ⟨same, udsk, state⟩
  refine ⟨same, rfl, ?_⟩
  unfold Kernel.fsPut
  dsimp only
  rw [udsk, state]
  exact Function.update_eq_self _ _

theorem alloccont_sets : wp anyMode alloccont (fun r k' => match r with
    | none => k' = k
    | some c => (k.cont c).state = .cunused ∧ Sets c (setState .cembryo) k k') k := by
  refine wp_get_bind ?_
  split
  · rename_i i found
    refine wp_seq (modifyCont_sets rfl) fun _ k' set => wp_modify_bind (wp_pure ⟨?_, set⟩)
    exact of_decide_eq_true (findCont_some found).2
  · exact wp_pure rfl

theorem plans_or_killed {l : Part} {h h' : Hand} {k' : Kernel}
    (sets : Sets (k.contOf p) id k k' ∨ Sets (k.contOf p) (setState .cstopping) k k')
    (fewer : h.Fewer h') : Stroke p k l h h' k' := by
  rcases sets with same | stopped
  · exact .plans same fewer
  · exact .killed stopped fewer

theorem part_stroke {h : Hand} {l : Part} {x : KM Hand} (next : part p h l = some x) :
    wp anyMode x (fun h' k' => Stroke p k l h h' k') k := by
  have stays {l : Part} {h h' : Hand} (fewer : h.Fewer h') : Stroke p k l h h' k :=
    .plans (.refl _ k) fewer
  have idle {l : Part} {h : Hand} : Stroke p k l h .idle k := stays ⟨fun _ => False.elim, fun _ => False.elim⟩
  unfold part at next
  split at next <;> cases next
  · refine wp_get_bind (wp_ite (fun _ => wp_pure idle) fun _ => ?_)
    split
    · exact wp_pure idle
    · refine wp_ite (fun _ => wp_pure (stays ?_)) fun _ => wp_pure idle
      exact ⟨fun _ => False.elim, fun _ => False.elim⟩
  · exact wp_seq (modifyCont_sets rfl) fun _ _ set => wp_pure (.assigns set)
  · refine wp_get_bind ?_
    split
    · exact wp_pure idle
    · exact wp_pure (stays ⟨fun _ => False.elim, fun _ => False.elim⟩)
  · refine wp_get_bind (wp_seq (onFs_sets _) fun udsk k' set => ?_)
    refine wp_ite (fun _ => wp_pure ?_) fun _ => wp_pure ?_
    · exact plans_or_killed set ⟨fun _ => False.elim, fun _ => False.elim⟩
    · exact plans_or_killed set ⟨fun _ => False.elim, fun _ => False.elim⟩
  · exact wp_seq (modifyCont_sets rfl) fun _ _ set => wp_pure (.launches set)
  · refine wp_get_bind (wp_ite (fun _ => wp_pure idle) fun _ => wp_ite (fun _ => wp_pure idle) fun fits => ?_)
    exact wp_pure (.wants (not_lt.mp fun large => fits (Or.inl large)))
  · refine wp_seq alloccont_sets fun r k' spec => ?_
    cases r with
    | none =>
      cases spec
      exact wp_pure idle
    | some c => exact wp_pure (.allocs spec.1 spec.2)
  · refine wp_get_bind (wp_seq (onFs_sets _) fun r k' set => ?_)
    cases r with
    | none => exact wp_pure (plans_or_killed set ⟨fun _ same => same, fun _ => False.elim⟩)
    | some ip => exact wp_pure (plans_or_killed set ⟨fun _ same => same, fun _ same => same⟩)
  · exact wp_seq (modifyCont_sets rfl) fun _ _ set => wp_pure (.abandons set)
  · refine wp_seq (onFs_idup _) ?_
    rintro rootdir k₁ ⟨-, procs, conts⟩
    refine wp_modify_bind (wp_pure (.publishes (sets_update procs (congrArg (Function.update · _ _) conts) ?_)))
    rw [← conts]
    rfl

end Strokes

end Xv6c.Control

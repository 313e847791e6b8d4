import Xv6c.Fs.Effects
import Xv6c.Kernel.System
import Xv6c.Mem.Effects

/-! What a system call can do to the kernel's tables, said once for every call: each
call is a sequence of a few kinds of changes, and the containers that it can reach
are known from its arguments. -/
namespace Xv6c
open Lib

/- The containers whose processes, whose number of processes and whose record change,
and the open files that become others. -/
structure Scope where
  rows : Nat → Prop
  counts : Nat → Prop
  records : Nat → Prop
  files : Nat → Prop

/- Only slots of container c change, or also its number of processes. -/
def Scope.slots (c : Nat) : Scope := ⟨fun i => i = c, fun _ => False, fun _ => False, fun _ => False⟩
def Scope.own (c : Nat) (files : Nat → Prop) : Scope :=
  ⟨fun i => i = c, fun i => i = c, fun _ => False, files⟩

/- A file with the same type and the same pipe. -/
def SameFile (f g : File) : Prop := g.type = f.type ∧ g.pipe = f.pipe

/- The slot of a process that goes on, or goes to sleep. -/
def Tends (q r : Proc) : Prop :=
  r.cont = q.cont ∧ r.parent = q.parent ∧ r.pid = q.pid ∧ (r.state = q.state ∨ r.state = .sleeping)

inductive Effect (p : ProcId) (sc : Scope) : Kernel → Kernel → Prop where
  | fs (k : Kernel) (s : Fs.FsState) : Fs.Effects (k.fsView p) s → Effect p sc k (k.fsPut p s)
  | mem (k : Kernel) (s : Mem.MemState) : Mem.Effects (k.memView p) s → Effect p sc k (k.memPut p s)
  | tend (k : Kernel) (r : Proc) : Tends (k.procAt p) r → Effect p sc k (k.setProc p r)
  | file (k : Kernel) (file : Nat → File) : (∀ f, sc.files f ∨ SameFile (k.file f) (file f)) →
      Effect p sc k { k with file := file }
  | nextpid (k : Kernel) (pid : Int) : Effect p sc k { k with nextpid := pid }
  | nextcid (k : Kernel) (cid : Int) (i : Nat) : sc.records i → Effect p sc k { k with nextcid := cid }
  | wake (k : Kernel) (chan : Chan) : Effect p sc k { k with proc := woken k chan }
  | proc (k : Kernel) (q : ProcId) (r : Proc) : sc.rows q.cont → (q = p → r.cont = k.contOf p) →
      Effect p sc k (k.setProc q r)
  | count (k : Kernel) (i : Nat) (n : Int) : sc.counts i →
      Effect p sc k { k with cont := Function.update k.cont i { k.cont i with uproc := n } }
  | record (k : Kernel) (i : Nat) (c : Cont) : sc.records i →
      Effect p sc k { k with cont := Function.update k.cont i c }

abbrev Effects (p : ProcId) (sc : Scope) : Kernel → Kernel → Prop :=
  Relation.ReflTransGen (Effect p sc)

theorem procAt_setProc (k : Kernel) (p q : ProcId) (r : Proc) :
    (k.setProc p r).procAt q = if q = p then r else k.procAt q := by
  simp only [Kernel.procAt, Kernel.setProc, Function.update_apply]
  by_cases same : q = p
  · subst same
    simp
  · rw [if_neg same]
    split
    · rename_i row
      rw [Function.update_of_ne, row]
      intro col
      exact same (by cases p; cases q; simp_all)
    · rfl

theorem findCont_some {p : Nat → Bool} {c : Nat} (found : findCont p = some c) :
    c < NCONT ∧ p c :=
  ⟨List.mem_range.mp (List.mem_of_find?_eq_some found), List.find?_some found⟩

theorem findProc_some {k : Kernel} {c j : Nat} {f : Proc → Bool} (found : findProc k c f = some j) :
    (j : Int) < (k.cont c).mproc ∧ f (k.proc c j) = true := by
  unfold findProc at found
  have inside := List.mem_range.mp (List.mem_of_find?_eq_some found)
  have holds := List.find?_some found
  exact ⟨by omega, holds⟩

/- A process stays in its container. -/
theorem Effect.contOf {p : ProcId} {sc : Scope} {k k' : Kernel} (h : Effect p sc k k') :
    k'.contOf p = k.contOf p := by
  cases h with
  | wake chan =>
    simp only [Kernel.contOf, Kernel.procAt, woken]
    split <;> rfl
  | tend r tends =>
    simp only [Kernel.contOf, procAt_setProc]
    exact tends.1
  | proc q r row own =>
    simp only [Kernel.contOf, procAt_setProc]
    split
    · rename_i same
      exact own same.symm
    · rfl
  | _ => rfl

theorem Effects.contOf {p : ProcId} {sc : Scope} {k k' : Kernel} (h : Effects p sc k k') :
    k'.contOf p = k.contOf p := by
  induction h with
  | refl => rfl
  | tail _ last ih => exact last.contOf.trans ih

/- The calls that work on the memory and the files of the process alone, said once for every
relation that their steps keep to: those of the file system and of the memory, a process that
is woken, the offset of a file, and the own slot with its descriptors left alone. -/
class SharedSteps (r : Kernel → Kernel → Prop) : Prop where
  wake : ∀ k chan, r k { k with proc := woken k chan }
  offset : ∀ k f n, r k { k with file := Function.update k.file f { k.file f with off := n } }

class OwnSteps (p : ProcId) (r : Kernel → Kernel → Prop) : Prop where
  fs : ∀ k s, Fs.Effects (k.fsView p) s → r k (k.fsPut p s)
  mem : ∀ k s, Mem.Effects (k.memView p) s → r k (k.memPut p s)
  tend : ∀ k q, Tends (k.procAt p) q → q.ofile = (k.procAt p).ofile → q.killed = (k.procAt p).killed →
    r k (k.setProc p q)

/- All that a program does is steps of r. -/
abbrev Walks (r : Kernel → Kernel → Prop) {A : Type} (x : KM A) : Prop := Does (fun _ => True) r x

section Walks
variable {p : ProcId} {r : Kernel → Kernel → Prop} {A : Type}

instance walks_fault (e : Fault) : Walks r (Prog.fault e : KM A) := does_fault trivial

instance walks_panic (msg : String) : Walks r (panic msg : KM A) := does_fault trivial

instance walks_onFd (fd : Int) (x : Nat → KM (Option Int)) [∀ f, Walks r (x f)] : Walks r (onFd p fd x) := by
  unfold onFd
  refine .seq fun k => ?_
  split <;> infer_instance

instance walks_returns (x : KM Int) [Walks r x] : Walks r (returns x) := by
  unfold returns
  infer_instance

instance walks_wakeup1 [steps : SharedSteps r] (chan : Chan) : Walks r (wakeup1 chan) :=
  does_modify fun _ => steps.wake _ _

instance walks_wakeup [SharedSteps r] (chan : Chan) : Walks r (wakeup chan) := walks_wakeup1 chan

instance walks_offset [steps : SharedSteps r] (f n : Nat) :
    Walks r (modifyFile f fun g => { g with off := (g.off + n) % 2 ^ 32 }) :=
  does_modify fun _ => steps.offset _ _ _

variable [steps : OwnSteps p r]

instance walks_onFs (x : Fs.FsM A) [acts : Fs.Acts x] : Walks r (onFs p x) :=
  ⟨fun _ => wp_zoom (wp_mono (acts.does (fun _ => trivial) (fun _ _ => trivial) _) fun _ t done =>
    .single (steps.fs _ t done))⟩

instance walks_onMem (x : Mem.MemM A) [acts : Mem.Acts x] : Walks r (onMem p x) :=
  ⟨fun _ => wp_zoom (wp_mono (acts.does (fun _ => trivial) (fun _ _ => trivial) _) fun _ t done =>
    .single (steps.mem _ t done))⟩

theorem walks_tend {f : Proc → Proc} (each : ∀ q, Tends q (f q)) (ofile : ∀ q, (f q).ofile = q.ofile)
    (killed : ∀ q, (f q).killed = q.killed) : Walks r (modifyProc p f) :=
  does_modify fun _ => steps.tend _ _ (each _) (ofile _) (killed _)

instance walks_sleep (chan : Chan) : Walks r (sleep p chan) :=
  walks_tend (fun _ => ⟨rfl, rfl, rfl, Or.inr rfl⟩) (fun _ => rfl) fun _ => rfl

instance walks_filestat (f : Nat) : Walks r (filestat p f) := by
  unfold filestat
  infer_instance

instance walks_switchuvm (q : ProcId) : Walks r (switchuvm q) := by
  unfold switchuvm
  infer_instance

instance walks_growproc (n : Int) : Walks r (growproc p n) := by
  have sized (sz : Nat) : Walks r (modifyProc p fun q => { q with sz := sz }) :=
    walks_tend (fun _ => ⟨rfl, rfl, rfl, Or.inl rfl⟩) (fun _ => rfl) fun _ => rfl
  unfold growproc
  infer_instance

instance walks_loadLoop (pgdir addr ip offset sz n i : Nat) : Walks r (loadLoop p pgdir addr ip offset sz n i) := by
  induction n generalizing i with
  | zero => exact does_fault trivial
  | succ n ih =>
    unfold loadLoop
    refine .branch (.seq fun found => ?_) inferInstance
    cases found with
    | none => infer_instance
    | some slot =>
      obtain ⟨t, j⟩ := slot
      dsimp only
      refine .seq fun k => .seq fun got => ?_
      infer_instance

instance walks_loadProgram (ip pgdir n off sz : Nat) : Walks r (loadProgram p ip pgdir n off sz) := by
  induction n generalizing off sz with
  | zero => exact does_pure _
  | succ n ih =>
    unfold loadProgram loaduvm
    dsimp only
    infer_instance

instance walks_pushArgs (pgdir : Nat) (args : List Fs.CStr) (sp : Nat) (done : List Nat) :
    Walks r (pushArgs p pgdir args sp done) := by
  induction args generalizing sp done with
  | nil => exact does_pure _
  | cons arg args ih =>
    unfold pushArgs
    dsimp only
    infer_instance

instance walks_execBad (pgdir : Nat) (ip : Option Nat) : Walks r (execBad p pgdir ip) := by
  unfold execBad
  cases ip <;> infer_instance

instance walks_execStack (path : Fs.CStr) (argv : List Fs.CStr) (entry pgdir sz : Nat) :
    Walks r (execStack p path argv entry pgdir sz) := by
  unfold execStack
  refine .seq fun sz => .branch inferInstance (.seq fun _ => .seq fun pushed => ?_)
  cases pushed with
  | none => infer_instance
  | some stack =>
    obtain ⟨sp, args⟩ := stack
    have committed (sp : Nat) : Walks r (modifyProc p fun q => { q with
        name := progName path.bytes, pgdir := pgdir, sz := sz, tf := { q.tf with eip := entry, esp := sp } }) :=
      walks_tend (fun _ => ⟨rfl, rfl, rfl, Or.inl rfl⟩) (fun _ => rfl) fun _ => rfl
    dsimp only
    infer_instance

instance walks_exec (path : Fs.CStr) (argv : List Fs.CStr) : Walks r (exec p path argv) := by
  unfold exec
  refine .seq fun _ => .seq fun k => .seq fun found => ?_
  cases found with
  | none => infer_instance
  | some ip =>
    refine .seq fun _ => .seq fun got => ?_
    dsimp only
    refine .branch inferInstance (.seq fun pgdir => .branch inferInstance (.seq fun loaded => ?_))
    cases loaded <;> infer_instance

instance walks_sysChdir (path : Fs.CStr) : Walks r (sysChdir p path) := by
  unfold sysChdir
  refine .seq fun k => .seq fun found => ?_
  cases found with
  | none => infer_instance
  | some ip =>
    have moved : Walks r (modifyProc p fun q => { q with cwd := some ip }) :=
      walks_tend (fun _ => ⟨rfl, rfl, rfl, Or.inl rfl⟩) (fun _ => rfl) fun _ => rfl
    infer_instance

variable [SharedSteps r]

instance walks_pipeclose (pipe : Nat) (w : Bool) : Walks r (pipeclose p pipe w) := by
  unfold pipeclose
  infer_instance

instance walks_pipewrite (pipe : Nat) (bs : List Byte) (n : Int) : Walks r (pipewrite p pipe bs n) := by
  induction bs with
  | nil =>
    unfold pipewrite
    infer_instance
  | cons b bs ih =>
    unfold pipewrite
    infer_instance

instance walks_pipeTake (pipe n : Nat) : Walks r (pipeTake p pipe n) := by
  induction n with
  | zero => exact does_pure _
  | succ n ih =>
    unfold pipeTake
    infer_instance

instance walks_piperead (pipe n : Nat) : Walks r (piperead p pipe n) := by
  unfold piperead
  infer_instance

instance walks_fileread (f n : Nat) : Walks r (fileread p f n) := by
  unfold fileread
  refine .seq fun k => .branch ?_ inferInstance
  split <;> infer_instance

instance walks_filewriteLoop (f : Nat) (data : Bytes) (n fuel i : Nat) :
    Walks r (filewriteLoop p f data n fuel i) := by
  induction fuel generalizing i with
  | zero => exact does_fault trivial
  | succ fuel ih =>
    unfold filewriteLoop
    refine .branch (.seq fun k => .seq fun _ => .seq fun _ => .seq fun written => ?_) inferInstance
    dsimp only
    infer_instance

instance walks_filewrite (f : Nat) (data : List Byte) : Walks r (filewrite p f data) := by
  unfold filewrite
  refine .seq fun k => .branch ?_ inferInstance
  split <;> infer_instance

end Walks

/- The calls on containers keep to every relation that only looks at processes and files. -/
class TableSteps (r : Kernel → Kernel → Prop) : Prop extends SharedSteps r where
  tables : ∀ {k k' : Kernel}, k'.proc = k.proc → k'.file = k.file → r k k'

section Containers
variable {p : ProcId} {r : Kernel → Kernel → Prop} {A : Type} [steps : TableSteps r]

instance tables_onFs (x : Fs.FsM A) : Walks r (onFs p x) :=
  ⟨fun _ => wp_zoom (wp_mono (wp_any x _ (fun _ => trivial) fun _ => trivial) fun _ _ _ =>
    .single (steps.tables rfl rfl))⟩

instance tables_onMem (x : Mem.MemM A) : Walks r (onMem p x) :=
  ⟨fun _ => wp_zoom (wp_mono (wp_any x _ (fun _ => trivial) fun _ => trivial) fun _ _ _ =>
    .single (steps.tables rfl rfl))⟩

instance tables_modifyCont (i : Nat) (c : Cont → Cont) : Walks r (modifyCont i c) :=
  does_modify fun _ => steps.tables rfl rfl

instance tables_nextpid : Walks r (Prog.modify fun k => { k with nextpid := incr k.nextpid } : KM Unit) :=
  does_modify fun _ => steps.tables rfl rfl

instance tables_alloccont : Walks r alloccont := by
  have counted : Walks r (Prog.modify fun k => { k with nextcid := incr k.nextcid } : KM Unit) :=
    does_modify fun _ => steps.tables rfl rfl
  unfold alloccont
  refine .seq fun k => ?_
  split <;> infer_instance

instance tables_ccreate (name : Fs.CStr) (mproc : Int) (msz mdsk : Nat) :
    Walks r (ccreate p name mproc msz mdsk) := by
  unfold ccreate
  refine .seq fun k => .branch inferInstance (.branch inferInstance (.seq fun made => ?_))
  cases made with
  | none => infer_instance
  | some nc =>
    refine .seq fun k => .seq fun found => ?_
    cases found <;> infer_instance

instance tables_cstart (name : Fs.CStr) : Walks r (cstart p name) := by
  unfold cstart
  refine .seq fun k => ?_
  split <;> infer_instance

instance tables_changeState (name : Fs.CStr) (source : List ContState) (target : ContState) :
    Walks r (changeState p name source target) := by
  unfold changeState
  refine .seq fun k => .branch inferInstance ?_
  split <;> infer_instance

end Containers

/- A process that closes its files and ends keeps to every relation that, beyond that, allows
files to become none and slots to lose descriptors, as long as no mark changes and no slot is
freed. -/
class LeavingSteps (r : Kernel → Kernel → Prop) : Prop extends TableSteps r where
  file : ∀ k f x, (x.type = .pipe → SameFile (k.file f) x) → r k { k with file := Function.update k.file f x }
  slot : ∀ k q x, (∀ fd f, x.ofile fd = some f → (k.procAt q).ofile fd = some f) →
    x.killed = (k.procAt q).killed → (x.state = .unused → (k.procAt q).state = .unused) → r k (k.setProc q x)

section Leaving
variable {p : ProcId} {r : Kernel → Kernel → Prop} [steps : LeavingSteps r]

instance : OwnSteps p r where
  fs _ _ _ := steps.tables rfl rfl
  mem _ _ _ := steps.tables rfl rfl
  tend k q tends ofile killed := by
    refine steps.slot k p q (fun _ _ held => ofile ▸ held) killed fun unused => ?_
    rcases tends.2.2.2 with same | asleep
    · exact same ▸ unused
    · exact nomatch asleep.symm.trans unused

theorem leaves_modifyProc {q : ProcId} {c : Proc → Proc} (ofile : ∀ x, (c x).ofile = x.ofile)
    (killed : ∀ x, (c x).killed = x.killed) (used : ∀ x, (c x).state = .unused → x.state = .unused) :
    Walks r (modifyProc q c) :=
  does_modify fun _ => steps.slot _ _ _ (fun _ _ held => ofile _ ▸ held) (killed _) (used _)

theorem leaves_modifyFile {f : Nat} {c : File → File} (each : ∀ x, (c x).type = .pipe → SameFile x (c x)) :
    Walks r (modifyFile f c) := does_modify fun _ => steps.file _ _ _ (each _)

instance leaves_drop (fd : Nat) :
    Walks r (modifyProc p fun q => { q with ofile := Function.update q.ofile fd none }) := by
  refine does_modify fun k => steps.slot k p _ (fun j f held => ?_) rfl id
  dsimp only at held
  rw [Function.update_apply] at held
  exact (Option.ite_none_left_eq_some.mp held).2

instance leaves_filedup (f : Nat) : Walks r (filedup f) := by
  have counted : Walks r (modifyFile f fun g => { g with ref := incr g.ref }) :=
    leaves_modifyFile fun _ _ => ⟨rfl, rfl⟩
  unfold filedup
  infer_instance

instance leaves_fileclose (f : Nat) : Walks r (fileclose p f) := by
  have counted : Walks r (modifyFile f fun g => { g with ref := g.ref - 1 }) :=
    leaves_modifyFile fun _ _ => ⟨rfl, rfl⟩
  have closed : Walks r (modifyFile f fun g => { g with ref := 0, type := .none }) := leaves_modifyFile nofun
  unfold fileclose
  refine .seq fun k => .branch inferInstance (.branch inferInstance (.seq fun _ => ?_))
  split <;> infer_instance

instance leaves_closeFiles (n fd : Nat) : Walks r (closeFiles p n fd) := by
  induction n generalizing fd with
  | zero => exact does_pure _
  | succ n ih =>
    unfold closeFiles
    refine .seq fun k => ?_
    dsimp only
    split <;> infer_instance

instance leaves_reparent (c n j : Nat) : Walks r (reparent p c n j) := by
  have passed (i : ProcId) (j : Nat) : Walks r (modifyProc ⟨c, j⟩ fun q => { q with parent := some i }) :=
    leaves_modifyProc (fun _ => rfl) (fun _ => rfl) fun _ => id
  induction n generalizing j with
  | zero => exact does_pure _
  | succ n ih =>
    unfold reparent
    infer_instance

instance leaves_exit : Walks r (exit p) := by
  have left : Walks r (modifyProc p fun q => { q with cwd := none }) :=
    leaves_modifyProc (fun _ => rfl) (fun _ => rfl) fun _ => id
  have done : Walks r (modifyProc p fun q => { q with state := .zombie }) :=
    leaves_modifyProc (fun _ => rfl) (fun _ => rfl) fun _ => nofun
  unfold exit
  refine .seq fun k => .branch inferInstance (.seq fun _ => .seq fun _ => .seq fun _ => .seq fun _ => .seq fun _ => ?_)
  refine .seq fun k => ?_
  dsimp only
  split <;> infer_instance

instance leaves_sysClose (fd : Int) : Walks r (sysClose p fd) := by
  unfold sysClose
  refine .seq fun k => ?_
  split <;> infer_instance

instance leaves_openBad (ip : Nat) (f : Option Nat) : Walks r (openBad p ip f) := by
  unfold openBad
  cases f <;> infer_instance

end Leaving

instance {p : ProcId} {sc : Scope} : SharedSteps (Effect p sc) where
  wake := .wake
  offset k f n := .file k _ fun h => Or.inr (update_related (fun _ => ⟨rfl, rfl⟩) ⟨rfl, rfl⟩ h)

instance {p : ProcId} {sc : Scope} : OwnSteps p (Effect p sc) where
  fs := .fs
  mem := .mem
  tend k q tends _ _ := .tend k q tends

/- Nothing is asked of events and faults. -/
def anyMode : Mode Event Fault := ⟨fun _ => True, fun _ => True, fun _ => True⟩

theorem call_spec {k k' : Kernel} {p : ProcId} {c : Syscall} {Q : Kernel → Prop}
    (spec : wp anyMode (syscall p c) (fun _ t => Q t) k) (done : step k (.call p c) = some k') :
    Q k' :=
  (step_spec (fun _ => wp_seq spec fun _ _ h => wp_pure h) fun _ _ => trivial).2 k' done

/- A program that a process of container c runs, and all that it does. -/
def Acts (p : ProcId) (c : Nat) (sc : Scope) {A : Type} (x : KM A) : Prop :=
  ∀ k, k.contOf p = c → wp anyMode x (fun _ k' => Effects p sc k k') k

section Rules
variable {p : ProcId} {c : Nat} {sc : Scope} {A B : Type}

theorem acts_pure (a : A) : Acts p c sc (pure a : KM A) := fun _ _ => wp_pure .refl

theorem acts_fault (e : Fault) : Acts p c sc (Prog.fault e : KM A) := fun _ _ => wp_fault trivial

theorem acts_bind_result {x : KM A} {f : A → KM B} {R : A → Prop} (first : Acts p c sc x)
    (result : ∀ k, wp anyMode x (fun a _ => R a) k) (rest : ∀ a, R a → Acts p c sc (f a)) :
    Acts p c sc (x >>= f) := by
  intro k home
  refine wp_seq (wp_and (first k home) (result k)) fun a k₁ ⟨before, known⟩ => ?_
  exact wp_mono (rest a known k₁ (before.contOf.trans home)) fun _ _ after => before.trans after

theorem acts_bind {x : KM A} {f : A → KM B} (first : Acts p c sc x) (rest : ∀ a, Acts p c sc (f a)) :
    Acts p c sc (x >>= f) :=
  acts_bind_result (R := fun _ => True) first
    (fun k => wp_any x k (fun _ => trivial) fun _ => trivial) fun a _ => rest a

theorem acts_get {f : Kernel → KM B} (rest : ∀ k, k.contOf p = c → Acts p c sc (f k)) :
    Acts p c sc (Prog.get >>= f) := fun k home => wp_get_bind (rest k home k home)

theorem acts_ite {q : Prop} [Decidable q] {x y : KM A} (left : Acts p c sc x)
    (right : Acts p c sc y) : Acts p c sc (if q then x else y) :=
  fun k home => wp_ite (fun _ => left k home) (fun _ => right k home)

theorem acts_modify {f : Kernel → Kernel} (each : ∀ k, k.contOf p = c → Effect p sc k (f k)) :
    Acts p c sc (Prog.modify f) := fun k home => wp_modify (.single (each k home))

theorem acts_walks (x : KM A) [walks : Walks (Effect p sc) x] : Acts p c sc x := fun k _ => walks.within k

theorem acts_onFs (x : Fs.FsM A) [Fs.Acts x] : Acts p c sc (onFs p x) := acts_walks _

theorem acts_onMem (x : Mem.MemM A) [Mem.Acts x] : Acts p c sc (onMem p x) := acts_walks _

theorem acts_tend {f : Proc → Proc} (each : ∀ q, Tends q (f q)) : Acts p c sc (modifyProc p f) :=
  acts_modify fun _ _ => .tend _ _ (each _)

theorem acts_modifyFile {f : Nat} {g : File → File} (kept : sc.files f ∨ ∀ x, SameFile x (g x)) :
    Acts p c sc (modifyFile f g) := by
  refine acts_modify fun k _ => .file _ _ fun h => ?_
  obtain rfl | other := eq_or_ne h f
  · rw [Function.update_self]
    exact kept.imp_right fun all => all _
  · rw [Function.update_of_ne other]
    exact Or.inr ⟨rfl, rfl⟩

theorem acts_wakeup (chan : Chan) : Acts p c sc (wakeup chan) := acts_walks _

theorem acts_modifyProc {q : ProcId} {f : Proc → Proc} (row : sc.rows q.cont)
    (own : ∀ r, q = p → r.cont = c → (f r).cont = c) : Acts p c sc (modifyProc q f) :=
  acts_modify fun k home => .proc _ _ _ row fun same => by
    subst same
    exact (own _ rfl home).trans home.symm

end Rules

section Files
variable {p : ProcId} {c : Nat} {sc : Scope}

/- filealloc takes a file that was not in use. -/
theorem filealloc_acts (p : ProcId) (sc : Scope) (k : Kernel) :
    wp anyMode filealloc (fun r k' => Effects p sc k k' ∧ ∀ f, r = some f →
      (k.file f).ref = 0 ∧ ∀ h, (k'.file h).ref = 0 → (k.file h).ref = 0) k := by
  unfold filealloc
  refine wp_get_bind ?_
  split
  · rename_i f found
    have free : (k.file f).ref = 0 := by simpa using List.find?_some found
    refine wp_modify_bind (wp_pure ⟨.single (.file _ _ fun h => Or.inr ?_), ?_⟩)
    · exact update_related (fun _ => ⟨rfl, rfl⟩) ⟨rfl, rfl⟩ h
    · rintro h same
      cases same
      refine ⟨free, fun h unused => ?_⟩
      by_cases here : h = f
      · exact here ▸ free
      · dsimp only at unused
        rwa [Function.update_of_ne here] at unused
  · exact wp_pure ⟨.refl, by simp⟩

theorem acts_filealloc : Acts p c sc filealloc := fun k _ =>
  wp_mono (filealloc_acts p sc k) fun _ _ h => h.1

theorem acts_filedup (f : Nat) : Acts p c sc (filedup f) :=
  acts_get fun _ _ => acts_ite (acts_fault _) (acts_modifyFile (Or.inr fun _ => ⟨rfl, rfl⟩))

theorem acts_fileclose {f : Nat} (files : sc.files f) : Acts p c sc (fileclose p f) := by
  unfold fileclose
  refine acts_get fun k _ => acts_ite (acts_fault _) (acts_ite (acts_modifyFile (Or.inl files)) ?_)
  refine acts_bind (acts_modifyFile (Or.inl files)) fun _ => ?_
  split
  · exact acts_walks _
  · exact acts_bind (acts_onFs _) fun _ => acts_bind (acts_onFs _) fun _ => acts_onFs _
  · exact acts_pure _

/- The end of pipealloc that fails. -/
theorem pipeBad_acts {f0 f1 : Option Nat} (files : ∀ f, f0 = some f ∨ f1 = some f → sc.files f)
    (k : Kernel) : wp anyMode (pipeBad p f0 f1) (fun r k' => Effects p sc k k' ∧ r = none) k := by
  have closing (f : Nat) (part : f0 = some f ∨ f1 = some f) :
      Acts p (k.contOf p) sc (fileclose p f) := acts_fileclose (files f part)
  unfold pipeBad
  cases f0 <;> cases f1
  · exact wp_pure ⟨.refl, rfl⟩
  · exact wp_seq (closing _ (Or.inr rfl) k rfl) fun _ _ done => wp_pure ⟨done, rfl⟩
  · exact wp_seq (closing _ (Or.inl rfl) k rfl) fun _ _ done => wp_pure ⟨done, rfl⟩
  · refine wp_seq (closing _ (Or.inl rfl) k rfl) fun _ k₁ first => ?_
    exact wp_seq (closing _ (Or.inr rfl) k₁ first.contOf) fun _ _ second =>
      wp_pure ⟨first.trans second, rfl⟩

/- Only files that were free change, in pipealloc and if its result is closed again. -/
theorem pipealloc_acts {k : Kernel} (free : ∀ f, (k.file f).ref = 0 → sc.files f) :
    wp anyMode (pipealloc p) (fun r k' => Effects p sc k k' ∧
      ∀ rf wf, r = some (rf, wf) → sc.files rf ∧ sc.files wf) k := by
  have bad {f0 f1 : Option Nat} {k' : Kernel} (before : Effects p sc k k')
      (files : ∀ f, f0 = some f ∨ f1 = some f → sc.files f) : wp anyMode (pipeBad p f0 f1)
        (fun r k' => Effects p sc k k' ∧ ∀ rf wf, r = some (rf, wf) → sc.files rf ∧ sc.files wf) k' :=
    wp_mono (pipeBad_acts files k') fun _ _ ⟨after, failed⟩ =>
      ⟨before.trans after, fun _ _ same => nomatch failed.symm.trans same⟩
  unfold pipealloc
  refine wp_seq (filealloc_acts p sc k) ?_
  rintro f0 k₁ ⟨first, taken⟩
  cases f0 with
  | none => exact bad first fun _ same => by simp at same
  | some f0 =>
    obtain ⟨free0, rest⟩ := taken f0 rfl
    refine wp_seq (filealloc_acts p sc k₁) ?_
    rintro f1 k₂ ⟨second, taken⟩
    cases f1 with
    | none => exact bad (first.trans second) fun f same => by simp at same; exact same ▸ free _ free0
    | some f1 =>
      have free1 := rest f1 (taken f1 rfl).1
      have mem {A : Type} (x : Mem.MemM A) [Mem.Acts x] (k : Kernel) :
          wp anyMode (onMem p x) (fun _ k' => Effects p sc k k') k := acts_onMem x k rfl
      have modify {f : Nat} (files : sc.files f) (g : File → File) (k : Kernel) :
          wp anyMode (modifyFile f g) (fun _ k' => Effects p sc k k') k :=
        acts_modifyFile (Or.inl files) k rfl
      refine wp_seq (mem _ k₂) fun pipe k₃ third => wp_ite (fun _ => ?_) fun _ => ?_
      · refine bad ((first.trans second).trans third) fun f same => ?_
        simp only [Option.some.injEq] at same
        rcases same with rfl | rfl
        · exact free _ free0
        · exact free _ free1
      · have start := (first.trans second).trans third
        refine wp_seq (mem _ k₃) fun _ k₄ fourth => ?_
        refine wp_seq (modify (free _ free0) _ k₄) fun _ k₅ fifth => ?_
        refine wp_seq (modify (free _ free1) _ k₅) fun _ k₆ sixth => wp_pure ⟨?_, ?_⟩
        · exact ((start.trans fourth).trans fifth).trans sixth
        · rintro rf wf same
          cases same
          exact ⟨free _ free0, free _ free1⟩

end Files

section Processes
variable {p : ProcId} {c : Nat} {sc : Scope} (home : p.cont = c)
include home

theorem acts_allocproc {d : Nat} (row : sc.rows d) (counted : sc.counts d) :
    Acts p c sc (allocproc p d) := by
  unfold allocproc
  refine acts_get fun k _ => acts_ite (acts_pure _) ?_
  split
  · exact acts_pure _
  · rename_i j _
    have slot {f : Proc → Proc} (same : ∀ r, (f r).cont = r.cont) :
        Acts p c sc (modifyProc ⟨d, j⟩ f) :=
      acts_modifyProc row fun r _ here => (same r).trans here
    refine acts_bind (slot fun _ => rfl) fun _ => acts_bind (acts_modify fun _ _ => .nextpid _ _) fun _ =>
      acts_bind (acts_onMem _) fun kstack => acts_bind (slot fun _ => rfl) fun _ => acts_ite ?_ ?_
    · exact acts_bind (slot fun _ => rfl) fun _ => acts_pure _
    · refine acts_bind (acts_modifyProc row fun r here _ => ?_) fun _ =>
        acts_bind (acts_modify fun _ _ => .count _ _ _ counted) fun _ => acts_pure _
      exact (congrArg ProcId.cont here).trans home

omit home in
/- A change to a process that leaves its container alone. -/
theorem acts_adjust {q : ProcId} {f : Proc → Proc} (row : sc.rows q.cont)
    (same : ∀ r, (f r).cont = r.cont) : Acts p c sc (modifyProc q f) :=
  acts_modifyProc row fun r _ here => (same r).trans here

omit home in
theorem acts_dupFiles {np : ProcId} (row : sc.rows np.cont) (ofile : Nat → Option Nat) (n fd : Nat) :
    Acts p c sc (dupFiles np ofile n fd) := by
  induction n generalizing fd with
  | zero => exact acts_pure _
  | succ n ih =>
    unfold dupFiles
    split
    · exact acts_bind (acts_filedup _) fun _ => acts_bind (acts_adjust row fun _ => rfl) fun _ => ih _
    · exact acts_bind (acts_pure _) fun _ => ih _

omit home in
theorem acts_forkChild {np : ProcId} (row : sc.rows np.cont) (cur : Proc) (cwd : Option Nat)
    (parent : ProcId) : Acts p c sc (forkChild p np cur cwd parent) := by
  unfold forkChild
  refine acts_bind (acts_onMem _) fun _ => acts_bind (acts_adjust row fun _ => rfl) fun _ =>
    acts_ite ?_ ?_
  · exact acts_get fun _ _ => acts_bind (acts_onMem _) fun _ =>
      acts_bind (acts_adjust row fun _ => rfl) fun _ => acts_pure _
  · exact acts_bind (acts_adjust row fun _ => rfl) fun _ => acts_bind (acts_dupFiles row _ _ _) fun _ =>
      acts_bind (acts_onFs _) fun _ => acts_bind (acts_adjust row fun _ => rfl) fun _ =>
      acts_get fun _ _ => acts_bind (acts_adjust row fun _ => rfl) fun _ => acts_pure _

omit home in
theorem allocproc_result (d : Nat) (k : Kernel) :
    wp anyMode (allocproc p d) (fun r _ => ∀ np, r = some np → np.cont = d) k := by
  unfold allocproc
  refine wp_get_bind (wp_ite (fun _ => wp_pure fun _ none => nomatch none) fun _ => ?_)
  split
  · exact wp_pure fun _ none => nomatch none
  · refine wp_modify_bind (wp_modify_bind (wp_seq (wp_any _ _ (fun _ => trivial) fun _ => trivial)
      fun _ _ _ => wp_modify_bind (wp_ite (fun _ => ?_) fun _ => ?_)))
    · exact wp_modify_bind (wp_pure fun _ none => nomatch none)
    · exact wp_modify_bind (wp_modify_bind (wp_pure fun np same => Option.some.inj same ▸ rfl))

omit home in
/- fork with and without a container to go to. -/
theorem wp_fork {M : Mode Event Fault} {k : Kernel} {into : Option Nat} {R : Option ProcId → Kernel → Prop}
    {Q : Int → Kernel → Prop} (made : wp M (allocproc p (into.getD (k.contOf p))) R k)
    (rest : ∀ cwd r k₁, R r k₁ → wp M (match r with
      | none => pure (-1)
      | some np => forkChild p np (k.procAt p) cwd (if into.isSome then k.initproc else p)) Q k₁) :
    wp M (fork p into) Q k := by
  unfold fork
  refine wp_get_bind ?_
  cases into with
  | none => exact wp_seq made (rest _)
  | some c => exact wp_seq made (rest _)

theorem acts_fork {d : Nat} (row : sc.rows d) (counted : sc.counts d) (parentcont : Option Nat)
    (target : parentcont.getD c = d) : Acts p c sc (fork p parentcont) := by
  rintro k rfl
  subst target
  refine wp_fork (wp_and (acts_allocproc home row counted k rfl) (allocproc_result _ k)) ?_
  rintro cwd r k₁ ⟨before, result⟩
  cases r with
  | none => exact wp_pure before
  | some np =>
    exact wp_mono (acts_forkChild ((result np rfl).symm ▸ row) _ _ _ k₁ before.contOf) fun _ _ => before.trans

omit home in
theorem acts_closeFiles (files : ∀ f, sc.files f) (n fd : Nat) : Acts p c sc (closeFiles p n fd) := by
  induction n generalizing fd with
  | zero => exact acts_pure _
  | succ n ih =>
    unfold closeFiles
    refine acts_get fun k _ => ?_
    split
    · exact acts_bind (acts_fileclose (files _)) fun _ =>
        acts_bind (acts_tend fun _ => ⟨rfl, rfl, rfl, Or.inl rfl⟩) fun _ => ih _
    · exact acts_bind (acts_pure _) fun _ => ih _

omit home in
theorem acts_reparent (row : sc.rows c) (n j : Nat) : Acts p c sc (reparent p c n j) := by
  induction n generalizing j with
  | zero => exact acts_pure _
  | succ n ih =>
    unfold reparent
    refine acts_get fun k _ => acts_ite ?_ (acts_bind (acts_pure _) fun _ => ih _)
    exact acts_bind (acts_adjust row fun _ => rfl) fun _ =>
      acts_ite (acts_bind (acts_wakeup _) fun _ => ih _) (acts_bind (acts_pure _) fun _ => ih _)

theorem acts_exit (row : sc.rows c) (counted : sc.counts c) (files : ∀ f, sc.files f) : Acts p c sc (exit p) := by
  unfold exit
  refine acts_get fun k _ => acts_ite (acts_fault _) ?_
  refine acts_bind (acts_closeFiles files _ _) fun _ => acts_bind (acts_onFs _) fun _ =>
    acts_bind (acts_onFs _) fun _ => acts_bind (acts_onFs _) fun _ =>
    acts_bind (acts_tend fun _ => ⟨rfl, rfl, rfl, Or.inl rfl⟩) fun _ => acts_get fun k here => ?_
  subst here
  have rest : Acts p (k.contOf p) sc (reparent p (k.contOf p) (k.cont (k.contOf p)).mproc.toNat 0 >>=
      fun _ => modifyCont (k.contOf p) (fun c => { c with uproc := c.uproc - 1 }) >>= fun _ =>
      modifyProc p fun q => { q with state := .zombie }) :=
    acts_bind (acts_reparent row _ _) fun _ =>
      acts_bind (acts_modify fun _ _ => .count _ _ _ counted) fun _ =>
      acts_adjust (home ▸ row) fun _ => rfl
  dsimp only
  split
  · exact acts_bind (acts_wakeup _) fun _ => rest
  · exact rest

omit home in
theorem acts_wait (row : sc.rows c) : Acts p c sc (wait p) := by
  unfold wait
  refine acts_get fun k here => ?_
  subst here
  dsimp only
  split
  · exact acts_bind (acts_onMem _) fun _ => acts_bind (acts_adjust row fun _ => rfl) fun _ =>
      acts_bind (acts_onMem _) fun _ => acts_bind (acts_adjust row fun _ => rfl) fun _ => acts_pure _
  · exact acts_ite (acts_pure _) (acts_bind (acts_walks _) fun _ => acts_pure _)

omit home in
theorem acts_kill (row : sc.rows c) (pid : Int) : Acts p c sc (kill p pid) := by
  unfold kill
  refine acts_get fun k here => ?_
  subst here
  dsimp only
  split
  · exact acts_bind (acts_adjust row fun _ => rfl) fun _ => acts_pure _
  · exact acts_pure _

end Processes

section Calls
variable {p : ProcId} {c : Nat} {sc : Scope}

theorem acts_fdalloc (f : Nat) : Acts p c sc (fdalloc p f) := by
  unfold fdalloc
  refine acts_get fun k _ => ?_
  split
  · exact acts_bind (acts_tend fun _ => ⟨rfl, rfl, rfl, Or.inl rfl⟩) fun _ => acts_pure _
  · exact acts_pure _

theorem acts_sysDup (fd : Int) : Acts p c sc (sysDup p fd) := by
  unfold sysDup
  refine acts_get fun k _ => ?_
  split
  · exact acts_pure _
  · refine acts_bind (acts_fdalloc _) fun r => ?_
    cases r with
    | none => exact acts_pure _
    | some _ => exact acts_bind (acts_filedup _) fun _ => acts_pure _

theorem acts_sysClose (files : ∀ f, sc.files f) (fd : Int) : Acts p c sc (sysClose p fd) := by
  unfold sysClose
  refine acts_get fun k _ => ?_
  split
  · exact acts_pure _
  · exact acts_bind (acts_tend fun _ => ⟨rfl, rfl, rfl, Or.inl rfl⟩) fun _ =>
      acts_bind (acts_fileclose (files _)) fun _ => acts_pure _

theorem acts_openBad (files : ∀ f, sc.files f) (ip : Nat) (f : Option Nat) : Acts p c sc (openBad p ip f) := by
  unfold openBad
  cases f with
  | none => exact acts_bind (acts_onFs _) fun _ => acts_bind (acts_onFs _) fun _ => acts_pure _
  | some f =>
    exact acts_bind (acts_fileclose (files _)) fun _ => acts_bind (acts_onFs _) fun _ =>
      acts_bind (acts_onFs _) fun _ => acts_pure _

instance (w : Fs.Walker) (path : Fs.CStr) (omode : BitVec 32) : Fs.Acts (openInode w path omode) := by
  unfold openInode
  refine .seq fun _ => .branch (.seq fun found => ?_) (.seq fun found => ?_)
  · cases found <;> infer_instance
  · cases found <;> infer_instance

theorem acts_sysOpen (files : ∀ f, sc.files f) (path : Fs.CStr) (omode : BitVec 32) :
    Acts p c sc (sysOpen p path omode) := by
  unfold sysOpen
  refine acts_get fun k _ => acts_bind (acts_onFs _) fun found => ?_
  cases found with
  | none => exact acts_pure _
  | some ip =>
    refine acts_bind acts_filealloc fun r => ?_
    cases r with
    | none => exact acts_openBad files _ _
    | some f =>
      refine acts_bind (acts_fdalloc _) fun r => ?_
      cases r with
      | none => exact acts_openBad files _ _
      | some fd =>
        exact acts_bind (acts_onFs _) fun _ => acts_bind (acts_onFs _) fun _ =>
          acts_bind (acts_modifyFile (Or.inl (files _))) fun _ => acts_pure _

theorem sysPipe_acts {k : Kernel} (here : k.contOf p = c)
    (free : ∀ f, (k.file f).ref = 0 → sc.files f) :
    wp anyMode (sysPipe p) (fun _ k' => Effects p sc k k') k := by
  unfold sysPipe
  refine wp_seq (pipealloc_acts free) ?_
  rintro ends k₁ ⟨before, files⟩
  have chain {x : KM (Option (Nat × Nat))} (acts : Acts p c sc x) :
      wp anyMode x (fun _ k' => Effects p sc k k') k₁ :=
    wp_mono (acts k₁ (before.contOf.trans here)) fun _ _ after => before.trans after
  refine chain ?_
  cases ends with
  | none => exact acts_pure _
  | some ends =>
    obtain ⟨rf, wf⟩ := files ends.1 ends.2 rfl
    have closing : Acts p c sc (fileclose p ends.1 >>= fun _ => fileclose p ends.2 >>= fun _ =>
        (pure none : KM (Option (Nat × Nat)))) :=
      acts_bind (acts_fileclose rf) fun _ => acts_bind (acts_fileclose wf) fun _ => acts_pure _
    refine acts_bind (acts_fdalloc _) fun r => ?_
    cases r with
    | none => exact closing
    | some fd0 =>
      refine acts_bind (acts_fdalloc _) fun r => ?_
      cases r with
      | none => exact acts_bind (acts_tend fun _ => ⟨rfl, rfl, rfl, Or.inl rfl⟩) fun _ => closing
      | some fd1 => exact acts_pure _

theorem acts_returns {x : KM Int} (h : Acts p c sc x) : Acts p c sc (returns x) :=
  acts_bind h fun _ => acts_pure _

theorem acts_onFd {fd : Int} {x : Nat → KM (Option Int)} (h : ∀ f, Acts p c sc (x f)) :
    Acts p c sc (onFd p fd x) := by
  unfold onFd
  refine acts_get fun k _ => ?_
  split
  · exact acts_pure _
  · exact h _

def ContainerCall : Syscall → Prop
  | .ccreate .. | .cstart _ | .cfork _ | .cstop _ | .cpause _ | .cresume _ => True
  | _ => False

def ProcessCall : Syscall → Prop
  | .fork | .exit | .wait | .kill _ => True
  | _ => False

/- The other calls work on the caller's memory and files. -/
theorem acts_plain (files : ∀ f, sc.files f) (call : Syscall) (process : ¬ ProcessCall call)
    (container : ¬ ContainerCall call) : Acts p c sc (syscall p call) := by
  cases call with
  | sbrk n =>
    exact acts_returns (acts_get fun _ _ => acts_bind (acts_walks _) fun _ => acts_pure _)
  | exec path argv => exact acts_returns (acts_walks _)
  | pipe => exact acts_bind (fun _ here => sysPipe_acts here fun _ _ => files _) fun _ =>
      acts_pure _
  | dup fd => exact acts_returns (acts_sysDup fd)
  | close fd => exact acts_returns (acts_sysClose files fd)
  | read fd n =>
    exact acts_onFd fun f => acts_bind (acts_walks _) fun _ => acts_pure _
  | write fd data => exact acts_onFd fun f => acts_walks _
  | fstat fd => exact acts_onFd fun f => acts_bind (acts_walks _) fun _ => acts_pure _
  | «open» path omode => exact acts_returns (acts_sysOpen files path omode)
  | link old new => exact acts_get fun _ _ => acts_returns (acts_onFs _)
  | unlink path => exact acts_get fun _ _ => acts_returns (acts_onFs _)
  | mkdir path => exact acts_get fun _ _ => acts_returns (acts_onFs _)
  | mknod path major minor => exact acts_get fun _ _ => acts_returns (acts_onFs _)
  | chdir path => exact acts_returns (acts_walks _)
  | cinfo => exact acts_bind (acts_get fun _ _ => acts_pure _) fun _ => acts_pure _
  | fork | exit | wait | kill => exact absurd trivial process
  | _ => exact absurd trivial container

/- The other calls keep to the container of the process. -/
theorem acts_syscall (home : p.cont = c) (row : sc.rows c)
    (counted : sc.counts c) (files : ∀ f, sc.files f) (call : Syscall) (plain : ¬ ContainerCall call) :
    Acts p c sc (syscall p call) := by
  cases call with
  | fork => exact acts_returns (acts_fork home row counted none rfl)
  | exit => exact acts_bind (acts_exit home row counted files) fun _ => acts_pure _
  | wait => exact acts_wait row
  | kill pid => exact acts_returns (acts_kill row pid)
  | sbrk _ | exec _ _ | pipe | dup _ | close _ | read _ _ | write _ _ | fstat _ | «open» _ _ | link _ _
  | unlink _ | mkdir _ | mknod _ _ _ | chdir _ | cinfo => exact acts_plain files _ id id
  | _ => exact absurd trivial plain

end Calls

end Xv6c

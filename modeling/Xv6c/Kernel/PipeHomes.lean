import Xv6c.Kernel.Refs
import Xv6c.Mem.Supply

/-! How descriptors of pipes spread over the processes: by which calls, and whether they
leave the container in which the pipe was made. -/
namespace Xv6c
open Lib Mem
open Function (update update_apply update_of_ne update_self)

/- Process q has a descriptor of file f. -/
def Has (k : Kernel) (q : ProcId) (f : Nat) : Prop := ∃ fd < NOFILE, (k.procAt q).ofile fd = some f

/- File f is an end of the pipe in page r. -/
def PipeEnd (k : Kernel) (f r : Nat) : Prop := (k.file f).type = .pipe ∧ (k.file f).pipe = r

/- Process q has a descriptor of an end of the pipe in page r. -/
def HoldsPipe (k : Kernel) (q : ProcId) (r : Nat) : Prop := ∃ f, Has k q f ∧ PipeEnd k f r

/- While a call runs that began in k₀: which descriptors a process can have, and which
files can be ends of pipes that were none. -/
structure Dealt (k₀ : Kernel) (may : ProcId → Nat → Prop) (new : Nat → Nat → Prop) (k : Kernel) : Prop where
  held : ∀ q ∈ slots, ∀ f, Has k q f → may q f
  ends : ∀ f r, PipeEnd k f r → PipeEnd k₀ f r ∨ new f r

variable {k k' k₀ : Kernel} {p np : ProcId} {may : ProcId → Nat → Prop} {new : Nat → Nat → Prop}
  {A B : Type}

section Rules

variable {f : Nat}

theorem has_congr {q : ProcId} (ofile : (k'.procAt q).ofile = (k.procAt q).ofile) :
    Has k' q f ↔ Has k q f := by
  unfold Has
  rw [ofile]

theorem pipeEnd_same {r : Nat} (same : SameFile (k.file f) (k'.file f)) : PipeEnd k' f r ↔ PipeEnd k f r := by
  unfold PipeEnd
  rw [same.1, same.2]

/- Nobody gets a descriptor, and no file becomes an end of a pipe. -/
structure Sheds (k k' : Kernel) : Prop where
  held : ∀ q f, Has k' q f → Has k q f
  ends : ∀ f r, PipeEnd k' f r → PipeEnd k f r

theorem Beside.sheds (beside : Beside k k') : Sheds k k' :=
  ⟨fun q _ => (has_congr (beside.ofile q)).mp, fun f _ => (pipeEnd_same (beside.files f)).mp⟩

/- A slot loses descriptors. -/
theorem sheds_setProc {x : Proc} (fewer : ∀ fd f, x.ofile fd = some f → (k.procAt p).ofile fd = some f) :
    Sheds k (k.setProc p x) := by
  refine ⟨fun q f ⟨fd, bound, has⟩ => ⟨fd, bound, ?_⟩, fun _ _ => id⟩
  rw [procAt_setProc] at has
  split at has
  · rename_i here
    rw [here]
    exact fewer fd f has
  · exact has

/- A file becomes no end of a pipe. -/
theorem sheds_setFile {x : File} (same : x.type = .pipe → SameFile (k.file f) x) :
    Sheds k { k with file := update k.file f x } := by
  refine ⟨fun _ _ => id, fun g r ⟨type, page⟩ => ?_⟩
  dsimp only at type page
  obtain rfl | other := eq_or_ne g f
  · rw [update_self] at type page
    obtain ⟨sameType, samePage⟩ := same type
    exact ⟨sameType ▸ type, samePage ▸ page⟩
  · rw [update_of_ne other] at type page
    exact ⟨type, page⟩

instance : LeavingSteps Sheds where
  wake k chan := (SharedSteps.wake k chan : Beside k _).sheds
  offset k f n := (SharedSteps.offset k f n : Beside k _).sheds
  tables proc file := (beside_tables proc file).sheds
  file _ _ _ := sheds_setFile
  slot _ _ _ fewer _ _ := sheds_setProc fewer

theorem Dealt.sheds (h : Dealt k₀ may new k) (sheds : Sheds k k') : Dealt k₀ may new k' :=
  ⟨fun q inside f has => h.held q inside f (sheds.held q f has), fun f r isEnd => h.ends f r (sheds.ends f r isEnd)⟩

theorem walks_deals {x : KM A} [walks : Walks Sheds x] (h : Dealt k₀ may new k) :
    wp anyMode x (fun _ k' => Dealt k₀ may new k') k := by
  refine wp_mono (walks.does (fun _ => trivial) (fun _ _ => trivial) k) fun _ k' steps => ?_
  induction steps with
  | refl => exact h
  | tail _ last ih => exact ih.sheds last

variable {Q : B → Kernel → Prop}

theorem wp_aside {x : KM A} [Walks Sheds x] {f : A → KM B} (h : Dealt k₀ may new k)
    (next : ∀ a k', Dealt k₀ may new k' → wp anyMode (f a) Q k') : wp anyMode (x >>= f) Q k :=
  wp_seq (walks_deals h) next

theorem wp_slot {c : Proc → Proc} {f : Unit → KM B} (h : Dealt k₀ may new k)
    (ofile : ∀ q, (c q).ofile = q.ofile) (next : ∀ k', Dealt k₀ may new k' → wp anyMode (f ()) Q k') :
    wp anyMode (modifyProc p c >>= f) Q k :=
  wp_modify_bind (next _ (h.sheds (sheds_setProc fun _ _ held => ofile _ ▸ held)))

/- A descriptor is set to a file that the process may have, or cleared. -/
theorem Dealt.setFd {fd : Nat} {v : Option Nat} (h : Dealt k₀ may new k) (allowed : ∀ f ∈ v, may p f) :
    Dealt k₀ may new (setFd k p fd v) := by
  refine ⟨fun q inside f ⟨j, bound, has⟩ => ?_, h.ends⟩
  rw [setFd_ofile] at has
  split at has
  · rename_i here
    rw [here.1]
    exact allowed f has
  · exact h.held q inside f ⟨j, bound, has⟩

/- A file changes: it becomes no end of a pipe, or one that it may be. -/
theorem Dealt.setFile {x : File} (h : Dealt k₀ may new k)
    (allowed : x.type = .pipe → SameFile (k.file f) x ∨ new f x.pipe) :
    Dealt k₀ may new { k with file := update k.file f x } := by
  refine ⟨h.held, fun g r ⟨type, page⟩ => ?_⟩
  dsimp only at type page
  by_cases same : g = f
  · subst same
    rw [update_self] at type page
    rcases allowed type with ⟨sameType, samePage⟩ | made
    · exact h.ends g r ⟨sameType ▸ type, samePage ▸ page⟩
    · exact Or.inr (page ▸ made)
  · rw [update_of_ne same] at type page
    exact h.ends g r ⟨type, page⟩

/- filealloc gives a file that was free. -/
theorem filealloc_deals (h : Dealt k₀ may new k) :
    wp anyMode filealloc (fun r k' => Dealt k₀ may new k' ∧ k'.kmem = k.kmem ∧
      (∀ g, (k'.file g).ref = 0 → (k.file g).ref = 0) ∧ ∀ f ∈ r, (k.file f).ref = 0) k := by
  unfold filealloc
  refine wp_get_bind ?_
  split
  · rename_i f found
    have free : (k.file f).ref = 0 := by simpa using List.find?_some found
    refine wp_modify_bind (wp_pure ⟨h.setFile fun _ => Or.inl ⟨rfl, rfl⟩, rfl, fun g => ?_, fun g same => ?_⟩)
    · dsimp only
      rw [update_apply]
      split
      · exact fun zero => absurd zero one_ne_zero
      · exact id
    · cases Option.mem_some_iff.mp same
      exact free
  · exact wp_pure ⟨h, rfl, fun _ => id, by simp⟩

theorem fdalloc_deals (h : Dealt k₀ may new k) (allowed : may p f) :
    wp anyMode (fdalloc p f) (fun _ k' => Dealt k₀ may new k') k := by
  unfold fdalloc
  refine wp_get_bind ?_
  split
  · rename_i fd found
    refine wp_modify_bind (wp_pure (h.setFd (p := p) fun g same => ?_))
    cases Option.mem_some_iff.mp same
    exact allowed
  · exact wp_pure h

end Rules

section Calls

theorem sysDup_deals (fd : Int) (h : Dealt k₀ may new k) (own : ∀ f, Has k p f → may p f) :
    wp anyMode (sysDup p fd) (fun _ k' => Dealt k₀ may new k') k := by
  unfold sysDup
  refine wp_get_bind ?_
  split
  · exact wp_pure h
  · rename_i f found
    obtain ⟨bound, used⟩ := argfd_some found
    refine wp_seq (fdalloc_deals h (own f ⟨_, bound, used⟩)) fun r k₁ h => ?_
    cases r with
    | none => exact wp_pure h
    | some fd => exact wp_aside h fun _ _ h => wp_pure h

theorem wait_deals (h : Dealt k₀ may new k) :
    wp anyMode (wait p) (fun _ k' => Dealt k₀ may new k') k := by
  unfold wait
  refine wp_get_bind ?_
  dsimp only
  split
  · exact wp_aside h fun _ k₁ h => wp_slot h (fun _ => rfl) fun k₂ h => wp_aside h fun _ k₃ h =>
      wp_slot h (fun _ => rfl) fun k₄ h => wp_pure h
  · exact wp_ite (fun _ => wp_pure h) fun _ => wp_aside h fun _ _ h => wp_pure h

theorem sysOpen_deals (path : Fs.CStr) (omode : BitVec 32) (h : Dealt k₀ may new k)
    (free : ∀ f, (k.file f).ref = 0 → may p f) :
    wp anyMode (sysOpen p path omode) (fun _ k' => Dealt k₀ may new k') k := by
  unfold sysOpen
  refine wp_get_bind (wp_seq (Bystander.beside inferInstance k) fun r k₁ beside => ?_)
  have h := h.sheds beside.sheds
  cases r with
  | none => exact wp_pure h
  | some ip =>
    refine wp_seq (filealloc_deals h) fun r k₂ ⟨h, _, _, unused⟩ => ?_
    cases r with
    | none => exact walks_deals h
    | some f =>
      have allowed : may p f := free f ((beside.refs f).symm.trans (unused f rfl))
      refine wp_seq (fdalloc_deals h allowed) fun r k₃ h => ?_
      cases r with
      | none => exact walks_deals h
      | some fd =>
        exact wp_aside h fun _ k₄ h => wp_aside h fun _ k₅ h =>
          wp_modify_bind (wp_pure (h.setFile (f := f) nofun))

theorem allocproc_deals (c : Nat) (h : Dealt k₀ may new k) :
    wp anyMode (allocproc p c) (fun r k' => Dealt k₀ may new k' ∧ ∀ np ∈ r, np.cont = c) k := by
  unfold allocproc
  refine wp_get_bind (wp_ite (fun _ => wp_pure ⟨h, nofun⟩) fun _ => ?_)
  split
  · exact wp_pure ⟨h, nofun⟩
  · refine wp_slot h (fun _ => rfl) fun k₁ h => wp_aside h fun _ k₂ h => wp_aside h fun kstack k₃ h =>
      wp_slot h (fun _ => rfl) fun k₄ h => wp_ite (fun _ => ?_) fun _ => ?_
    · exact wp_slot h (fun _ => rfl) fun k₅ h => wp_pure ⟨h, nofun⟩
    · refine wp_slot h (fun _ => rfl) fun k₅ h => wp_aside h fun _ k₆ h => wp_pure ⟨h, fun np made => ?_⟩
      cases Option.mem_some_iff.mp made
      rfl

theorem dupFiles_deals {ofile : Nat → Option Nat} {n fd : Nat} (h : Dealt k₀ may new k)
    (bound : fd + n ≤ NOFILE) (allowed : ∀ j < NOFILE, ∀ f ∈ ofile j, may np f) :
    wp anyMode (dupFiles np ofile n fd) (fun _ k' => Dealt k₀ may new k') k := by
  induction n generalizing fd k with
  | zero => exact wp_pure h
  | succ n ih =>
    unfold dupFiles
    split
    · rename_i f copied
      refine wp_aside h fun _ k₁ h => wp_modify_bind ?_
      refine ih (k := setFd k₁ np fd (some f)) (h.setFd fun g same => ?_) (by omega)
      cases Option.mem_some_iff.mp same
      exact allowed fd (by omega) f copied
    · exact ih h (by omega)

theorem forkChild_deals {cur : Proc} (cwd : Option Nat) (parent : ProcId) (h : Dealt k₀ may new k)
    (allowed : ∀ j < NOFILE, ∀ f ∈ cur.ofile j, may np f) :
    wp anyMode (forkChild p np cur cwd parent) (fun _ k' => Dealt k₀ may new k') k := by
  unfold forkChild
  refine wp_aside h fun pgdir k₁ h => wp_slot h (fun _ => rfl) fun k₂ h => wp_ite (fun _ => ?_) fun _ => ?_
  · exact wp_get_bind (wp_aside h fun _ k₃ h => wp_slot h (fun _ => rfl) fun k₄ h => wp_pure h)
  · refine wp_slot h (fun _ => rfl) fun k₃ h => ?_
    refine wp_seq (dupFiles_deals h (by omega) allowed) fun _ k₄ h => ?_
    exact wp_aside h fun cwd k₅ h => wp_slot h (fun _ => rfl) fun k₆ h =>
      wp_get_bind (wp_slot h (fun _ => rfl) fun k₇ h => wp_pure h)

/- The container that a fork makes its process in. -/
def forkTarget (k : Kernel) (p : ProcId) (target : Option Nat) : Nat := target.getD (k.contOf p)

theorem fork_deals {target : Option Nat} (h : Dealt k₀ may new k)
    (allowed : ∀ np : ProcId, np.cont = forkTarget k p target → ∀ f, Has k p f → may np f) :
    wp anyMode (fork p target) (fun _ k' => Dealt k₀ may new k') k := by
  refine wp_fork (allocproc_deals _ h) fun cwd r k₁ ⟨h, there⟩ => ?_
  cases r with
  | none => exact wp_pure h
  | some np => exact forkChild_deals _ _ h fun j bound f used => allowed np (there np rfl) f ⟨j, bound, used⟩

theorem pipeBad_deals (f0 f1 : Option Nat) (h : Dealt k₀ may new k) :
    wp anyMode (pipeBad p f0 f1) (fun r k' => Dealt k₀ may new k' ∧ r = none) k := by
  unfold pipeBad
  cases f0 <;> cases f1
  · exact wp_pure ⟨h, rfl⟩
  · exact wp_aside h fun _ _ h => wp_pure ⟨h, rfl⟩
  · exact wp_aside h fun _ _ h => wp_pure ⟨h, rfl⟩
  · exact wp_aside h fun _ _ h => wp_aside h fun _ _ h => wp_pure ⟨h, rfl⟩

/- The ends that pipealloc makes were free files, and the page of the pipe was free. -/
theorem pipealloc_deals {l : List Nat} (h : Dealt k₀ may new k) (heap : Heap k.kmem l)
    (fresh : ∀ f r, (k.file f).ref = 0 → r ∈ l → new f r) :
    wp anyMode (pipealloc p) (fun r k' => Dealt k₀ may new k' ∧
      ∀ ends ∈ r, (k.file ends.1).ref = 0 ∧ (k.file ends.2).ref = 0) k := by
  have bad {k₁ : Kernel} (f0 f1 : Option Nat) (h : Dealt k₀ may new k₁) : wp anyMode (pipeBad p f0 f1)
      (fun r k' => Dealt k₀ may new k' ∧ ∀ ends ∈ r, (k.file ends.1).ref = 0 ∧ (k.file ends.2).ref = 0) k₁ := by
    refine wp_mono (pipeBad_deals f0 f1 h) fun r k' ⟨h, failed⟩ => ⟨h, fun ends made => ?_⟩
    rw [failed] at made
    exact nomatch made
  unfold pipealloc
  refine wp_seq (filealloc_deals h) fun r k₁ ⟨h, kmem, older, free0⟩ => ?_
  cases r with
  | none => exact bad none none h
  | some f0 =>
    refine wp_seq (filealloc_deals h) fun r k₂ ⟨h, kmem', _, free1⟩ => ?_
    cases r with
    | none => exact bad (some f0) none h
    | some f1 =>
      have free0 := free0 f0 rfl
      have free1 := older f1 (free1 f1 rfl)
      have heap : Heap (k₂.memView p).toKmem l := by
        change Heap k₂.kmem l
        rw [kmem', kmem]
        exact heap
      refine wp_bind (wp_zoom (wp_mono (kalloc_spec heap) ?_))
      rintro r t ⟨-, cases⟩
      have h : Dealt k₀ may new (k₂.memPut p t) := h.sheds (TableSteps.tables rfl rfl)
      rcases cases with ⟨rfl, -⟩ | ⟨nonzero, l', rfl, -⟩
      · rw [if_pos rfl]
        exact bad (some f0) (some f1) h
      · rw [if_neg nonzero]
        have listed : r ∈ r :: l' := List.mem_cons_self
        refine wp_aside h fun _ k₃ h => wp_modify_bind (wp_modify_bind (wp_pure ⟨?_, ?_⟩))
        · exact (h.setFile fun _ => Or.inr (fresh f0 r free0 listed)).setFile fun _ =>
            Or.inr (fresh f1 r free1 listed)
        · rintro _ ⟨⟩
          exact ⟨free0, free1⟩

theorem sysPipe_deals {l : List Nat} (h : Dealt k₀ may new k) (heap : Heap k.kmem l)
    (fresh : ∀ f r, (k.file f).ref = 0 → r ∈ l → new f r) (free : ∀ f, (k.file f).ref = 0 → may p f) :
    wp anyMode (sysPipe p) (fun _ k' => Dealt k₀ may new k') k := by
  unfold sysPipe
  refine wp_seq (pipealloc_deals h heap fresh) fun r k₁ ⟨h, ends⟩ => ?_
  cases r with
  | none => exact wp_pure h
  | some pair =>
    obtain ⟨rf, wf⟩ := pair
    obtain ⟨freeR, freeW⟩ := ends _ rfl
    have closed {k₂ : Kernel} (h : Dealt k₀ may new k₂) : wp anyMode (do
        fileclose p rf
        fileclose p wf
        (pure none : KM (Option (Nat × Nat)))) (fun _ k' => Dealt k₀ may new k') k₂ :=
      wp_aside h fun _ _ h => wp_aside h fun _ _ h => wp_pure h
    refine wp_seq (fdalloc_deals h (free rf freeR)) fun r k₂ h => ?_
    cases r with
    | none => exact closed h
    | some fd0 =>
      refine wp_seq (fdalloc_deals h (free wf freeW)) fun r k₃ h => ?_
      cases r with
      | none =>
        have h : Dealt k₀ may new (setFd k₃ p fd0 none) := h.setFd nofun
        exact wp_modify_bind (closed h)
      | some fd1 => exact wp_pure h

end Calls

/- The container to whose new process a call of p passes the descriptors of p. -/
def passesTo (k : Kernel) (p : ProcId) : Syscall → Option Nat
  | .fork => some (k.contOf p)
  | .cfork cid => cid2cont k cid
  | _ => none

/- After a call of p, a process holds a pipe that it held before, or that p passes to it, or
it is p and the pipe is new. -/
def Spread (k : Kernel) (p : ProcId) (c : Syscall) (k' : Kernel) : Prop :=
  ∀ q ∈ slots, ∀ r, HoldsPipe k' q r → HoldsPipe k q r ∨
    (passesTo k p c = some q.cont ∧ HoldsPipe k p r) ∨ (q = p ∧ ∀ q' ∈ slots, ¬ HoldsPipe k q' r)

section Spread
variable {c : Syscall} {l : List Nat}

/- The files that a call of p may give to q. -/
def mayHave (k : Kernel) (p : ProcId) (c : Syscall) (q : ProcId) (f : Nat) : Prop :=
  Has k q f ∨ (passesTo k p c = some q.cont ∧ Has k p f) ∨ (q = p ∧ (k.file f).ref = 0)

theorem Referenced.used {q : ProcId} {f : Nat} (h : Referenced k) (inside : q ∈ slots) (has : Has k q f) :
    (k.file f).ref ≠ 0 := by
  obtain ⟨fd, bound, points⟩ := has
  have some : 0 < holders k f := pointers_pos (i := (q, fd)) (mem_descriptors.mpr ⟨inside, bound⟩) points
  have count := h.refs f
  omega

/- A page on the free list is no pipe's. -/
theorem Paged.unheld {f r : Nat} (paged : Paged k l) (free : r ∈ l) : ¬ PipeEnd k f r := by
  rintro ⟨isPipe, rfl⟩
  have once := Multiset.nodup_iff_count_le_one.mpr paged.once
  exact held_apart once (Multiset.mem_coe.mpr free)
    (mem_held_pipe (mem_pipePages paged.files isPipe))

theorem Dealt.spread (paged : Paged k l) (referenced : Referenced k) (caller : p ∈ slots)
    (h : Dealt k (mayHave k p c) (fun f r => (k.file f).ref = 0 ∧ r ∈ l) k') : Spread k p c k' := by
  rintro q inside r ⟨f, has, isEnd⟩
  rcases h.ends f r isEnd with old | ⟨free, page⟩
  · rcases h.held q inside f has with own | ⟨passed, own⟩ | ⟨-, free⟩
    · exact Or.inl ⟨f, own, old⟩
    · exact Or.inr (Or.inl ⟨passed, f, own, old⟩)
    · have none := paged.files.unused f free
      exact absurd (none.symm.trans old.1) nofun
  · rcases h.held q inside f has with own | ⟨passed, own⟩ | ⟨here, -⟩
    · exact absurd free (referenced.used inside own)
    · exact absurd free (referenced.used caller own)
    · exact Or.inr (Or.inr ⟨here, fun q' _ ⟨g, _, old⟩ => paged.unheld page old⟩)

theorem syscall_spreads (c : Syscall) (paged : Paged k l) (referenced : Referenced k) (caller : p ∈ slots) :
    wp anyMode (syscall p c) (fun _ k' => Spread k p c k') k := by
  let new : Nat → Nat → Prop := fun f r => (k.file f).ref = 0 ∧ r ∈ l
  have start : Dealt k (mayHave k p c) new k :=
    ⟨fun _ _ _ has => Or.inl has, fun _ _ isEnd => Or.inl isEnd⟩
  have free (f : Nat) (unused : (k.file f).ref = 0) : mayHave k p c p f := Or.inr (Or.inr ⟨rfl, unused⟩)
  have deals {A : Type} {x : KM A} (spec : wp anyMode x (fun _ k' => Dealt k (mayHave k p c) new k') k) :
      wp anyMode x (fun _ k' => Spread k p c k') k :=
    wp_mono spec fun _ _ h => h.spread paged referenced caller
  have returned {x : KM Int} (spec : wp anyMode x (fun _ k' => Dealt k (mayHave k p c) new k') k) :
      wp anyMode (returns x) (fun _ k' => Spread k p c k') k :=
    deals (wp_seq spec fun _ _ h => wp_pure h)
  by_cases files : FileCall c
  · cases c with
    | fork => exact returned (fork_deals start fun np there f has =>
        Or.inr (Or.inl ⟨congrArg some there.symm, has⟩))
    | exit => exact deals (wp_aside start fun _ _ h => wp_pure h)
    | wait => exact deals (wait_deals start)
    | pipe =>
      exact deals (wp_seq (sysPipe_deals start paged.heap (fun _ _ unused page => ⟨unused, page⟩) free)
        fun _ _ h => wp_pure h)
    | dup fd => exact returned (sysDup_deals fd start fun _ has => Or.inl has)
    | close fd => exact returned (walks_deals start)
    | «open» path omode => exact returned (sysOpen_deals path omode start free)
    | cfork cid =>
      refine returned ?_
      unfold cfork
      refine wp_get_bind ?_
      split
      · exact wp_pure start
      · rename_i d found
        refine fork_deals start fun np there f has => Or.inr (Or.inl ⟨?_, has⟩)
        exact found.trans (congrArg some there.symm)
    | _ => exact files.elim
  · exact wp_mono ((bystander_syscall files).beside k) fun _ _ beside =>
      (start.sheds beside.sheds).spread paged referenced caller

end Spread

/- All processes that hold an end of the same pipe are in the same container. -/
def PipesAtHome (k : Kernel) : Prop :=
  ∀ r, ∀ p ∈ slots, ∀ q ∈ slots, HoldsPipe k p r → HoldsPipe k q r → k.contOf p = k.contOf q

/- A process with a pipe makes no process in another container. -/
def KeepsPipes (k : Kernel) : Label → Prop
  | .call p (.cfork cid) => ∀ c, cid2cont k cid = some c → c ≠ k.contOf p → ∀ r, ¬ HoldsPipe k p r
  | _ => True

theorem Tabled.home {q : ProcId} {r : Nat} (h : Tabled k) (inside : q ∈ slots) (holds : HoldsPipe k q r) :
    k.contOf q = q.cont := by
  obtain ⟨⟨l, paged⟩, -, referenced⟩ := h
  obtain ⟨f, ⟨fd, bound, points⟩, -⟩ := holds
  have busy : ¬ Idle (k.procAt q) := fun idle => by
    rw [referenced.vacant q inside idle fd bound] at points
    exact nomatch points
  exact (paged.tidy q inside ⟨fun unused => busy (Or.inl unused),
    fun embryo => busy (Or.inr (Or.inl embryo))⟩).home

/- Who holds a pipe after a call got it in its own container, or made it. -/
theorem Spread.source {c : Syscall} {q : ProcId} {r : Nat} (h : Tabled k) (caller : p ∈ slots)
    (spread : Spread k p c k') (keeps : KeepsPipes k (.call p c)) (inside : q ∈ slots)
    (holds : HoldsPipe k' q r) :
    (∃ q₀ ∈ slots, HoldsPipe k q₀ r ∧ k.contOf q₀ = q.cont) ∨
      (q = p ∧ ∀ q' ∈ slots, ¬ HoldsPipe k q' r) := by
  rcases spread q inside r holds with held | ⟨passed, held⟩ | made
  · exact Or.inl ⟨q, inside, held, h.home inside held⟩
  · refine Or.inl ⟨p, caller, held, ?_⟩
    cases c with
    | fork => exact Option.some.inj passed
    | cfork cid =>
      by_contra other
      exact keeps q.cont passed (Ne.symm other) r held
    | _ => exact nomatch passed
  · exact Or.inr made

theorem Spread.atHome {c : Syscall} (h : Tabled k) (h' : Tabled k') (caller : p ∈ slots)
    (spread : Spread k p c k') (keeps : KeepsPipes k (.call p c)) (apart : PipesAtHome k) :
    PipesAtHome k' := by
  intro r q inside q' inside' holds holds'
  rw [h'.home inside holds, h'.home inside' holds']
  rcases spread.source h caller keeps inside holds with ⟨q₀, there, held, near⟩ | ⟨rfl, none⟩
  · rcases spread.source h caller keeps inside' holds' with ⟨q₁, there', held', near'⟩ | ⟨-, none⟩
    · rw [← near, ← near']
      exact apart r q₀ there q₁ there' held held'
    · exact absurd held (none q₀ there)
  · rcases spread.source h caller keeps inside' holds' with ⟨q₁, there', held', -⟩ | ⟨rfl, -⟩
    · exact absurd held' (none q₁ there')
    · rfl

theorem PipesAtHome.congr (apart : PipesAtHome k) (proc : k'.proc = k.proc) (file : k'.file = k.file) :
    PipesAtHome k' := by
  have same (q : ProcId) : k'.procAt q = k.procAt q := procAt_congr proc q
  intro r p inside q inside' holds holds'
  simp only [Kernel.contOf, same]
  refine apart r p inside q inside' ?_ ?_
  · simpa only [HoldsPipe, Has, PipeEnd, same, file] using holds
  · simpa only [HoldsPipe, Has, PipeEnd, same, file] using holds'

theorem step_atHome {lbl : Label} (h : Tabled k) (apart : PipesAtHome k) (keeps : KeepsPipes k lbl)
    (taken : step k lbl = some k') : PipesAtHome k' := by
  have h' := (h.step taken).1
  obtain ⟨l, paged⟩ := h.paged
  have spec (enabled : Enabled k lbl) : wp anyMode (perform lbl) (fun _ k' => Tabled k' → PipesAtHome k') k := by
    cases lbl with
    | call p c =>
      have caller : p ∈ slots := mem_slots.mpr ⟨enabled.1, enabled.2.1⟩
      exact wp_seq (syscall_spreads c paged h.referenced caller) fun _ _ spread => wp_pure fun h' =>
        spread.atHome h h' caller keeps apart
    | store p va b =>
      exact wp_get_bind (wp_seq (wp_zoom (wp_mono (wp_any _ _ (fun _ => trivial) fun _ => trivial)
        fun _ _ _ => apart.congr rfl rfl)) fun _ _ apart => wp_pure fun _ => apart)
    | cexit c => exact wp_modify fun _ => apart.congr rfl rfl
  exact (step_spec spec fun _ _ => trivial).2 k' taken h'

/-- In every run in which no process with a pipe makes a process in another container, all
processes that hold an end of the same pipe are in the same container. -/
theorem pipes_stay_home {l : List Nat} {ls : List Label} (paged : Paged k l) (flags : Flags k.kmem.mem k.file)
    (referenced : Referenced k) (apart : PipesAtHome k) (keeps : Along step KeepsPipes k ls)
    (reached : Lib.exec step k ls = some k') : PipesAtHome k' := by
  have kept (k : Kernel) (lbl : Label) (k' : Kernel) (h : Tabled k ∧ PipesAtHome k) (allowed : KeepsPipes k lbl)
      (taken : step k lbl = some k') : Tabled k' ∧ PipesAtHome k' :=
    ⟨(h.1.step taken).1, step_atHome h.1 h.2 allowed taken⟩
  exact (run_invariant kept ⟨⟨⟨l, paged⟩, flags, referenced⟩, apart⟩ keeps reached).2

/- The process makes a pipe and copies one of its ends. -/
theorem pipes_stay_home_lonely :
    let run : List Label := [.call ⟨0, 0⟩ .pipe, .call ⟨0, 0⟩ (.dup 0), .call ⟨0, 0⟩ (.close 0)]
    (Lib.exec step lonely run).isSome ∧ ∀ k', Lib.exec step lonely run = some k' → PipesAtHome k' := by
  refine ⟨by decide +kernel, fun k' reached => ?_⟩
  refine pipes_stay_home lonely_paged lonely_flags lonely_referenced ?_ (along_of_forall ?_ _) reached
  · rintro r p - q - ⟨f, -, isEnd, -⟩
    exact nomatch isEnd
  · intro lbl listed k
    simp only [List.mem_cons, List.not_mem_nil, or_false] at listed
    rcases listed with rfl | rfl | rfl <;> trivial

/- No fault is admitted. -/
def sureMode : Mode Event Fault := ⟨fun _ => True, fun _ => True, fun _ => False⟩

section Passing

variable {f : Nat}

theorem filedup_sure (used : 1 ≤ (k.file f).ref) (small : (k.file f).ref < maxInt) :
    wp sureMode (filedup f) (fun _ k' => k'.proc = k.proc ∧ (∀ g, SameFile (k.file g) (k'.file g)) ∧
      ∀ g, (k.file g).ref ≤ (k'.file g).ref ∧ (k'.file g).ref ≤ (k.file g).ref + 1) k := by
  unfold filedup
  refine wp_get_bind ?_
  rw [if_neg (by omega)]
  refine wp_modify ⟨rfl, update_related (fun _ => ⟨rfl, rfl⟩) ⟨rfl, rfl⟩, ?_⟩
  refine update_related (R := fun x y : File => x.ref ≤ y.ref ∧ y.ref ≤ x.ref + 1) (fun _ => by omega) ?_
  simp only [incr, if_neg small.ne]
  omega

variable {n : Nat}

/- The loop of fork over the descriptors copies all of them. -/
theorem dupFiles_copies {ofile : Nat → Option Nat} {fd : Nat}
    (refs : ∀ j f, ofile j = some f → 1 ≤ (k.file f).ref ∧ (k.file f).ref + n ≤ maxInt) :
    wp sureMode (dupFiles np ofile n fd) (fun _ k' =>
      (∀ j f, fd ≤ j → j < fd + n → ofile j = some f → (k'.procAt np).ofile j = some f) ∧
      (∀ j < fd, (k'.procAt np).ofile j = (k.procAt np).ofile j) ∧
      (∀ q, q ≠ np → k'.procAt q = k.procAt q) ∧ k'.contOf np = k.contOf np ∧
      ∀ f, SameFile (k.file f) (k'.file f)) k := by
  induction n generalizing fd k with
  | zero =>
    exact wp_pure ⟨fun j f above below => by omega, fun _ _ => rfl, fun _ _ => rfl, rfl, fun _ => ⟨rfl, rfl⟩⟩
  | succ n ih =>
    unfold dupFiles
    split
    · rename_i f copied
      obtain ⟨used, small⟩ := refs fd f copied
      push_cast at small
      refine wp_seq (filedup_sure used (by omega)) ?_
      rintro _ k₁ ⟨proc, files, counts⟩
      refine wp_modify_bind ?_
      have table (j : Nat) : ((setFd k₁ np fd (some f)).procAt np).ofile j =
          if j = fd then some f else (k.procAt np).ofile j := by
        rw [setFd_ofile, procAt_congr proc]
        simp
      refine wp_mono (ih (k := setFd k₁ np fd (some f)) fun j g held => ?_) ?_
      · obtain ⟨used, small⟩ := refs j g held
        have := counts g
        change 1 ≤ (k₁.file g).ref ∧ (k₁.file g).ref + n ≤ maxInt
        push_cast at small
        omega
      · rintro _ k' ⟨later, before, others, cont, same⟩
        refine ⟨fun j g above below held => ?_, fun j early => ?_, fun q other => ?_, ?_,
          fun g => ⟨(same g).1.trans (files g).1, (same g).2.trans (files g).2⟩⟩
        · by_cases here : j = fd
          · rw [before j (by omega), table, if_pos here, ← copied, ← here, held]
          · exact later j g (by omega) (by omega) held
        · rw [before j (by omega), table, if_neg (by omega)]
        · rw [others q other, setFd, procAt_setProc, if_neg other, procAt_congr proc]
        · rw [cont, setFd, Kernel.contOf, procAt_setProc, if_pos rfl, procAt_congr proc, Kernel.contOf]
    · rename_i empty
      refine wp_mono (ih fun j g held => ?_) ?_
      · obtain ⟨used, small⟩ := refs j g held
        push_cast at small
        omega
      · rintro _ k' ⟨later, before, rest⟩
        refine ⟨fun j g above below held => ?_, fun j early => before j (by omega), rest⟩
        have other : j ≠ fd := fun here => by
          rw [here, empty] at held
          cases held
        exact later j g (by omega) (by omega) held

/- A container in which a process that copies an empty memory can be made by p: there is a
slot, a root directory, and memory for the kernel's part of a page table. -/
structure Welcomes (k : Kernel) (p : ProcId) (c j : Nat) : Prop where
  started : (k.cont c).state = .crunnable
  slot : findProc k c (fun q => q.state = .unused) = some j
  rooted : ∃ ip, (k.cont c).rootdir = some ip
  empty : (k.procAt p).sz = 0
  pages : ∃ q r l, Heap k.kmem (q :: r :: l) ∧ (q :: r :: l).Nodup ∧ 1024 ≤ l.length
  account : ((k.cont (k.contOf p)).upg + 1026) * PGSIZE ≤ (k.cont (k.contOf p)).msz
  limit : (k.cont (k.contOf p)).msz < 2 ^ 32
  other : (⟨c, j⟩ : ProcId) ≠ p
  refs : ∀ fd f, (k.procAt p).ofile fd = some f → 1 ≤ (k.file f).ref ∧ (k.file f).ref + NOFILE ≤ maxInt

/- What p needs to go on with n pages, while it makes a process. -/
structure Primed (k₀ : Kernel) (p : ProcId) (n : Nat) (k : Kernel) : Prop where
  file : k.file = k₀.file
  caller : k.procAt p = k₀.procAt p
  account : ((k.cont (k₀.contOf p)).upg + n) * PGSIZE ≤ (k.cont (k₀.contOf p)).msz
  limit : (k.cont (k₀.contOf p)).msz < 2 ^ 32

theorem Primed.contOf (h : Primed k₀ p n k) : k.contOf p = k₀.contOf p := congrArg Proc.cont h.caller

theorem Primed.setProc {q : Proc} (h : Primed k₀ p n k) (other : np ≠ p) :
    Primed k₀ p n (k.setProc np q) := by
  refine ⟨h.file, ?_, h.account, h.limit⟩
  rw [procAt_setProc, if_neg (Ne.symm other)]
  exact h.caller

theorem Primed.nextpid (h : Primed k₀ p n k) (pid : Int) :
    Primed k₀ p n { k with nextpid := pid } := { h with }

variable {c : Nat}

theorem Primed.uproc {m : Int} (h : Primed k₀ p n k) :
    Primed k₀ p n { k with cont := update k.cont c { k.cont c with uproc := m } } := by
  have msz (i : Nat) : (update k.cont c { k.cont c with uproc := m } i).msz = (k.cont i).msz :=
    update_same (g := Cont.msz) (by rfl) i
  refine ⟨h.file, h.caller, ?_, ?_⟩ <;> dsimp only <;> rw [msz]
  · rw [update_same (g := Cont.upg) (by rfl)]
    exact h.account
  · exact h.limit

variable {q : Nat} {l : List Nat} {Q : B → Kernel → Prop}

/- kalloc for p takes a page. -/
theorem wp_primed_kalloc {f : Nat → KM B} (h : Primed k₀ p (n + 1) k) (heap : Heap k.kmem (q :: l))
    (next : ∀ k', q ≠ 0 → Primed k₀ p n k' → Heap k'.kmem l → wp sureMode (f q) Q k') :
    wp sureMode (onMem p kalloc >>= f) Q k := by
  have room : ((k.memView p).upg + 1) * PGSIZE ≤ (k.memView p).msz := by
    change ((k.cont (k.contOf p)).upg + 1) * PGSIZE ≤ (k.cont (k.contOf p)).msz
    rw [h.contOf]
    exact (Nat.mul_le_mul_right _ (by omega)).trans h.account
  have limit : (k.memView p).msz < 2 ^ 32 := by
    change (k.cont (k.contOf p)).msz < 2 ^ 32
    rw [h.contOf]
    exact h.limit
  refine wp_bind (wp_zoom (wp_mono (kalloc_takes (s := k.memView p) heap room limit) ?_))
  rintro _ t ⟨rfl, nonzero, -, upg, -, rest⟩
  have upg : t.upg = (k.cont (k.contOf p)).upg + 1 := upg
  refine next _ nonzero ⟨h.file, h.caller, ?_, ?_⟩ rest <;> dsimp only [Kernel.memPut] <;>
    rw [h.contOf, update_self]
  · dsimp only
    rw [upg, h.contOf, Nat.add_assoc, Nat.add_comm 1 n]
    exact h.account
  · exact h.limit

variable {j : Nat}

/- The new process behind allocproc. -/
theorem wp_allocproc_sure {f : Option ProcId → KM B} (started : (k.cont c).state = .crunnable)
    (slot : findProc k c (fun q => q.state = .unused) = some j) (other : (⟨c, j⟩ : ProcId) ≠ p)
    (h : Primed k₀ p (n + 1) k) (heap : Heap k.kmem (q :: l))
    (next : ∀ k', Primed k₀ p n k' → k'.contOf ⟨c, j⟩ = c → Heap k'.kmem l →
      wp sureMode (f (some ⟨c, j⟩)) Q k') : wp sureMode (allocproc p c >>= f) Q k := by
  unfold allocproc
  refine wp_bind (wp_get_bind ?_)
  rw [if_neg fun neither => neither.1 started, slot]
  refine wp_modify_bind (wp_modify_bind ?_)
  refine wp_primed_kalloc ((h.setProc other).nextpid _) heap fun k₁ nonzero h heap => wp_modify_bind ?_
  rw [if_neg nonzero]
  refine wp_modify_bind (wp_modify_bind (wp_pure (next _ (((h.setProc other).setProc other).uproc) ?_ heap)))
  exact (congrArg Proc.cont (procAt_setProc _ _ _ _)).trans (congrArg Proc.cont (if_pos rfl))

/- All descriptors of p are passed to np, and p and the files stay what they are. -/
structure Passes (k : Kernel) (p np : ProcId) (k' : Kernel) : Prop where
  passed : ∀ f, Has k p f → Has k' np f
  files : ∀ f, SameFile (k.file f) (k'.file f)
  caller : k'.procAt p = k.procAt p
  cont : k'.contOf np = np.cont

theorem idup_sure (ip : Nat) (s : Fs.FsState) : wp (sureMode.comap Event.fs) (Fs.idup ip) (fun _ _ => True) s := by
  unfold Fs.idup Fs.addRef
  refine wp_bind (wp_get_bind (wp_ite (fun _ => ?_) fun _ => ?_))
  · exact wp_emit_bind fun _ => ⟨trivial, wp_modify (wp_pure trivial)⟩
  · exact wp_modify (wp_pure trivial)

theorem forkChild_sure {ip : Nat} {parent : ProcId} (h : Primed k₀ p 1025 k) (other : np ≠ p)
    (home : k.contOf np = np.cont) (heap : Heap k.kmem (q :: l)) (once : (q :: l).Nodup)
    (long : 1024 ≤ l.length) (empty : (k₀.procAt p).sz = 0) (refs : ∀ fd f, (k₀.procAt p).ofile fd = some f →
      1 ≤ (k₀.file f).ref ∧ (k₀.file f).ref + NOFILE ≤ maxInt) :
    wp sureMode (forkChild p np (k₀.procAt p) (some ip) parent) (fun _ k' => Passes k₀ p np k') k := by
  unfold forkChild
  rw [empty]
  have account : ((k.memView p).upg + 1025) * PGSIZE ≤ (k.memView p).msz := by
    change ((k.cont (k.contOf p)).upg + 1025) * PGSIZE ≤ (k.cont (k.contOf p)).msz
    rw [h.contOf]
    exact h.account
  have limit : (k.memView p).msz < 2 ^ 32 := by
    change (k.cont (k.contOf p)).msz < 2 ^ 32
    rw [h.contOf]
    exact h.limit
  obtain ⟨es, d, t, ends, made⟩ := copyuvm_ends (s := k.memView p) (k₀.procAt p).pgdir heap once long account limit
  refine wp_bind (wp_zoom (wp_ends ends (fun _ => trivial) (wp_modify_bind ?_)))
  rw [if_neg made]
  refine wp_modify_bind (wp_seq (dupFiles_copies fun fd f held => ?_) fun _ k₁ ⟨copies, _, others, cont, same⟩ => ?_)
  · change 1 ≤ (k.file f).ref ∧ (k.file f).ref + NOFILE ≤ maxInt
    rw [h.file]
    exact refs fd f held
  have same (f : Nat) : SameFile (k₀.file f) (k₁.file f) := by
    have now : SameFile (k.file f) (k₁.file f) := same f
    rwa [h.file] at now
  refine wp_bind (wp_zoom (wp_mono (idup_sure ip _) fun _ s _ => ?_))
  refine wp_modify_bind (wp_get_bind (wp_modify_bind (wp_pure ⟨?_, same, ?_, ?_⟩)))
  · rintro f ⟨fd, bound, held⟩
    refine ⟨fd, bound, ?_⟩
    rw [procAt_setProc, if_pos rfl, procAt_setProc, if_pos rfl]
    exact copies fd f (Nat.zero_le fd) (by omega) held
  · rw [procAt_setProc, if_neg (Ne.symm other), procAt_setProc, if_neg (Ne.symm other)]
    refine (others p (Ne.symm other)).trans ?_
    rw [procAt_setProc, if_neg (Ne.symm other), procAt_setProc, if_neg (Ne.symm other)]
    exact h.caller
  · rw [Kernel.contOf, procAt_setProc, if_pos rfl, procAt_setProc, if_pos rfl]
    refine cont.trans ?_
    rw [Kernel.contOf, procAt_setProc, if_pos rfl, procAt_setProc, if_pos rfl]
    exact home

theorem fork_sure (h : Welcomes k p c j) :
    wp sureMode (fork p (some c)) (fun _ k' => Passes k p ⟨c, j⟩ k') k := by
  obtain ⟨q, r, l, heap, once, long⟩ := h.pages
  obtain ⟨ip, rooted⟩ := h.rooted
  unfold fork
  refine wp_get_bind ?_
  dsimp only
  rw [rooted]
  have primed : Primed k p (1025 + 1) k := ⟨rfl, rfl, h.account, h.limit⟩
  refine wp_allocproc_sure h.started h.slot h.other primed heap fun k₁ primed home heap => ?_
  exact forkChild_sure primed h.other home heap (List.nodup_cons.mp once).2 long h.empty h.refs

/- A cfork that finds room passes all descriptors on. -/
theorem cfork_passes {cid : Int} (runs : CanRun k p) (found : cid2cont k cid = some c) (h : Welcomes k p c j) :
    ∃ k', step k (.call p (.cfork cid)) = some k' ∧ Passes k p ⟨c, j⟩ k' := by
  have spec : wp sureMode (perform (.call p (.cfork cid))) (fun _ k' => Passes k p ⟨c, j⟩ k') k := by
    refine wp_seq (wp_seq (?_ : wp sureMode (cfork p cid) _ k) fun _ _ done => wp_pure done) fun _ _ done =>
      wp_pure done
    unfold cfork
    refine wp_get_bind ?_
    rw [found]
    exact fork_sure h
  obtain ⟨-, result⟩ := spec fun _ _ => trivial
  unfold step
  rw [if_pos (show Enabled k (.call p (.cfork cid)) from runs)]
  split at result
  · rename_i k' done
    exact ⟨k', by rw [done], result⟩
  · exact result.elim

/- A cfork that passes a pipe on brings it to another container. -/
theorem Passes.abroad {r : Nat} (h : Passes k p np k') (inside : p ∈ slots ∧ np ∈ slots)
    (holds : HoldsPipe k p r) (other : np.cont ≠ k.contOf p) : ¬ PipesAtHome k' := by
  intro apart
  obtain ⟨f, has, isEnd⟩ := holds
  have isEnd := (pipeEnd_same (h.files f)).mpr isEnd
  have own : Has k' p f := by
    unfold Has
    rw [h.caller]
    exact has
  have same := apart r p inside.1 np inside.2 ⟨f, own, isEnd⟩ ⟨f, h.passed f has, isEnd⟩
  rw [h.cont, Kernel.contOf, h.caller] at same
  exact other same.symm

/- A process of the root container with a pipe, a second container that runs, and 1100 free
pages. -/
def pipedKernel : Kernel :=
  { Kernel.zero.setProc ⟨0, 0⟩ { Proc.zero with
      state := .running, pid := 1, kstack := 0x201, pgdir := 0x202, cwd := some 0
      ofile := fun fd => if fd < 2 then some fd else none } with
    kmem := ⟨update (freePages 1868) 0x250 (setWord (setWord zeros pipeReadopen 1) pipeWriteopen 1),
      768, 0x110, 0x200, 0x203⟩
    file := fun f => if f < 2 then ⟨.pipe, 1, f = 0, f = 1, 0x250, 0, 0⟩ else File.zero
    cont := fun i =>
      if i = 0 then { Cont.zero with cid := 1, state := .crunnable, mproc := NPROC, msz := MAX_CONT_MEM }
      else if i = 1 then { Cont.zero with cid := 2, state := .crunnable, mproc := 1, rootdir := some 0 }
      else Cont.zero }

theorem pipedKernel_procAt (q : ProcId) : pipedKernel.procAt q =
    if q = ⟨0, 0⟩ then { Proc.zero with
      state := .running, pid := 1, kstack := 0x201, pgdir := 0x202, cwd := some 0
      ofile := fun fd => if fd < 2 then some fd else none }
    else Proc.zero :=
  procAt_setProc Kernel.zero ⟨0, 0⟩ q _

theorem pipedKernel_ofile {q : ProcId} {fd : Nat} :
    (pipedKernel.procAt q).ofile fd = some f ↔ q = ⟨0, 0⟩ ∧ fd < 2 ∧ fd = f := by
  rw [pipedKernel_procAt]
  by_cases here : q = ⟨0, 0⟩
  · rw [if_pos here]
    simp only [here, true_and]
    split <;> simp_all
  · simp [here, Proc.zero]

theorem pipedKernel_heap : Heap pipedKernel.kmem (List.range' 768 1100) := by
  refine ⟨chain_freePages (n := 1100) (fun i high _ => ?_) rfl le_rfl (by decide), fun q free => ?_,
    ⟨by decide, by decide, by decide⟩⟩
  · exact update_of_ne (by omega) _ _
  · obtain ⟨low, high⟩ := List.mem_range'_1.mp free
    change 0x200 ≤ q ∧ q < PHYSTOP / PGSIZE
    simp only [PHYSTOP, PGSIZE]
    omega

theorem pipedKernel_file :
    pipedKernel.file f = if f < 2 then ⟨.pipe, 1, f = 0, f = 1, 0x250, 0, 0⟩ else File.zero := rfl

theorem pipedKernel_pipe (isPipe : (pipedKernel.file f).type = .pipe) : f < 2 := by
  by_contra large
  rw [pipedKernel_file, if_neg large] at isPipe
  exact nomatch isPipe

theorem pipedKernel_end (isPipe : (pipedKernel.file f).type = .pipe) :
    (pipedKernel.file f).pipe = 0x250 ∧ (pipedKernel.file f).writable = decide (f = 1) := by
  rw [pipedKernel_file, if_pos (pipedKernel_pipe isPipe)]
  exact ⟨rfl, rfl⟩

theorem pipedKernel_pipePages : pipePages pipedKernel.file = {0x250} := by
  ext r
  simp only [pipePages, Finset.mem_image, Finset.mem_filter, Finset.mem_singleton]
  constructor
  · rintro ⟨f, ⟨-, isPipe⟩, rfl⟩
    exact (pipedKernel_end isPipe).1
  · rintro rfl
    exact ⟨0, ⟨mem_fileIds.mpr (by decide), rfl⟩, rfl⟩

theorem pipedKernel_flag (writable : Bool) : word (pipedKernel.kmem.mem 0x250) (endFlag writable) = 1 := by
  have page : pipedKernel.kmem.mem 0x250 = setWord (setWord zeros pipeReadopen 1) pipeWriteopen 1 := by
    simp only [pipedKernel, update_self]
  rw [page, word_setWord, word_setWord]
  cases writable <;> rfl

theorem pipedKernel_flags : Flags pipedKernel.kmem.mem pipedKernel.file := by
  refine ⟨fun f isPipe => ?_, fun f w isPipe closed => ?_⟩
  · rw [(pipedKernel_end isPipe).1]
    exact pipedKernel_flag _
  · have other := closed (if w then 1 else 0)
    cases w <;> exact absurd rfl (other rfl (pipedKernel_end isPipe).1.symm)

theorem pipedKernel_paged : Paged pipedKernel (List.range' 768 1100) := by
  refine paged_solo (p := ⟨0, 0⟩) pipedKernel_heap (mem_slots.mpr (by decide)) (by decide)
    (fun q other => ?_) rfl rfl ?_ (by decide) rfl ⟨fun f unused => ?_, fun f large => ?_⟩
    ⟨fun f isPipe => ?_, fun f h isPipe isPipe' _ same => ?_⟩ fun i => ?_
  · rw [pipedKernel_procAt, if_neg other]
    exact fun live => live.1 rfl
  · rw [pipedKernel_pipePages]
    refine Multiset.nodup_add.mpr ⟨Multiset.coe_nodup.mpr List.nodup_range', by decide, ?_⟩
    refine Multiset.disjoint_left.mpr fun {q} free held => ?_
    have low := (List.mem_range'_1.mp (Multiset.mem_coe.mp free)).1
    have few : ∀ r ∈ ({0x201} + {0x202} + ({0x250} : Finset Nat).val + {0x203} : Multiset Nat), r < 768 := by decide
    exact absurd (few q held) (by omega)
  · by_cases open_ : f < 2
    · rw [pipedKernel_file, if_pos open_] at unused
      exact nomatch unused
    · rw [pipedKernel_file, if_neg open_]
      rfl
  · simp only [NFILE] at large
    rw [pipedKernel_file, if_neg (by omega)]
    rfl
  · have flag := pipedKernel_flags.opened f isPipe
    exact fun zero => absurd (flag.symm.trans zero) (by decide)
  · rw [(pipedKernel_end isPipe).2, (pipedKernel_end isPipe').2, decide_eq_decide] at same
    have bound := pipedKernel_pipe isPipe
    have bound' := pipedKernel_pipe isPipe'
    omega
  · change (if i = 0 then _ else if i = 1 then _ else Cont.zero : Cont).mproc ≤ NPROC
    split
    · exact le_rfl
    · split <;> decide

theorem pipedKernel_referenced : Referenced pipedKernel := by
  refine ⟨fun f => ?_, fun p _ idle fd _ => ?_⟩
  · by_cases open_ : f < 2
    · have only : descriptors.filter (fun x => (pipedKernel.procAt x.1).ofile x.2 = some f) = {(⟨0, 0⟩, f)} := by
        ext ⟨q, fd⟩
        simp only [Finset.mem_filter, mem_descriptors, Finset.mem_singleton, Prod.mk.injEq, pipedKernel_ofile]
        constructor
        · rintro ⟨-, here, -, same⟩
          exact ⟨here, same⟩
        · rintro ⟨rfl, rfl⟩
          exact ⟨⟨mem_slots.mpr (by decide), by simp only [NOFILE]; omega⟩, rfl, open_, rfl⟩
      rw [holders, pointers, only, pipedKernel_file, if_pos open_]
      rfl
    · have empty : descriptors.filter (fun x => (pipedKernel.procAt x.1).ofile x.2 = some f) = ∅ := by
        refine Finset.filter_eq_empty_iff.mpr fun x _ held => open_ ?_
        obtain ⟨-, bound, rfl⟩ := pipedKernel_ofile.mp held
        exact bound
      rw [holders, pointers, empty, pipedKernel_file, if_neg open_]
      rfl
  · rw [pipedKernel_procAt] at idle ⊢
    split at idle
    · rcases idle with unused | embryo | zombie
      · cases unused
      · cases embryo
      · cases zombie
    · rename_i other
      rw [if_neg other]
      rfl

/- Its own process only holds the pipe, until it makes another in the second container. -/
theorem cfork_shares_pipe : Tabled pipedKernel ∧ PipesAtHome pipedKernel ∧
    ∃ k', step pipedKernel (.call ⟨0, 0⟩ (.cfork 2)) = some k' ∧ ¬ PipesAtHome k' := by
  refine ⟨⟨⟨_, pipedKernel_paged⟩, pipedKernel_flags, pipedKernel_referenced⟩, ?_, ?_⟩
  · rintro r p - q - ⟨_, ⟨_, -, held⟩, -⟩ ⟨_, ⟨_, -, held'⟩, -⟩
    rw [(pipedKernel_ofile.mp held).1, (pipedKernel_ofile.mp held').1]
  have memory : Heap pipedKernel.kmem (768 :: 769 :: List.range' 770 1098) := pipedKernel_heap
  have distinct : (768 :: 769 :: List.range' 770 1098).Nodup := List.nodup_range' (s := 768) (n := 1100)
  have welcome : Welcomes pipedKernel ⟨0, 0⟩ 1 0 := by
    refine ⟨rfl, by decide +kernel, ⟨0, rfl⟩, rfl, ⟨768, 769, _, memory, distinct, by simp⟩, by decide, by decide,
      by decide, fun fd f held => ?_⟩
    obtain ⟨-, bound, rfl⟩ := pipedKernel_ofile.mp held
    rw [pipedKernel_file, if_pos bound]
    exact ⟨le_rfl, show (1 : Int) + NOFILE ≤ maxInt by decide⟩
  obtain ⟨k', ran, passes⟩ := cfork_passes (k := pipedKernel) (p := ⟨0, 0⟩)
    ⟨by decide, by decide, .inr rfl⟩ (show cid2cont pipedKernel 2 = some 1 by decide +kernel) welcome
  refine ⟨k', ran, passes.abroad (r := 0x250) ⟨mem_slots.mpr (by decide), mem_slots.mpr (by decide)⟩ ?_ (by decide)⟩
  exact ⟨0, ⟨0, by decide, rfl⟩, rfl, rfl⟩

end Passing

end Xv6c

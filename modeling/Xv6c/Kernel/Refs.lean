import Mathlib.Tactic.Abel
import Xv6c.Kernel.Usage
import Xv6c.Lib.Count

/-! The reference counts of the file table against the descriptors of all processes. What
each function does to the counts is said as a shift of them; while a call runs, references
are in hand that no descriptor has, or descriptors that no reference has. -/
namespace Xv6c
open Lib Mem

/- The slots of the descriptor tables of all processes. -/
def descriptors : Finset (ProcId × Nat) := slots ×ˢ Finset.range NOFILE

theorem mem_descriptors {p : ProcId} {fd : Nat} :
    (p, fd) ∈ descriptors ↔ p ∈ slots ∧ fd < NOFILE := by
  rw [descriptors, Finset.mem_product, Finset.mem_range]

/- How many descriptors point to file f. -/
def holders (k : Kernel) (f : Nat) : Nat := pointers descriptors (fun x => (k.procAt x.1).ofile x.2) f

/- A slot of the process table without a process that can make calls. -/
def Idle (q : Proc) : Prop := q.state = .unused ∨ q.state = .embryo ∨ q.state = .zombie

/- Between two system calls each count is right, and a slot that no process uses has no
descriptor left. -/
structure Referenced (k : Kernel) : Prop where
  refs : ∀ f, (k.file f).ref = holders k f
  vacant : ∀ p ∈ slots, Idle (k.procAt p) → ∀ fd < NOFILE, (k.procAt p).ofile fd = none

/- While a call runs: references in hand count for more, and only the slots in S are
settled. -/
structure Counted (k : Kernel) (hand : Nat → Int) (S : Finset ProcId) : Prop where
  refs : ∀ f, (k.file f).ref = holders k f + hand f
  vacant : ∀ p ∈ S, Idle (k.procAt p) → ∀ fd < NOFILE, (k.procAt p).ofile fd = none

/- The descriptors stay, and no process stops. -/
structure Still (k k' : Kernel) : Prop where
  ofile : ∀ p, (k'.procAt p).ofile = (k.procAt p).ofile
  idle : ∀ p, Idle (k'.procAt p) → Idle (k.procAt p)

/- And the counts change by d. -/
structure Shift (d : Nat → Int) (k k' : Kernel) : Prop extends Still k k' where
  refs : ∀ f, (k'.file f).ref = (k.file f).ref + d f

/- The descriptors and the files stay, offsets apart. -/
structure Beside (k k' : Kernel) : Prop extends Still k k' where
  refs : ∀ f, (k'.file f).ref = (k.file f).ref
  files : ∀ f, SameFile (k.file f) (k'.file f)

/- One reference to f. -/
def one (f g : Nat) : Int := if f = g then 1 else 0

theorem one_self (f : Nat) : one f f = 1 := if_pos rfl

theorem one_of_ne {f g : Nat} (other : g ≠ f) : one f g = 0 := if_neg (Ne.symm other)

variable {k k' : Kernel} {p : ProcId} {d e hand : Nat → Int} {S : Finset ProcId} {A B : Type}

theorem Still.refl (k : Kernel) : Still k k := ⟨fun _ => rfl, fun _ h => h⟩

variable {k₁ k₂ : Kernel}

theorem Still.trans (h : Still k k₁) (h' : Still k₁ k₂) : Still k k₂ :=
  ⟨fun p => (h'.ofile p).trans (h.ofile p), fun p idle => h.idle p (h'.idle p idle)⟩

theorem Shift.refl (k : Kernel) : Shift 0 k k := ⟨.refl k, fun _ => (add_zero _).symm⟩

theorem Shift.trans (h : Shift d k k₁) (h' : Shift e k₁ k₂) : Shift (d + e) k k₂ := by
  refine ⟨h.toStill.trans h'.toStill, fun f => ?_⟩
  rw [h'.refs, h.refs, Pi.add_apply, add_assoc]

theorem Beside.refl (k : Kernel) : Beside k k := ⟨.refl k, fun _ => rfl, fun _ => ⟨rfl, rfl⟩⟩

theorem Beside.trans (h : Beside k k₁) (h' : Beside k₁ k₂) : Beside k k₂ :=
  ⟨h.toStill.trans h'.toStill, fun f => (h'.refs f).trans (h.refs f),
    fun f => ⟨(h'.files f).1.trans (h.files f).1, (h'.files f).2.trans (h.files f).2⟩⟩

theorem Beside.shift (h : Beside k k') : Shift 0 k k' :=
  ⟨h.toStill, fun f => (h.refs f).trans (add_zero _).symm⟩

section Counted

theorem Referenced.counted (h : Referenced k) : Counted k 0 slots :=
  ⟨fun f => (h.refs f).trans (add_zero _).symm, h.vacant⟩

theorem Counted.referenced (h : Counted k 0 slots) : Referenced k :=
  ⟨fun f => (h.refs f).trans (add_zero _), h.vacant⟩

theorem holders_still (h : Still k k') (f : Nat) : holders k' f = holders k f := by
  simp only [holders, h.ofile]

theorem Counted.shift (h : Counted k hand S) (shift : Shift d k k') : Counted k' (hand + d) S := by
  refine ⟨fun f => ?_, fun p inside idle fd bound => ?_⟩
  · rw [shift.refs, h.refs, holders_still shift.toStill, Pi.add_apply, add_assoc]
  · rw [shift.ofile]
    exact h.vacant p inside (shift.idle p idle) fd bound

variable {f : Nat}

/- A count never runs past the largest int, since every reference has a descriptor. -/
theorem Counted.small (h : Counted k hand S) (few : hand f ≤ 1) : (k.file f).ref < maxInt := by
  have bound : holders k f ≤ descriptors.card := pointers_le _ _
  have size : descriptors.card ≤ NCONT * NPROC * NOFILE := by
    have image : slots.card ≤ NCONT * NPROC := by
      unfold slots
      refine Finset.card_image_le.trans ?_
      rw [Finset.card_product, Finset.card_range, Finset.card_range]
    rw [descriptors, Finset.card_product, Finset.card_range]
    exact Nat.mul_le_mul_right _ image
  have total := bound.trans size
  rw [h.refs]
  simp only [NCONT, NPROC, NOFILE, maxInt] at total ⊢
  omega

/- Slot p with descriptor fd changed to v. -/
def setFd (k : Kernel) (p : ProcId) (fd : Nat) (v : Option Nat) : Kernel :=
  k.setProc p { k.procAt p with ofile := Function.update (k.procAt p).ofile fd v }

theorem setFd_ofile (k : Kernel) (p : ProcId) (fd : Nat) (v : Option Nat) (q : ProcId) (j : Nat) :
    ((setFd k p fd v).procAt q).ofile j = if q = p ∧ j = fd then v else (k.procAt q).ofile j := by
  rw [setFd, procAt_setProc]
  by_cases slot : q = p
  · subst slot
    rw [if_pos rfl]
    by_cases column : j = fd
    · simp [column]
    · simp [column]
  · simp [slot]

theorem setFd_state (k : Kernel) (p : ProcId) (fd : Nat) (v : Option Nat) (q : ProcId) :
    ((setFd k p fd v).procAt q).state = (k.procAt q).state := by
  rw [setFd, procAt_setProc]
  split
  · rename_i same
    rw [same]
  · rfl

variable {fd : Nat}

theorem setFd_idle {v : Option Nat} {q : ProcId} : Idle ((setFd k p fd v).procAt q) ↔ Idle (k.procAt q) := by
  simp only [Idle, setFd_state]

theorem holders_setFd (inside : p ∈ slots) (bound : fd < NOFILE) (v : Option Nat) (f : Nat) :
    holders (setFd k p fd v) f + (if (k.procAt p).ofile fd = some f then 1 else 0) =
      holders k f + (if v = some f then 1 else 0) := by
  have table : (fun x : ProcId × Nat => ((setFd k p fd v).procAt x.1).ofile x.2) =
      Function.update (fun x : ProcId × Nat => (k.procAt x.1).ofile x.2) (p, fd) v := by
    funext ⟨q, j⟩
    rw [Function.update_apply, setFd_ofile]
    simp only [Prod.mk.injEq]
  rw [holders, holders, table]
  exact pointers_update (fun x : ProcId × Nat => (k.procAt x.1).ofile x.2)
    (mem_descriptors.mpr ⟨inside, bound⟩) v f

/- A descriptor is set to a file whose reference is in hand. -/
theorem Counted.give (h : Counted k hand S) (inside : p ∈ slots) (bound : fd < NOFILE)
    (free : (k.procAt p).ofile fd = none) (runs : p ∈ S → ¬ Idle (k.procAt p)) :
    Counted (setFd k p fd (some f)) (hand - one f) S := by
  refine ⟨fun g => ?_, fun q member idle j small => ?_⟩
  · have count := holders_setFd (k := k) inside bound (some f) g
    have refs := h.refs g
    change (k.file g).ref = _
    rw [free] at count
    by_cases here : f = g
    · simp only [one, here, Pi.sub_apply, reduceCtorEq, if_true, if_false] at count ⊢
      omega
    · simp only [one, here, Pi.sub_apply, Option.some.injEq, reduceCtorEq, if_false] at count ⊢
      omega
  · rw [setFd_idle] at idle
    rw [setFd_ofile, if_neg]
    · exact h.vacant q member idle j small
    · rintro ⟨rfl, -⟩
      exact runs member idle

/- A descriptor is cleared, and its reference is in hand. -/
theorem Counted.take (h : Counted k hand S) (inside : p ∈ slots) (bound : fd < NOFILE)
    (used : (k.procAt p).ofile fd = some f) : Counted (setFd k p fd none) (hand + one f) S := by
  refine ⟨fun g => ?_, fun q member idle j small => ?_⟩
  · have count := holders_setFd (k := k) inside bound none g
    have refs := h.refs g
    change (k.file g).ref = _
    rw [used] at count
    by_cases here : f = g
    · simp only [one, here, Pi.add_apply, reduceCtorEq, if_true, if_false] at count ⊢
      omega
    · simp only [one, here, Pi.add_apply, Option.some.injEq, reduceCtorEq, if_false] at count ⊢
      omega
  · rw [setFd_idle] at idle
    rw [setFd_ofile]
    split
    · rfl
    · exact h.vacant q member idle j small

/- A slot is settled again once its process runs or its descriptors are gone. -/
theorem Counted.settle (h : Counted k hand (S.erase p))
    (vacant : Idle (k.procAt p) → ∀ fd < NOFILE, (k.procAt p).ofile fd = none) : Counted k hand S := by
  refine ⟨h.refs, fun q member idle => ?_⟩
  by_cases here : q = p
  · subst here
    exact vacant idle
  · exact h.vacant q (Finset.mem_erase.mpr ⟨here, member⟩) idle

end Counted

section Programs

/- A program that leaves counts and descriptors alone. -/
abbrev Unshifted (x : KM A) : Prop := Walks (Shift 0) x

/- A program that leaves the file table and the descriptors alone. -/
abbrev Bystander (x : KM A) : Prop := Walks Beside x

instance unshifted_of_bystander {x : KM A} [aside : Bystander x] : Unshifted x :=
  ⟨fun k => wp_mono (aside.within k) fun _ _ steps =>
    Relation.ReflTransGen.mono (fun _ _ => Beside.shift) _ _ steps⟩

theorem beside_of_steps (h : Relation.ReflTransGen Beside k k') : Beside k k' := by
  induction h with
  | refl => exact .refl k
  | tail _ last ih => exact ih.trans last

variable {x : KM A}

theorem Bystander.beside (h : Bystander x) (k : Kernel) : wp anyMode x (fun _ k' => Beside k k') k :=
  wp_mono (h.does (fun _ => trivial) (fun _ _ => trivial) k) fun _ _ => beside_of_steps

theorem shift_of_steps (h : Relation.ReflTransGen (Shift 0) k k') : Shift 0 k k' := by
  induction h with
  | refl => exact .refl k
  | tail _ last ih => exact add_zero (0 : Nat → Int) ▸ ih.trans last

theorem Unshifted.shift (h : Unshifted x) (k : Kernel) : wp anyMode x (fun _ k' => Shift 0 k k') k :=
  wp_mono (h.does (fun _ => trivial) (fun _ _ => trivial) k) fun _ _ => shift_of_steps

theorem wp_unshifted [aside : Unshifted x] {f : A → KM B} {Q : B → Kernel → Prop} (h : Counted k hand S)
    (next : ∀ a k', Still k k' → Counted k' hand S → wp anyMode (f a) Q k') : wp anyMode (x >>= f) Q k := by
  refine wp_seq (aside.shift k) fun a k' shift => next a k' shift.toStill ?_
  have counted := h.shift shift
  rwa [add_zero] at counted

theorem beside_tables (proc : k'.proc = k.proc) (file : k'.file = k.file) : Beside k k' := by
  refine ⟨⟨fun q => ?_, fun q idle => ?_⟩, fun f => ?_, fun f => ?_⟩
  · rw [procAt_congr proc]
  · rwa [procAt_congr proc] at idle
  · rw [file]
  · rw [file]
    exact ⟨rfl, rfl⟩

theorem still_setProc {q : Proc} (ofile : q.ofile = (k.procAt p).ofile)
    (idle : Idle q → Idle (k.procAt p)) : Still k (k.setProc p q) := by
  constructor <;> intro r <;> rw [procAt_setProc] <;> split
  · rename_i same
    rw [same, ofile]
  · rfl
  · rename_i same
    rw [same]
    exact idle
  · exact id

theorem bystander_modifyProc {c : Proc → Proc} (ofile : ∀ q, (c q).ofile = q.ofile)
    (idle : ∀ q, Idle (c q) → Idle q) : Bystander (modifyProc p c) :=
  does_modify fun _ => ⟨still_setProc (ofile _) (idle _), fun _ => rfl, fun _ => ⟨rfl, rfl⟩⟩

instance : TableSteps Beside where
  tables := beside_tables
  wake k chan := by
    refine ⟨⟨fun p => ?_, fun p => ?_⟩, fun _ => rfl, fun _ => ⟨rfl, rfl⟩⟩
    · simp only [Kernel.procAt, woken]
      split <;> rfl
    · simp only [Kernel.procAt, woken]
      split
      · simp [Idle]
      · exact id
  offset k f n := by
    refine ⟨⟨fun _ => rfl, fun _ idle => idle⟩, fun g => ?_, ?_⟩
    · exact update_same (g := File.ref) (by rfl) g
    · exact update_related (fun _ => ⟨rfl, rfl⟩) ⟨rfl, rfl⟩

instance : OwnSteps p Beside where
  fs _ _ _ := beside_tables rfl rfl
  mem _ _ _ := beside_tables rfl rfl
  tend k q tends ofile _ := by
    refine ⟨still_setProc ofile fun idle => ?_, fun _ => rfl, fun _ => ⟨rfl, rfl⟩⟩
    rcases tends.2.2.2 with same | asleep
    · rwa [Idle, same] at idle
    · simp [Idle, asleep] at idle

theorem unshifted_modifyFile {f : Nat} {c : File → File} (ref : ∀ x, (c x).ref = x.ref) :
    Unshifted (modifyFile f c) := by
  refine does_modify fun k => ⟨⟨fun _ => rfl, fun _ idle => idle⟩, fun g => ?_⟩
  rw [Pi.zero_apply, add_zero]
  exact update_same (ref _) g

end Programs

section Files

theorem shift_setFile {f : Nat} {x : File} (ref : x.ref = (k.file f).ref + d f)
    (others : ∀ g, g ≠ f → d g = 0) : Shift d k { k with file := Function.update k.file f x } := by
  refine ⟨⟨fun _ => rfl, fun _ idle => idle⟩, fun g => ?_⟩
  dsimp only
  by_cases here : g = f
  · rw [here, Function.update_self, ref]
  · rw [Function.update_of_ne here, others g here, add_zero]

theorem filealloc_shift (k : Kernel) : wp anyMode filealloc (fun r k' => (r = none ∧ Shift 0 k k') ∨
    ∃ f, r = some f ∧ Shift (one f) k k') k := by
  unfold filealloc
  refine wp_get_bind ?_
  split
  · rename_i f found
    have free : (k.file f).ref = 0 := by simpa using List.find?_some found
    refine wp_modify_bind (wp_pure (Or.inr ⟨f, rfl, ?_⟩))
    exact shift_setFile (by rw [free, one_self, zero_add]) fun _ => one_of_ne
  · exact wp_pure (Or.inl ⟨rfl, .refl k⟩)

theorem filedup_shift {f : Nat} (small : (k.file f).ref < maxInt) :
    wp anyMode (filedup f) (fun _ k' => Shift (one f) k k') k := by
  unfold filedup
  refine wp_get_bind (wp_ite (fun _ => wp_fault trivial) fun _ => wp_modify ?_)
  refine shift_setFile ?_ fun _ => one_of_ne
  rw [one_self]
  exact if_neg small.ne

theorem fileclose_shift (p : ProcId) (f : Nat) (k : Kernel) :
    wp anyMode (fileclose p f) (fun _ k' => Shift (-one f) k k') k := by
  have less {x : File} (ref : x.ref = (k.file f).ref - 1) :
      Shift (-one f) k { k with file := Function.update k.file f x } := by
    refine shift_setFile ?_ fun g other => ?_
    · rw [ref, Pi.neg_apply, one_self, sub_eq_add_neg]
    · rw [Pi.neg_apply, one_of_ne other, neg_zero]
  have rest {x : File} (ref : x.ref = (k.file f).ref - 1) {y : KM Unit} (aside : Unshifted y) :
      wp anyMode y (fun _ k' => Shift (-one f) k k') { k with file := Function.update k.file f x } := by
    refine wp_mono (aside.shift _) fun _ k' shift => ?_
    have whole := (less ref).trans shift
    rwa [add_zero] at whole
  unfold fileclose
  refine wp_get_bind (wp_ite (fun _ => wp_fault trivial) fun used => wp_ite (fun _ => wp_modify ?_) fun last =>
    wp_modify_bind ?_)
  · exact less rfl
  · have ref : (0 : Int) = (k.file f).ref - 1 := by omega
    split
    · exact rest ref inferInstance
    · exact rest ref inferInstance
    · exact rest ref inferInstance

theorem Counted.of_eq {hand' : Nat → Int} (h : Counted k hand S) (same : hand = hand') :
    Counted k hand' S := same ▸ h

theorem pipeBad_shift (p : ProcId) (f0 f1 : Option Nat) (k : Kernel) :
    wp anyMode (pipeBad p f0 f1) (fun r k' => r = none ∧
      Shift (-(f0.elim 0 one + f1.elim 0 one)) k k') k := by
  unfold pipeBad
  cases f0 <;> cases f1
  · exact wp_pure ⟨rfl, by simpa using Shift.refl k⟩
  · refine wp_seq (fileclose_shift p _ k) fun _ k₁ shift => wp_pure ⟨rfl, ?_⟩
    simpa using shift
  · refine wp_seq (fileclose_shift p _ k) fun _ k₁ shift => wp_pure ⟨rfl, ?_⟩
    simpa using shift
  · refine wp_seq (fileclose_shift p _ k) fun _ k₁ first => ?_
    refine wp_seq (fileclose_shift p _ k₁) fun _ k₂ second => wp_pure ⟨rfl, ?_⟩
    rw [neg_add]
    exact first.trans second

theorem pipealloc_shift (p : ProcId) (k : Kernel) :
    wp anyMode (pipealloc p) (fun r k' => (r = none ∧ Shift 0 k k') ∨
      ∃ rf wf, r = some (rf, wf) ∧ Shift (one rf + one wf) k k') k := by
  have bad {f0 f1 : Option Nat} {k₁ : Kernel} (before : Shift (f0.elim 0 one + f1.elim 0 one) k k₁) :
      wp anyMode (pipeBad p f0 f1) (fun r k' => (r = none ∧ Shift 0 k k') ∨
        ∃ rf wf, r = some (rf, wf) ∧ Shift (one rf + one wf) k k') k₁ := by
    refine wp_mono (pipeBad_shift p f0 f1 k₁) fun _ k' ⟨failed, after⟩ => Or.inl ⟨failed, ?_⟩
    have whole := before.trans after
    rwa [add_neg_cancel] at whole
  unfold pipealloc
  refine wp_seq (filealloc_shift k) ?_
  rintro r k₁ (⟨rfl, first⟩ | ⟨f0, rfl, first⟩)
  · exact bad (by simpa using first)
  · refine wp_seq (filealloc_shift k₁) ?_
    rintro r k₂ (⟨rfl, second⟩ | ⟨f1, rfl, second⟩)
    · exact bad (first.trans second)
    · refine wp_seq (Unshifted.shift inferInstance k₂) fun pipe k₃ third => ?_
      have both := (first.trans second).trans third
      rw [add_zero] at both
      refine wp_ite (fun _ => bad both) fun _ => ?_
      refine wp_seq (Unshifted.shift inferInstance k₃) fun _ k₄ fourth => ?_
      refine wp_seq (Unshifted.shift (unshifted_modifyFile ?_) k₄) fun _ k₅ fifth => ?_
      · exact fun _ => rfl
      refine wp_seq (Unshifted.shift (unshifted_modifyFile ?_) k₅) fun _ k₆ sixth => ?_
      · exact fun _ => rfl
      have whole := ((both.trans fourth).trans fifth).trans sixth
      rw [add_zero, add_zero, add_zero] at whole
      exact wp_pure (Or.inr ⟨f0, f1, rfl, whole⟩)

end Files

section Calls

/- fdalloc fills an empty descriptor, or there is none. -/
theorem fdalloc_spec {f : Nat} (h : Counted k hand slots) (inside : p ∈ slots)
    (runs : ¬ Idle (k.procAt p)) :
    wp anyMode (fdalloc p f) (fun r k' => (r = none ∧ k' = k) ∨ ∃ fd < NOFILE, r = some fd ∧
      k' = setFd k p fd (some f) ∧ Counted k' (hand - one f) slots) k := by
  unfold fdalloc
  refine wp_get_bind ?_
  split
  · rename_i fd found
    have bound : fd < NOFILE := List.mem_range.mp (List.mem_of_find?_eq_some found)
    have free : (k.procAt p).ofile fd = none := by simpa using List.find?_some found
    exact wp_modify_bind (wp_pure (Or.inr ⟨fd, bound, rfl, rfl, h.give inside bound free fun _ => runs⟩))
  · exact wp_pure (Or.inl ⟨rfl, rfl⟩)

theorem argfd_some {fd : Int} {f : Nat} (found : argfd k p fd = some f) :
    fd.toNat < NOFILE ∧ (k.procAt p).ofile fd.toNat = some f := by
  unfold argfd at found
  split at found
  · exact ⟨by omega, found⟩
  · exact nomatch found

theorem sysDup_counts (fd : Int) (h : Counted k 0 slots) (inside : p ∈ slots)
    (runs : ¬ Idle (k.procAt p)) : wp anyMode (sysDup p fd) (fun _ k' => Counted k' 0 slots) k := by
  unfold sysDup
  refine wp_get_bind ?_
  split
  · exact wp_pure h
  · rename_i f _
    refine wp_seq (fdalloc_spec h inside runs) ?_
    rintro r k₁ (⟨rfl, rfl⟩ | ⟨fd', bound, rfl, rfl, counted⟩)
    · exact wp_pure h
    · refine wp_seq (filedup_shift (counted.small ?_)) fun _ k₂ shift => wp_pure ?_
      · simp [one_self]
      · exact (counted.shift shift).of_eq (by simp)

theorem sysClose_counts (fd : Int) (h : Counted k 0 slots) (inside : p ∈ slots) :
    wp anyMode (sysClose p fd) (fun _ k' => Counted k' 0 slots) k := by
  unfold sysClose
  refine wp_get_bind ?_
  split
  · exact wp_pure h
  · rename_i f found
    obtain ⟨bound, used⟩ := argfd_some found
    refine wp_modify_bind (wp_seq (fileclose_shift p f _) fun _ k₁ shift => wp_pure ?_)
    have taken : Counted (setFd k p fd.toNat none) (0 + one f) slots := h.take inside bound used
    exact (taken.shift shift).of_eq (by simp)

theorem openBad_counts (ip : Nat) {f : Option Nat} (h : Counted k (f.elim 0 one) slots) :
    wp anyMode (openBad p ip f) (fun _ k' => Counted k' 0 slots) k := by
  have rest {k₁ : Kernel} (counted : Counted k₁ 0 slots) : wp anyMode (do
      onFs p (Fs.iunlockput ip)
      onFs p Fs.endOp
      (pure (-1) : KM Int)) (fun _ k' => Counted k' 0 slots) k₁ :=
    wp_unshifted counted fun _ _ _ counted => wp_unshifted counted fun _ _ _ counted => wp_pure counted
  unfold openBad
  cases f with
  | none => exact rest h
  | some f =>
    exact wp_seq (fileclose_shift p f k) fun _ k₁ shift => rest ((h.shift shift).of_eq (by simp))

theorem sysOpen_counts (path : Fs.CStr) (omode : BitVec 32) (h : Counted k 0 slots) (inside : p ∈ slots)
    (runs : ¬ Idle (k.procAt p)) :
    wp anyMode (sysOpen p path omode) (fun _ k' => Counted k' 0 slots) k := by
  unfold sysOpen
  refine wp_get_bind (wp_unshifted h fun r k₁ still h => ?_)
  cases r with
  | none => exact wp_pure h
  | some ip =>
    refine wp_seq (filealloc_shift k₁) ?_
    rintro r k₂ (⟨rfl, shift⟩ | ⟨f, rfl, shift⟩)
    · exact openBad_counts ip (h.shift shift)
    · have counted := h.shift shift
      have runs : ¬ Idle (k₂.procAt p) := fun idle => runs (still.idle p (shift.idle p idle))
      refine wp_seq (fdalloc_spec counted inside runs) ?_
      rintro r k₃ (⟨rfl, rfl⟩ | ⟨fd, bound, rfl, rfl, counted⟩)
      · exact openBad_counts ip (counted.of_eq (zero_add _))
      · have counted : Counted _ 0 slots := counted.of_eq (by simp)
        refine wp_unshifted counted fun _ k₄ _ counted => wp_unshifted counted fun _ k₅ _ counted => ?_
        refine wp_seq (Unshifted.shift (unshifted_modifyFile ?_) k₅) fun _ k₆ shift => wp_pure ?_
        · exact fun _ => rfl
        · exact (counted.shift shift).of_eq (add_zero _)

theorem sysPipe_counts (h : Counted k 0 slots) (inside : p ∈ slots) (runs : ¬ Idle (k.procAt p)) :
    wp anyMode (sysPipe p) (fun _ k' => Counted k' 0 slots) k := by
  have closed {rf wf : Nat} {k₁ : Kernel} (h : Counted k₁ (one rf + one wf) slots) : wp anyMode (do
      fileclose p rf
      fileclose p wf
      (pure none : KM (Option (Nat × Nat)))) (fun _ k' => Counted k' 0 slots) k₁ := by
    refine wp_seq (fileclose_shift p rf k₁) fun _ k₂ first => ?_
    refine wp_seq (fileclose_shift p wf k₂) fun _ k₃ second => wp_pure ?_
    exact ((h.shift first).shift second).of_eq (by abel)
  unfold sysPipe
  refine wp_seq (pipealloc_shift p k) ?_
  rintro r k₁ (⟨rfl, shift⟩ | ⟨rf, wf, rfl, shift⟩)
  · exact wp_pure ((h.shift shift).of_eq (add_zero _))
  · have counted := (h.shift shift).of_eq (zero_add _)
    have runs : ¬ Idle (k₁.procAt p) := fun idle => runs (shift.idle p idle)
    refine wp_seq (fdalloc_spec counted inside runs) ?_
    rintro r k₂ (⟨rfl, rfl⟩ | ⟨fd0, bound, rfl, rfl, counted⟩)
    · exact closed counted
    · have runs : ¬ Idle ((setFd k₁ p fd0 (some rf)).procAt p) := fun idle => runs (setFd_idle.mp idle)
      refine wp_seq (fdalloc_spec counted inside runs) ?_
      rintro r k₃ (⟨rfl, rfl⟩ | ⟨fd1, _, rfl, rfl, counted⟩)
      · have used : ((setFd k₁ p fd0 (some rf)).procAt p).ofile fd0 = some rf := by
          rw [setFd_ofile, if_pos ⟨rfl, rfl⟩]
        exact wp_modify_bind (closed ((counted.take inside bound used).of_eq (by abel)))
      · exact wp_pure (counted.of_eq (by abel))

end Calls

section Processes

/- closeFiles clears the descriptors from fd on, n of them. -/
theorem closeFiles_counts {n fd : Nat} (h : Counted k 0 slots) (inside : p ∈ slots)
    (bound : fd + n ≤ NOFILE) :
    wp anyMode (closeFiles p n fd) (fun _ k' => Counted k' 0 slots ∧
      (∀ j, (k'.procAt p).ofile j = if fd ≤ j ∧ j < fd + n then none else (k.procAt p).ofile j)) k := by
  induction n generalizing fd k with
  | zero =>
    refine wp_pure ⟨h, fun j => (if_neg ?_).symm⟩
    omega
  | succ n ih =>
    unfold closeFiles
    refine wp_get_bind ?_
    have rest {k₁ : Kernel} (counted : Counted k₁ 0 slots)
        (cleared : ∀ j, (k₁.procAt p).ofile j = if j = fd then none else (k.procAt p).ofile j) :
        wp anyMode (closeFiles p n (fd + 1)) (fun _ k' => Counted k' 0 slots ∧ ∀ j,
          (k'.procAt p).ofile j = if fd ≤ j ∧ j < fd + (n + 1) then none else (k.procAt p).ofile j) k₁ := by
      refine wp_mono (ih counted (by omega)) fun _ k' ⟨counted, later⟩ => ⟨counted, fun j => ?_⟩
      rw [later, cleared]
      split_ifs <;> first | rfl | omega
    split
    · rename_i f used
      refine wp_seq (fileclose_shift p f k) fun _ k₁ shift => wp_modify_bind ?_
      have used : (k₁.procAt p).ofile fd = some f := by rw [shift.ofile, used]
      have counted : Counted (setFd k₁ p fd none) 0 slots :=
        ((h.shift shift).take inside (by omega) used).of_eq (by abel)
      have cleared (j : Nat) : ((setFd k₁ p fd none).procAt p).ofile j =
          if j = fd then none else (k.procAt p).ofile j := by
        rw [setFd_ofile, shift.ofile]
        simp
      exact rest counted cleared
    · rename_i free
      refine rest h fun j => ?_
      split
      · rename_i here
        rw [here, free]
      · rfl

instance bystander_reparent (c n j : Nat) : Bystander (reparent p c n j) := by
  induction n generalizing j with
  | zero => exact does_pure _
  | succ n ih =>
    unfold reparent
    refine Does.seq fun k => ?_
    have moved := bystander_modifyProc (p := ⟨c, j⟩) (c := fun q => { q with parent := some k.initproc })
      (fun _ => rfl) fun _ idle => idle
    infer_instance

/- A change to a slot that is none to its descriptors; if it is to be settled and has no
process then, it has no descriptor. -/
theorem Counted.setProc {q : Proc} (h : Counted k hand S) (ofile : q.ofile = (k.procAt p).ofile)
    (vacant : p ∈ S → Idle q → ∀ fd < NOFILE, (k.procAt p).ofile fd = none) :
    Counted (k.setProc p q) hand S := by
  have same (r : ProcId) : ((k.setProc p q).procAt r).ofile = (k.procAt r).ofile := by
    rw [procAt_setProc]
    split
    · rename_i here
      rw [here, ofile]
    · rfl
  refine ⟨fun f => ?_, fun r member idle fd bound => ?_⟩
  · rw [holders]
    simp only [same]
    exact h.refs f
  · rw [same]
    by_cases here : r = p
    · subst here
      rw [procAt_setProc, if_pos rfl] at idle
      exact vacant member idle fd bound
    · rw [procAt_setProc, if_neg here] at idle
      exact h.vacant r member idle fd bound

/- The counts are right, and process p has no descriptor left. -/
def Stripped (p : ProcId) (k : Kernel) : Prop :=
  Counted k 0 slots ∧ ∀ fd < NOFILE, (k.procAt p).ofile fd = none

theorem wp_stripped {x : KM A} [Unshifted x] {f : A → KM B} {Q : B → Kernel → Prop} (h : Stripped p k)
    (next : ∀ a k', Stripped p k' → wp anyMode (f a) Q k') : wp anyMode (x >>= f) Q k :=
  wp_unshifted h.1 fun a k' still counted => next a k'
    ⟨counted, fun fd bound => (congrFun (still.ofile p) fd).trans (h.2 fd bound)⟩

theorem exit_counts (h : Counted k 0 slots) (inside : p ∈ slots) :
    wp anyMode (exit p) (fun _ k' => Counted k' 0 slots) k := by
  unfold exit
  refine wp_get_bind (wp_ite (fun _ => wp_fault trivial) fun _ => ?_)
  refine wp_seq (closeFiles_counts h inside (by omega)) fun _ k₁ ⟨counted, cleared⟩ => ?_
  have h : Stripped p k₁ := ⟨counted, fun fd bound => by rw [cleared, if_pos (by omega)]⟩
  refine wp_stripped h fun _ k₂ h => wp_stripped h fun _ k₃ h => wp_stripped h fun _ k₄ h => ?_
  have left := bystander_modifyProc (p := p) (c := fun q => { q with cwd := none }) (fun _ => rfl)
    fun _ idle => idle
  refine wp_stripped h fun _ k₅ h => wp_get_bind ?_
  have rest {k₆ : Kernel} (h : Stripped p k₆) : wp anyMode (do
      reparent p (k₅.contOf p) (k₅.cont (k₅.contOf p)).mproc.toNat 0
      modifyCont (k₅.contOf p) fun c => { c with uproc := c.uproc - 1 }
      modifyProc p fun q => { q with state := .zombie }) (fun _ k' => Counted k' 0 slots) k₆ := by
    refine wp_stripped h fun _ k₇ h => wp_stripped h fun _ k₈ h => wp_modify ?_
    exact h.1.setProc rfl fun _ _ => h.2
  dsimp only
  split
  · exact wp_stripped h fun _ k₆ h => rest h
  · exact rest h

/- A slot that fork fills: it is not settled, and has no descriptor yet. -/
structure Fresh (k : Kernel) (np : ProcId) : Prop where
  counted : Counted k 0 (slots.erase np)
  inside : np ∈ slots
  vacant : ∀ fd < NOFILE, (k.procAt np).ofile fd = none

variable {np : ProcId} {f : A → KM B} {Q : B → Kernel → Prop}

theorem wp_fresh {x : KM A} [Unshifted x] (h : Fresh k np)
    (next : ∀ a k', Fresh k' np → wp anyMode (f a) Q k') : wp anyMode (x >>= f) Q k :=
  wp_unshifted h.counted fun a k' still counted => next a k'
    ⟨counted, h.inside, fun fd bound => (congrFun (still.ofile np) fd).trans (h.vacant fd bound)⟩

/- A change to the slot itself. -/
theorem wp_adjust {c : Proc → Proc} {f : Unit → KM B} (h : Fresh k np)
    (ofile : ∀ q, (c q).ofile = q.ofile) (next : ∀ k', Fresh k' np → wp anyMode (f ()) Q k') :
    wp anyMode (modifyProc np c >>= f) Q k := by
  refine wp_modify_bind (next _ ⟨h.counted.setProc (ofile _) fun _ _ => h.vacant, h.inside, ?_⟩)
  intro fd bound
  rw [procAt_setProc, if_pos rfl, ofile]
  exact h.vacant fd bound

/- A settled slot without descriptors is opened, and given up again. -/
theorem Counted.fresh (h : Counted k 0 slots) (inside : np ∈ slots)
    (vacant : ∀ fd < NOFILE, (k.procAt np).ofile fd = none) : Fresh k np :=
  ⟨⟨h.refs, fun q member => h.vacant q (Finset.mem_of_mem_erase member)⟩, inside, vacant⟩

theorem Fresh.settle (h : Fresh k np) : Counted k 0 slots := h.counted.settle fun _ => h.vacant

theorem allocproc_counts {c : Nat} (h : Counted k 0 slots) (index : c < NCONT)
    (room : (k.cont c).mproc ≤ NPROC) :
    wp anyMode (allocproc p c) (fun r k' => (r = none ∧ Counted k' 0 slots) ∨
      ∃ np, r = some np ∧ Fresh k' np) k := by
  unfold allocproc
  refine wp_get_bind (wp_ite (fun _ => wp_pure (Or.inl ⟨rfl, h⟩)) fun _ => ?_)
  split
  · exact wp_pure (Or.inl ⟨rfl, h⟩)
  · rename_i j found
    obtain ⟨below, unused⟩ := findProc_some found
    have unused : (k.procAt ⟨c, j⟩).state = .unused := of_decide_eq_true unused
    have inside : (⟨c, j⟩ : ProcId) ∈ slots := mem_slots.mpr ⟨index, by dsimp only; omega⟩
    have fresh := h.fresh inside (h.vacant _ inside (Or.inl unused))
    refine wp_adjust fresh (fun _ => rfl) fun k₁ fresh => wp_fresh fresh fun _ k₂ fresh =>
      wp_fresh fresh fun kstack k₃ fresh => wp_adjust fresh (fun _ => rfl) fun k₄ fresh =>
      wp_ite (fun _ => ?_) fun _ => ?_
    · exact wp_adjust fresh (fun _ => rfl) fun k₅ fresh => wp_pure (Or.inl ⟨rfl, fresh.settle⟩)
    · exact wp_adjust fresh (fun _ => rfl) fun k₅ fresh => wp_fresh fresh fun _ k₆ fresh =>
        wp_pure (Or.inr ⟨_, rfl, fresh⟩)

/- The descriptors of the parent are copied from fd on, n of them. -/
theorem dupFiles_counts {ofile : Nat → Option Nat} {n fd : Nat} (h : Counted k 0 (slots.erase np))
    (inside : np ∈ slots) (bound : fd + n ≤ NOFILE)
    (vacant : ∀ j, fd ≤ j → j < NOFILE → (k.procAt np).ofile j = none) :
    wp anyMode (dupFiles np ofile n fd) (fun _ k' => Counted k' 0 (slots.erase np)) k := by
  induction n generalizing fd k with
  | zero => exact wp_pure h
  | succ n ih =>
    unfold dupFiles
    split
    · rename_i f _
      refine wp_seq (filedup_shift (h.small zero_le_one)) fun _ k₁ shift => wp_modify_bind ?_
      have free : (k₁.procAt np).ofile fd = none := by
        rw [shift.ofile]
        exact vacant fd le_rfl (by omega)
      have counted := (h.shift shift).give inside (by omega) free (f := f)
        fun member => absurd member (Finset.notMem_erase np slots)
      refine ih (k := setFd k₁ np fd (some f)) (counted.of_eq (by abel)) (by omega) fun j above below => ?_
      rw [setFd_ofile, if_neg (by omega), shift.ofile]
      exact vacant j (by omega) below
    · exact ih h (by omega) fun j above => vacant j (by omega)

theorem forkChild_counts (cur : Proc) (cwd : Option Nat) (parent : ProcId) (h : Fresh k np) :
    wp anyMode (forkChild p np cur cwd parent) (fun _ k' => Counted k' 0 slots) k := by
  unfold forkChild
  refine wp_fresh h fun pgdir k₁ h => wp_adjust h (fun _ => rfl) fun k₂ h => wp_ite (fun _ => ?_) fun _ => ?_
  · exact wp_get_bind (wp_fresh h fun _ k₃ h => wp_adjust h (fun _ => rfl) fun k₄ h => wp_pure h.settle)
  · refine wp_adjust h (fun _ => rfl) fun k₃ h => ?_
    refine wp_seq (dupFiles_counts h.counted h.inside (by omega) fun j _ => h.vacant j) fun _ k₄ counted => ?_
    refine wp_unshifted counted fun cwd k₅ _ counted => wp_modify_bind (wp_get_bind (wp_modify_bind ?_))
    have outside {P : Prop} (member : np ∈ slots.erase np) : P := absurd member (Finset.notMem_erase np slots)
    refine wp_pure (Counted.settle (p := np) ?_ fun idle => ?_)
    · refine Counted.setProc (Counted.setProc counted ?_ outside) ?_ outside <;> rfl
    · rw [procAt_setProc, if_pos rfl] at idle
      simp [Idle] at idle

theorem fork_counts {target : Option Nat} (h : Counted k 0 slots) (index : target.getD (k.contOf p) < NCONT)
    (room : ∀ i, (k.cont i).mproc ≤ NPROC) : wp anyMode (fork p target) (fun _ k' => Counted k' 0 slots) k := by
  refine wp_fork (allocproc_counts h index (room _)) ?_
  rintro cwd r k₁ (⟨rfl, counted⟩ | ⟨np, rfl, fresh⟩)
  · exact wp_pure counted
  · exact forkChild_counts _ _ _ fresh

theorem cfork_counts (cid : Int) (h : Counted k 0 slots) (room : ∀ i, (k.cont i).mproc ≤ NPROC) :
    wp anyMode (cfork p cid) (fun _ k' => Counted k' 0 slots) k := by
  unfold cfork
  refine wp_get_bind ?_
  split
  · exact wp_pure h
  · rename_i c found
    exact fork_counts h (findCont_some found).1 room

/- wait reaps a slot that has no descriptor left. -/
theorem wait_counts (h : Counted k 0 slots) (home : k.contOf p < NCONT)
    (room : ∀ i, (k.cont i).mproc ≤ NPROC) :
    wp anyMode (wait p) (fun _ k' => Counted k' 0 slots) k := by
  unfold wait
  refine wp_get_bind ?_
  dsimp only
  split
  · rename_i j found
    obtain ⟨below, zombie⟩ := findProc_some found
    have zombie : (k.procAt ⟨k.contOf p, j⟩).state = .zombie := (of_decide_eq_true zombie).2
    have inside : (⟨k.contOf p, j⟩ : ProcId) ∈ slots := by
      have := room (k.contOf p)
      exact mem_slots.mpr ⟨home, by dsimp only; omega⟩
    have fresh := h.fresh inside (h.vacant _ inside (Or.inr (Or.inr zombie)))
    exact wp_fresh fresh fun _ k₁ fresh => wp_adjust fresh (fun _ => rfl) fun k₂ fresh =>
      wp_fresh fresh fun _ k₃ fresh => wp_adjust fresh (fun _ => rfl) fun k₄ fresh => wp_pure fresh.settle
  · exact wp_ite (fun _ => wp_pure h) fun _ => wp_unshifted h fun _ _ _ counted => wp_pure counted

end Processes

/- The calls that leave the counts and the descriptors alone. -/
section Others

instance bystander_kill (pid : Int) : Bystander (kill p pid) := by
  unfold kill
  refine Does.seq fun k => ?_
  dsimp only
  split
  · refine @does_bind _ _ _ _ _ _ _ _ _ (bystander_modifyProc (fun _ => rfl) fun q idle => ?_) _
    by_cases asleep : q.state = .sleeping
    · simp [Idle, asleep] at idle
    · simpa [Idle, asleep] using idle
  · infer_instance

end Others

/- The calls that give and take descriptors, and the one that reaps a slot. -/
def FileCall : Syscall → Prop
  | .fork | .exit | .wait | .pipe | .dup _ | .close _ | .open _ _ | .cfork _ => True
  | _ => False

theorem bystander_syscall {c : Syscall} (other : ¬ FileCall c) : Bystander (syscall p c) := by
  cases c with
  | cinfo =>
    unfold syscall cinfo
    infer_instance
  | sbrk n =>
    unfold syscall sysSbrk
    infer_instance
  | cstop name | cpause name | cresume name => exact walks_returns (changeState p name _ _)
  | fork | exit | wait | pipe | dup | close | «open» | cfork => exact absurd trivial other
  | _ =>
    unfold syscall
    infer_instance

/- A call from a state with right counts ends in one. -/
theorem syscall_counts (c : Syscall) (h : Counted k 0 slots) (inside : p ∈ slots)
    (runs : ¬ Idle (k.procAt p)) (home : k.contOf p < NCONT) (room : ∀ i, (k.cont i).mproc ≤ NPROC) :
    wp anyMode (syscall p c) (fun _ k' => Counted k' 0 slots) k := by
  have again {x : KM Int} (spec : wp anyMode x (fun _ k' => Counted k' 0 slots) k) :
      wp anyMode (returns x) (fun _ k' => Counted k' 0 slots) k :=
    wp_seq spec fun _ _ counted => wp_pure counted
  by_cases files : FileCall c
  · cases c with
    | fork => exact again (fork_counts h home room)
    | exit => exact wp_seq (exit_counts h inside) fun _ _ counted => wp_pure counted
    | wait => exact wait_counts h home room
    | pipe => exact wp_seq (sysPipe_counts h inside runs) fun _ _ counted => wp_pure counted
    | dup fd => exact again (sysDup_counts fd h inside runs)
    | close fd => exact again (sysClose_counts fd h inside)
    | «open» path omode => exact again (sysOpen_counts path omode h inside runs)
    | cfork cid => exact again (cfork_counts cid h room)
    | _ => exact files.elim
  · refine wp_mono ((bystander_syscall files).beside k) fun _ _ beside => ?_
    exact (h.shift beside.shift).of_eq (add_zero _)

/- No page that was a pipe's is lost: it is a pipe's still, or free. A call of pipe, whether
it succeeds or not, loses no page that was free either. -/
def PipesKept (k : Kernel) (pipe : Prop) (k' : Kernel) : Prop :=
  ∃ l l', Heap k.kmem l ∧ Heap k'.kmem l' ∧
    (∀ r ∈ pipePages k.file, r ∈ l' ∨ r ∈ pipePages k'.file) ∧
    (pipe → ∀ r ∈ l, r ∈ l' ∨ r ∈ pipePages k'.file)

/- The calls that change the pages of a process close no file. -/
theorem syscall_sameFile {c : Syscall} (home : k.contOf p = p.cont) (moves : ¬ PagesKept c)
    (other : c ≠ .pipe) :
    wp anyMode (syscall p c) (fun _ k' => ∀ f, SameFile (k.file f) (k'.file f)) k := by
  have mem (listed : memCall c) (fixed : ∀ f, ¬ retyped k c f) :
      wp anyMode (syscall p c) (fun _ k' => ∀ f, SameFile (k.file f) (k'.file f)) k :=
    wp_mono (memCall_acts listed home) fun _ _ effects f => effects.sameFile (fixed f)
  cases c with
  | fork | sbrk | exec | cfork => exact mem rfl fun _ => id
  | wait =>
    have acts : Acts p (k.contOf p) (Scope.slots (k.contOf p)) (wait p) := acts_wait rfl
    exact wp_mono (acts k rfl) fun _ _ effects f => effects.sameFile id
  | pipe => exact absurd rfl other
  | _ => exact absurd trivial moves

theorem syscall_pipesKept (c : Syscall) {l : List Nat} (paged : Paged k l)
    (flags : Flags k.kmem.mem k.file) (runs : CanRun k p) :
    wp anyMode (syscall p c) (fun _ k' => PipesKept k (c = .pipe) k') k := by
  have settled : Settled (books k p none) k := paged.settled runs fun _ off => nomatch off
  let g : Books := { books k p none with sized := False, flagged := True }
  have settled : Settled g k := settled.follow False.elim fun _ => flags
  obtain ⟨l, owned⟩ := settled
  have saved {g : Books} {k' : Kernel} (follow : g.flagged) (done : Saved g k l k') :
      PipesKept k (c = .pipe) k' := by
    obtain ⟨l', owned', conserved⟩ := done
    exact ⟨l, l', owned.heap, owned'.heap, fun r pipe => conserved follow r (Or.inr pipe),
      fun _ r free => conserved follow r (Or.inl free)⟩
  by_cases kept : PagesKept c
  · exact wp_mono (keeps_syscall (g := g) anyMode_kernel kept (fun _ _ _ _ _ => rfl) k l owned) fun _ _ done =>
      saved trivial done
  · by_cases pipe : c = .pipe
    · subst pipe
      exact wp_seq (sysPipe_spec (g := g) anyMode_kernel owned) fun _ _ ⟨r, done⟩ =>
        wp_pure (saved trivial done)
    · have home := (paged.tidy p (mem_slots.mpr ⟨runs.1, runs.2.1⟩) runs.live).home
      refine wp_mono (wp_and (syscall_spec (g := g) anyMode_kernel c ⟨l, owned⟩ rfl ?_ False.elim)
        (syscall_sameFile home kept pipe)) ?_
      · change (k.procAt p).state ≠ .zombie
        rcases runs.2.2 with state | state <;> simp [state]
      · rintro _ k' ⟨⟨g', ⟨l', owned'⟩, -⟩, same⟩
        refine ⟨l, l', owned.heap, owned'.heap, fun r page => Or.inr ?_, fun made => absurd made pipe⟩
        rwa [pipePages_congr (fun f => (same f).1) fun f => (same f).2]

/- What holds of the file table between two system calls. -/
structure Tabled (k : Kernel) : Prop where
  paged : ∃ l, Paged k l
  flags : Flags k.kmem.mem k.file
  referenced : Referenced k

theorem CanRun.busy (h : CanRun k p) : ¬ Idle (k.procAt p) := by
  rcases h.2.2 with state | state <;> simp [Idle, state]

variable {lbl : Label}

theorem Tabled.perform (h : Tabled k) (enabled : Enabled k lbl) :
    wp anyMode (perform lbl) (fun _ k' => (∃ l, Paged k' l) ∧ Flags k'.kmem.mem k'.file) k := by
  obtain ⟨⟨l, paged⟩, flags, -⟩ := h
  exact wp_mono (perform_spec anyMode_kernel paged False.elim (fun _ : True => flags) False.elim enabled)
    fun _ _ done => ⟨done.1, done.2.2 trivial⟩

theorem perform_referenced (h : Tabled k) (enabled : Enabled k lbl) :
    wp anyMode (perform lbl) (fun _ k' => Referenced k' ∧ PipesKept k (∃ p, lbl = .call p .pipe) k') k := by
  have tabled := h
  obtain ⟨⟨l, paged⟩, flags, referenced⟩ := h
  cases lbl with
  | call p c =>
    have inside : p ∈ slots := mem_slots.mpr ⟨enabled.1, enabled.2.1⟩
    have home : k.contOf p = p.cont := (paged.tidy p inside enabled.live).home
    have counts := syscall_counts c referenced.counted inside enabled.busy (home ▸ enabled.1) paged.mproc
    refine wp_seq (wp_and counts (syscall_pipesKept c paged flags enabled)) ?_
    rintro _ k' ⟨counted, l, l', heap, heap', pipes, free⟩
    refine wp_pure ⟨counted.referenced, l, l', heap, heap', pipes, ?_⟩
    rintro ⟨q, same⟩
    exact free (Label.call.inj same).2
  | store p va b =>
    have same : wp anyMode (perform (.store p va b)) (fun _ k' => k'.file = k.file ∧ k'.proc = k.proc) k :=
      wp_get_bind (wp_seq (wp_zoom (wp_mono (wp_any _ _ (fun _ => trivial) fun _ => trivial)
        fun _ _ _ => ⟨rfl, rfl⟩)) fun _ _ same => wp_pure same)
    refine wp_mono (wp_and same (tabled.perform enabled)) ?_
    rintro _ k' ⟨⟨file, proc⟩, ⟨l', paged'⟩, -⟩
    have shift : Shift 0 k k' := by
      refine ⟨⟨fun q => ?_, fun q idle => ?_⟩, fun f => ?_⟩
      · rw [procAt_congr proc]
      · rwa [procAt_congr proc] at idle
      · rw [file, Pi.zero_apply, add_zero]
    have counted := (referenced.counted.shift shift).of_eq (add_zero _)
    refine ⟨counted.referenced, l, l', paged.heap, paged'.heap, fun r pipe => Or.inr ?_, ?_⟩
    · rwa [file]
    · rintro ⟨q, other⟩
      exact nomatch other
  | cexit c =>
    refine wp_modify ⟨⟨referenced.refs, referenced.vacant⟩, l, l, paged.heap, paged.heap, fun _ => Or.inr, ?_⟩
    rintro ⟨q, other⟩
    exact nomatch other

theorem Tabled.step {k' : Kernel} (h : Tabled k) (taken : step k lbl = some k') :
    Tabled k' ∧ PipesKept k (∃ p, lbl = .call p .pipe) k' := by
  have spec (enabled : Enabled k lbl) := wp_and (perform_referenced h enabled) (h.perform enabled)
  obtain ⟨⟨referenced, kept⟩, paged, flags⟩ := (step_spec spec fun _ _ => trivial).2 k' taken
  exact ⟨⟨paged, flags, referenced⟩, kept⟩

/- File f is an end of the pipe in page r, the end for writing if w. -/
def IsEnd (k : Kernel) (r : Nat) (w : Bool) (f : Nat) : Prop :=
  0 < (k.file f).ref ∧ (k.file f).type = .pipe ∧ (k.file f).pipe = r ∧ (k.file f).writable = w

/- The counts are the numbers of descriptors, a file with count 0 has none, and the flags
of a pipe are 1 for the ends that are open and 0 for the others. -/
structure ExactFiles (k : Kernel) : Prop where
  refs : ∀ f, (k.file f).ref = holders k f
  unused : ∀ f, (k.file f).ref = 0 → ∀ p ∈ slots, ∀ fd < NOFILE, (k.procAt p).ofile fd ≠ some f
  opened : ∀ r ∈ pipePages k.file, ∀ w, word (k.kmem.mem r) (endFlag w) = 1 ↔ ∃ f, IsEnd k r w f
  closed : ∀ r ∈ pipePages k.file, ∀ w, (¬ ∃ f, IsEnd k r w f) → word (k.kmem.mem r) (endFlag w) = 0

theorem Tabled.exact (h : Tabled k) : ExactFiles k := by
  obtain ⟨⟨l, paged⟩, flags, referenced⟩ := h
  have used {f : Nat} (isPipe : (k.file f).type = .pipe) : 0 < (k.file f).ref := by
    have nonzero : (k.file f).ref ≠ 0 := fun zero => by
      rw [paged.files.unused f zero] at isPipe
      exact nomatch isPipe
    have count := referenced.refs f
    omega
  have closed (r : Nat) (pipe : r ∈ pipePages k.file) (w : Bool) (none : ¬ ∃ f, IsEnd k r w f) :
      word (k.kmem.mem r) (endFlag w) = 0 := by
    obtain ⟨f, isPipe, rfl⟩ := (mem_pipePages_iff paged.files).mp pipe
    exact flags.closed f w isPipe fun g isPipe' page side => none ⟨g, used isPipe', isPipe', page, side⟩
  refine ⟨referenced.refs, fun f zero p inside fd bound points => ?_, fun r pipe w => ⟨fun one => ?_, ?_⟩, closed⟩
  · have some : 0 < holders k f := pointers_pos (i := (p, fd)) (mem_descriptors.mpr ⟨inside, bound⟩) points
    have count := referenced.refs f
    omega
  · by_contra none
    rw [closed r pipe w none] at one
    exact absurd one (by decide)
  · rintro ⟨f, -, isPipe, rfl, rfl⟩
    exact flags.opened f isPipe

/-- In every run, between two system calls the reference count of every file is the number
of descriptors that point to it, and the flags of every pipe say which of its ends are
open. No page is freed twice, a page that stops to be a pipe's is on the free list after the
same call, and no page of a pipe that a descriptor reaches is there. -/
theorem file_refs_exact {l : List Nat} (paged : Paged k l) (flags : Flags k.kmem.mem k.file)
    (referenced : Referenced k) (ls : List Label) :
    Along step (fun k lbl => (∀ f, Event.mem f ∈ events k lbl → FreedOnce f) ∧
      ∀ k', step k lbl = some k' → PipesKept k (∃ p, lbl = .call p .pipe) k') k ls ∧
    ∀ k', Lib.exec step k ls = some k' → ExactFiles k' ∧
      ∃ l', Heap k'.kmem l' ∧ ∀ p ∈ slots, ∀ fd < NOFILE, ∀ f, (k'.procAt p).ofile fd = some f →
        (k'.file f).type = .pipe → (k'.file f).pipe ∉ l' := by
  have initial : Tabled k := ⟨⟨l, paged⟩, flags, referenced⟩
  constructor
  · refine along_invariant Tabled (fun k lbl h => ⟨fun f reported => ?_, fun k' taken => (h.step taken).2⟩)
      (fun k lbl k' h taken => (h.step taken).1) initial ls
    exact (step_spec (l := lbl) (perform_paged h.paged) fun _ _ => trivial).1 _ reported
  · intro k' reached
    have final : Tabled k' := run_invariant (fun k lbl k' h _ taken => (h.step taken).1) initial
      (along_true k ls) reached
    obtain ⟨l', paged'⟩ := final.paged
    refine ⟨final.exact, l', paged'.heap, fun p _ fd _ f _ isPipe free => ?_⟩
    have once := Multiset.nodup_iff_count_le_one.mpr paged'.once
    exact held_apart once (Multiset.mem_coe.mpr free)
      (mem_held_pipe (mem_pipePages paged'.files isPipe))

theorem lonely_flags : Flags lonely.kmem.mem lonely.file :=
  ⟨fun _ isPipe => (nomatch isPipe), fun _ _ isPipe => (nomatch isPipe)⟩

theorem lonely_referenced : Referenced lonely := by
  have none (p : ProcId) (fd : Nat) : (lonely.procAt p).ofile fd = none := by
    rw [lonely_procAt]
    split <;> rfl
  refine ⟨fun f => ?_, fun p _ _ fd _ => none p fd⟩
  simp only [holders, pointers, none, reduceCtorEq, Finset.filter_false, Finset.card_empty]
  rfl

/- The process makes two pipes, and fails to make a third for want of a page; the first is
closed with a copy of its read end. -/
theorem file_refs_exact_lonely :
    let run : List Label := [.call ⟨0, 0⟩ .pipe, .call ⟨0, 0⟩ (.dup 0), .call ⟨0, 0⟩ .pipe,
      .call ⟨0, 0⟩ .pipe, .call ⟨0, 0⟩ (.close 0), .call ⟨0, 0⟩ (.close 1), .call ⟨0, 0⟩ (.close 2)]
    (Lib.exec step lonely run).isSome ∧ ∀ k', Lib.exec step lonely run = some k' → ExactFiles k' :=
  ⟨by decide +kernel, fun k' reached =>
    ((file_refs_exact lonely_paged lonely_flags lonely_referenced _).2 k' reached).1⟩

end Xv6c

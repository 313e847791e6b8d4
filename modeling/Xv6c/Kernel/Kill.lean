import Xv6c.Kernel.Turns

/-! kill goes by the pid of a slot alone, and allocproc takes over a slot with the mark that
kill may have left in it. As long as kill finds no slot that is not in use, it hits the process
with the pid, and every new process starts without the mark. -/
namespace Xv6c
open Lib

-- The proof for a program is as large as the program.
set_option synthInstance.maxSize 600

/- Slot j of the process table of container c holds a process. -/
def Member (k : Kernel) (c j : Nat) : Prop := (j : Int) < (k.cont c).mproc ∧ (k.proc c j).state ≠ .unused

/- What kill does to a process. -/
def struck (q : Proc) : Proc :=
  { q with killed := true, state := if q.state = .sleeping then .runnable else q.state }

/- kill(pid) by process p, with result r and the kernel k' after it: it hits a process of the
container with that pid, and nothing else, or there is none. -/
def Hits (k : Kernel) (p : ProcId) (pid : Int) (r : Int) (k' : Kernel) : Prop :=
  (r = 0 ∧ ∃ j, Member k (k.contOf p) j ∧ (k.proc (k.contOf p) j).pid = pid ∧
    k' = k.setProc ⟨k.contOf p, j⟩ (struck (k.proc (k.contOf p) j))) ∨
  (r = -1 ∧ k' = k ∧ ∀ j, Member k (k.contOf p) j → (k.proc (k.contOf p) j).pid ≠ pid)

/- The first slot with the pid, if there is one, is in use. -/
def Aimed (k : Kernel) (p : ProcId) (pid : Int) : Prop :=
  ∀ j, findProc k (k.contOf p) (fun q => q.pid = pid) = some j → (k.proc (k.contOf p) j).state ≠ .unused

/- No slot that is not in use is marked. -/
def Unmarked (k : Kernel) : Prop := ∀ q, (k.procAt q).state = .unused → (k.procAt q).killed = false

section Kill
variable {k : Kernel} {p : ProcId} {pid : Int}

theorem kill_found {j : Nat} (found : findProc k (k.contOf p) (fun q => q.pid = pid) = some j) :
    (kill p pid k).2 = .ok (0, k.setProc ⟨k.contOf p, j⟩ (struck (k.proc (k.contOf p) j))) := by
  have ran : Ends (kill p pid) k [] 0 (k.setProc ⟨k.contOf p, j⟩ (struck (k.proc (k.contOf p) j))) := by
    unfold kill
    rw [ends_get_bind]
    dsimp only
    rw [found]
    rfl
  exact congrArg Prod.snd ran

theorem kill_missed (missed : findProc k (k.contOf p) (fun q => q.pid = pid) = none) :
    (kill p pid k).2 = .ok (-1, k) := by
  have ran : Ends (kill p pid) k [] (-1) k := by
    unfold kill
    rw [ends_get_bind]
    dsimp only
    rw [missed]
    rfl
  exact congrArg Prod.snd ran

theorem findProc_none {c : Nat} {f : Proc → Bool} (missed : findProc k c f = none) {j : Nat}
    (inside : (j : Int) < (k.cont c).mproc) : f (k.proc c j) = false := by
  unfold findProc at missed
  have := List.find?_eq_none.mp missed j (List.mem_range.mpr (by omega))
  simpa using this

/- One call of kill. -/
theorem hits_iff (unmarked : Unmarked k) : ∃ r k', (kill p pid k).2 = .ok (r, k') ∧ (Hits k p pid r k' ↔ Aimed k p pid) := by
  cases found : findProc k (k.contOf p) (fun q => q.pid = pid) with
  | none =>
    refine ⟨-1, k, kill_missed found, iff_of_true (Or.inr ⟨rfl, rfl, fun j member same => ?_⟩) fun j other => ?_⟩
    · have missed := findProc_none found member.1
      simp [same] at missed
    · exact nomatch found.symm.trans other
  | some j =>
    obtain ⟨inside, same⟩ := findProc_some found
    have same : (k.proc (k.contOf p) j).pid = pid := by simpa using same
    refine ⟨0, _, kill_found found, ?_⟩
    by_cases used : (k.proc (k.contOf p) j).state = .unused
    · -- the mark of the slot is set, so no other slot can be the one that was hit
      refine iff_of_false ?_ fun aimed => aimed j found used
      rintro (⟨-, i, member, -, after⟩ | ⟨wrong, -⟩)
      · have other : (⟨k.contOf p, j⟩ : ProcId) ≠ ⟨k.contOf p, i⟩ := fun here => by
          cases here
          exact member.2 used
        have mark := congrArg (fun k' : Kernel => (k'.procAt ⟨k.contOf p, j⟩).killed) after
        rw [procAt_setProc, if_pos rfl, procAt_setProc, if_neg other] at mark
        have none := unmarked ⟨k.contOf p, j⟩ used
        exact absurd (mark.trans none) (by simp [struck])
      · exact absurd wrong (by decide)
    · refine iff_of_true (Or.inl ⟨rfl, j, ⟨inside, used⟩, same, rfl⟩) fun i here => ?_
      cases found.symm.trans here
      exact used

end Kill

/- No slot in use becomes free, and no mark changes. -/
def Spares (k k' : Kernel) : Prop :=
  ∀ q, (k'.procAt q).killed = (k.procAt q).killed ∧ ((k'.procAt q).state = .unused → (k.procAt q).state = .unused)

theorem Spares.refl (k : Kernel) : Spares k k := fun _ => ⟨rfl, id⟩

theorem Spares.trans {k₀ k k' : Kernel} (first : Spares k₀ k) (second : Spares k k') : Spares k₀ k' := fun q =>
  ⟨(second q).1.trans (first q).1, fun unused => (first q).2 ((second q).2 unused)⟩

theorem Spares.unmarked {k k' : Kernel} (h : Spares k k') (unmarked : Unmarked k) : Unmarked k' := fun q unused =>
  (h q).1.trans (unmarked q ((h q).2 unused))

theorem spares_woken (k : Kernel) (chan : Chan) : Spares k { k with proc := woken k chan } := by
  intro q
  simp only [Kernel.procAt, woken]
  split
  · exact ⟨rfl, by simp⟩
  · exact ⟨rfl, id⟩

/- A program that does nothing else to slots. -/
abbrev Calm {A : Type} (x : KM A) : Prop := Does (fun _ => True) Spares x

section Calm
variable {A : Type} {p : ProcId}

theorem Calm.spares {x : KM A} (calm : Calm x) (k : Kernel) : wp anyMode x (fun _ k' => Spares k k') k := by
  refine wp_mono (calm.does (fun _ => trivial) (fun _ => id) k) fun _ k' steps => ?_
  induction steps with
  | refl => exact .refl k
  | tail _ last ih => exact ih.trans last

theorem spares_setProc {k : Kernel} {x : Proc} (mark : x.killed = (k.procAt p).killed)
    (used : x.state = .unused → (k.procAt p).state = .unused) : Spares k (k.setProc p x) := by
  intro q
  rw [procAt_setProc]
  split
  · rename_i here
    rw [here]
    exact ⟨mark, used⟩
  · exact ⟨rfl, id⟩

instance : LeavingSteps Spares where
  wake := spares_woken
  offset _ _ _ _ := ⟨rfl, id⟩
  tables proc _ q := by
    rw [Kernel.procAt, proc]
    exact ⟨rfl, id⟩
  file _ _ _ _ _ := ⟨rfl, id⟩
  slot _ _ _ _ := spares_setProc

instance calm_dupFiles (np : ProcId) (ofile : Nat → Option Nat) (n fd : Nat) : Calm (dupFiles np ofile n fd) := by
  have store (fd f : Nat) : Calm (modifyProc np fun q => { q with ofile := Function.update q.ofile fd (some f) }) :=
    does_modify fun _ => spares_setProc rfl id
  induction n generalizing fd with
  | zero => exact does_pure _
  | succ n ih =>
    unfold dupFiles
    dsimp only
    split <;> infer_instance

end Calm

section Fork
variable {p np : ProcId} {k₀ k : Kernel} {A : Type}

/- A change of a slot that was free at first. -/
theorem spares_slot {f : Proc → Proc} (free : (k₀.procAt np).state = .unused) (mark : ∀ q, (f q).killed = q.killed)
    (h : Spares k₀ k) : wp anyMode (modifyProc np f) (fun _ k' => Spares k₀ k') k := by
  refine wp_modify fun q => ?_
  rw [procAt_setProc]
  split
  · rename_i here
    rw [here]
    exact ⟨(mark _).trans (h np).1, fun _ => free⟩
  · exact h q

theorem spares_calm {x : KM A} [calm : Calm x] (h : Spares k₀ k) : wp anyMode x (fun _ k' => Spares k₀ k') k :=
  wp_mono (Calm.spares calm k) fun _ _ after => h.trans after

theorem allocproc_spares (c : Nat) : wp anyMode (allocproc p c)
    (fun r k' => Spares k k' ∧ ∀ np, r = some np → (k.procAt np).state = .unused) k := by
  unfold allocproc
  refine wp_get_bind (wp_ite (fun _ => wp_pure ⟨.refl k, nofun⟩) (fun _ => ?_))
  split
  · exact wp_pure ⟨.refl k, nofun⟩
  · rename_i j found
    have free : (k.procAt ⟨c, j⟩).state = .unused := of_decide_eq_true (findProc_some found).2
    refine wp_seq (spares_slot free (fun _ => rfl) (.refl k)) fun _ k₁ h => ?_
    refine wp_seq (spares_calm h) fun _ k₂ h => wp_seq (spares_calm h) fun kstack k₃ h => ?_
    refine wp_seq (spares_slot free (fun _ => rfl) h) fun _ k₄ h => wp_ite (fun _ => ?_) (fun _ => ?_)
    · exact wp_seq (spares_slot free (fun _ => rfl) h) fun _ k₅ h => wp_pure ⟨h, nofun⟩
    · refine wp_seq (spares_slot free (fun _ => rfl) h) fun _ k₅ h => wp_seq (spares_calm h) fun _ k₆ h => ?_
      refine wp_pure ⟨h, fun np same => ?_⟩
      cases same
      exact free

theorem forkChild_spares {cur : Proc} {cwd : Option Nat} {parent : ProcId} (free : (k₀.procAt np).state = .unused)
    (h : Spares k₀ k) : wp anyMode (forkChild p np cur cwd parent) (fun _ k' => Spares k₀ k') k := by
  unfold forkChild
  refine wp_seq (spares_calm h) fun pgdir k₁ h => wp_seq (spares_slot free (fun _ => rfl) h) fun _ k₂ h => ?_
  refine wp_ite (fun _ => wp_get_bind ?_) (fun _ => ?_)
  · refine wp_seq (spares_calm h) fun _ k₃ h => wp_seq (spares_slot free (fun _ => rfl) h) fun _ k₄ h => wp_pure h
  · refine wp_seq (spares_slot free (fun _ => rfl) h) fun _ k₃ h => wp_seq (spares_calm h) fun _ k₄ h => ?_
    refine wp_seq (spares_calm h) fun cwd k₅ h => wp_seq (spares_slot free (fun _ => rfl) h) fun _ k₆ h => ?_
    exact wp_get_bind (wp_seq (spares_slot free (fun _ => rfl) h) fun _ k₇ h => wp_pure h)

theorem fork_spares (parentcont : Option Nat) : wp anyMode (fork p parentcont) (fun _ k' => Spares k k') k := by
  refine wp_fork (allocproc_spares _) ?_
  rintro cwd r k₁ ⟨h, free⟩
  cases r with
  | none => exact wp_pure h
  | some np => exact forkChild_spares (free np rfl) h

theorem cfork_spares (cid : Int) : wp anyMode (cfork p cid) (fun _ k' => Spares k k') k := by
  unfold cfork
  refine wp_get_bind ?_
  split
  · exact wp_pure (.refl k)
  · exact fork_spares _

end Fork

section Steps
variable {k k' : Kernel} {p : ProcId} {l : Label}

/- What a process does to its own memory and files. -/
theorem Effects.unmarked {sc : Scope} (rows : ∀ i, ¬ sc.rows i) (h : Effects p sc k k') (unmarked : Unmarked k)
    (runs : (k.procAt p).state ≠ .unused) : Unmarked k' ∧ (k'.procAt p).state ≠ .unused := by
  induction h with
  | refl => exact ⟨unmarked, runs⟩
  | @tail k₁ k₂ _ last ih =>
    obtain ⟨unmarked, runs⟩ := ih
    cases last with
    | tend r tends =>
      obtain ⟨-, -, -, state⟩ := tends
      have used : r.state ≠ .unused := by
        rcases state with same | asleep
        · rwa [same]
        · rw [asleep]
          decide
      refine ⟨fun q unused => ?_, ?_⟩
      · rw [procAt_setProc] at unused ⊢
        split at unused
        · exact absurd unused used
        · rw [if_neg ‹_›]
          exact unmarked q unused
      · rwa [procAt_setProc, if_pos rfl]
    | wake chan =>
      have spares := spares_woken k₁ chan
      exact ⟨spares.unmarked unmarked, fun unused => runs ((spares p).2 unused)⟩
    | proc q r row own => exact absurd row (rows _)
    | _ => exact ⟨unmarked, runs⟩

theorem wait_unmarked (unmarked : Unmarked k) : wp anyMode (wait p) (fun _ k' => Unmarked k') k := by
  unfold wait
  refine wp_get_bind ?_
  dsimp only
  split
  · rename_i j found
    have clear : Calm (modifyProc ⟨k.contOf p, j⟩ fun q => { q with kstack := 0 }) :=
      does_modify fun _ => spares_setProc rfl id
    refine wp_seq (spares_calm (.refl k)) fun _ k₁ h => wp_seq (spares_calm h) fun _ k₂ h => ?_
    refine wp_seq (spares_calm h) fun _ k₃ h => wp_modify_bind (wp_pure fun q unused => ?_)
    rw [procAt_setProc] at unused ⊢
    split at unused
    · rw [if_pos ‹_›]
    · rw [if_neg ‹_›]
      exact h.unmarked unmarked q unused
  · refine wp_ite (fun _ => wp_pure unmarked) (fun _ => ?_)
    exact wp_seq (spares_calm (.refl k)) fun _ k₁ h => wp_pure (h.unmarked unmarked)

/- A kill that finds a process, or nothing, marks no free slot. -/
theorem kill_unmarked {pid : Int} (unmarked : Unmarked k) (aimed : Aimed k p pid) :
    wp anyMode (kill p pid) (fun _ k' => Unmarked k') k := by
  unfold kill
  refine wp_get_bind ?_
  dsimp only
  split
  · rename_i j found
    refine wp_modify_bind (wp_pure fun q unused => ?_)
    rw [procAt_setProc] at unused ⊢
    split at unused
    · refine absurd unused ?_
      dsimp only
      split
      · nofun
      · exact aimed j found
    · rw [if_neg ‹_›]
      exact unmarked q unused
  · exact wp_pure unmarked

/- The condition on a step: a kill that finds a slot finds one in use. -/
def Careful (k : Kernel) : Label → Prop
  | .call p (.kill pid) => Aimed k p pid
  | _ => True

theorem wp_returns {x : KM Int} {Q : Kernel → Prop} (h : wp anyMode x (fun _ k' => Q k') k) :
    wp anyMode (returns x) (fun _ k' => Q k') k := wp_seq h fun _ _ after => wp_pure after

theorem syscall_unmarked {call : Syscall} (unmarked : Unmarked k) (runs : (k.procAt p).state ≠ .unused)
    (careful : Careful k (.call p call)) : wp anyMode (syscall p call) (fun _ k' => Unmarked k') k := by
  have calm {A : Type} {x : KM A} [calm : Calm x] : wp anyMode x (fun _ k' => Unmarked k') k :=
    wp_mono (Calm.spares calm k) fun _ _ h => h.unmarked unmarked
  have plain (process : ¬ ProcessCall call) (container : ¬ ContainerCall call) :
      wp anyMode (syscall p call) (fun _ k' => Unmarked k') k := by
    have acts : Acts p (k.contOf p) ⟨fun _ => False, fun _ => False, fun _ => False, fun _ => True⟩ (syscall p call) :=
      acts_plain (fun _ => trivial) call process container
    exact wp_mono (acts k rfl) fun _ k' effects => (effects.unmarked (fun _ => id) unmarked runs).1
  cases call with
  | fork => exact wp_returns (wp_mono (fork_spares none) fun _ _ h => h.unmarked unmarked)
  | exit => exact wp_seq calm fun _ _ after => wp_pure after
  | wait => exact wait_unmarked unmarked
  | kill pid => exact wp_returns (kill_unmarked unmarked careful)
  | ccreate name mproc msz mdsk => exact wp_returns calm
  | cstart name => exact wp_returns calm
  | cfork cid => exact wp_returns (wp_mono (cfork_spares cid) fun _ _ h => h.unmarked unmarked)
  | cstop name | cpause name | cresume name => exact wp_returns (calm (x := changeState p name _ _))
  | _ => exact plain id id

theorem step_unmarked (unmarked : Unmarked k) (careful : Careful k l) (taken : step k l = some k') : Unmarked k' := by
  refine (step_spec (M := anyMode) (fun enabled => ?_) fun _ _ => trivial).2 k' taken
  cases l with
  | call p c =>
    have runs : (k.procAt p).state ≠ .unused := by
      rcases enabled.2.2 with state | state <;> rw [state] <;> nofun
    exact wp_seq (syscall_unmarked unmarked runs careful) fun _ _ after => wp_pure after
  | store p va b =>
    refine wp_get_bind (wp_seq (spares_calm (.refl k)) fun _ _ h => wp_pure (h.unmarked unmarked))
  | cexit c => exact wp_modify unmarked

/- A slot that a fork takes over has the mark that it had. -/
theorem fork_keeps_marks {call : Syscall} (forks : call = .fork ∨ ∃ cid, call = .cfork cid)
    (taken : step k (.call p call) = some k') : Spares k k' := by
  refine call_spec ?_ taken
  rcases forks with rfl | ⟨cid, rfl⟩
  · exact wp_returns (fork_spares none)
  · exact wp_returns (cfork_spares cid)

/-- In every run of system calls whose kills find no slot that is not in use: the next kill
hits exactly its target, if and only if it finds no such slot either; and the next fork starts a
process that is not marked as killed. -/
theorem kill_hits_target {ls : List Label} (start : Unmarked k) (careful : Along step Careful k ls)
    (reached : Lib.exec step k ls = some k') :
    (∀ p pid, ∃ r t, (kill p pid k').2 = .ok (r, t) ∧ (Hits k' p pid r t ↔ Aimed k' p pid)) ∧
    ∀ p call t, (call = .fork ∨ ∃ cid, call = .cfork cid) → step k' (.call p call) = some t →
      ∀ q, (k'.procAt q).state = .unused → (t.procAt q).killed = false := by
  have unmarked : Unmarked k' :=
    run_invariant (fun _ _ _ unmarked careful taken => step_unmarked unmarked careful taken) start careful reached
  refine ⟨fun p pid => hits_iff unmarked, fun p call t forks taken q free => ?_⟩
  exact (fork_keeps_marks forks taken q).1.trans (unmarked q free)

theorem boot_slot (q : ProcId) : bootKernel.procAt q = bootKernel.procAt ⟨0, 0⟩ ∧ q = ⟨0, 0⟩ ∨
    bootKernel.procAt q = Proc.zero := by
  obtain ⟨i, j⟩ := q
  by_cases first : i = 0 ∧ j = 0
  · obtain ⟨rfl, rfl⟩ := first
    exact Or.inl ⟨rfl, rfl⟩
  · exact Or.inr (if_neg first)

theorem boot_unmarked : Unmarked bootKernel := by
  intro q unused
  rcases boot_slot q with ⟨here, -⟩ | here
  · rw [here] at unused ⊢
    rfl
  · rw [here]
    rfl

/- After boot no process has pid 0. kill(0) succeeds all the same: it marks slot 1, which is
not in use, and so every process that a fork makes there. -/
theorem kill_zero_marks_free_slot : ∃ k', step bootKernel (.call ⟨0, 0⟩ (.kill 0)) = some k' ∧
    (kill ⟨0, 0⟩ 0 bootKernel).2 = .ok (0, k') ∧
    (∀ j, Member bootKernel (bootKernel.contOf ⟨0, 0⟩) j → (bootKernel.proc 0 j).pid ≠ 0) ∧
    (k'.procAt ⟨0, 1⟩).state = .unused ∧ (k'.procAt ⟨0, 1⟩).killed = true ∧ ¬ Hits bootKernel ⟨0, 0⟩ 0 0 k' ∧
    ∀ call t, (call = .fork ∨ ∃ cid, call = .cfork cid) → step k' (.call ⟨0, 0⟩ call) = some t →
      (t.procAt ⟨0, 1⟩).killed = true := by
  have found : findProc bootKernel (bootKernel.contOf ⟨0, 0⟩) (fun q => q.pid = 0) = some 1 := by decide
  have killed := kill_found (p := ⟨0, 0⟩) found
  refine ⟨_, ?_, killed, fun j member zero => ?_, rfl, rfl, ?_, fun call t forks taken => ?_⟩
  · rfl
  · rcases boot_slot ⟨0, j⟩ with ⟨-, first⟩ | free
    · cases first
      exact absurd zero (by decide)
    · exact member.2 (congrArg Proc.state free)
  · obtain ⟨r, t, ended, iff⟩ : ∃ r t, (kill ⟨0, 0⟩ 0 bootKernel).2 = .ok (r, t) ∧
        (Hits bootKernel ⟨0, 0⟩ 0 r t ↔ Aimed bootKernel ⟨0, 0⟩ 0) := hits_iff boot_unmarked
    cases killed.symm.trans ended
    exact fun hits => iff.mp hits 1 found rfl
  · have spares := fork_keeps_marks forks taken
    exact (spares ⟨0, 1⟩).1

theorem kill_hits_target_init : ∃ k r t, Lib.exec step bootKernel [.call ⟨0, 0⟩ (.kill 7)] = some k ∧
    (kill ⟨0, 0⟩ 1 k).2 = .ok (r, t) ∧ Hits k ⟨0, 0⟩ 1 r t := by
  have missed : findProc bootKernel (bootKernel.contOf ⟨0, 0⟩) (fun q => q.pid = 7) = none := by decide
  have aimed : Aimed bootKernel ⟨0, 0⟩ 7 := fun j found => nomatch missed.symm.trans found
  have careful : Along step Careful bootKernel [.call ⟨0, 0⟩ (.kill 7)] := ⟨aimed, fun _ _ => trivial⟩
  obtain ⟨hits, -⟩ := kill_hits_target boot_unmarked careful rfl
  obtain ⟨r, t, ended, iff⟩ := hits ⟨0, 0⟩ 1
  refine ⟨_, r, t, rfl, ended, iff.mpr fun j found => ?_⟩
  cases (show findProc bootKernel 0 (fun q => q.pid = 1) = some 0 by decide).symm.trans found
  decide

end Steps

end Xv6c

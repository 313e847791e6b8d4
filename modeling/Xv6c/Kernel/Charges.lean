import Xv6c.Kernel.Contents

/-! The disk account of a container: balloc charges it with each block, bfree takes the
charge back. -/
namespace Xv6c.Charges
open Lib

/- The kernel, and the blocks that processes of the container have allocated and not freed. -/
structure State where
  kernel : Kernel
  live : List Nat

/- balloc and bfree by a process of the container, and whatever else happens beside its
account. -/
inductive Call where
  | balloc (p : ProcId)
  | bfree (p : ProcId) (b : Nat)
  | other (k : Kernel)

/- The value and the state that a call ends with, if balloc does not refuse in it. -/
def granted {A : Type} (x : KM A) (k : Kernel) : Option (A × Kernel) :=
  match x k with
  | (es, .ok r) => if es.all Event.granted then some r else none
  | (_, .error _) => none

def step (c : Nat) (s : State) : Call → Option State
  | .balloc p =>
    if s.kernel.contOf p = c then
      (granted (onFs p Fs.balloc) s.kernel).map fun (b, k) => ⟨k, b :: s.live⟩
    else none
  | .bfree p b =>
    if s.kernel.contOf p = c ∧ b ∈ s.live then
      (granted (onFs p (Fs.bfree b)) s.kernel).map fun (_, k) => ⟨k, s.live.erase b⟩
    else none
  | .other k => if (k.cont c).udsk = (s.kernel.cont c).udsk then some ⟨k, s.live⟩ else none

/- The account stands at what it was plus the blocks that are allocated. -/
def Balances (start c : Nat) (s : State) : Prop := (s.kernel.cont c).udsk = start + BSIZE * s.live.length

/- What the account can follow: the sum stays a uint, and the charge is more than one block. -/
def Exact (c : Nat) (s : State) : Call → Prop
  | .balloc _ => (s.kernel.cont c).udsk + BSIZE < 2 ^ 32
  | .bfree _ _ => BSIZE < (s.kernel.cont c).udsk
  | .other _ => True

instance (c : Nat) (s : State) (call : Call) : Decidable (Exact c s call) := by
  cases call <;> unfold Exact <;> infer_instance

section Account
variable {s : Fs.FsState} {A : Type}

/- Runs in which balloc does not refuse, whatever they fail with. -/
def unrefused : Mode Event Fault := ⟨fun e => e.granted = true, fun _ => True, fun _ => True⟩

theorem granted_value {x : KM A} {k k' : Kernel} {a : A} {Q : A → Kernel → Prop} (spec : wp unrefused x Q k)
    (done : granted x k = some (a, k')) : Q a k' := by
  unfold granted at done
  split at done
  · rename_i es r ends
    split at done
    · rename_i all
      have good : ∀ e ∈ (x k).1, unrefused.good e := by
        rw [ends]
        exact List.all_eq_true.mp all
      have value := (spec good).2
      cases done
      rwa [ends] at value
    · exact nomatch done
  · exact nomatch done

abbrev fsUnrefused : Mode FsEvent Fault := unrefused.comap Event.fs

theorem udsk_bread (b : Nat) : wp fsUnrefused (Fs.bread b) (fun _ t => t.udsk = s.udsk) s :=
  wp_ite (fun _ => wp_fault trivial) (fun _ => wp_get_bind (wp_pure rfl))

theorem udsk_logWrite (b : Nat) (v : Block) : wp fsUnrefused (Fs.logWrite b v) (fun _ t => t.udsk = s.udsk) s := by
  unfold Fs.logWrite
  refine wp_get_bind (wp_ite (fun _ => wp_fault trivial) (fun _ => wp_ite (fun _ => wp_fault trivial) (fun _ => ?_)))
  exact wp_emit_bind fun _ => ⟨trivial, wp_modify rfl⟩

theorem udsk_bzero (b : Nat) : wp fsUnrefused (Fs.bzero b) (fun _ t => t.udsk = s.udsk) s :=
  wp_seq (udsk_bread b) fun _ _ kept => wp_mono (udsk_logWrite b zeros) fun _ _ kept' => kept'.trans kept

theorem udsk_readsb : wp fsUnrefused Fs.readsb (fun _ t => t.udsk = s.udsk) s :=
  wp_seq (udsk_bread 1) fun _ _ kept => wp_modify kept

/- balloc that does not refuse adds one block to the account. -/
theorem udsk_ballocFrom (n b : Nat) :
    wp fsUnrefused (Fs.ballocFrom n b) (fun _ t => t.udsk = (s.udsk + BSIZE) % 2 ^ 32) s := by
  induction n generalizing s b with
  | zero => exact wp_fault trivial
  | succ n ih =>
    unfold Fs.ballocFrom
    refine wp_get_bind (wp_seq (udsk_bread _) fun bp t kept => ?_)
    rw [← kept]
    refine wp_ite (fun _ => ih (b + 1)) (fun _ => ?_)
    refine wp_seq (udsk_logWrite _ _) fun _ u kept => ?_
    rw [← kept]
    refine wp_seq (udsk_bzero b) fun _ v kept => ?_
    rw [← kept]
    exact wp_modify_bind (wp_pure rfl)

theorem udsk_balloc : wp fsUnrefused Fs.balloc (fun _ t => t.udsk = (s.udsk + BSIZE) % 2 ^ 32) s := by
  unfold Fs.balloc
  refine wp_get_bind (wp_ite (fun _ => ?_) (fun _ => udsk_ballocFrom _ 0))
  exact wp_emit_bind fun good => nomatch good

/- bfree leaves the account alone when it stands at one block or less. -/
theorem udsk_bfree (b : Nat) : wp fsUnrefused (Fs.bfree b)
    (fun _ t => t.udsk = if BSIZE < s.udsk then s.udsk - BSIZE else s.udsk) s := by
  unfold Fs.bfree
  refine wp_modify_bind ?_
  obtain ⟨u, credited⟩ : ∃ u, u = if BSIZE < s.udsk then { s with udsk := s.udsk - BSIZE } else s := ⟨_, rfl⟩
  have account : u.udsk = if BSIZE < s.udsk then s.udsk - BSIZE else s.udsk := by
    rw [credited]
    split <;> rfl
  rw [← credited, ← account]
  refine wp_seq udsk_readsb fun _ v kept => ?_
  rw [← kept]
  refine wp_get_bind (wp_seq (udsk_bread _) fun _ w kept => ?_)
  rw [← kept]
  exact wp_ite (fun _ => udsk_logWrite _ _) (fun _ => wp_fault trivial)

end Account

section Runs
variable {c start : Nat} {s t : State} {k : Kernel} {calls : List Call}

/- A call of fs.c acts on the account of the process that makes it. -/
theorem account_onFs {A : Type} {p : ProcId} {x : Fs.FsM A} {R : Nat → Prop} (home : k.contOf p = c)
    (spec : wp fsUnrefused x (fun _ t => R t.udsk) (k.fsView p)) :
    wp unrefused (onFs p x) (fun _ k' => R (k'.cont c).udsk) k := by
  refine wp_zoom (wp_mono spec fun _ t result => ?_)
  have account : ((k.fsPut p t).cont c).udsk = t.udsk := by
    rw [← home]
    simp only [Kernel.fsPut, Function.update_self]
  rwa [account]

theorem step_exact {call : Call} (h : Balances start c s) (taken : step c s call = some t) :
    Balances start c t ↔ Exact c s call := by
  unfold Balances at h ⊢
  cases call with
  | balloc p =>
    simp only [step] at taken
    split at taken
    · rename_i home
      obtain ⟨⟨b, k⟩, done, rfl⟩ := Option.map_eq_some_iff.mp taken
      have view : (s.kernel.fsView p).udsk = (s.kernel.cont c).udsk := by rw [← home]; rfl
      have account := granted_value (account_onFs (R := (· = _)) home udsk_balloc) done
      rw [view] at account
      rw [account, List.length_cons, Exact, h]
      simp only [BSIZE]
      omega
    · exact nomatch taken
  | bfree p b =>
    simp only [step] at taken
    split at taken
    · rename_i mine
      obtain ⟨home, live⟩ := mine
      obtain ⟨⟨⟨⟩, k⟩, done, rfl⟩ := Option.map_eq_some_iff.mp taken
      have view : (s.kernel.fsView p).udsk = (s.kernel.cont c).udsk := by rw [← home]; rfl
      have account := granted_value (account_onFs (R := (· = _)) home (udsk_bfree b)) done
      rw [view] at account
      have some := List.length_pos_of_mem live
      rw [account, List.length_erase_of_mem live, Exact]
      by_cases more : BSIZE < (s.kernel.cont c).udsk
      · rw [if_pos more]
        refine iff_of_true ?_ more
        simp only [BSIZE] at h ⊢
        omega
      · rw [if_neg more]
        refine iff_of_false ?_ more
        simp only [BSIZE] at h ⊢
        omega
    · exact nomatch taken
  | other k =>
    simp only [step] at taken
    split at taken
    · rename_i same
      cases taken
      exact iff_of_true (same.trans h) trivial
    · exact nomatch taken

/-- For every run of balloc and bfree in a container, among any other events, its account is
the starting one plus the allocated blocks after each call just when no bfree finds one block
or less in the account and no balloc brings it to 2^32. -/
theorem charges_balance (ran : Lib.exec (step c) ⟨k, []⟩ calls = some t) :
    Along (step c) (Exact c) ⟨k, []⟩ calls ↔
      ∀ part u, part <+: calls → Lib.exec (step c) ⟨k, []⟩ part = some u → Balances (k.cont c).udsk c u :=
  along_iff_prefixes (fun _ _ _ => step_exact) rfl ran

/- The first process after the start allocates a block and frees it again: the account of the
root container began at 0 and stays at one block. -/
theorem last_block_stays_charged : ∃ t, (fileKernel []).cont 0 = { Cont.zero with
      state := .crunnable
      mdsk := MAX_CONT_DSK } ∧
    Lib.exec (step 0) ⟨fileKernel [], []⟩ [.balloc ⟨0, 0⟩, .bfree ⟨0, 0⟩ 104] = some t ∧ t.live = [] ∧
    (t.kernel.cont 0).udsk = BSIZE ∧ ¬ Balances 0 0 t := by
  obtain ⟨t, done, none, left⟩ : ∃ t, Lib.exec (step 0) ⟨fileKernel [], []⟩ [.balloc ⟨0, 0⟩, .bfree ⟨0, 0⟩ 104] =
      some t ∧ t.live = [] ∧ (t.kernel.cont 0).udsk = BSIZE := by decide +kernel
  refine ⟨t, rfl, done, none, left, fun balanced => ?_⟩
  rw [Balances, none, left] at balanced
  exact absurd balanced (by decide)

theorem charges_balance_two : ∃ t, Lib.exec (step 0) ⟨fileKernel [], []⟩
      [.balloc ⟨0, 0⟩, .balloc ⟨0, 0⟩, .bfree ⟨0, 0⟩ 104] = some t ∧ Balances 0 0 t := by
  have ran : (Lib.exec (step 0) ⟨fileKernel [], []⟩
      [.balloc ⟨0, 0⟩, .balloc ⟨0, 0⟩, .bfree ⟨0, 0⟩ 104]).isSome = true := by
    decide +kernel
  obtain ⟨t, done⟩ := Option.isSome_iff_exists.mp ran
  have exact : Along (step 0) (Exact 0) ⟨fileKernel [], []⟩ [.balloc ⟨0, 0⟩, .balloc ⟨0, 0⟩, .bfree ⟨0, 0⟩ 104] :=
    along_of_checks (by decide +kernel)
  exact ⟨t, done, (charges_balance done).mp exact _ t (List.prefix_refl _) done⟩

end Runs

end Xv6c.Charges

import Xv6c.Kernel.Turns

/-! The scheduler's loop over the containers: which share of the CPU each of them is
given, and what a round of visits does to the processes of a container that stops. -/
namespace Xv6c
open Lib
open Function (update update_eq_self update_of_ne update_self)

/- The CPUs with the place of each in the loop of scheduler over the containers. -/
structure Loop where
  smp : Smp
  place : Nat → Nat

/- A CPU visits the container at its place and goes on to the next; behind the last
container it begins the next pass. -/
def round (s : Loop) : Turn → Option Loop
  | .visit cpu i =>
    if i = s.place cpu then
      (turn s.smp (.visit cpu i)).map fun t => ⟨t, update s.place cpu ((i + 1) % NCONT)⟩
    else none
  | l => (turn s.smp l).map fun t => ⟨t, s.place⟩

/- The CPU visits container i and dispatches a process. -/
def dispatched (cpu i : Nat) (s : Loop) : Turn → Bool
  | .visit c j => c = cpu ∧ j = i ∧ (round s (.visit c j)).any fun t => (t.smp.cpu cpu).isSome
  | _ => false

def dispatches (cpu i : Nat) (s : Loop) (ls : List Turn) : Nat := tally round (dispatched cpu i) s ls

/- A container that asks for the CPU: it is CRUNNABLE and a process in its table can run. -/
def Contends (k : Kernel) (i : Nat) : Prop :=
  (k.cont i).state = .crunnable ∧ 1 ≤ (k.cont i).mproc ∧
    ∃ j < NPROC, (j : Int) < (k.cont i).mproc ∧ (k.proc i j).state = .runnable

/- The slot whose turn it is can run. -/
def Prompt (k : Kernel) (i : Nat) : Prop := ∃ p ∈ selected k i, (k.procAt p).state = .runnable

/- What P says of the containers a and b when the CPU visits them. -/
def Visiting (P : Kernel → Nat → Prop) (cpu a b : Nat) (s : Loop) : Turn → Prop
  | .visit c i => c = cpu → i = a ∨ i = b → P s.smp.kernel i
  | _ => True

section Shares
variable {cpu a b i : Nat} {s t : Loop} {l : Turn}

theorem visit_prompt {k : Kernel} {p : ProcId} (scheduled : Scheduled (k.cont i))
    (slot : selected k i = some p) (runnable : (k.procAt p).state = .runnable) :
    wp anyMode (visit i) (fun r _ => r = some p) k := by
  unfold selected at slot
  unfold visit
  refine wp_get_bind ?_
  rw [if_neg (not_not.mpr scheduled), slot]
  refine wp_modify_bind ?_
  rw [if_neg (not_not.mpr runnable)]
  have rest (k' : Kernel) : wp anyMode (switchuvm p >>= fun _ =>
      modifyProc p (fun q => { q with state := .running }) >>= fun _ =>
        (pure (some p) : KM (Option ProcId))) (fun r _ => r = some p) k' :=
    wp_seq (switchuvm_same p) fun _ _ _ => wp_modify_bind (wp_pure rfl)
  exact wp_ite (fun _ => wp_modify_bind (rest _)) fun _ => rest _

theorem round_visit (taken : round s (.visit cpu i) = some t) : i = s.place cpu ∧ i < NCONT ∧
    turn s.smp (.visit cpu i) = some t.smp ∧ t.place cpu = (i + 1) % NCONT := by
  dsimp only [round] at taken
  split at taken
  · rename_i here
    obtain ⟨u, visited, same⟩ := Option.map_eq_some_iff.mp taken
    cases same
    exact ⟨here, (visit_some visited).1, visited, update_self _ _ _⟩
  · cases taken

/- Other steps than the CPU's own visits leave its place alone. -/
theorem round_place (taken : round s l = some t) (other : ∀ j, l ≠ .visit cpu j) :
    t.place cpu = s.place cpu := by
  cases l with
  | visit c j =>
    have apart : cpu ≠ c := fun same => other j (by rw [same])
    dsimp only [round] at taken
    split at taken
    · obtain ⟨u, -, same⟩ := Option.map_eq_some_iff.mp taken
      cases same
      exact update_of_ne apart _ _
    · cases taken
  | _ =>
    obtain ⟨u, -, same⟩ := Option.map_eq_some_iff.mp taken
    cases same
    rfl

/- A visit to a container whose slot at nextproc can run dispatches it. -/
theorem prompt_dispatched (taken : round s (.visit cpu i) = some t) (contends : Contends s.smp.kernel i)
    (prompt : Prompt s.smp.kernel i) : dispatched cpu i s (.visit cpu i) = true := by
  obtain ⟨-, -, visited, -⟩ := round_visit taken
  obtain ⟨p, slot, runnable⟩ := prompt
  obtain ⟨-, r, done, current⟩ := visit_some visited
  have chosen := after_spec (visit_prompt (Or.inl contends.1) slot runnable) done
  simp [dispatched, taken, current, chosen]

/- The containers a and b that the CPU has passed in the pass it makes, as a difference. -/
def lead (cpu a b : Nat) (s : Loop) : Int :=
  (decide (a < s.place cpu)).toNat - (decide (b < s.place cpu)).toNat

theorem toNat_decide (c : Prop) [Decidable c] : (decide c).toNat = if c then 1 else 0 := by
  split_ifs with h <;> simp [h]

theorem round_lead (inside : a < NCONT ∧ b < NCONT) (placed : s.place cpu < NCONT)
    (contends : Visiting Contends cpu a b s l) (prompt : Visiting Prompt cpu a b s l)
    (taken : round s l = some t) : t.place cpu < NCONT ∧
      ((dispatched cpu a s l).toNat : Int) - (dispatched cpu b s l).toNat =
        lead cpu a b t - lead cpu a b s := by
  by_cases own : ∃ i, l = .visit cpu i
  · obtain ⟨i, rfl⟩ := own
    obtain ⟨here, -, -, next⟩ := round_visit taken
    refine ⟨next ▸ Nat.mod_lt _ (by decide), ?_⟩
    have given (c : Nat) (one : c = a ∨ c = b) :
        dispatched cpu c s (.visit cpu i) = decide (i = c) := by
      by_cases same : i = c
      · subst same
        rw [prompt_dispatched taken (contends rfl one) (prompt rfl one)]
        simp
      · simp [dispatched, same]
    rw [given a (Or.inl rfl), given b (Or.inr rfl)]
    unfold lead
    rw [next, ← here]
    -- either the pass goes on behind i, or it ends and all containers are ahead again
    obtain more | last : i + 1 < NCONT ∨ i + 1 = NCONT := by omega
    · rw [Nat.mod_eq_of_lt more]
      simp only [toNat_decide]
      split_ifs <;> omega
    · rw [last, Nat.mod_self]
      simp only [toNat_decide]
      split_ifs <;> omega
  · have same := round_place taken fun j h => own ⟨j, h⟩
    have none (c : Nat) : dispatched cpu c s l = false := by
      cases l with
      | visit d j =>
        have apart : d ≠ cpu := fun h => own ⟨j, by rw [h]⟩
        simp [dispatched, apart]
      | _ => rfl
    rw [none, none, lead, lead, same]
    exact ⟨placed, by omega⟩

/-- In every run in which, whenever the CPU visits one of two containers that ask for
it, the slot whose turn it is can run, the CPU is given to the two evenly. -/
theorem containers_share_evenly {ls : List Turn} (inside : a < NCONT ∧ b < NCONT)
    (placed : s.place cpu < NCONT) (contends : Along round (Visiting Contends cpu a b) s ls)
    (prompt : Along round (Visiting Prompt cpu a b) s ls) (reached : Lib.exec round s ls = some t) :
    dispatches cpu a s ls ≤ dispatches cpu b s ls + 1 ∧
      dispatches cpu b s ls ≤ dispatches cpu a s ls + 1 := by
  have both : Along round (fun s l => Visiting Contends cpu a b s l ∧ Visiting Prompt cpu a b s l) s ls :=
    along_and contends prompt
  have each (s : Loop) (l : Turn) (t : Loop) (placed : s.place cpu < NCONT)
      (ok : Visiting Contends cpu a b s l ∧ Visiting Prompt cpu a b s l) (taken : round s l = some t) :
      t.place cpu < NCONT ∧ ((dispatched cpu a s l).toNat : Int) - (dispatched cpu b s l).toNat =
        lead cpu a b t - lead cpu a b s := round_lead inside placed ok.1 ok.2 taken
  have difference : (dispatches cpu a s ls : Int) - dispatches cpu b s ls = lead cpu a b t - lead cpu a b s :=
    (tally_difference each placed both reached).2
  unfold lead at difference
  simp only [toNat_decide] at difference
  split_ifs at difference <;> omega

instance (k : Kernel) (i : Nat) : Decidable (Contends k i) := inferInstanceAs (Decidable (_ ∧ _))

instance (k : Kernel) (i : Nat) : Decidable (Prompt k i) :=
  inferInstanceAs (Decidable (∃ p ∈ selected k i, (k.procAt p).state = .runnable))

instance (P : Kernel → Nat → Prop) [∀ k i, Decidable (P k i)] (cpu a b : Nat) (s : Loop) (l : Turn) :
    Decidable (Visiting P cpu a b s l) := by
  unfold Visiting
  split <;> infer_instance

/- The machine at boot with a second container for one process, which can run. -/
def sharedKernel : Kernel :=
  { bootKernel with
    cont := update bootKernel.cont 1 { Cont.zero with
      cid := 2, state := .crunnable, mproc := 1, uproc := 1, name := [120] }
    proc := fun i j => if i = 1 ∧ j = 0 then { Proc.zero with
      state := .runnable, pid := 2, parent := some ⟨0, 0⟩, kstack := 0x203, pgdir := 0x204, cont := 1 }
      else bootKernel.proc i j }

def sharedLoop : Loop := ⟨⟨sharedKernel, fun _ => none⟩, fun _ => 0⟩

/- A pass of the first CPU in which the containers that dispatch give it back at once. -/
def pass (given : List Nat) : List Turn :=
  (List.range NCONT).flatMap fun i => .visit 0 i :: if i ∈ given then [.yield 0] else []

theorem containers_share_evenly_pass :
    dispatches 0 0 sharedLoop (pass [0, 1]) ≤ dispatches 0 1 sharedLoop (pass [0, 1]) + 1 ∧
      dispatches 0 1 sharedLoop (pass [0, 1]) ≤ dispatches 0 0 sharedLoop (pass [0, 1]) + 1 := by
  have ran : (Lib.exec round sharedLoop (pass [0, 1])).isSome := by decide +kernel
  obtain ⟨t, reached⟩ := Option.isSome_iff_exists.mp ran
  exact containers_share_evenly (by decide) (by decide) (along_of_checks (by decide +kernel))
    (along_of_checks (by decide +kernel)) reached

/- Three passes over the two containers, each with one process that can always run: the
root container has 64 slots, so it is given the CPU once and the other three times. -/
theorem sparse_container_starves :
    Along round (Visiting Contends 0 0 1) sharedLoop (pass [0, 1] ++ pass [1] ++ pass [1]) ∧
      (Lib.exec round sharedLoop (pass [0, 1] ++ pass [1] ++ pass [1])).isSome ∧
      dispatches 0 0 sharedLoop (pass [0, 1] ++ pass [1] ++ pass [1]) = 1 ∧
      dispatches 0 1 sharedLoop (pass [0, 1] ++ pass [1] ++ pass [1]) = 3 := by
  refine ⟨along_of_checks (by decide +kernel), ?_⟩
  decide +kernel

end Shares

/- A visit of the scheduler to container i, without what the process then does. -/
def visited (k : Kernel) (i : Nat) : Option Kernel := (after (visit i) k).map Prod.snd

def Cont.setNext (c : Cont) (n : Int) : Cont := { c with nextproc := n }

/- The scheduler's step of nextproc: it wraps only on equality. -/
def stepNext (c : Cont) : Cont := c.setNext (if c.nextproc + 1 = c.mproc then 0 else c.nextproc + 1)

/- What the visit to a stopping container does to the process at nextproc. -/
def stopped (q : Proc) : Proc :=
  if q.state = .runnable then { q with killed := true, state := .running } else q

/- A process of a container that has not exited. -/
def Unfinished (q : Proc) : Prop := q.state = .sleeping ∨ q.state = .runnable ∨ q.state = .running

/- Container i stops, its processes are in the slots below mproc, and the scheduler is at
one of these slots. -/
structure Stopping (k : Kernel) (i : Nat) : Prop where
  inside : i < NCONT
  state : (k.cont i).state = .cstopping
  size : (k.cont i).mproc ≤ NPROC
  below : ∀ j < NPROC, Unfinished (k.proc i j) → (j : Int) < (k.cont i).mproc
  turn : 0 < (k.cont i).mproc → 0 ≤ (k.cont i).nextproc ∧ (k.cont i).nextproc < (k.cont i).mproc
  mapped : ∀ j, (k.proc i j).state = .runnable → (k.proc i j).kstack ≠ 0 ∧ (k.proc i j).pgdir ≠ 0

section Stop
variable {k : Kernel} {i : Nat}

theorem after_ends {A : Type} {x : KM A} {es : List Event} {r : A} {k' : Kernel}
    (ends : Ends x k es r k') : after x k = some (r, k') := by
  unfold after
  rw [ends]

theorem ends_switchuvm {p : ProcId} (kstack : (k.procAt p).kstack ≠ 0) (pgdir : (k.procAt p).pgdir ≠ 0) :
    Ends (switchuvm p) k [] () k := by
  unfold switchuvm
  rw [ends_get_bind, if_neg kstack, if_neg pgdir]
  exact ends_pure.mpr ⟨rfl, rfl, rfl⟩

/- The state after a visit to stopping container i with its slot n at nextproc. -/
def treated (k : Kernel) (i n : Nat) : Kernel :=
  { k with
    cont := update k.cont i (stepNext (k.cont i))
    proc := update k.proc i (update (k.proc i) n (stopped (k.proc i n))) }

@[simp] theorem treated_cont (k : Kernel) (i n : Nat) : (treated k i n).cont i = stepNext (k.cont i) :=
  update_self _ _ _

theorem treated_proc (k : Kernel) (i n j : Nat) :
    (treated k i n).proc i j = if j = n then stopped (k.proc i j) else k.proc i j := by
  have row : (treated k i n).proc i = update (k.proc i) n (stopped (k.proc i n)) :=
    update_self _ _ _
  rw [row, Function.update_apply]
  split
  · rename_i same
    rw [same]
  · rfl

theorem visited_stopping {n : Nat} (inside : i < NCONT) (below : n < NPROC)
    (state : (k.cont i).state = .cstopping) (next : (k.cont i).nextproc = n)
    (mapped : (k.proc i n).state = .runnable → (k.proc i n).kstack ≠ 0 ∧ (k.proc i n).pgdir ≠ 0) :
    visited k i = some (treated k i n) := by
  have scheduled : Scheduled (k.cont i) := Or.inr state
  have slot : slotAt (slotAddr i (k.cont i).nextproc) = some ⟨i, n⟩ := by
    have own := selected_own (k := k) inside (by omega) (by omega)
    rw [next, Int.toNat_natCast] at own
    exact own
  unfold visited
  by_cases runnable : (k.proc i n).state = .runnable
  · obtain ⟨kstack, pgdir⟩ := mapped runnable
    have runs : Ends (visit i) k [] (some ⟨i, n⟩) (treated k i n) := by
      unfold visit
      rw [ends_get_bind, if_neg (not_not.mpr scheduled), slot]
      dsimp only
      rw [modifyCont, ends_modify_bind, Kernel.procAt, if_neg (not_not.mpr runnable), if_pos state,
        modifyProc, ends_modify_bind]
      refine (ends_switchuvm ?_ ?_).seq ?_
      · simpa [Kernel.setProc, Kernel.procAt] using kstack
      · simpa [Kernel.setProc, Kernel.procAt] using pgdir
      · rw [modifyProc, ends_modify_bind]
        refine ends_pure.mpr ⟨rfl, rfl, ?_⟩
        simp [Kernel.setProc, Kernel.procAt, treated, stopped, runnable, stepNext, Cont.setNext]
    rw [after_ends runs]
    rfl
  · have idle : Ends (visit i) k [] none { k with cont := update k.cont i (stepNext (k.cont i)) } := by
      unfold visit
      rw [ends_get_bind, if_neg (not_not.mpr scheduled), slot]
      dsimp only
      rw [modifyCont, ends_modify_bind, Kernel.procAt, if_pos runnable]
      exact ends_pure.mpr ⟨rfl, rfl, rfl⟩
    rw [after_ends idle, treated, stopped, if_neg runnable, update_eq_self, update_eq_self]
    rfl

theorem stepNext_cycle {c : Cont} {m n : Nat} (size : c.mproc = m) (next : c.nextproc = n) (below : n < m) :
    stepNext c = c.setNext ((n + 1) % m : Nat) := by
  unfold stepNext
  rw [size, next]
  congr 1
  split
  · rename_i last
    have wraps : n + 1 = m := by omega
    rw [wraps, Nat.mod_self, Nat.cast_zero]
  · rw [Nat.mod_eq_of_lt (by omega)]
    push_cast
    rfl

/- A visit treats a process the second time as it did the first. -/
theorem stopped_stopped (q : Proc) : stopped (stopped q) = stopped q := by
  by_cases runnable : q.state = .runnable <;> simp [stopped, runnable]

theorem stopped_mapped {q : Proc} (mapped : q.state = .runnable → q.kstack ≠ 0 ∧ q.pgdir ≠ 0) :
    (stopped q).state = .runnable → (stopped q).kstack ≠ 0 ∧ (stopped q).pgdir ≠ 0 := by
  unfold stopped
  split
  · exact nofun
  · exact mapped

/- The slots that the first n visits come by, from slot start on in a table of m slots. -/
def Passed (start m n j : Nat) : Prop := ∃ t < n, (start + t) % m = j

instance (start m n j : Nat) : Decidable (Passed start m n j) := inferInstanceAs (Decidable (∃ _ < n, _))

theorem passed_all {start m j : Nat} (below : start < m) (inside : j < m) : Passed start m m j := by
  by_cases ahead : start ≤ j
  · refine ⟨j - start, by omega, ?_⟩
    rw [Nat.add_sub_cancel' ahead, Nat.mod_eq_of_lt inside]
  · refine ⟨j + m - start, by omega, ?_⟩
    rw [Nat.add_sub_cancel' (by omega), Nat.add_mod_right, Nat.mod_eq_of_lt inside]

/- The state after n visits to a stopping container: the slots they came by have been
treated, and C still stops. -/
theorem visits_stopping (stopping : Stopping k i) (m start : Nat) (size : (k.cont i).mproc = m)
    (next : (k.cont i).nextproc = start) (below : start < m) (n : Nat) :
    ∃ k', Lib.exec visited k (List.replicate n i) = some k' ∧
      k'.cont i = (k.cont i).setNext ((start + n) % m : Nat) ∧
      ∀ j, k'.proc i j = if Passed start m n j then stopped (k.proc i j) else k.proc i j := by
  have small := stopping.size
  induction n with
  | zero =>
    refine ⟨k, rfl, ?_, fun j => ?_⟩
    · rw [Nat.add_zero, Nat.mod_eq_of_lt below, ← next]
      rfl
    · rw [if_neg]
      rintro ⟨t, none, -⟩
      omega
  | succ n ih =>
    obtain ⟨k', reached, cont, procs⟩ := ih
    have here := Nat.mod_lt (start + n) (by omega : 0 < m)
    have mapped : (k'.proc i ((start + n) % m)).state = .runnable →
        (k'.proc i ((start + n) % m)).kstack ≠ 0 ∧ (k'.proc i ((start + n) % m)).pgdir ≠ 0 := by
      rw [procs]
      split
      · exact stopped_mapped (stopping.mapped _)
      · exact stopping.mapped _
    have visit := visited_stopping (k := k') (n := (start + n) % m) stopping.inside (by omega)
      (by rw [cont]; exact stopping.state) (by rw [cont]; rfl) mapped
    refine ⟨treated k' i ((start + n) % m), ?_, ?_, fun j => ?_⟩
    · rw [List.replicate_succ', exec_append, reached]
      simp [Lib.exec, visit]
    · rw [treated_cont, stepNext_cycle (m := m) (n := (start + n) % m) (by rw [cont]; exact size)
        (by rw [cont]; rfl) here, cont, Nat.mod_add_mod, Nat.add_assoc]
      rfl
    · rw [treated_proc]
      by_cases same : j = (start + n) % m
      · rw [if_pos same, if_pos ⟨n, by omega, same.symm⟩, procs]
        split
        · exact stopped_stopped _
        · rfl
      · rw [if_neg same, procs]
        have passed : Passed start m (n + 1) j ↔ Passed start m n j := by
          constructor
          · rintro ⟨t, late, hit⟩
            refine ⟨t, ?_, hit⟩
            rcases Nat.lt_succ_iff_lt_or_eq.mp late with early | rfl
            · exact early
            · exact absurd hit.symm same
          · rintro ⟨t, early, hit⟩
            exact ⟨t, by omega, hit⟩
        simp only [passed]

theorem unfinished_stopped {q : Proc} : Unfinished (stopped q) ↔ Unfinished q := by
  unfold stopped
  split
  · rename_i runnable
    simp [Unfinished, runnable]
  · rfl

/- What a visit makes of a process that has not exited. -/
theorem stopped_killed {q : Proc} (unfinished : Unfinished q) :
    ((stopped q).killed = true ∧ (stopped q).state ≠ .sleeping) ↔
      (q.state = .runnable ∨ q.state = .running ∧ q.killed = true) := by
  unfold stopped
  rcases unfinished with h | h | h <;> simp [h]

/- The second container, for one process, and the slot of its process. -/
def tenantKernel (cstate : ContState) (pstate : ProcState) : Kernel :=
  { bootKernel with
    cont := update bootKernel.cont 1 { Cont.zero with
      cid := 2, state := cstate, mproc := 1, uproc := if pstate = .unused then 0 else 1, name := [120] }
    proc := update bootKernel.proc 1 (update (fun _ => Proc.zero) 0 { Proc.zero with
      state := pstate, pid := 2, parent := some ⟨0, 0⟩, kstack := 0x203, pgdir := 0x204, cont := 1 }) }

theorem tenant_proc (cstate : ContState) (pstate : ProcState) (j : Nat) :
    (tenantKernel cstate pstate).proc 1 j = if j = 0 then (tenantKernel cstate pstate).proc 1 0
      else Proc.zero := by
  split
  · rename_i first
    rw [first]
  · rename_i other
    have row : (tenantKernel cstate pstate).proc 1 = update (fun _ => Proc.zero) 0
        ((tenantKernel cstate pstate).proc 1 0) := rfl
    rw [row, update_of_ne other]

theorem tenant_stopping (pstate : ProcState) : Stopping (tenantKernel .cstopping pstate) 1 where
  inside := by decide
  state := rfl
  size := by cases pstate <;> decide
  below := by
    intro j _ unfinished
    rw [tenant_proc] at unfinished
    split at unfinished
    · rename_i first
      rw [first]
      cases pstate <;> decide
    · rcases unfinished with h | h | h <;> cases h
  turn := fun _ => by cases pstate <;> decide
  mapped := by
    intro j runnable
    rw [tenant_proc] at runnable ⊢
    split at runnable
    · rename_i first
      rw [if_pos first]
      cases pstate <;> decide
    · cases runnable

theorem tenant_stays (pstate : ProcState) (idle : pstate ≠ .runnable) (n : Nat) :
    ∃ k', Lib.exec visited (tenantKernel .cstopping pstate) (List.replicate n 1) = some k' ∧
      (k'.proc 1 0).state = pstate ∧ (k'.proc 1 0).killed = false ∧ (k'.cont 1).state = .cstopping := by
  obtain ⟨k', reached, cont, procs⟩ := visits_stopping (tenant_stopping pstate) 1 0 rfl rfl
    (by decide) n
  have same : k'.proc 1 0 = (tenantKernel .cstopping pstate).proc 1 0 := by
    rw [procs]
    split
    · exact if_neg idle
    · rfl
  refine ⟨k', reached, ?_, ?_, ?_⟩
  · rw [same]
    rfl
  · rw [same]
    rfl
  · rw [cont]
    rfl

theorem tenant_stop (pstate : ProcState) :
    step (tenantKernel .crunnable pstate) (.call ⟨0, 0⟩ (.cstop ⟨[120], by decide⟩)) =
      some (tenantKernel .cstopping pstate) := by
  have called : step (tenantKernel .crunnable pstate) (.call ⟨0, 0⟩ (.cstop ⟨[120], by decide⟩)) =
      some { tenantKernel .crunnable pstate with
        cont := update (tenantKernel .crunnable pstate).cont 1
          { (tenantKernel .crunnable pstate).cont 1 with state := .cstopping } } := by
    cases pstate <;> rfl
  rw [called]
  simp [tenantKernel]

end Stop

end Xv6c

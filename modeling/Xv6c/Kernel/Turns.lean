import Xv6c.Kernel.RoleCalls

/-! Runs of the scheduler on several CPUs: which slots it selects, whether uproc counts
the live processes, and whether every process that has exited can be reaped. -/
namespace Xv6c
open Lib

section Steps
variable {k : Kernel}

theorem after_spec {A : Type} {x : KM A} {Q : A → Kernel → Prop} {r : A} {k' : Kernel}
    (spec : wp anyMode x Q k) (done : after x k = some (r, k')) : Q r k' := by
  unfold after at done
  have holds := (spec fun _ _ => trivial).2
  cases h : (x k).2 with
  | error e =>
    rw [h] at done
    cases done
  | ok result =>
    rw [h] at done holds
    cases done
    exact holds

theorem switchuvm_same (p : ProcId) : wp anyMode (switchuvm p) (fun _ k' => k' = k) k := by
  unfold switchuvm
  exact wp_get_bind (wp_ite (fun _ => wp_fault trivial) fun _ =>
    wp_ite (fun _ => wp_fault trivial) fun _ => wp_pure rfl)

/- A change to a slot that leaves its role alone. -/
theorem modifyProc_same {q : ProcId} {f : Proc → Proc} {x : Census.Role} (now : (census k).role q = x)
    (kept : ∀ y, role y = x → role (f y) = x) :
    wp anyMode (modifyProc q f) (fun _ k' => census k' = census k) k := by
  refine wp_modify ?_
  rw [census_setProc, kept _ now]
  exact setRole_self _ _ _ now

theorem role_goes {q : Proc} {c : Nat} {parent : Option ProcId} (live : role q = .live c parent)
    {state : ProcState} (goes : state ≠ .unused ∧ state ≠ .zombie) :
    role { q with state := state } = .live c parent :=
  role_eq_live.mpr ⟨goes, (role_eq_live.mp live).2⟩

/- A visit advances nextproc, and the process it switches to is the one at nextproc. -/
theorem visit_census (i : Nat) :
    wp anyMode (visit i) (fun r k' =>
      (¬ Scheduled (k.cont i) ∧ r = none ∧ census k' = census k) ∨
      (Scheduled (k.cont i) ∧ census k' = (census k).setCont i Census.advance ∧
        ∀ p, r = some p → slotAt (slotAddr i (k.cont i).nextproc) = some p ∧
          (k.procAt p).state = .runnable)) k := by
  unfold visit
  refine wp_get_bind (wp_ite (fun idle => wp_pure (Or.inl ⟨idle, rfl, rfl⟩)) fun active => ?_)
  have scheduled := not_not.mp active
  split
  · exact wp_fault trivial
  rename_i p found
  refine wp_seq (modifyCont_census Census.advance rfl) fun _ k₁ first => ?_
  refine wp_ite (fun _ => wp_pure (Or.inr ⟨scheduled, first, nofun⟩)) fun runnable => ?_
  have runnable := not_not.mp runnable
  have live : (census k₁).role p = .live (k.procAt p).cont (k.procAt p).parent := by
    rw [first]
    exact role_eq_live.mpr ⟨by rw [runnable]; decide, rfl, rfl⟩
  have rest {k₂ : Kernel} (same : census k₂ = census k₁) :
      wp anyMode (switchuvm p >>= fun _ => modifyProc p (fun q => { q with state := .running }) >>=
        fun _ => (pure (some p) : KM (Option ProcId))) (fun r k' =>
      (¬ Scheduled (k.cont i) ∧ r = none ∧ census k' = census k) ∨
      (Scheduled (k.cont i) ∧ census k' = (census k).setCont i Census.advance ∧
        ∀ p, r = some p → slotAt (slotAddr i (k.cont i).nextproc) = some p ∧
          (k.procAt p).state = .runnable)) k₂ := by
    refine wp_seq (switchuvm_same p) fun _ k₃ unchanged => ?_
    subst unchanged
    refine wp_seq (modifyProc_same (same ▸ live) fun _ h => role_goes h (by decide)) fun _ k₄ last => ?_
    refine wp_pure (Or.inr ⟨scheduled, (last.trans same).trans first, ?_⟩)
    rintro q selected
    cases selected
    exact ⟨found, runnable⟩
  refine wp_ite (fun _ => ?_) fun _ => rest rfl
  exact wp_seq (modifyProc_same live fun _ h => h) fun _ k₂ second => rest second

theorem afterRun_census (i : Nat) :
    wp anyMode (afterRun i) (fun _ k' => ((k.cont i).uproc ≠ 0 ∧ census k' = census k) ∨
      ((k.cont i).uproc = 0 ∧ census k' = (census k).setCont i fun x =>
        { x with mproc := 0, nextproc := 0, state := .cunused })) k := by
  unfold afterRun
  refine wp_get_bind (wp_ite (fun zero => ?_) fun some => wp_pure (Or.inl ⟨some, rfl⟩))
  exact wp_mono (modifyCont_census _ rfl) fun _ _ same => Or.inr ⟨zero, same⟩

end Steps

/- The turn of the machine that a move belongs to. -/
def Cause (s : Smp) (l : Turn) (a : Census.State) (m : Census.Act) : Prop :=
  Plain m ∨ ∃ cpu i p c, l = .call cpu c ∧ s.cpu cpu = some (i, p) ∧ Source s.kernel p c a m

variable {s t : Smp} {cpu : Nat}

theorem runs_some {x : ProcId → Option Kernel} (taken : runs s cpu x = some t) :
    ∃ i p k, s.cpu cpu = some (i, p) ∧ Running s.kernel p ∧ x p = some k ∧
      switchBack s cpu i p k = some t := by
  unfold runs at taken
  split at taken
  · cases taken
  · rename_i i p current
    split at taken
    · rename_i running
      obtain ⟨k, made, back⟩ := Option.bind_eq_some_iff.mp taken
      exact ⟨i, p, k, current, running, made, back⟩
    · cases taken

theorem visit_some {i : Nat} (taken : turn s (.visit cpu i) = some t) :
    i < NCONT ∧ ∃ r, after (visit i) s.kernel = some (r, t.kernel) ∧
      t.cpu cpu = r.map fun p => (i, p) := by
  dsimp only [turn] at taken
  split at taken
  · rename_i idle
    obtain ⟨⟨r, k⟩, done, same⟩ := Option.map_eq_some_iff.mp taken
    cases same
    exact ⟨idle.2, r, done, Function.update_self _ _ _⟩
  · cases taken

theorem switchBack_path {ok : Census.State → Census.Act → Prop} (leaving : ∀ a c, ok a (.cexit c)) {i : Nat}
    {p : ProcId} {k : Kernel} {a : Census.State} (path : Census.Path ok a (census k))
    (back : switchBack s cpu i p k = some t) : Census.Path ok a (census t.kernel) := by
  unfold switchBack at back
  split at back
  · cases back
    exact path
  · obtain ⟨⟨_, k'⟩, done, same⟩ := Option.map_eq_some_iff.mp back
    cases same
    rcases after_spec (afterRun_census i) done with ⟨-, same⟩ | ⟨zero, same⟩
    · rw [same]
      exact path
    · rw [same]
      exact .tail path (leaving _ i) (.cexit zero)

theorem Running.own {k : Kernel} {p : ProcId} (running : Running k p) (sound : Census.Sound (census k)) :
    Own p p.cont (census k) := by
  have live : (census k).role p = .live (k.contOf p) (k.procAt p).parent :=
    role_eq_live.mpr ⟨by rw [running.2.2]; decide, rfl, rfl⟩
  have home := sound.home p _ _ live
  exact ⟨_, home ▸ live⟩

/- Every turn of the machine is a path of moves. -/
theorem turn_path {l : Turn} (sound : Census.Sound (census s.kernel)) (taken : turn s l = some t) :
    Census.Path (Cause s l) (census s.kernel) (census t.kernel) := by
  have leaving (a : Census.State) (c : Nat) : Cause s l a (.cexit c) := Or.inl trivial
  cases l with
  | visit cpu i =>
    obtain ⟨-, r, done, -⟩ := visit_some taken
    rcases after_spec (visit_census i) done with ⟨-, -, same⟩ | ⟨scheduled, same, -⟩
    · rw [same]
      exact .refl _
    · rw [same]
      exact .single (.visit scheduled) (Or.inl trivial)
  | call cpu c =>
    obtain ⟨i, p, k, current, running, made, back⟩ := runs_some taken
    refine switchBack_path leaving ?_ back
    have path := call_spec (syscall_path sound (running.own sound) running.1 c) made
    exact path.mono fun a m source => Or.inr ⟨cpu, i, p, c, rfl, current, source⟩
  | store cpu va b =>
    obtain ⟨i, p, k, current, running, made, back⟩ := runs_some taken
    refine switchBack_path leaving ?_ back
    have own := running.own sound
    have spec : wp anyMode (perform (.store p va b)) (fun _ k' => Hit p.cont (census s.kernel) (census k'))
        s.kernel :=
      wp_get_bind (wp_seq (acts_hit (acts_onMem _) own (Or.inl rfl)) fun _ _ hit => wp_pure hit)
    have hit := (step_spec (fun _ => spec) fun _ _ => trivial).2 k made
    exact hit_path own (fun _ _ => Or.inl trivial) (.refl _) hit
  | yield cpu =>
    obtain ⟨i, p, k, current, running, made, back⟩ := runs_some taken
    refine switchBack_path leaving ?_ back
    obtain ⟨⟨_, k'⟩, done, same⟩ := Option.map_eq_some_iff.mp made
    cases same
    obtain ⟨r, live⟩ := running.own sound
    have same := after_spec (modifyProc_same live fun _ h => role_goes h (by decide)) done
    dsimp only
    rw [same]
    exact .refl _

/- The machine when userinit has made the first process, whatever is on the disk and
in memory. -/
structure Booted (s : Smp) : Prop where
  census : census s.kernel = Census.boot
  idle : ∀ cpu, s.cpu cpu = none

/- What each turn keeps, a run from boot keeps. -/
theorem run_census {ok : Smp → Turn → Prop} (inv : Census.State → Prop) {ls : List Turn}
    (preserves : ∀ s l a m b, ok s l → Cause s l a m → Census.Sound a → inv a → Census.Move a m b → inv b)
    (initial : inv Census.boot) (booted : Booted s) (all : Along turn ok s ls)
    (reached : Lib.exec turn s ls = some t) : Census.Sound (census t.kernel) ∧ inv (census t.kernel) := by
  have kept (s : Smp) (l : Turn) (t : Smp)
      (h : Census.Sound (census s.kernel) ∧ inv (census s.kernel)) (allowed : ok s l)
      (taken : turn s l = some t) : Census.Sound (census t.kernel) ∧ inv (census t.kernel) :=
    Census.path_invariant (fun a => Census.Sound a ∧ inv a)
      (fun a m b ⟨sound, holds⟩ cause move =>
        ⟨Census.move_sound sound move, preserves s l a m b allowed cause sound holds move⟩)
      (turn_path h.1 taken) h
  refine run_invariant kept ?_ all reached
  rw [booted.census]
  exact ⟨Census.boot_sound, initial⟩

section Selection
variable {s t u : Smp} {ls : List Turn}

/- A container that is started has room for a process. -/
def RoomyStart (s : Smp) : Turn → Prop
  | .call _ (.cstart name) => ∀ c ∈ starting s.kernel name, 1 ≤ (s.kernel.cont c).mproc
  | _ => True

theorem cause_roomy {l : Turn} {a : Census.State} {m : Census.Act} (roomy : RoomyStart s l)
    (cause : Cause s l a m) : Census.Roomy a m := by
  cases m with
  | start c =>
    rcases cause with plain | ⟨cpu, i, p, call, rfl, -, name, rfl, found, rfl⟩
    · exact plain.elim
    · exact roomy c found
  | _ => trivial

theorem run_ranged (booted : Booted s) (roomy : Along turn RoomyStart s ls)
    (reached : Lib.exec turn s ls = some t) :
    Census.Sound (census t.kernel) ∧ Census.Ranged (census t.kernel) :=
  run_census Census.Ranged (fun _ _ _ _ _ allowed cause sound ranged move =>
    Census.move_ranged sound ranged move (cause_roomy allowed cause)) Census.boot_ranged booted roomy reached

/- The slot that a visit of container i selects. -/
def selected (k : Kernel) (i : Nat) : Option ProcId := slotAt (slotAddr i (k.cont i).nextproc)

variable {k : Kernel} {i : Nat}

theorem selected_own (inside : i < NCONT) (low : 0 ≤ (k.cont i).nextproc) (high : (k.cont i).nextproc < NPROC) :
    selected k i = some ⟨i, (k.cont i).nextproc.toNat⟩ := by
  unfold selected slotAt slotAddr NPROC NCONT at *
  rw [if_pos (by omega)]
  congr 2 <;> omega

theorem ranged_selected (ranged : Census.Ranged (census k)) (inside : i < NCONT)
    (scheduled : Scheduled (k.cont i)) :
    (0 ≤ (k.cont i).nextproc ∧ (k.cont i).nextproc < (k.cont i).mproc ∧ (k.cont i).mproc ≤ NPROC) ∧
      selected k i = some ⟨i, (k.cont i).nextproc.toNat⟩ := by
  obtain ⟨low, high, size⟩ := ranged.bounded i (Census.started_active scheduled)
  exact ⟨⟨low, high, size⟩, selected_own inside low (high.trans_le size)⟩

/- The process that a visit switches to. -/
theorem visit_dispatches {cpu j : Nat} {p : ProcId} (visited : turn t (.visit cpu i) = some u)
    (dispatched : u.cpu cpu = some (j, p)) : j = i ∧ i < NCONT ∧ Scheduled (t.kernel.cont i) ∧
      selected t.kernel i = some p ∧ (t.kernel.procAt p).state = .runnable := by
  obtain ⟨inside, r, done, same⟩ := visit_some visited
  cases r with
  | none => cases same.symm.trans dispatched
  | some q =>
    cases same.symm.trans dispatched
    rcases after_spec (visit_census i) done with ⟨-, never, -⟩ | ⟨scheduled, -, found⟩
    · cases never
    · obtain ⟨selects, runnable⟩ := found p rfl
      exact ⟨rfl, inside, scheduled, selects, runnable⟩

/-- In every run in which the containers that are started have room for a process, the
scheduler selects a slot below mproc of the container it visits, and a process it
switches to is a process of that container, which is CRUNNABLE or CSTOPPING. -/
theorem scheduler_selects_own (booted : Booted s) (roomy : Along turn RoomyStart s ls)
    (reached : Lib.exec turn s ls = some t) {i : Nat} (inside : i < NCONT) :
    (Scheduled (t.kernel.cont i) →
      (0 ≤ (t.kernel.cont i).nextproc ∧ (t.kernel.cont i).nextproc < (t.kernel.cont i).mproc ∧
        (t.kernel.cont i).mproc ≤ NPROC) ∧
      selected t.kernel i = some ⟨i, (t.kernel.cont i).nextproc.toNat⟩) ∧
    ∀ cpu u j p, turn t (.visit cpu i) = some u → u.cpu cpu = some (j, p) →
      p.cont = i ∧ t.kernel.contOf p = i ∧ Scheduled (t.kernel.cont (t.kernel.contOf p)) := by
  obtain ⟨sound, ranged⟩ := run_ranged booted roomy reached
  refine ⟨ranged_selected ranged inside, ?_⟩
  intro cpu u j p visited dispatched
  obtain ⟨-, -, scheduled, selects, runnable⟩ := visit_dispatches visited dispatched
  have own := (ranged_selected ranged inside scheduled).2
  cases own.symm.trans selects
  have live : (census t.kernel).role ⟨i, (t.kernel.cont i).nextproc.toNat⟩ = .live _ _ :=
    role_eq_live.mpr ⟨by rw [runnable]; decide, rfl, rfl⟩
  have home : t.kernel.contOf ⟨i, _⟩ = i := sound.home _ _ _ live
  refine ⟨rfl, home, ?_⟩
  rw [home]
  exact scheduled

/- "initcont" -/
def rootTitle : List Byte := [105, 110, 105, 116, 99, 111, 110, 116]

/- The machine at boot, with the directory x on the disk and no page left to allocate. -/
def bootKernel : Kernel :=
  { Kernel.zero with
    fs := Fs.smallFs
    cont := fun i => if i = 0 then { Cont.zero with
      cid := ROOTCONT, state := .crunnable, mproc := NPROC, msz := MAX_CONT_MEM, mdsk := MAX_CONT_DSK
      uproc := 1, rootdir := some 0, name := strncpy rootTitle 16 } else Cont.zero
    proc := fun i j => if i = 0 ∧ j = 0 then { Proc.zero with
      state := .runnable, pid := 1, kstack := 0x201, pgdir := 0x202, sz := PGSIZE, cwd := some 0 }
      else Proc.zero
    nextcid := 2
    nextpid := 2 }

def bootSmp : Smp := ⟨bootKernel, fun _ => none⟩

theorem booted_of (procs : k.proc = bootKernel.proc) (conts : k.cont = bootKernel.cont)
    (init : k.initproc = ⟨0, 0⟩) : Booted ⟨k, fun _ => none⟩ := by
  refine ⟨?_, fun _ => rfl⟩
  unfold census Kernel.procAt Census.boot
  rw [procs, conts, init]
  congr 1
  · funext q
    unfold bootKernel
    dsimp only
    split <;> rfl
  · funext c
    unfold bootKernel
    dsimp only
    split <;> rfl

/- The first process creates a container over x, for mproc processes, and starts it. -/
def startRun (mproc : Int) : List Turn :=
  let x : Fs.CStr := ⟨[120], Fs.x_whole⟩
  [.visit 0 0, .call 0 (.ccreate x mproc 0 100), .call 0 (.open x O_RDONLY), .call 0 (.cstart x)]

instance (s : Smp) (l : Turn) : Decidable (RoomyStart s l) := by
  unfold RoomyStart
  split <;> infer_instance

theorem scheduler_selects_own_start :
    ∃ t, Lib.exec turn bootSmp (startRun 1) = some t ∧ Scheduled (t.kernel.cont 1) ∧
      selected t.kernel 1 = some ⟨1, (t.kernel.cont 1).nextproc.toNat⟩ := by
  obtain ⟨t, reached, scheduled⟩ : ∃ t, Lib.exec turn bootSmp (startRun 1) = some t ∧
      Scheduled (t.kernel.cont 1) := by decide +kernel
  have own := scheduler_selects_own (booted_of rfl rfl rfl) (along_of_checks (by decide +kernel)) reached
    (i := 1) (by decide)
  exact ⟨t, reached, scheduled, (own.1 scheduled).2⟩

/- A third container, paused, with a process that could run. -/
def pausedKernel : Kernel :=
  { bootKernel with
    cont := Function.update bootKernel.cont 2 { Cont.zero with
      cid := 3, state := .cpaused, mproc := 1, uproc := 1, name := [121] }
    proc := fun i j => if i = 2 ∧ j = 0 then { Proc.zero with
      state := .runnable, pid := 3, kstack := 0x203, pgdir := 0x204, cont := 2 } else bootKernel.proc i j }

/- A container made for no processes: from boot, the first visit selects slot 0 with
mproc = 0, and after 64 visits nextproc has reached the table of the next container; a
process there is dispatched although its container is paused. -/
theorem empty_container_selects_foreign :
    Booted bootSmp ∧
    (∃ t, Lib.exec turn bootSmp (startRun 0) = some t ∧ Scheduled (t.kernel.cont 1) ∧
      ¬ (t.kernel.cont 1).nextproc < (t.kernel.cont 1).mproc) ∧
    (∃ t, Lib.exec turn bootSmp (startRun 0 ++ List.replicate 64 (.visit 1 1)) = some t ∧
      Scheduled (t.kernel.cont 1) ∧ selected t.kernel 1 = some ⟨2, 0⟩) ∧
    ∃ t u, Lib.exec turn ⟨pausedKernel, fun _ => none⟩ (startRun 0 ++ List.replicate 64 (.visit 1 1)) =
      some t ∧ (t.kernel.cont 2).state = .cpaused ∧ turn t (.visit 1 1) = some u ∧
      u.cpu 1 = some (1, ⟨2, 0⟩) := by
  refine ⟨booted_of rfl rfl rfl, ?_, ?_, ?_⟩
  · decide +kernel
  · decide +kernel
  · obtain ⟨t, reached, paused, u, visited, seen⟩ : ∃ t, Lib.exec turn ⟨pausedKernel, fun _ => none⟩
        (startRun 0 ++ List.replicate 64 (.visit 1 1)) = some t ∧ (t.kernel.cont 2).state = .cpaused ∧
          ∃ u, turn t (.visit 1 1) = some u ∧ u.cpu 1 = some (1, ⟨2, 0⟩) := by decide +kernel
    exact ⟨t, u, reached, paused, visited, seen⟩

end Selection

section Counting
variable {s t u : Smp} {ls : List Turn}

/- The slots of container c whose process is alive. -/
def liveSlots (k : Kernel) (c : Nat) : Nat :=
  ((Finset.range NPROC).filter fun j =>
    (k.proc c j).state ∈ [ProcState.embryo, .sleeping, .runnable, .running]).card

theorem lives_census (k : Kernel) (c : Nat) : Census.lives (census k) c = liveSlots k c := by
  unfold Census.lives liveSlots
  congr 1
  refine Finset.filter_congr fun j _ => ?_
  change (role (k.proc c j)).alive = true ↔ _
  unfold role
  cases (k.proc c j).state <;> simp [Census.Role.alive]

/- The turn is no fork or cfork that fails in copyuvm. -/
def NoLeak (s : Smp) : Turn → Prop
  | .call cpu c => ∀ i p, s.cpu cpu = some (i, p) → leaks s.kernel p c = false
  | _ => True

def Exact (a : Census.State) : Prop := ∀ c, Census.slack a c = 0

theorem move_exact {l : Turn} {a b : Census.State} {m : Census.Act} (counted : NoLeak s l)
    (cause : Cause s l a m) (sound : Census.Sound a) (exact : Exact a) (move : Census.Move a m b) :
    Exact b := by
  intro c
  rw [Census.move_slack sound move c, exact c, if_neg, add_zero]
  rintro rfl
  rcases cause with plain | ⟨cpu, i, p, call, rfl, current, leak⟩
  · exact plain
  · cases (counted i p current).symm.trans leak

theorem Exact.uproc {k : Kernel} (exact : Exact (census k)) (c : Nat) :
    (k.cont c).uproc = liveSlots k c := by
  have zero := exact c
  rw [Census.slack, lives_census] at zero
  exact sub_eq_zero.mp zero

theorem unused_empty {k : Kernel} (sound : Census.Sound (census k)) {c : Nat}
    (unused : (k.cont c).state = .cunused) : liveSlots k c = 0 := by
  rw [← lives_census, Census.lives, Finset.card_eq_zero]
  refine Finset.filter_eq_empty_iff.mpr fun j _ alive => ?_
  obtain ⟨d, r, live⟩ := Census.alive_live alive
  have home := sound.home _ d r live
  subst home
  exact (sound.started _ _ r live).1 unused

/- Every CPU runs a process of the container that it visited. -/
def Seated (s : Smp) : Prop := ∀ cpu i p, s.cpu cpu = some (i, p) → p.cont = i

variable {cpu : Nat}

theorem seated_update {f : Nat → Option (Nat × ProcId)} {x : Option (Nat × ProcId)}
    (seated : ∀ cpu i p, f cpu = some (i, p) → p.cont = i) (new : ∀ i p, x = some (i, p) → p.cont = i) :
    ∀ c i p, Function.update f cpu x c = some (i, p) → p.cont = i := by
  intro c i p current
  rw [Function.update_apply] at current
  split at current
  · exact new i p current
  · exact seated c i p current

theorem runs_seated {x : ProcId → Option Kernel} (seated : Seated s) (taken : runs s cpu x = some t) : Seated t := by
  obtain ⟨i, p, k, -, -, -, back⟩ := runs_some taken
  unfold switchBack at back
  split at back
  · cases back
    exact seated
  · obtain ⟨_, -, same⟩ := Option.map_eq_some_iff.mp back
    cases same
    exact seated_update seated nofun

theorem turn_seated {l : Turn} (ranged : Census.Ranged (census s.kernel)) (seated : Seated s)
    (taken : turn s l = some t) : Seated t := by
  cases l with
  | visit cpu i =>
    intro c j p current
    by_cases here : c = cpu
    · subst here
      obtain ⟨rfl, inside, scheduled, selects, -⟩ := visit_dispatches taken current
      cases (ranged_selected ranged inside scheduled).2.symm.trans selects
      rfl
    · refine seated c j p ?_
      rw [← current]
      dsimp only [turn] at taken
      split at taken
      · obtain ⟨_, -, same⟩ := Option.map_eq_some_iff.mp taken
        cases same
        exact (Function.update_of_ne here _ _).symm
      · cases taken
  | call cpu c => exact runs_seated seated taken
  | store cpu va b => exact runs_seated seated taken
  | yield cpu => exact runs_seated seated taken

theorem run_seated (booted : Booted s) (roomy : Along turn RoomyStart s ls)
    (reached : Lib.exec turn s ls = some t) : Seated t := by
  have kept (s : Smp) (l : Turn) (t : Smp)
      (h : (Census.Sound (census s.kernel) ∧ Census.Ranged (census s.kernel)) ∧ Seated s)
      (allowed : RoomyStart s l) (taken : turn s l = some t) :
      (Census.Sound (census t.kernel) ∧ Census.Ranged (census t.kernel)) ∧ Seated t := by
    refine ⟨?_, turn_seated h.1.2 h.2 taken⟩
    exact Census.path_invariant (fun a => Census.Sound a ∧ Census.Ranged a)
      (fun a m b ⟨sound, ranged⟩ cause move =>
        ⟨Census.move_sound sound move, Census.move_ranged sound ranged move (cause_roomy allowed cause)⟩)
      (turn_path h.1.1 taken) h.1
  refine (run_invariant kept ⟨?_, ?_⟩ roomy reached).2
  · rw [booted.census]
    exact ⟨Census.boot_sound, Census.boot_ranged⟩
  · intro cpu i p current
    cases (booted.idle cpu).symm.trans current

/- The exit of the last process of a container takes the container down. -/
theorem exit_takes_down {i : Nat} {p : ProcId} (sound : Census.Sound (census t.kernel))
    (exact : Exact (census t.kernel)) (current : t.cpu cpu = some (i, p)) (own : p.cont = i)
    (taken : turn t (.call cpu .exit) = some u) (last : liveSlots u.kernel i = 0) :
    (u.kernel.cont i).state = .cunused := by
  obtain ⟨i', p', k, current', running, made, back⟩ := runs_some taken
  cases current'.symm.trans current
  have path := call_spec (syscall_path sound (running.own sound) running.1 .exit) made
  have after : Census.Sound (census k) ∧ Exact (census k) := by
    refine Census.path_invariant (fun a => Census.Sound a ∧ Exact a) ?_ path ⟨sound, exact⟩
    rintro a m b ⟨sound, exact⟩ source move
    refine ⟨Census.move_sound sound move, move_exact (s := t) (l := .call cpu .exit) ?_ ?_ sound exact move⟩
    · exact fun _ _ _ => rfl
    · exact Or.inr ⟨cpu, i, p, .exit, rfl, current, source⟩
  unfold switchBack at back
  split at back
  · -- A process that still runs is a live one.
    rename_i runs
    cases back
    have live : (census k).role p = .live (k.contOf p) (k.procAt p).parent :=
      role_eq_live.mpr ⟨by rw [runs]; decide, rfl, rfl⟩
    have positive := Census.lives_pos running.2.1 (a := census k) (q := p) (by rw [live]; rfl)
    rw [lives_census, own] at positive
    dsimp only at last
    omega
  · obtain ⟨⟨_, k'⟩, done, same⟩ := Option.map_eq_some_iff.mp back
    cases same
    rcases after_spec (afterRun_census i) done with ⟨some, same⟩ | ⟨-, same⟩
    · have counts := after.2.uproc i
      rw [← lives_census, ← same, lives_census] at counts
      dsimp only at last
      omega
    · have state := congrArg (fun a => (a.cont i).state) same
      rw [Census.setCont_cont, if_pos rfl] at state
      exact state

/-- In every run without a fork or cfork that fails in copyuvm, uproc is the number of
live processes of the container, a container that is not in use has none, and (if the
scheduler keeps to the containers it visits) the exit of the last process of a
container takes it down. -/
theorem uproc_exact (booted : Booted s) (counted : Along turn NoLeak s ls)
    (reached : Lib.exec turn s ls = some t) :
    (∀ c, (t.kernel.cont c).uproc = liveSlots t.kernel c) ∧
    (∀ c, (t.kernel.cont c).state = .cunused → liveSlots t.kernel c = 0) ∧
    (Along turn RoomyStart s ls → ∀ cpu i p u, t.cpu cpu = some (i, p) →
      turn t (.call cpu .exit) = some u → liveSlots u.kernel p.cont = 0 →
        (u.kernel.cont p.cont).state = .cunused) := by
  obtain ⟨sound, exact⟩ := run_census Exact
    (fun _ _ _ _ _ allowed cause sound exact move => move_exact allowed cause sound exact move)
    Census.boot_slack booted counted reached
  refine ⟨exact.uproc, fun c => unused_empty sound, ?_⟩
  intro roomy cpu i p u current taken last
  have own := run_seated booted roomy reached cpu i p current
  rw [own] at last ⊢
  exact exit_takes_down sound exact current own taken last

/- At boot with one page to allocate: it becomes a kernel stack, and none is left for the
page directory of the copy. -/
def onePageSmp : Smp :=
  ⟨{ bootKernel with kmem := ⟨fun _ => zeros, 0x203, 0x110, 0x200, 0x202⟩ }, fun _ => none⟩

instance (s : Smp) (l : Turn) : Decidable (NoLeak s l) := by
  unfold NoLeak
  split
  · rename_i cpu c
    exact match h : s.cpu cpu with
      | none => isTrue fun i p current => nomatch current
      | some (i, p) => decidable_of_iff (leaks s.kernel p c = false) (by simp)
  · exact isTrue trivial

theorem uproc_exact_start :
    ∃ t, Lib.exec turn bootSmp (startRun 1 ++ [.call 0 .fork]) = some t ∧
      ∀ c, (t.kernel.cont c).uproc = liveSlots t.kernel c := by
  have ran : (Lib.exec turn bootSmp (startRun 1 ++ [.call 0 .fork])).isSome := by decide +kernel
  obtain ⟨t, reached⟩ := Option.isSome_iff_exists.mp ran
  exact ⟨t, reached, (uproc_exact (booted_of rfl rfl rfl) (along_of_checks (by decide +kernel)) reached).1⟩

/- fork fails in copyuvm, and the process that it did not make is counted. -/
theorem failed_fork_counted :
    Booted onePageSmp ∧ ∃ t, Lib.exec turn onePageSmp [.visit 0 0, .call 0 .fork] = some t ∧
      (t.kernel.cont 0).uproc = 2 ∧ liveSlots t.kernel 0 = 1 := by
  refine ⟨booted_of rfl rfl rfl, ?_⟩
  decide +kernel

end Counting

section Reaping
variable {s t : Smp} {ls : List Turn}

/- When p exits, its parent is in its own container, and init is too if p leaves a child
behind that has exited. -/
def Reapable (k : Kernel) (p : ProcId) : Prop :=
  (∃ q, (k.procAt p).parent = some q ∧ q.cont = p.cont) ∧
    (k.initproc.cont = p.cont ∨
      ∀ q, (k.procAt q).state = .zombie → (k.procAt q).parent ≠ some p)

def ReapableExit (s : Smp) : Turn → Prop
  | .call cpu .exit => ∀ i p, s.cpu cpu = some (i, p) → Reapable s.kernel p
  | _ => True

theorem cause_waited {l : Turn} {a b : Census.State} {m : Census.Act} (reapable : ReapableExit s l)
    (cause : Cause s l a m) (move : Census.Move a m b) : Census.Waited a m := by
  cases m with
  | exit q =>
    rcases cause with plain | ⟨cpu, i, p, call, rfl, current, rfl, rfl, roles, init⟩
    · exact plain.elim
    · obtain ⟨⟨parent, known, near⟩, children⟩ := reapable i q current
      cases move with
      | exit _ live =>
        have same := (role_eq_live.mp ((congrFun roles q).symm.trans live)).2.2
        rw [← same, known] at live
        refine ⟨⟨parent, ⟨_, live⟩, near⟩, ?_⟩
        · rw [init]
          refine children.imp_right fun none r c zombie => ?_
          obtain ⟨state, -, child⟩ := role_eq_zombie.mp ((congrFun roles r).symm.trans zombie)
          exact none r state child
  | _ => trivial

/- The scan of wait by process p comes by slot q. -/
def Scans (k : Kernel) (p q : ProcId) : Prop :=
  q.cont = k.contOf p ∧ (q.slot : Int) < (k.cont (k.contOf p)).mproc

/- Every zombie has a live parent whose wait comes by it, and a container that is not in
use has no slot in use. -/
structure Recycled (k : Kernel) : Prop where
  zombies : ∀ q, (k.procAt q).state = .zombie → ∃ p, (k.procAt q).parent = some p ∧
    (k.procAt p).state ∈ [ProcState.embryo, .sleeping, .runnable, .running] ∧ Scans k p q
  clean : ∀ c, (k.cont c).state = .cunused → ∀ j, (k.proc c j).state = .unused

/-- In every run in which each process that exits has its parent in its own container,
and leaves exited children only to an init in that container, every exited process can
be reaped and containers are recycled clean. -/
theorem zombies_reapable (booted : Booted s) (reapable : Along turn ReapableExit s ls)
    (reached : Lib.exec turn s ls = some t) : Recycled t.kernel := by
  obtain ⟨sound, tidy⟩ := run_census Census.Tidy (fun _ _ _ _ _ allowed cause sound tidy move =>
    Census.move_tidy sound tidy move (cause_waited allowed cause move)) Census.boot_tidy booted reapable reached
  refine ⟨fun q zombie => ?_, fun c unused j => ?_⟩
  · have now : (census t.kernel).role q = .zombie _ _ := role_eq_zombie.mpr ⟨zombie, rfl, rfl⟩
    obtain ⟨home, below, -, p, r, parent, live⟩ := tidy.zombies q _ _ now
    obtain ⟨alive, cont, -⟩ := role_eq_live.mp live
    refine ⟨p, parent, ?_, ?_⟩
    · cases h : (t.kernel.procAt p).state <;> simp_all
    · refine ⟨?_, ?_⟩
      · exact home.symm.trans cont.symm
      · unfold Kernel.contOf
        rw [cont]
        exact below
  · exact role_eq_unused.mp (Census.unused_clean sound tidy unused j)

theorem zombies_reapable_start :
    ∃ t, Lib.exec turn bootSmp (startRun 1) = some t ∧ Recycled t.kernel := by
  have ran : (Lib.exec turn bootSmp (startRun 1)).isSome := by decide +kernel
  obtain ⟨t, reached⟩ := Option.isSome_iff_exists.mp ran
  refine ⟨t, reached, zombies_reapable (booted_of rfl rfl rfl) (along_of_forall ?_ _) reached⟩
  intro l inside s
  simp only [startRun, List.mem_cons, List.not_mem_nil, or_false] at inside
  rcases inside with rfl | rfl | rfl | rfl <;> trivial

/- The only process of a container, as cfork leaves it: its parent is init. -/
def forkedKernel : Kernel :=
  { bootKernel with
    cont := fun i => if i = 1 then { Cont.zero with
      cid := 2, state := .crunnable, mproc := 1, uproc := 1, rootdir := some 0, name := [120] }
      else bootKernel.cont i
    proc := fun i j => if i = 1 ∧ j = 0 then { Proc.zero with
      state := .running, pid := 2, parent := some ⟨0, 0⟩, kstack := 0x203, pgdir := 0x204, cwd := some 0
      cont := 1 } else bootKernel.proc i j }

def forkedSmp : Smp := ⟨forkedKernel, fun cpu => if cpu = 0 then some (1, ⟨1, 0⟩) else none⟩

theorem forked_recycled : Recycled forkedKernel := by
  refine ⟨fun q zombie => ?_, fun c unused j => ?_⟩
  · have none : (forkedKernel.procAt q).state ≠ .zombie := by
      unfold forkedKernel bootKernel Kernel.procAt
      dsimp only
      split
      · exact nofun
      · split <;> exact nofun
    exact absurd zombie none
  · unfold forkedKernel bootKernel at *
    dsimp only at *
    split at unused
    · cases unused
    split at unused
    · cases unused
    rw [if_neg (by omega), if_neg (by omega)]
    rfl

instance (k : Kernel) (p q : ProcId) : Decidable (Scans k p q) := inferInstanceAs (Decidable (_ ∧ _))

/- When it exits, nobody's wait comes by it, and its container is given up with the slot
still in use. -/
theorem exited_never_reaped :
    Recycled forkedKernel ∧ ∃ t, turn forkedSmp (.call 0 .exit) = some t ∧
      (t.kernel.procAt ⟨1, 0⟩).state = .zombie ∧ (t.kernel.procAt ⟨1, 0⟩).parent = some ⟨0, 0⟩ ∧
      ¬ Scans t.kernel ⟨0, 0⟩ ⟨1, 0⟩ ∧ (t.kernel.cont 1).state = .cunused ∧ ¬ Recycled t.kernel := by
  obtain ⟨t, taken, zombie, parent, unseen, unused⟩ : ∃ t, turn forkedSmp (.call 0 .exit) = some t ∧
      (t.kernel.procAt ⟨1, 0⟩).state = .zombie ∧ (t.kernel.procAt ⟨1, 0⟩).parent = some ⟨0, 0⟩ ∧
      ¬ Scans t.kernel ⟨0, 0⟩ ⟨1, 0⟩ ∧ (t.kernel.cont 1).state = .cunused := by decide +kernel
  refine ⟨forked_recycled, t, taken, zombie, parent, unseen, unused, fun recycled => ?_⟩
  have clean := recycled.clean 1 unused 0
  cases zombie.symm.trans clean

end Reaping

end Xv6c

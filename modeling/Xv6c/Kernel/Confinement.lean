import Xv6c.Kernel.Effects

/-! What the processes of one container can do to another. -/
namespace Xv6c
open Lib
open Function (update_of_ne)

/- A slot as it was, but for a wakeup. -/
def Kept (q r : Proc) : Prop := r = q ∨ (q.state = .sleeping ∧ r = { q with state := .runnable })

theorem Kept.trans {q r s : Proc} (first : Kept q r) (second : Kept r s) : Kept q s := by
  rcases first with rfl | ⟨asleep, rfl⟩
  · exact second
  · rcases second with rfl | ⟨never, _⟩
    · exact Or.inr ⟨asleep, rfl⟩
    · cases never

/- Container d has its record, and each of its slots is kept. -/
def Untouched (k k' : Kernel) (d : Nat) : Prop :=
  k'.cont d = k.cont d ∧ ∀ j, Kept (k.proc d j) (k'.proc d j)

theorem Untouched.refl (k : Kernel) (d : Nat) : Untouched k k d := ⟨rfl, fun _ => Or.inl rfl⟩

section Frame
variable {p : ProcId} {sc : Scope} {k k' : Kernel} {d : Nat}

theorem Effect.cont (h : Effect p sc k k') (other : d ≠ k.contOf p) (count : ¬ sc.counts d)
    (record : ¬ sc.records d) : k'.cont d = k.cont d := by
  cases h with
  | fs s _ => exact update_of_ne other _ _
  | mem s _ => exact update_of_ne other _ _
  | count i n counted =>
    exact update_of_ne (fun same => count (by rwa [same])) _ _
  | record i c recorded =>
    exact update_of_ne (fun same => record (by rwa [same])) _ _
  | _ => rfl

theorem Effects.cont (h : Effects p sc k k') (other : d ≠ k.contOf p) (count : ¬ sc.counts d)
    (record : ¬ sc.records d) : k'.cont d = k.cont d := by
  induction h with
  | refl => rfl
  | tail before last ih =>
    exact (last.cont (Effects.contOf before ▸ other) count record).trans ih

theorem Effect.proc_kept (h : Effect p sc k k') (away : d ≠ p.cont) (row : ¬ sc.rows d) (j : Nat) :
    Kept (k.proc d j) (k'.proc d j) := by
  cases h with
  | tend r tends => exact Or.inl (congrFun (update_of_ne away _ _) j)
  | wake chan =>
    simp only [woken]
    split
    · rename_i asleep
      exact Or.inr ⟨asleep.2.2.1, rfl⟩
    · exact Or.inl rfl
  | proc q r inside own =>
    refine Or.inl ?_
    simp only [Kernel.setProc]
    rw [update_of_ne]
    intro same
    exact row (by rwa [same])
  | _ => exact Or.inl rfl

theorem Effects.proc_kept (h : Effects p sc k k') (away : d ≠ p.cont) (row : ¬ sc.rows d) (j : Nat) :
    Kept (k.proc d j) (k'.proc d j) := by
  induction h with
  | refl => exact Or.inl rfl
  | tail _ last ih => exact ih.trans (last.proc_kept away row j)

theorem Effects.untouched (h : Effects p sc k k') (home : k.contOf p = p.cont) (away : d ≠ p.cont)
    (row : ¬ sc.rows d) (count : ¬ sc.counts d) (record : ¬ sc.records d) : Untouched k k' d :=
  ⟨h.cont (home ▸ away) count record, fun j => h.proc_kept away row j⟩

theorem Effects.own {files : Nat → Prop} (h : Effects p (Scope.own p.cont files) k k')
    (home : k.contOf p = p.cont) (other : d ≠ p.cont) : Untouched k k' d :=
  h.untouched home other other other id

end Frame

/- kalloc has a page for the container. -/
def Affords (s : Mem.MemState) : Prop :=
  (s.upg * PGSIZE + PGSIZE) % 2 ^ 32 ≤ s.msz ∧ s.freelist ≠ 0

theorem kalloc_affords (M : Mode Freed Fault) (s : Mem.MemState) :
    wp M Mem.kalloc (fun r _ => r ≠ 0 ↔ Affords s) s := by
  unfold Mem.kalloc Affords
  refine wp_get_bind (wp_ite (fun limit => ?_) fun limit => wp_ite (fun empty => ?_) fun some => ?_)
  · exact wp_modify_bind (wp_pure (iff_of_false (fun never => never rfl)
      fun affords => absurd affords.1 (Nat.not_le.mpr limit)))
  · exact wp_pure (iff_of_false (fun never => never rfl) fun affords => affords.2 empty)
  · exact wp_modify_bind (wp_pure (iff_of_true some ⟨Nat.not_lt.mp limit, some⟩))

section Cfork
variable {k : Kernel} {p : ProcId} {d j : Nat} (home : k.contOf p = p.cont) (other : d ≠ p.cont)
  (runs : (k.cont d).state = .crunnable ∨ (k.cont d).state = .crunning)
  (found : findProc k d (fun q => q.state = .unused) = some j)
include home other runs found

/- allocproc of a slot in another container, up to its kalloc. -/
theorem allocproc_slot {Q : Option ProcId → Kernel → Prop}
    (rest : ∀ kstack k₁, k₁.proc = (k.setProc ⟨d, j⟩ { k.proc d j with
        state := .embryo, pid := k.nextpid }).proc →
      (∀ e, e ≠ p.cont → k₁.cont e = k.cont e) → k₁.contOf p = p.cont →
      (kstack ≠ 0 ↔ Affords (k.memView p)) →
      wp anyMode (modifyProc ⟨d, j⟩ (fun q => { q with kstack := kstack }) >>= fun _ =>
        if kstack = 0 then modifyProc ⟨d, j⟩ (fun q => { q with state := .unused }) >>= fun _ => pure none
        else modifyProc ⟨d, j⟩ (fun q => { q with ticks := 0, cont := d }) >>= fun _ =>
          modifyCont d (fun c => { c with uproc := c.uproc + 1 }) >>= fun _ => pure (some ⟨d, j⟩)) Q k₁) :
    wp anyMode (allocproc p d) Q k := by
  have apart : p ≠ ⟨d, j⟩ := fun same => other (by rw [same])
  unfold allocproc
  refine wp_get_bind ?_
  rw [if_neg (by rcases runs with h | h <;> simp [h]), found]
  refine wp_modify_bind (wp_modify_bind (wp_bind (wp_zoom (wp_mono (kalloc_affords _ _) ?_))))
  intro kstack s affords
  have here : Kernel.contOf { k.setProc ⟨d, j⟩ { k.proc d j with
      state := .embryo, pid := k.nextpid } with nextpid := incr k.nextpid } p = p.cont := by
    refine Eq.trans ?_ home
    exact congrArg Proc.cont ((procAt_setProc k ⟨d, j⟩ p _).trans (if_neg apart))
  refine rest kstack _ rfl (fun e away => ?_) here ?_
  · exact update_of_ne (fun same => away (same.trans here)) _ _
  · refine affords.trans (iff_of_eq (congrArg Affords ?_))
    unfold Kernel.memView
    rw [home]
    erw [here]
    rfl

theorem allocproc_afforded (affords : Affords (k.memView p)) :
    wp anyMode (allocproc p d) (fun r k' => r = some ⟨d, j⟩ ∧ k'.contOf p = p.cont ∧
      (k'.cont d).uproc = (k.cont d).uproc + 1) k := by
  refine allocproc_slot home other runs found fun kstack k₁ _ cont here result => ?_
  have apart : p ≠ ⟨d, j⟩ := fun same => other (by rw [same])
  have slot (k : Kernel) (q : Proc) (h : k.contOf p = p.cont) : (k.setProc ⟨d, j⟩ q).contOf p = p.cont := by
    refine Eq.trans ?_ h
    exact congrArg Proc.cont ((procAt_setProc k ⟨d, j⟩ p q).trans (if_neg apart))
  refine wp_modify_bind ?_
  rw [if_neg (result.mpr affords)]
  refine wp_modify_bind (wp_modify_bind (wp_pure ⟨rfl, slot _ _ (slot _ _ here), ?_⟩))
  simp [Kernel.setProc, cont d other]

theorem allocproc_refused (refused : ¬ Affords (k.memView p)) :
    wp anyMode (allocproc p d) (fun r k' => r = none ∧ (∀ e, e ≠ p.cont → k'.cont e = k.cont e) ∧
      k'.proc = (k.setProc ⟨d, j⟩ { k.proc d j with
        state := .unused, pid := k.nextpid, kstack := 0 }).proc) k := by
  refine allocproc_slot home other runs found fun kstack k₁ proc cont here result => ?_
  have null : kstack = 0 := by
    by_contra nonzero
    exact refused (result.mp nonzero)
  subst null
  refine wp_modify_bind ?_
  rw [if_pos rfl]
  refine wp_modify_bind (wp_pure ⟨rfl, cont, ?_⟩)
  simp [Kernel.setProc, Kernel.procAt, proc]

end Cfork

variable {k : Kernel} {p : ProcId} {d : Nat}

theorem allocproc_idle (idle : findProc k d (fun q => q.state = .unused) = none ∨
      ¬ ((k.cont d).state = .crunnable ∨ (k.cont d).state = .crunning)) :
    wp anyMode (allocproc p d) (fun r k' => r = none ∧ k' = k) k := by
  unfold allocproc
  refine wp_get_bind (wp_ite (fun _ => wp_pure ⟨rfl, rfl⟩) fun runs => ?_)
  rw [idle.resolve_right (by simpa [← not_or] using runs)]
  exact wp_pure ⟨rfl, rfl⟩

/- cfork puts a process into container d, or marks the slot that it found there. -/
def Enters (k : Kernel) (p : ProcId) (cid : Int) (d : Nat) : Prop :=
  cid2cont k cid = some d ∧ ((k.cont d).state = .crunnable ∨ (k.cont d).state = .crunning) ∧
    ∃ j, findProc k d (fun q => q.state = .unused) = some j ∧
      (Affords (k.memView p) ∨ (k.proc d j).pid ≠ k.nextpid ∨ (k.proc d j).kstack ≠ 0)

theorem findProc_unused {j : Nat} (found : findProc k d (fun q => q.state = .unused) = some j) :
    (k.proc d j).state = .unused := by
  simpa using List.find?_some found

section Cfork
variable {k : Kernel} {p : ProcId} (home : k.contOf p = p.cont)
include home

theorem cfork_enters {cid : Int} {d : Nat} (other : d ≠ p.cont) (enters : Enters k p cid d) :
    wp anyMode (cfork p cid) (fun _ k' => ¬ Untouched k k' d) k := by
  obtain ⟨named, runs, j, found, leaves⟩ := enters
  unfold cfork
  refine wp_get_bind ?_
  rw [named]
  refine wp_get_bind ?_
  by_cases affords : Affords (k.memView p)
  · refine wp_seq (allocproc_afforded home other runs found affords) ?_
    rintro r k₁ ⟨rfl, here, counted⟩
    have acts (cur : Proc) (cwd : Option Nat) (parent : ProcId) :
        Acts p p.cont (Scope.slots d) (forkChild p ⟨d, j⟩ cur cwd parent) := acts_forkChild rfl _ _ _
    refine wp_mono (acts _ _ _ k₁ here) fun _ k' effects same => ?_
    have later := effects.cont (here ▸ other) id id
    have : (k.cont d).uproc = (k.cont d).uproc + 1 := by rw [← counted, ← later, same.1]
    omega
  · refine wp_seq (allocproc_refused home other runs found affords) ?_
    rintro r k₁ ⟨rfl, -, proc⟩
    refine wp_pure fun same => ?_
    have slot := same.2 j
    rw [proc, Kernel.setProc] at slot
    simp only [Function.update_self] at slot
    rcases slot with equal | ⟨asleep, -⟩
    · have marked := leaves.resolve_left affords
      exact marked.elim (fun pid => pid (congrArg Proc.pid equal).symm)
        fun kstack => kstack (congrArg Proc.kstack equal).symm
    · rw [findProc_unused found] at asleep
      cases asleep

theorem cfork_keeps {cid : Int} (none : ∀ d, d ≠ p.cont → ¬ Enters k p cid d) :
    wp anyMode (cfork p cid) (fun _ k' => ∀ e, e ≠ p.cont → Untouched k k' e) k := by
  unfold cfork
  refine wp_get_bind ?_
  split
  · exact wp_pure fun e _ => Untouched.refl k e
  · rename_i d named
    by_cases own : d = p.cont
    · have acts : Acts p p.cont (Scope.own p.cont fun _ => True) (fork p (some d)) :=
        acts_fork rfl own own _ rfl
      exact wp_mono (acts k home) fun _ k' effects e other => effects.own home other
    · refine wp_get_bind ?_
      by_cases idle : findProc k d (fun q => q.state = .unused) = Option.none ∨
          ¬ ((k.cont d).state = .crunnable ∨ (k.cont d).state = .crunning)
      · refine wp_seq (allocproc_idle idle) ?_
        rintro r k₁ ⟨rfl, rfl⟩
        exact wp_pure fun e _ => Untouched.refl k₁ e
      · obtain ⟨slot, runs⟩ := not_or.mp idle
        obtain ⟨j, found⟩ := Option.ne_none_iff_exists'.mp slot
        have running := not_not.mp runs
        have clean : ¬ (Affords (k.memView p) ∨ (k.proc d j).pid ≠ k.nextpid ∨
            (k.proc d j).kstack ≠ 0) := fun leaves => none d own ⟨named, running, j, found, leaves⟩
        obtain ⟨refused, pid, kstack⟩ := by simpa only [not_or, not_not] using clean
        have same : { k.proc d j with state := .unused, pid := k.nextpid, kstack := 0 } = k.proc d j := by
          rw [← pid, ← kstack, ← findProc_unused found]
        refine wp_seq (allocproc_refused home own running found refused) ?_
        rintro r k₁ ⟨rfl, cont, proc⟩
        refine wp_pure fun e other => ⟨cont e other, fun i => Or.inl ?_⟩
        rw [proc, same]
        simp [Kernel.setProc]

end Cfork

/- What cstart charges for the root directory of container d. -/
def contSize (k : Kernel) (p : ProcId) (name : Fs.CStr) (d : Nat) : Fs.FsM Nat := do
  let rootdir ← Fs.deref (k.cont d).rootdir
  Fs.dirsize (k.walker p) rootdir name

/- cstart starts container d, whose directory fits its limit. -/
def Starts (k : Kernel) (p : ProcId) (name : Fs.CStr) (d : Nat) : Prop :=
  findCont (fun i => nameMatches name (k.cont i) ∧ (k.cont i).state = .cready) = some d ∧
    ∃ size s, (contSize k p name d (k.fsView p)).2 = .ok (size, s) ∧ 1 ≤ size ∧ size ≤ (k.cont d).mdsk

section Cstart
variable {k : Kernel} {p : ProcId} (home : k.contOf p = p.cont) {name : Fs.CStr}
include home

variable {d : Nat}

/- cstart once the container is found: it starts, or it is left alone. -/
theorem cstart_result
    (named : findCont (fun i => nameMatches name (k.cont i) ∧ (k.cont i).state = .cready) = some d) :
    wp anyMode (cstart p name) (fun _ k' => (∀ e, e ≠ p.cont → e ≠ d → Untouched k k' e) ∧
      ∃ size s, (contSize k p name d (k.fsView p)).2 = .ok (size, s) ∧
        if 1 ≤ size ∧ size ≤ (k.cont d).mdsk then (k'.cont d).state = .crunnable
        else d ≠ p.cont → Untouched k k' d) k := by
  unfold cstart
  refine wp_get_bind ?_
  rw [named]
  refine wp_bind (wp_zoom (wp_mono (wp_self (contSize k p name d) _ (fun _ => trivial)
    fun _ => trivial) fun size s measured => ?_))
  have still (e : Nat) (away : e ≠ p.cont) : Untouched k (k.fsPut p s) e :=
    ⟨update_of_ne (home ▸ away) _ _, fun j => Or.inl rfl⟩
  refine wp_ite (fun refused => ?_) fun fits => ?_
  · refine wp_pure ⟨fun e away _ => still e away, size, s, measured, ?_⟩
    rw [if_neg (by omega)]
    exact still d
  · refine wp_modify_bind (wp_get_bind (wp_pure ⟨fun e away apart => ?_, size, s, measured, ?_⟩))
    · exact ⟨(update_of_ne apart _ _).trans (still e away).1, fun j => Or.inl rfl⟩
    · rw [if_pos (by omega)]
      simp

omit home in
theorem findCont_ready
    (named : findCont (fun i => nameMatches name (k.cont i) ∧ (k.cont i).state = .cready) = some d) :
    (k.cont d).state = .cready := by
  have found := (findCont_some named).2
  simp only [Bool.decide_and, Bool.and_eq_true, decide_eq_true_eq] at found
  exact found.2

theorem cstart_starts (starts : Starts k p name d) :
    wp anyMode (cstart p name) (fun _ k' => ¬ Untouched k k' d) k := by
  obtain ⟨named, size, s, measured, positive, fits⟩ := starts
  refine wp_mono (cstart_result home named) ?_
  rintro _ k' ⟨-, size', s', measured', result⟩ same
  obtain ⟨rfl, rfl⟩ : size' = size ∧ s' = s := by simpa [measured] using measured'.symm
  rw [if_pos ⟨positive, fits⟩, same.1, findCont_ready named] at result
  cases result

theorem cstart_keeps (none : ∀ d, d ≠ p.cont → ¬ Starts k p name d) :
    wp anyMode (cstart p name) (fun _ k' => ∀ e, e ≠ p.cont → Untouched k k' e) k := by
  cases named : findCont (fun i => nameMatches name (k.cont i) ∧ (k.cont i).state = .cready) with
  | none =>
    unfold cstart
    refine wp_get_bind ?_
    rw [named]
    exact wp_pure fun e _ => Untouched.refl k e
  | some d =>
    refine wp_mono (cstart_result home named) ?_
    rintro _ k' ⟨others, size, s, measured, result⟩ e away
    by_cases target : e = d
    · subst target
      rw [if_neg fun fits => none e away ⟨named, size, s, measured, fits⟩] at result
      exact result away
    · exact others e away target

end Cstart

/- ccreate makes one of the unused records its own. -/
def Scope.fresh (k : Kernel) : Scope :=
  ⟨fun _ => False, fun _ => False, fun i => (k.cont i).state = .cunused, fun _ => False⟩

theorem alloccont_spec (p : ProcId) (k : Kernel) :
    wp anyMode alloccont (fun r k' => Effects p (Scope.fresh k) k k' ∧
      ∀ nc, r = some nc → (k.cont nc).state = .cunused) k := by
  unfold alloccont
  refine wp_get_bind ?_
  split
  · rename_i i found
    have unused : (k.cont i).state = .cunused := by simpa using List.find?_some found
    refine wp_modify_bind (wp_modify_bind (wp_pure ⟨?_, fun nc same => Option.some.inj same ▸ unused⟩))
    exact .tail (.single (.record k i _ unused)) (.nextcid _ _ i unused)
  · exact wp_pure ⟨.refl, by simp⟩

theorem ccreate_spec (name : Fs.CStr) (mproc : Int) (msz mdsk : Nat) :
    wp anyMode (ccreate p name mproc msz mdsk) (fun _ k' => Effects p (Scope.fresh k) k k') k := by
  unfold ccreate
  refine wp_get_bind (wp_ite (fun _ => wp_pure .refl) fun _ => wp_ite (fun _ => wp_pure .refl) fun _ => ?_)
  refine wp_seq (alloccont_spec p k) ?_
  rintro r k₁ ⟨before, unused⟩
  have chain {x : KM Int} (acts : Acts p (k₁.contOf p) (Scope.fresh k) x) :
      wp anyMode x (fun _ k' => Effects p (Scope.fresh k) k k') k₁ :=
    wp_mono (acts k₁ rfl) fun _ _ after => before.trans after
  refine chain ?_
  cases r with
  | none => exact acts_pure _
  | some nc =>
    have record {f : Cont → Cont} : Acts p (k₁.contOf p) (Scope.fresh k) (modifyCont nc f) :=
      acts_modify fun _ _ => .record _ _ _ (unused nc rfl)
    refine acts_get fun _ _ => acts_bind (acts_onFs _) fun found => ?_
    cases found with
    | none => exact acts_bind record fun _ => acts_pure _
    | some ip => exact acts_bind (acts_onFs _) fun _ => acts_bind record fun _ => acts_pure _

/- The processes of a container that is not the root stop, pause and resume nothing. -/
theorem changeState_spec (inside : (k.cont (k.contOf p)).cid ≠ ROOTCONT) (name : Fs.CStr)
    (source : List ContState) (target : ContState) :
    wp anyMode (changeState p name source target) (fun _ k' => k' = k) k := by
  unfold changeState
  refine wp_get_bind ?_
  rw [if_pos inside]
  exact wp_pure rfl

/- The call acts on container d. -/
def ActsOn (k : Kernel) (p : ProcId) (d : Nat) : Syscall → Prop
  | .cfork cid => Enters k p cid d
  | .cstart name => Starts k p name d
  | _ => False

variable {c : Syscall}

theorem syscall_keeps (home : k.contOf p = p.cont) (inside : (k.cont p.cont).cid ≠ ROOTCONT)
    (none : ∀ d, d ≠ p.cont → ¬ ActsOn k p d c) : wp anyMode (syscall p c)
      (fun _ k' => ∀ e, e ≠ p.cont → (k.cont e).state ≠ .cunused → Untouched k k' e) k := by
  have stays {x : KM Int} (h : wp anyMode x (fun _ k' => k' = k) k) : wp anyMode (returns x)
      (fun _ k' => ∀ e, e ≠ p.cont → (k.cont e).state ≠ .cunused → Untouched k k' e) k :=
    wp_seq h fun _ _ same => wp_pure fun e _ _ => same ▸ Untouched.refl k e
  by_cases plain : ContainerCall c
  · rw [← home] at inside
    cases c with
    | ccreate name mproc msz mdsk =>
      refine wp_seq (ccreate_spec name mproc msz mdsk) fun _ k' effects => wp_pure fun e away live => ?_
      exact effects.untouched home away id id live
    | cstart name => exact wp_seq (cstart_keeps home none) fun _ _ h => wp_pure fun e away _ => h e away
    | cfork cid => exact wp_seq (cfork_keeps home none) fun _ _ h => wp_pure fun e away _ => h e away
    | cstop name => exact stays (changeState_spec inside _ _ _)
    | cpause name => exact stays (changeState_spec inside _ _ _)
    | cresume name => exact stays (changeState_spec inside _ _ _)
    | _ => exact plain.elim
  · have acts : Acts p p.cont (Scope.own p.cont fun _ => True) (syscall p c) :=
      acts_syscall rfl rfl rfl (fun _ => trivial) c plain
    exact wp_mono (acts k home) fun _ k' effects e away _ => effects.own home away

theorem syscall_acts (home : k.contOf p = p.cont) (other : d ≠ p.cont) (acts : ActsOn k p d c) :
    wp anyMode (syscall p c) (fun _ k' => ¬ Untouched k k' d) k := by
  cases c with
  | cfork cid => exact wp_seq (cfork_enters home other acts) fun _ _ h => wp_pure h
  | cstart name => exact wp_seq (cstart_starts home acts) fun _ _ h => wp_pure h
  | _ => exact acts.elim

/- A container that the call acts on is in the table and in use. -/
theorem ActsOn.live (acts : ActsOn k p d c) : d < NCONT ∧ (k.cont d).state ≠ .cunused := by
  cases c with
  | cfork cid =>
    obtain ⟨named, runs, _⟩ := acts
    refine ⟨(findCont_some named).1, ?_⟩
    rcases runs with h | h <;> simp [h]
  | cstart name =>
    obtain ⟨named, _⟩ := acts
    exact ⟨(findCont_some named).1, by simp [findCont_ready named]⟩
  | _ => exact acts.elim

/-- A system call of a process outside the root container leaves every other live
container alone, unless it is a cfork into it or a cstart of it that succeeds. -/
theorem containers_confined {k k' : Kernel} {p : ProcId} {c : Syscall}
    (home : k.contOf p = p.cont) (inside : (k.cont p.cont).cid ≠ ROOTCONT)
    (done : step k (.call p c) = some k') :
    (∀ d, d < NCONT → d ≠ p.cont → (k.cont d).state ≠ .cunused → Untouched k k' d) ↔
      ∀ d, d ≠ p.cont → ¬ ActsOn k p d c := by
  constructor
  · intro kept d other acts
    obtain ⟨index, live⟩ := acts.live
    exact call_spec (syscall_acts home other acts) done (kept d index other live)
  · intro none d index other live
    exact call_spec (syscall_keeps home inside none) done d other live

/- The root container with its init process and a free slot, and container 2 with one
process and room for one page. -/
def guest : Kernel :=
  { Kernel.zero with
    kmem := { Kernel.zero.kmem with freelist := 100 }
    cont := fun i =>
      if i = 0 then { Cont.zero with cid := ROOTCONT, state := .crunnable, mproc := 2, uproc := 1 }
      else if i = 1 then { Cont.zero with
        cid := 2, state := .crunnable, mproc := 1, uproc := 1, msz := PGSIZE }
      else Cont.zero
    proc := fun i j =>
      if i = 0 ∧ j = 0 then { Proc.zero with state := .sleeping, pid := 1 }
      else if i = 1 ∧ j = 0 then { Proc.zero with state := .running, pid := 2, cont := 1 }
      else Proc.zero
    nextpid := 3 }

theorem containers_confined_guest :
    (∀ d, d < NCONT → d ≠ 1 → (guest.cont d).state ≠ .cunused → Untouched guest guest d) ↔
      ∀ d, d ≠ 1 → ¬ ActsOn guest ⟨1, 0⟩ d .cinfo :=
  containers_confined (p := ⟨1, 0⟩) rfl (by decide) rfl

/- cfork into the root container takes a slot and counts a process there; when no page
is left for the copy, the count stays. -/
theorem cfork_reaches_root :
    guest.contOf ⟨1, 0⟩ = 1 ∧ (guest.cont 1).cid ≠ ROOTCONT ∧ (guest.cont 0).state ≠ .cunused ∧
      ∃ k', step guest (.call ⟨1, 0⟩ (.cfork ROOTCONT)) = some k' ∧ ¬ Untouched guest k' 0 := by
  have ran : (step guest (.call ⟨1, 0⟩ (.cfork ROOTCONT))).map (fun k' => (k'.cont 0).uproc) = some 2 := by
    decide +kernel
  obtain ⟨k', done, count⟩ := Option.map_eq_some_iff.mp ran
  refine ⟨rfl, by decide, by decide, k', done, fun same => ?_⟩
  rw [same.1] at count
  exact absurd count (by decide)

end Xv6c

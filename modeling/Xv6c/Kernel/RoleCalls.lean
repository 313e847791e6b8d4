import Xv6c.Kernel.Roles

/-! The other calls that change the census, and every step of the machine as a path of
moves. -/
namespace Xv6c
open Lib

section Exit
variable {p : ProcId} {o : Nat} {k : Kernel}

theorem census_wakeup1 (chan : Chan) :
    wp anyMode (wakeup1 chan) (fun _ k' => census k' = census k) k := by
  refine wp_modify ?_
  unfold census
  congr 1
  funext q
  exact role_woken k chan q.cont q.slot

/- The roles when the children of p in n slots of container c from j on have been passed on. -/
def passedOn (a : Census.State) (p : ProcId) (c j n : Nat) : Census.State :=
  { a with role := fun q =>
      if q.cont = c ∧ j ≤ q.slot ∧ q.slot < j + n then Census.adopt p a.init (a.role q) else a.role q }

theorem role_adopted {q : Proc} {init : ProcId} (child : q.parent = some p) :
    role { q with parent := some init } = Census.adopt p init (role q) := by
  unfold role
  cases q.state <;> simp [Census.adopt, child]

theorem role_not_adopted {q : Proc} {init : ProcId} (other : q.parent ≠ some p) :
    Census.adopt p init (role q) = role q := by
  unfold role
  cases q.state <;> cases h : q.parent <;> simp_all [Census.adopt]

/- One more slot. -/
theorem passedOn_succ (a : Census.State) (p : ProcId) (c j n : Nat) :
    passedOn (a.setRole ⟨c, j⟩ (Census.adopt p a.init (a.role ⟨c, j⟩))) p c (j + 1) n =
      passedOn a p c j (n + 1) := by
  unfold passedOn
  rw [Census.setRole_init]
  unfold Census.State.setRole
  congr 1
  funext q
  dsimp only
  rw [Function.update_apply]
  by_cases here : q = ⟨c, j⟩
  · subst here
    rw [if_pos rfl, if_neg (by dsimp only; omega), if_pos (by dsimp only; omega)]
  · rw [if_neg here]
    have apart : q.cont = c → q.slot ≠ j := by
      rintro rfl rfl
      exact here rfl
    by_cases inside : q.cont = c ∧ j + 1 ≤ q.slot ∧ q.slot < j + 1 + n
    · rw [if_pos inside, if_pos (by omega)]
    · rw [if_neg inside, if_neg]
      rintro ⟨row, low, high⟩
      have := apart row
      omega

theorem reparent_census (c n j : Nat) :
    wp anyMode (reparent p c n j) (fun _ k' => census k' = passedOn (census k) p c j n) k := by
  induction n generalizing j k with
  | zero =>
    refine wp_pure ?_
    unfold passedOn
    have none (q : ProcId) : ¬ (q.cont = c ∧ j ≤ q.slot ∧ q.slot < j + 0) := by omega
    simp only [none, if_false]
  | succ n ih =>
    have rest {k' : Kernel} (same : census k' =
        (census k).setRole ⟨c, j⟩ (Census.adopt p k.initproc (role (k.proc c j)))) :
        wp anyMode (reparent p c n (j + 1))
          (fun _ t => census t = passedOn (census k) p c j (n + 1)) k' := by
      refine wp_mono (ih (j + 1)) fun _ t done => ?_
      rw [done, same]
      exact passedOn_succ (census k) p c j n
    unfold reparent
    refine wp_get_bind (wp_ite (fun child => ?_) fun other => wp_bind (wp_pure (rest ?_)))
    · have moved : wp anyMode (modifyProc ⟨c, j⟩ fun q => { q with parent := some k.initproc })
          (fun _ k' => census k' =
            (census k).setRole ⟨c, j⟩ (Census.adopt p k.initproc (role (k.proc c j)))) k := by
        refine wp_modify ?_
        rw [census_setProc]
        exact congrArg _ (role_adopted child)
      refine wp_seq moved fun _ k₁ first => wp_ite (fun _ => ?_) fun _ => wp_bind (wp_pure (rest first))
      exact wp_seq (census_wakeup1 _) fun _ k₂ second => rest (second.trans first)
    · exact (setRole_self _ _ _ (role_not_adopted other).symm).symm

/- What exit leaves behind. -/
def exited (a : Census.State) (p : ProcId) (c : Nat) : Census.State :=
  ({ a with role := Census.orphan a p c }.setRole p (Census.bury (Census.orphan a p c p))).setCont c
    fun x => { x with uproc := x.uproc - 1 }

theorem passedOn_orphan (a : Census.State) (p : ProcId) (c : Nat) :
    passedOn a p c 0 (a.cont c).mproc.toNat = { a with role := Census.orphan a p c } := by
  unfold passedOn Census.orphan
  congr 1
  funext q
  congr 1
  refine propext ⟨?_, ?_⟩
  · rintro ⟨row, -, inside⟩
    exact ⟨row, by omega⟩
  · rintro ⟨row, inside⟩
    exact ⟨row, Nat.zero_le _, by omega⟩

theorem exit_census (own : Own p o (census k)) :
    wp anyMode (exit p) (fun _ k' => p ≠ k.initproc ∧
      ∃ b, Hit o (census k) b ∧ census k' = exited b p o) k := by
  unfold exit
  refine wp_get_bind (wp_ite (fun _ => wp_fault trivial) fun other => ?_)
  have start : Hit o (census k) (census k) := Or.inl rfl
  refine wp_seq (acts_hit (acts_closeFiles (fun _ => trivial) _ _) own start) fun _ k₁ first => ?_
  refine wp_seq (acts_hit (acts_onFs _) own first) fun _ k₂ second => ?_
  refine wp_seq (acts_hit (acts_onFs _) own second) fun _ k₃ third => ?_
  refine wp_seq (acts_hit (acts_onFs _) own third) fun _ k₄ fourth => ?_
  refine wp_seq (acts_hit (acts_tend fun _ => ⟨rfl, rfl, rfl, Or.inl rfl⟩) own fourth) fun _ k₅ fifth =>
    wp_get_bind ?_
  have own₅ := fifth.own own
  have rest {k₆ : Kernel} (same : census k₆ = census k₅) :
      wp anyMode (reparent p (k₅.contOf p) (k₅.cont (k₅.contOf p)).mproc.toNat 0 >>= fun _ =>
        modifyCont (k₅.contOf p) (fun c => { c with uproc := c.uproc - 1 }) >>= fun _ =>
        modifyProc p fun q => { q with state := .zombie })
        (fun _ k' => p ≠ k.initproc ∧ ∃ b, Hit o (census k) b ∧ census k' = exited b p o) k₆ := by
    rw [own₅.contOf]
    refine wp_seq (reparent_census o _ 0) fun _ k₇ passed => ?_
    refine wp_seq (modifyCont_census (fun x => { x with uproc := x.uproc - 1 }) rfl) fun _ k₈ left => ?_
    refine wp_modify ⟨other, census k₅, fifth, ?_⟩
    have roles : census k₇ = { census k₅ with role := Census.orphan (census k₅) p o } := by
      rw [passed, same]
      exact passedOn_orphan (census k₅) p o
    have dead : role { k₈.procAt p with state := .zombie } =
        Census.bury (Census.orphan (census k₅) p o p) := by
      have now : role (k₈.procAt p) = Census.orphan (census k₅) p o p := by
        have := congrArg (fun a => a.role p) left
        rw [roles] at this
        exact this
      obtain ⟨r, live⟩ := own₅
      have alive : (Census.orphan (census k₅) p o p).alive = true := by
        rw [Census.orphan_alive, live]
        rfl
      obtain ⟨c, r', role'⟩ := Census.alive_live alive
      rw [role'] at now ⊢
      obtain ⟨-, cont, parent⟩ := role_eq_live.mp now
      exact role_eq_zombie.mpr ⟨rfl, cont, parent⟩
    rw [census_setProc, left, roles, dead]
    rfl
  dsimp only
  split
  · exact wp_seq (census_wakeup1 _) fun _ _ same => rest same
  · exact rest rfl

end Exit

section Calls
variable {p : ProcId} {o : Nat} {k : Kernel}

theorem wait_census (own : Own p o (census k)) :
    wp anyMode (wait p) (fun _ k' => Hit o (census k) (census k') ∨
      ∃ q c r, (census k).role q = .zombie c r ∧ Hit o ((census k).setRole q .unused) (census k')) k := by
  unfold wait
  refine wp_get_bind ?_
  dsimp only
  split
  · rename_i j found
    have zombie := of_decide_eq_true (findProc_some found).2
    have role' : (census k).role ⟨k.contOf p, j⟩ =
        .zombie (k.proc (k.contOf p) j).cont (k.proc (k.contOf p) j).parent :=
      role_eq_zombie.mpr ⟨zombie.2, rfl, rfl⟩
    have apart : (⟨k.contOf p, j⟩ : ProcId) ≠ p := by
      intro same
      obtain ⟨r, live⟩ := own
      rw [same, live] at role'
      cases role'
    have start : Hit o ((census k).setRole ⟨k.contOf p, j⟩ _) (census k) :=
      Or.inl (setRole_self _ _ _ role').symm
    refine wp_seq (acts_hit (acts_onMem _) (own.setRole apart _) start) fun _ k₁ first => ?_
    refine wp_seq (modifyProc_hit first fun _ h => h) fun _ k₂ second => ?_
    refine wp_seq (acts_hit (acts_onMem _) (own.setRole apart _) second) fun _ k₃ third => ?_
    refine wp_seq (modifyProc_hit third fun _ _ => rfl) fun _ k₄ fourth => wp_pure (Or.inr ?_)
    exact ⟨_, _, _, role', fourth⟩
  · refine wp_ite (fun _ => wp_pure (Or.inl (Or.inl rfl))) fun _ => ?_
    exact wp_seq (acts_hit (acts_walks _) own (Or.inl rfl)) fun _ _ done => wp_pure (Or.inl done)

theorem role_roused (q : Proc) : role { q with
    killed := true, state := if q.state = .sleeping then .runnable else q.state } = role q := by
  unfold role
  cases q.state <;> rfl

theorem kill_census (pid : Int) : wp anyMode (kill p pid) (fun _ k' => census k' = census k) k := by
  unfold kill
  refine wp_get_bind ?_
  dsimp only
  split
  · refine wp_modify_bind (wp_pure ?_)
    rw [census_setProc]
    exact setRole_self _ _ _ (role_roused _).symm
  · exact wp_pure rfl

theorem changeState_census (name : Fs.CStr) (source : List ContState) (target : ContState) :
    wp anyMode (changeState p name source target) (fun _ k' => census k' = census k ∨
      ∃ c, ((census k).cont c).state ∈ source ∧
        census k' = (census k).setCont c fun x => { x with state := target }) k := by
  unfold changeState
  refine wp_get_bind (wp_ite (fun _ => wp_pure (Or.inl rfl)) fun _ => ?_)
  split
  · exact wp_pure (Or.inl rfl)
  · rename_i c _
    refine wp_ite (fun allowed => ?_) fun _ => wp_pure (Or.inl rfl)
    refine wp_seq (modifyCont_census (fun x => { x with state := target }) rfl) fun _ k' same => ?_
    exact wp_pure (Or.inr ⟨c, allowed, same⟩)

/- A container that is not in use becomes one, unless its directory is not found. -/
theorem alloccont_census : wp anyMode alloccont (fun r k' => match r with
    | none => census k' = census k
    | some c => (k.cont c).state = .cunused ∧
      census k' = (census k).setCont c fun x => { x with state := .cembryo }) k := by
  unfold alloccont
  refine wp_get_bind ?_
  split
  · rename_i c found
    refine wp_seq (modifyCont_census (fun x => { x with state := .cembryo }) rfl) fun _ k₁ same => ?_
    refine wp_modify_bind (wp_pure ⟨?_, same⟩)
    exact of_decide_eq_true (findCont_some found).2
  · exact wp_pure rfl

theorem ccreate_census (own : Own p o (census k)) (used : (k.cont o).state ≠ .cunused) (name : Fs.CStr)
    (mproc : Int) (msz mdsk : Nat) :
    wp anyMode (ccreate p name mproc msz mdsk) (fun _ k' => Hit o (census k) (census k') ∨
      ∃ c, ((census k).cont c).state = .cunused ∧ mproc ≤ NPROC ∧
        Hit o ((census k).setCont c fun x => { x with state := .cready, mproc := mproc }) (census k')) k := by
  have none : Hit o (census k) (census k) := Or.inl rfl
  unfold ccreate
  refine wp_get_bind (wp_ite (fun _ => wp_pure (Or.inl none)) fun _ => ?_)
  refine wp_ite (fun _ => wp_pure (Or.inl none)) fun limits => ?_
  refine wp_seq alloccont_census fun r k₁ first => ?_
  cases r with
  | none => exact wp_pure (Or.inl (Or.inl first))
  | some c =>
    obtain ⟨unused, first⟩ := first
    have other : c ≠ o := by
      rintro rfl
      exact used unused
    have start : Hit o ((census k).setCont c fun x => { x with state := .cembryo }) (census k₁) :=
      Or.inl first
    refine wp_get_bind (wp_seq (acts_hit (acts_onFs _) own.setCont start) fun ip k₂ second => ?_)
    cases ip with
    | none =>
      refine wp_seq (modifyCont_census (fun x => { x with state := .cunused }) rfl) fun _ k₃ third =>
        wp_pure (Or.inl ?_)
      have back := second.setOther other fun x => { x with state := .cunused }
      rw [setCont_setCont, setCont_self] at back
      · rwa [third]
      · exact congrArg (fun s => ({ charter (k.cont c) with state := s } : Census.Charter)) unused.symm
    | some ip =>
      refine wp_seq (acts_hit (acts_onFs _) own.setCont second) fun rootdir k₃ third => ?_
      refine wp_seq (modifyCont_census (fun x => { x with state := .cready, mproc := mproc }) rfl)
        fun _ k₄ fourth => wp_pure (Or.inr ⟨c, unused, ?_, ?_⟩)
      · push Not at limits
        exact limits.1
      · have made := third.setOther other fun x => { x with state := .cready, mproc := mproc }
        rw [setCont_setCont] at made
        rwa [fourth]

/- The container that cstart finds. -/
def starting (k : Kernel) (name : Fs.CStr) : Option Nat :=
  findCont fun i => nameMatches name (k.cont i) ∧ (k.cont i).state = .cready

theorem cstart_census (own : Own p o (census k)) (started : (k.cont o).state ≠ .cready)
    (name : Fs.CStr) :
    wp anyMode (cstart p name) (fun _ k' => Hit o (census k) (census k') ∨
      ∃ c, starting k name = some c ∧ ((census k).cont c).state = .cready ∧
        Hit o ((census k).setCont c fun x => { x with state := .crunnable }) (census k')) k := by
  have none : Hit o (census k) (census k) := Or.inl rfl
  unfold cstart
  refine wp_get_bind ?_
  split
  · exact wp_pure (Or.inl none)
  · rename_i c found
    have ready := (of_decide_eq_true (findCont_some found).2).2
    have other : c ≠ o := by
      rintro rfl
      exact started ready
    refine wp_seq (acts_hit (acts_onFs _) own none) fun udsk k₁ first => ?_
    refine wp_ite (fun _ => wp_pure (Or.inl first)) fun _ => ?_
    refine wp_seq (modifyCont_census (fun x => { x with state := .crunnable }) rfl) fun _ k₂ second =>
      wp_get_bind (wp_pure (Or.inr ⟨c, found, ready, ?_⟩))
    rw [second]
    exact first.setOther other _

end Calls

section Paths
variable {p : ProcId} {o : Nat} {k : Kernel}

/- The call is a fork or a cfork that fails in copyuvm. -/
def leaks (k : Kernel) (p : ProcId) : Syscall → Bool
  | .fork => copyFails p (k.contOf p) k
  | .cfork cid => match cid2cont k cid with
    | some c => copyFails p c k
    | none => false
  | _ => false

/- Moves that need no more than their own premises. -/
def Plain : Census.Act → Prop
  | .start _ | .leak _ | .exit _ => False
  | _ => True

/- The call that a move belongs to, and what is still as it was when the call was made. -/
def Source (k : Kernel) (p : ProcId) (call : Syscall) (a : Census.State) : Census.Act → Prop
  | .start c => ∃ name, call = .cstart name ∧ starting k name = some c ∧ a = census k
  | .leak _ => leaks k p call = true
  | .exit q => q = p ∧ call = .exit ∧ a.role = (census k).role ∧ a.init = k.initproc
  | _ => True

variable {ok : Census.State → Census.Act → Prop}

theorem hit_path {a b c : Census.State} (own : Own p o b) (killing : ∀ a c, ok a (.kill c))
    (path : Census.Path ok a b) (hit : Hit o b c) : Census.Path ok a c := by
  rcases hit with rfl | rfl
  · exact path
  · obtain ⟨r, live⟩ := own
    exact .tail path (killing _ _) (.kill live)

theorem fork_path (own : Own p o (census k)) (into : Option Nat) (inside : into.getD o < NCONT)
    (killing : ∀ a c, ok a (.kill c)) (spawning : ∀ a q r, ok a (.spawn q r))
    (leaking : copyFails p (into.getD o) k = true → ∀ a c, ok a (.leak c)) :
    wp anyMode (fork p into) (fun _ k' => Census.Path ok (census k) (census k')) k := by
  refine wp_mono (fork_census own into) ?_
  rintro - k' (hit | ⟨q, into', apart, vacant, outcome⟩)
  · exact hit_path own killing (.refl _) hit
  have stays (x : Census.Role) : Own p o (counted (census k) q x) := own.setRole apart x
  rcases outcome with ⟨fails, hit⟩ | hit
  · refine hit_path (stays _) killing ?_ hit
    have same : counted (census k) q .unused =
        (census k).setCont q.cont fun x => { x with uproc := x.uproc + 1 } := by
      rw [counted, setRole_self _ _ _ vacant.free]
    rw [same]
    exact .single (.leak vacant.opened) (leaking (into' ▸ fails) _ _)
  · refine hit_path (stays _) killing (.single ?_ (spawning _ q (if into.isSome then k.initproc else p))) hit
    refine .spawn (into'.trans_lt inside) vacant.opened vacant.free vacant.below ?_
    cases into with
    | none =>
      refine Or.inr ?_
      rw [into']
      exact own
    | some c => exact Or.inl rfl

theorem changeState_path (name : Fs.CStr) {source : List ContState} {target : ContState}
    (changing : ∀ a c t, ok a (.change c t)) (sources : ∀ x ∈ source, x = .crunnable ∨ x = .cpaused)
    (known : target ∈ [ContState.crunnable, .cpaused, .cstopping]) :
    wp anyMode (changeState p name source target)
      (fun _ k' => Census.Path ok (census k) (census k')) k := by
  refine wp_mono (changeState_census name source target) ?_
  rintro - k' (same | ⟨c, before, same⟩)
  · rw [same]
    exact .refl _
  · rw [same]
    exact .single (.change (sources _ before) known) (changing _ c _)

theorem syscall_path (sound : Census.Sound (census k)) (own : Own p p.cont (census k))
    (inside : p.cont < NCONT) (call : Syscall) :
    wp anyMode (syscall p call)
      (fun _ k' => Census.Path (Source k p call) (census k) (census k')) k := by
  have started : Census.Started ((census k).cont p.cont) := by
    obtain ⟨r, live⟩ := own
    exact sound.started p p.cont r live
  have plain {x : KM (Option Int)} (acts : Acts p p.cont Scope.quiet x) :
      wp anyMode x (fun _ k' => Census.Path (Source k p call) (census k) (census k')) k :=
    wp_mono (acts_hit acts own (Or.inl rfl)) fun _ _ hit => hit_path own (fun _ _ => trivial) (.refl _) hit
  cases call with
  | fork =>
    refine wp_seq (fork_path own none inside (fun _ _ => trivial) (fun _ _ _ => trivial)
      fun fails _ _ => ?_) fun _ _ done => wp_pure done
    change copyFails p (k.contOf p) k = true
    rw [own.contOf]
    exact fails
  | exit =>
    refine wp_seq (exit_census own) ?_
    rintro - k' ⟨other, b, hit, same⟩
    refine wp_pure ?_
    rw [same]
    obtain ⟨r, live⟩ := hit.own own
    refine .tail (hit_path own (fun _ _ => trivial) (.refl _) hit) ?_ (.exit ?_ live)
    · exact ⟨rfl, rfl, hit.role, hit.init⟩
    · rw [hit.init]
      exact other
  | wait =>
    refine wp_mono (wait_census own) ?_
    rintro - k' (hit | ⟨q, c, r, zombie, hit⟩)
    · exact hit_path own (fun _ _ => trivial) (.refl _) hit
    · have apart : q ≠ p := by
        rintro rfl
        obtain ⟨r, live⟩ := own
        cases zombie.symm.trans live
      exact hit_path (own.setRole apart _) (fun _ _ => trivial) (.single (.reap zombie) trivial) hit
  | kill pid =>
    refine wp_seq (kill_census pid) fun _ k' same => wp_pure ?_
    rw [same]
    exact .refl _
  | ccreate name mproc msz mdsk =>
    refine wp_seq (ccreate_census own started.1 name mproc msz mdsk) ?_
    rintro - k' (hit | ⟨c, unused, limit, hit⟩)
    · exact wp_pure (hit_path own (fun _ _ => trivial) (.refl _) hit)
    · exact wp_pure (hit_path own.setCont (fun _ _ => trivial) (.single (.create unused limit) trivial) hit)
  | cstart name =>
    refine wp_seq (cstart_census own started.2.2 name) ?_
    rintro - k' (hit | ⟨c, found, ready, hit⟩)
    · exact wp_pure (hit_path own (fun _ _ => trivial) (.refl _) hit)
    · exact wp_pure (hit_path own.setCont (fun _ _ => trivial)
        (.single (.start ready) ⟨name, rfl, found, rfl⟩) hit)
  | cfork cid =>
    refine wp_seq (wp_get_bind ?_) fun _ _ done => wp_pure done
    split
    · exact wp_pure (.refl _)
    · rename_i c found
      refine fork_path own (some c) (findCont_some found).1 (fun _ _ => trivial) (fun _ _ _ => trivial)
        fun fails _ _ => ?_
      change (match cid2cont k cid with
        | some c => copyFails p c k
        | none => false) = true
      rw [found]
      exact fails
  | cstop name =>
    exact wp_seq (changeState_path name (fun _ _ _ => trivial) (by decide) (by decide)) fun _ _ done =>
      wp_pure done
  | cpause name =>
    exact wp_seq (changeState_path name (fun _ _ _ => trivial) (by decide) (by decide)) fun _ _ done =>
      wp_pure done
  | cresume name =>
    exact wp_seq (changeState_path name (fun _ _ _ => trivial) (by decide) (by decide)) fun _ _ done =>
      wp_pure done
  | sbrk _ | exec _ _ | pipe | dup _ | close _ | read _ _ | write _ _ | fstat _ | «open» _ _ | link _ _
  | unlink _ | mkdir _ | mknod _ _ _ | chdir _ | cinfo =>
    exact plain (acts_plain (fun _ => trivial) _ id id)

end Paths

end Xv6c

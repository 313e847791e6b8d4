import Xv6c.Kernel.Census
import Xv6c.Kernel.Effects
import Xv6c.Kernel.Scheduler

/-! The kernel moves as the census does: what each system call and each step of the
scheduler does to the roles of the slots and to the records of the containers. -/
namespace Xv6c
open Lib
open Function (update update_apply update_comm update_eq_self update_idem update_of_ne update_self)

def role (q : Proc) : Census.Role :=
  match q.state with
  | .unused => .unused
  | .zombie => .zombie q.cont q.parent
  | _ => .live q.cont q.parent

def charter (c : Cont) : Census.Charter := ⟨c.state, c.mproc, c.nextproc, c.uproc⟩

def census (k : Kernel) : Census.State :=
  ⟨fun q => role (k.procAt q), fun i => charter (k.cont i), k.initproc⟩

/- ckill of container c. -/
def killed (a : Census.State) (c : Nat) : Census.State :=
  a.setCont c fun x => { x with state := .cstopping }

/- The same census, unless container c has been killed. -/
def Hit (c : Nat) (a b : Census.State) : Prop := b = a ∨ b = killed a c

theorem killed_killed (a : Census.State) (c : Nat) : killed (killed a c) c = killed a c := by
  simp [killed, Census.State.setCont]

variable {c : Nat} {a : Census.State}

theorem Hit.trans {b d : Census.State} (first : Hit c a b) (second : Hit c b d) : Hit c a d := by
  rcases first with rfl | rfl
  · exact second
  · rcases second with rfl | rfl
    · exact Or.inr rfl
    · exact Or.inr (killed_killed a c)

variable {q : Proc} {parent : Option ProcId}

theorem role_eq_live : role q = .live c parent ↔
      (q.state ≠ .unused ∧ q.state ≠ .zombie) ∧ q.cont = c ∧ q.parent = parent := by
  unfold role
  cases q.state <;> simp

theorem role_eq_unused : role q = .unused ↔ q.state = .unused := by
  unfold role
  cases q.state <;> simp

theorem role_eq_zombie : role q = .zombie c parent ↔ q.state = .zombie ∧ q.cont = c ∧ q.parent = parent := by
  unfold role
  cases q.state <;> simp

theorem role_tends {r : Proc} (tends : Tends q r) (live : role q = .live c parent) : role r = role q := by
  obtain ⟨cont, same, -, state⟩ := tends
  rcases state with state | state
  · simp only [role, state, cont, same]
  · have running : role r = .live q.cont q.parent := by simp only [role, state, cont, same]
    obtain ⟨-, rfl, rfl⟩ := role_eq_live.mp live
    rw [running, live]

theorem role_woken (k : Kernel) (chan : Chan) (i j : Nat) : role (woken k chan i j) = role (k.proc i j) := by
  unfold woken
  dsimp only
  split
  · rename_i asleep
    simp only [role, asleep.2.2.1]
  · rfl

theorem census_setProc (k : Kernel) (q : ProcId) (r : Proc) :
    census (k.setProc q r) = (census k).setRole q (role r) := by
  have roles : (fun x => role ((k.setProc q r).procAt x)) =
      update (fun x => role (k.procAt x)) q (role r) := by
    funext x
    rw [procAt_setProc, update_apply]
    split <;> rfl
  simp only [census, Census.State.setRole, roles]
  rfl

variable {k k' : Kernel} {i : Nat}

theorem census_setCont {c : Cont} (procs : k'.proc = k.proc) (init : k'.initproc = k.initproc)
    (conts : k'.cont = update k.cont i c) : census k' = (census k).setCont i fun _ => charter c := by
  have charters : (fun x => charter (k'.cont x)) =
      update (fun x => charter (k.cont x)) i (charter c) := by
    funext x
    rw [conts, update_apply, update_apply]
    split <;> rfl
  simp only [census, Census.State.setCont, charters, Kernel.procAt, procs, init]

theorem modifyCont_census {f : Cont → Cont} (g : Census.Charter → Census.Charter)
    (same : charter (f (k.cont i)) = g (charter (k.cont i))) :
    wp anyMode (modifyCont i f) (fun _ k' => census k' = (census k).setCont i g) k := by
  refine wp_modify ?_
  have set : census { k with cont := update k.cont i (f (k.cont i)) } =
      (census k).setCont i fun _ => charter (f (k.cont i)) := census_setCont rfl rfl rfl
  rw [set, same]
  rfl

theorem setRole_self (a : Census.State) (q : ProcId) (r : Census.Role) (same : a.role q = r) :
    a.setRole q r = a := by
  rw [Census.State.setRole, ← same, update_eq_self]

theorem setCont_self (a : Census.State) (c : Nat) (f : Census.Charter → Census.Charter)
    (same : f (a.cont c) = a.cont c) : a.setCont c f = a := by
  rw [Census.State.setCont, same, update_eq_self]

theorem setCont_setCont (a : Census.State) (c : Nat) (f g : Census.Charter → Census.Charter) :
    (a.setCont c f).setCont c g = a.setCont c fun x => g (f x) := by
  unfold Census.State.setCont
  dsimp only
  rw [update_self, update_idem]

section Hits
variable {c : Nat} {a b : Census.State}

theorem Hit.role (hit : Hit c a b) : b.role = a.role := by
  rcases hit with rfl | rfl <;> rfl

theorem Hit.init (hit : Hit c a b) : b.init = a.init := by
  rcases hit with rfl | rfl <;> rfl

theorem Hit.setRole (hit : Hit c a b) (q : ProcId) (r : Census.Role) :
    Hit c (a.setRole q r) (b.setRole q r) := by
  rcases hit with rfl | rfl
  · exact Or.inl rfl
  · exact Or.inr rfl

/- A change of numbers, which ckill does not touch. -/
theorem Hit.setCont (hit : Hit c a b) (d : Nat) {f : Census.Charter → Census.Charter}
    (apart : ∀ x s, f { x with state := s } = { f x with state := s }) :
    Hit c (a.setCont d f) (b.setCont d f) := by
  rcases hit with rfl | rfl
  · exact Or.inl rfl
  · refine Or.inr ?_
    simp only [killed, Census.State.setCont]
    congr 1
    by_cases same : d = c
    · subst same
      simp only [update_self, update_idem]
      rw [apart]
    · simp only [update_of_ne same, update_of_ne (Ne.symm same)]
      exact update_comm (Ne.symm same) _ _ _

/- A change of the state of another container. -/
theorem Hit.setOther (hit : Hit c a b) {d : Nat} (other : d ≠ c)
    (f : Census.Charter → Census.Charter) : Hit c (a.setCont d f) (b.setCont d f) := by
  rcases hit with rfl | rfl
  · exact Or.inl rfl
  · refine Or.inr ?_
    simp only [killed, Census.State.setCont, update_of_ne other,
      update_of_ne (Ne.symm other)]
    congr 1
    exact update_comm (Ne.symm other) _ _ _

end Hits

/- p is a live process of container c. -/
def Own (p : ProcId) (c : Nat) (a : Census.State) : Prop := ∃ r, a.role p = .live c r

variable {p : ProcId}

theorem Own.contOf (own : Own p c (census k)) : k.contOf p = c := by
  obtain ⟨r, live⟩ := own
  exact (role_eq_live.mp live).2.1

theorem Hit.own {b : Census.State} (hit : Hit c a b) (own : Own p c a) : Own p c b := by
  obtain ⟨r, live⟩ := own
  exact ⟨r, hit.role ▸ live⟩

theorem Own.setRole {q : ProcId} (own : Own p c a) (apart : q ≠ p) (r : Census.Role) : Own p c (a.setRole q r) := by
  obtain ⟨parent, live⟩ := own
  refine ⟨parent, ?_⟩
  rw [Census.setRole_role, if_neg (Ne.symm apart)]
  exact live

theorem Own.setCont {d : Nat} {f : Census.Charter → Census.Charter} (own : Own p c a) : Own p c (a.setCont d f) := own

/- Calls that touch no slot but the caller's and no record but the counters of memory and disk. -/
def Scope.quiet : Scope := ⟨fun _ => False, fun _ => False, fun _ => False, fun _ => True⟩

theorem hit_state {c : Cont} (step : census k' = (census k).setCont i fun _ => charter c)
    (same : charter c = { charter (k.cont i) with state := c.state })
    (state : c.state = (k.cont i).state ∨ c.state = .cstopping) : Hit i (census k) (census k') := by
  rcases state with state | state
  · refine Or.inl (step.trans (setCont_self _ _ _ ?_))
    rw [same, state]
    rfl
  · refine Or.inr (step.trans ?_)
    rw [same, state]
    rfl

theorem Effect.hit (h : Effect p Scope.quiet k k') (own : Own p c (census k)) : Hit c (census k) (census k') := by
  have here := own.contOf
  cases h with
  | fs s effects => exact here ▸ hit_state (census_setCont rfl rfl rfl) rfl effects.cstate
  | mem s effects => exact here ▸ hit_state (census_setCont rfl rfl rfl) rfl effects.cstate
  | tend r tends =>
    obtain ⟨parent, live⟩ := own
    exact Or.inl ((census_setProc _ _ _).trans (setRole_self _ _ _ (role_tends tends live).symm))
  | wake chan =>
    refine Or.inl ?_
    unfold census
    congr 1
    funext q
    exact role_woken k chan q.cont q.slot
  | proc _ _ row => exact row.elim
  | count _ _ inside => exact inside.elim
  | record _ _ inside => exact inside.elim
  | file | nextpid | nextcid => exact Or.inl rfl

theorem Effects.hit (h : Effects p Scope.quiet k k') (own : Own p c (census k)) : Hit c (census k) (census k') := by
  induction h with
  | refl => exact Or.inl rfl
  | tail _ last ih => exact ih.trans (last.hit (ih.own own))

/- A quiet program, after a prelude that left the census at a. -/
theorem acts_hit {A : Type} {x : KM A} (acts : Acts p c Scope.quiet x) (own : Own p c a)
    (hit : Hit c a (census k)) : wp anyMode x (fun _ k' => Hit c a (census k')) k :=
  wp_mono (acts k (hit.own own).contOf) fun _ _ effects => hit.trans (effects.hit (hit.own own))

/- Slot q of the table is set, after a prelude that left the census at a. -/
theorem modifyProc_hit {q : ProcId} {f : Proc → Proc} {before after : Census.Role}
    (hit : Hit c (a.setRole q before) (census k)) (role : ∀ x, role x = before → Xv6c.role (f x) = after) :
    wp anyMode (modifyProc q f) (fun _ k' => Hit c (a.setRole q after) (census k')) k := by
  refine wp_modify ?_
  rw [census_setProc]
  have now : (census k).role q = before := by
    rw [hit.role, Census.setRole_role, if_pos rfl]
  rw [role _ now]
  have set := hit.setRole q after
  simpa only [Census.State.setRole, update_idem] using set

section Fork
variable {p : ProcId} {o : Nat} {k : Kernel} {a : Census.State}

/- What allocproc finds before it takes slot q. -/
structure Vacant (a : Census.State) (q : ProcId) : Prop where
  opened : Census.Open (a.cont q.cont)
  free : a.role q = .unused
  below : (q.slot : Int) < (a.cont q.cont).mproc

/- A process has come to slot q, or one has been counted there that did not come. -/
def counted (a : Census.State) (q : ProcId) (r : Census.Role) : Census.State :=
  (a.setRole q r).setCont q.cont fun x => { x with uproc := x.uproc + 1 }

theorem allocproc_census (own : Own p o (census k)) (c : Nat) :
    wp anyMode (allocproc p c) (fun r k' => match r with
      | none => Hit o (census k) (census k')
      | some q => q.cont = c ∧ q ≠ p ∧ Vacant (census k) q ∧
        ∃ parent, Hit o (counted (census k) q (.live c parent)) (census k')) k := by
  unfold allocproc
  refine wp_get_bind (wp_ite (fun _ => wp_pure (Or.inl rfl)) fun opened => ?_)
  split
  · exact wp_pure (Or.inl rfl)
  rename_i j found
  obtain ⟨below, unused⟩ := findProc_some found
  have vacant : Vacant (census k) ⟨c, j⟩ := by
    refine ⟨?_, role_eq_unused.mpr (of_decide_eq_true unused), below⟩
    by_cases runnable : (k.cont c).state = .crunnable
    · exact Or.inl runnable
    · exact Or.inr (by_contra fun running => opened ⟨runnable, running⟩)
  have apart : (⟨c, j⟩ : ProcId) ≠ p := by
    rintro rfl
    obtain ⟨r, live⟩ := own
    cases vacant.free.symm.trans live
  have away (r : Census.Role) : Own p o ((census k).setRole ⟨c, j⟩ r) := own.setRole apart r
  -- The slot keeps the container and the parent of its last process until it is counted.
  let stale : Census.Role := .live (k.proc c j).cont (k.proc c j).parent
  have marked : wp anyMode (modifyProc ⟨c, j⟩ fun q => { q with state := .embryo, pid := k.nextpid })
      (fun _ k' => Hit o ((census k).setRole ⟨c, j⟩ stale) (census k')) k := by
    refine wp_modify (Or.inl ?_)
    exact census_setProc _ _ _
  refine wp_seq marked fun _ k₁ first => wp_modify_bind ?_
  refine wp_seq (acts_hit (acts_onMem _) (away stale) first) fun kstack k₂ second => ?_
  have live (x : Proc) (h : role x = stale) : role { x with kstack := kstack } = stale := h
  refine wp_seq (modifyProc_hit second live) fun _ k₃ third => wp_ite (fun _ => ?_) fun _ => ?_
  · refine wp_seq (modifyProc_hit third fun _ _ => rfl) fun _ k₄ fourth => wp_pure ?_
    rwa [setRole_self _ _ _ vacant.free] at fourth
  · have settled (x : Proc) (h : role x = stale) :
        role { x with ticks := 0, cont := c } = .live c (k.proc c j).parent := by
      obtain ⟨alive, -, parent⟩ := role_eq_live.mp h
      exact role_eq_live.mpr ⟨alive, rfl, parent⟩
    refine wp_seq (modifyProc_hit third settled) fun _ k₄ fourth => ?_
    refine wp_seq (modifyCont_census (fun x => { x with uproc := x.uproc + 1 }) rfl) fun _ k₅ fifth =>
      wp_pure ⟨rfl, apart, vacant, (k.proc c j).parent, ?_⟩
    rw [fifth]
    exact fourth.setCont c fun _ _ => rfl

theorem dupFiles_hit {q : ProcId} {c : Nat} {parent : Option ProcId} (own : Own p o a) (apart : q ≠ p)
    (ofile : Nat → Option Nat) (n fd : Nat) (hit : Hit o (a.setRole q (.live c parent)) (census k)) :
    wp anyMode (dupFiles q ofile n fd)
      (fun _ k' => Hit o (a.setRole q (.live c parent)) (census k')) k := by
  induction n generalizing fd k with
  | zero => exact wp_pure hit
  | succ n ih =>
    unfold dupFiles
    split
    · refine wp_seq (acts_hit (acts_filedup _) (own.setRole apart _) hit) fun _ k₁ first => ?_
      exact wp_seq (modifyProc_hit first fun _ h => h) fun _ k₂ second => ih _ second
    · exact wp_bind (wp_pure (ih _ hit))

/- The child takes its place, or is given up for lack of memory for its copy. -/
theorem forkChild_census {q : ProcId} {c : Nat} {r : Option ProcId} (own : Own p o (census k))
    (apart : q ≠ p) (live : (census k).role q = .live c r) (cur : Proc) (cwd : Option Nat)
    (parent : ProcId) :
    wp anyMode (forkChild p q cur cwd parent) (fun _ k' =>
      ((∃ k₁, (onMem p (Mem.copyuvm cur.pgdir cur.sz) k).2 = .ok (0, k₁)) ∧
        Hit o ((census k).setRole q .unused) (census k')) ∨
      Hit o ((census k).setRole q (.live c (some parent))) (census k')) k := by
  have away (x : Census.Role) : Own p o ((census k).setRole q x) := own.setRole apart x
  have start : Hit o ((census k).setRole q (.live c r)) (census k) :=
    Or.inl (setRole_self _ _ _ live).symm
  unfold forkChild
  refine wp_seq (wp_and (acts_hit (acts_onMem _) (away _) start)
    (wp_self _ k (fun _ => trivial) fun _ => trivial)) ?_
  rintro pgdir k₁ ⟨first, copied⟩
  refine wp_seq (modifyProc_hit first fun _ h => h) fun _ k₂ second => wp_ite (fun zero => ?_) fun _ => ?_
  · subst zero
    refine wp_get_bind (wp_seq (acts_hit (acts_onMem _) (away _) second) fun _ k₃ third => ?_)
    refine wp_seq (modifyProc_hit third fun _ _ => rfl) fun _ k₄ fourth => wp_pure (Or.inl ⟨⟨k₁, copied⟩, ?_⟩)
    exact fourth
  · have child (x : Proc) (h : role x = .live c r) : role { x with
        sz := cur.sz, parent := some parent, tf := { cur.tf with eax := 0 } } = .live c (some parent) := by
      obtain ⟨alive, cont, -⟩ := role_eq_live.mp h
      exact role_eq_live.mpr ⟨alive, cont, rfl⟩
    have ready (x : Proc) (h : role x = .live c (some parent)) :
        role { x with state := .runnable } = .live c (some parent) := by
      obtain ⟨-, kept⟩ := role_eq_live.mp h
      exact role_eq_live.mpr ⟨⟨nofun, nofun⟩, kept⟩
    refine wp_seq (modifyProc_hit second child) fun _ k₃ third => ?_
    refine wp_seq (dupFiles_hit own apart _ _ _ third) fun _ k₄ fourth => ?_
    refine wp_seq (acts_hit (acts_onFs _) (away _) fourth) fun _ k₅ fifth => ?_
    refine wp_seq (modifyProc_hit fifth fun _ h => h) fun _ k₆ sixth => wp_get_bind ?_
    exact wp_seq (modifyProc_hit sixth ready) fun _ k₇ last => wp_pure (Or.inr last)

/- allocproc for container c finds a slot and a kernel stack, and copyuvm then fails. -/
def copyFails (p : ProcId) (c : Nat) (k : Kernel) : Bool :=
  match after (allocproc p c) k with
  | some (some _, k₁) =>
    match after (onMem p (Mem.copyuvm (k.procAt p).pgdir (k.procAt p).sz)) k₁ with
    | some (pgdir, _) => pgdir = 0
    | none => false
  | _ => false

theorem counted_setRole (a : Census.State) (q : ProcId) (r x : Census.Role) :
    (counted a q r).setRole q x = counted a q x := by
  unfold counted Census.State.setCont Census.State.setRole
  dsimp only
  rw [update_idem]

theorem fork_census (own : Own p o (census k)) (into : Option Nat) :
    wp anyMode (fork p into) (fun _ k' => Hit o (census k) (census k') ∨
      ∃ q, q.cont = into.getD o ∧ q ≠ p ∧ Vacant (census k) q ∧
        ((copyFails p q.cont k ∧ Hit o (counted (census k) q .unused) (census k')) ∨
          Hit o (counted (census k) q (.live q.cont (some (if into.isSome then k.initproc else p))))
            (census k'))) k := by
  refine wp_fork (wp_and (allocproc_census own _) (wp_self _ k (fun _ => trivial) fun _ => trivial)) ?_
  rintro cwd r k₁ ⟨found, taken⟩
  rw [own.contOf] at found taken
  cases r with
  | none => exact wp_pure (Or.inl found)
  | some q =>
    obtain ⟨target, apart, vacant, parent, hit⟩ := found
    rw [← target] at taken hit
    have live : (census k₁).role q = .live q.cont parent := by
      rw [hit.role, counted, Census.setCont_role, Census.setRole_role, if_pos rfl]
    have own₁ : Own p o (census k₁) := hit.own (own.setRole apart _)
    refine wp_mono (forkChild_census own₁ apart live (k.procAt p) cwd _) ?_
    rintro - k' outcome
    refine Or.inr ⟨q, target, apart, vacant, outcome.imp ?_ ?_⟩
    · rintro ⟨⟨k₂, copied⟩, gone⟩
      refine ⟨?_, ?_⟩
      · simp [copyFails, after, taken, copied]
      · have first := hit.setRole q .unused
        rw [counted_setRole] at first
        exact first.trans gone
    · intro placed
      have first := hit.setRole q (.live q.cont (some (if into.isSome then k.initproc else p)))
      rw [counted_setRole] at first
      exact first.trans placed

end Fork

end Xv6c

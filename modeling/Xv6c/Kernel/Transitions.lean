import Xv6c.Kernel.Control

/-! The state machine of the containers: which changes of state there are when the calls
on containers, the quota kills and the scheduler interleave. -/
namespace Xv6c.Control
open Lib Races
open Function (forall_update_iff update update_apply update_of_ne update_self)

/- A container in which processes can run. -/
def Started (c : Cont) : Prop := c.state = .crunnable ∨ c.state = .cpaused ∨ c.state = .cstopping

/- What holds of one container: it has no room for processes before it is published and
room for one from then on, and nextproc is a slot below mproc. -/
structure Fit (x : Census.Charter) : Prop where
  vacant : x.state = .cembryo → x.mproc ≤ 0
  roomy : x.state ≠ .cunused → x.state ≠ .cembryo → 1 ≤ x.mproc
  pointer : 0 ≤ x.nextproc ∧ (x.nextproc = 0 ∨ x.nextproc < x.mproc)

/- A CPU is in the visit of a container that has been started, with a process of it that
runs or has just stopped; and a slot that a ccreate has taken is its own. -/
structure Inv (s : State) : Prop where
  base : Races.Inv s.world
  fit : ∀ c, Fit (charter (s.world.kernel.cont c))
  manned : ∀ cpu i p, s.world.cpu cpu = some (i, p) → Started (s.world.kernel.cont i) ∧ p.cont = i ∧
    (s.world.lock = some cpu ∨ (s.world.kernel.procAt p).state = .running)
  single : ∀ cpu cpu' i i' p, s.world.cpu cpu = some (i, p) → s.world.cpu cpu' = some (i', p) → cpu = cpu'
  taken : ∀ p c, (s.hand p).Takes c → (s.world.kernel.cont c).state = .cembryo
  owner : ∀ p p' c, (s.hand p).Takes c → (s.hand p').Takes c → p = p'
  wish : ∀ p w, (s.hand p).Wishes w → 1 ≤ w.mproc ∧ w.mproc ≤ NPROC

section Shifts
variable {s t : World}

/- The same container but for its counters. -/
def Steady (a b : Cont) : Prop := b.state = a.state ∧ b.mproc = a.mproc ∧ b.nextproc = a.nextproc

/- What a step of fork, exit or the scheduler does to the CPUs and the containers. -/
inductive Shift (s t : World) : Races.Label → Prop where
  | stays {l : Races.Label} : t.cpu = s.cpu → t.lock = s.lock →
      (∀ q, (s.kernel.procAt q).state = .running → (t.kernel.procAt q).state = .running) →
      (∀ c, Steady (s.kernel.cont c) (t.kernel.cont c)) → Shift s t l
  | stops {l : Races.Label} {cpu i : Nat} {p : ProcId} : s.cpu cpu = some (i, p) → s.lock = none →
      t.cpu = s.cpu → t.lock = some cpu → (∀ q, q ≠ p → t.kernel.procAt q = s.kernel.procAt q) →
      (∀ c, Steady (s.kernel.cont c) (t.kernel.cont c)) → Shift s t l
  | leaves {cpu i : Nat} {p : ProcId} : s.cpu cpu = some (i, p) → s.lock = some cpu →
      t.cpu = update s.cpu cpu none → t.lock = none → t.kernel.proc = s.kernel.proc →
      (t.kernel.cont = s.kernel.cont ∨ (s.kernel.cont i).uproc = 0 ∧
        charter (t.kernel.cont i) = ⟨.cunused, 0, 0, (s.kernel.cont i).uproc⟩ ∧
        ∀ c, c ≠ i → t.kernel.cont c = s.kernel.cont c) → Shift s t (.leave cpu)
  | visits {cpu i : Nat} : s.lock = none → t.lock = none → s.cpu cpu = none → i < NCONT →
      Scheduled (s.kernel.cont i) →
      (t.cpu = s.cpu ∧ t.kernel.proc = s.kernel.proc ∨
        ∃ p, slotAt (slotAddr i (s.kernel.cont i).nextproc) = some p ∧
          (s.kernel.procAt p).state = .runnable ∧ (t.kernel.procAt p).state = .running ∧
          (∀ q, q ≠ p → t.kernel.procAt q = s.kernel.procAt q) ∧
          t.cpu = update s.cpu cpu (some (i, p))) →
      charter (t.kernel.cont i) = { charter (s.kernel.cont i) with nextproc :=
        if (s.kernel.cont i).nextproc + 1 = (s.kernel.cont i).mproc then 0
        else (s.kernel.cont i).nextproc + 1 } →
      (∀ c, c ≠ i → t.kernel.cont c = s.kernel.cont c) → Shift s t (.visit cpu i)

theorem Steady.refl (c : Cont) : Steady c c := ⟨rfl, rfl, rfl⟩

theorem steady_update {conts : Nat → Cont} {i : Nat} {x : Cont} (steady : Steady (conts i) x) (c : Nat) :
    Steady (conts c) (update conts i x c) :=
  (forall_update_iff conts fun c => Steady (conts c)).2 ⟨steady, fun _ _ => .refl _⟩ c

/- A slot changes that no running process has. -/
theorem running_setProc {k : Kernel} {q x : ProcId} {r : Proc} (other : (k.procAt q).state ≠ .running)
    (running : (k.procAt x).state = .running) : ((k.setProc q r).procAt x).state = .running := by
  rw [procAt_setProc, if_neg]
  · exact running
  · rintro rfl
    exact other running

variable {l : Races.Label}

theorem step_shift (inv : Races.Inv s) (taken : Races.step s l = some t) (made : ∀ mproc, l ≠ .create mproc)
    (changed : ∀ c state, l ≠ .change c state) : Shift s t l := by
  have slot {k : Kernel} {q : ProcId} {r : Proc} {a : ProcState} (before : (k.procAt q).state = a)
      (other : a ≠ .running) (x : ProcId) (running : (k.procAt x).state = .running) :
      ((k.setProc q r).procAt x).state = .running := running_setProc (before ▸ other) running
  cases step_outcome taken with
  | stays => exact .stays rfl rfl (fun _ h => h) fun _ => .refl _
  | lane => exact .stays rfl rfl (fun _ h => h) fun _ => .refl _
  | marks _ _ unused _ => exact .stays rfl rfl (slot unused nofun) fun _ => .refl _
  | releases held _ => exact .stays rfl rfl (slot (inv.embryo _ _ held) nofun) fun _ => .refl _
  | counts marked _ _ =>
    exact .stays rfl rfl (slot (inv.embryo _ _ (Or.inl marked)) nofun) (steady_update ⟨rfl, rfl, rfl⟩)
  | exits current _ unlocked _ =>
    refine .stops current unlocked rfl rfl (fun q other => ?_) (steady_update ⟨rfl, rfl, rfl⟩)
    exact (procAt_setProc _ _ q _).trans (if_neg other)
  | rests current unlocked _ =>
    refine .stops current unlocked rfl rfl (fun q other => ?_) fun _ => .refl _
    exact (procAt_setProc _ _ q _).trans (if_neg other)
  | reaps zombie _ => exact .stays rfl rfl (slot zombie nofun) fun _ => .refl _
  | @wakes _ chan =>
    refine .stays rfl rfl (fun q running => ?_) fun _ => .refl _
    change (woken s.kernel chan q.cont q.slot).state = .running
    unfold woken
    dsimp only
    rw [if_neg]
    · exact running
    · rintro ⟨-, -, asleep, -⟩
      cases asleep.symm.trans running
  | leaves current held => exact .leaves current held rfl rfl rfl (Or.inl rfl)
  | ends current held zero gone _ =>
    refine .leaves current held rfl rfl rfl (Or.inr ⟨zero, ?_, fun c other => ?_⟩)
    · rw [cont_setCont, if_pos rfl]
      exact gone
    · rw [cont_setCont, if_neg other]
  | @passes cpu i unlocked free inside scheduled =>
    refine .visits unlocked unlocked free inside scheduled (Or.inl ⟨rfl, rfl⟩) ?_ fun c other => ?_
    · exact congrArg charter (update_self i _ s.kernel.cont)
    · exact update_of_ne other _ _
  | @picks cpu i p unlocked free inside scheduled found runnable =>
    refine .visits unlocked unlocked free inside scheduled (Or.inr ⟨p, found, runnable, ?_, ?_, rfl⟩) ?_ fun c other => ?_
    · exact congrArg Proc.state ((procAt_setProc s.kernel p p _).trans (if_pos rfl))
    · exact fun q other => (procAt_setProc s.kernel p q _).trans (if_neg other)
    · exact congrArg charter (update_self i _ s.kernel.cont)
    · exact update_of_ne other _ _
  | creates => exact absurd rfl (made _)
  | changes => exact absurd rfl (changed _ _)

end Shifts

section Shifting
variable {s t : State}

theorem Fit.steady {a b : Cont} (fit : Fit (charter a)) (steady : Steady a b) : Fit (charter b) := by
  obtain ⟨vacant, roomy, pointer⟩ := fit
  obtain ⟨state, mproc, nextproc⟩ := steady
  unfold charter at *
  dsimp only at *
  constructor <;> dsimp only <;> rw [mproc]
  · rwa [state]
  · rwa [state]
  · rwa [nextproc]

theorem Started.steady {a b : Cont} (started : Started a) (steady : Steady a b) : Started b := by
  unfold Started at *
  rwa [steady.1]

theorem Started.not_embryo {c : Cont} (started : Started c) : c.state ≠ .cembryo := by
  rcases started with h | h | h <;> rw [h] <;> exact nofun

theorem Inv.steady_taken (inv : Inv s) (hands : t.hand = s.hand)
    (same : ∀ c, (s.world.kernel.cont c).state = .cembryo → (t.world.kernel.cont c).state = .cembryo) :
    (∀ p c, (t.hand p).Takes c → (t.world.kernel.cont c).state = .cembryo) ∧
      (∀ p p' c, (t.hand p).Takes c → (t.hand p').Takes c → p = p') ∧
      ∀ p w, (t.hand p).Wishes w → 1 ≤ w.mproc ∧ w.mproc ≤ NPROC := by
  rw [hands]
  exact ⟨fun p c takes => same c (inv.taken p c takes), inv.owner, inv.wish⟩

/- The process of a CPU that does not hold the lock runs. -/
theorem Inv.runs (inv : Inv s) {cpu i : Nat} {p : ProcId} (current : s.world.cpu cpu = some (i, p))
    (free : s.world.lock ≠ some cpu) : (s.world.kernel.procAt p).state = .running :=
  (inv.manned cpu i p current).2.2.resolve_left free

/- In a started container nextproc is a slot, and stays one when the scheduler moves on. -/
theorem Inv.nextproc_fits (inv : Inv s) {i : Nat} (started : Started (s.world.kernel.cont i)) :
    let c := s.world.kernel.cont i
    0 ≤ c.nextproc ∧ c.nextproc < c.mproc ∧
      let n := if c.nextproc + 1 = c.mproc then 0 else c.nextproc + 1
      0 ≤ n ∧ (n = 0 ∨ n < c.mproc) := by
  obtain ⟨-, roomy, low, pointer⟩ := inv.fit i
  have room : 1 ≤ (s.world.kernel.cont i).mproc := by
    refine roomy ?_ started.not_embryo
    rcases started with h | h | h <;> exact fun unused => nomatch h.symm.trans unused
  unfold charter at low pointer
  dsimp only at low pointer ⊢
  split <;> omega

theorem running_alive {q : Proc} (running : q.state = .running) : Alive q := by
  unfold Alive
  rw [running]
  decide

/- No CPU gets another process. -/
theorem Inv.keeps (inv : Inv s) (base : Races.Inv t.world) (hands : t.hand = s.hand)
    (fit : ∀ c, Fit (charter (t.world.kernel.cont c)))
    (embryo : ∀ c, (s.world.kernel.cont c).state = .cembryo → (t.world.kernel.cont c).state = .cembryo)
    (cpus : ∀ cpu i p, t.world.cpu cpu = some (i, p) → s.world.cpu cpu = some (i, p) ∧
      (Started (s.world.kernel.cont i) → p.cont = i → Started (t.world.kernel.cont i)) ∧
      (t.world.lock = some cpu ∨ (t.world.kernel.procAt p).state = .running)) : Inv t := by
  obtain ⟨taken, owner, wish⟩ := inv.steady_taken hands embryo
  refine ⟨base, fit, fun cpu i p current => ?_, fun cpu cpu' i i' p h h' => ?_, taken, owner, wish⟩
  · obtain ⟨before, begun, runs⟩ := cpus cpu i p current
    obtain ⟨started, home, -⟩ := inv.manned cpu i p before
    exact ⟨begun started home, home, runs⟩
  · exact inv.single cpu cpu' i i' p (cpus _ _ _ h).1 (cpus _ _ _ h').1

theorem shift_inv {l : Races.Label} (inv : Inv s) (base : Races.Inv t.world) (hands : t.hand = s.hand)
    (clear : Clear s.world l) (shift : Shift s.world t.world l) : Inv t := by
  cases shift with
  | stays cpus lock running steady =>
    refine inv.keeps base hands (fun c => (inv.fit c).steady (steady c)) (fun c h => (steady c).1.trans h) ?_
    intro cpu i p current
    rw [cpus] at current
    refine ⟨current, fun started _ => started.steady (steady i), ?_⟩
    rw [lock]
    exact (inv.manned cpu i p current).2.2.imp_right (running p)
  | @stops _ cpu i p current unlocked cpus lock others steady =>
    refine inv.keeps base hands (fun c => (inv.fit c).steady (steady c)) (fun c h => (steady c).1.trans h) ?_
    intro cpu' i' p' current'
    rw [cpus] at current'
    refine ⟨current', fun started _ => started.steady (steady i'), ?_⟩
    by_cases here : cpu' = cpu
    · rw [here]
      exact Or.inl lock
    · have other : p' ≠ p := by
        rintro rfl
        exact here (inv.single cpu' cpu i' i p' current' current)
      rw [others p' other]
      refine Or.inr (inv.runs current' ?_)
      rw [unlocked]
      exact nofun
  | @leaves cpu i p current held cpus lock procs conts =>
    refine inv.keeps base hands (fun c => ?_) (fun c embryo => ?_) fun cpu' i' p' current' => ?_
    · rcases conts with same | ⟨-, gone, same⟩
      · rw [same]
        exact inv.fit c
      · by_cases here : c = i
        · rw [here, gone]
          exact ⟨nofun, fun used => absurd rfl used, le_refl _, Or.inl rfl⟩
        · rw [same c here]
          exact inv.fit c
    · rcases conts with same | ⟨-, -, same⟩
      · rwa [same]
      · rwa [same]
        rintro rfl
        exact (inv.manned cpu c p current).1.not_embryo embryo
    · rw [cpus, update_apply] at current'
      split at current'
      · cases current'
      · rename_i other
        have running := inv.runs current' fun own => other (Option.some.inj (held.symm.trans own)).symm
        refine ⟨current', fun started home => ?_, Or.inr ?_⟩
        · rcases conts with same | ⟨zero, -, same⟩
          · rwa [same]
          · rwa [same i' (home ▸ inv.base.vacant zero (clear i p current zero) p' (running_alive running))]
        · unfold Kernel.procAt
          rw [procs]
          exact running
  | @visits cpu i unlocked lock idle inside scheduled picks moved conts =>
    have started : Started (s.world.kernel.cont i) := scheduled.imp_right Or.inr
    obtain ⟨low, next, ahead⟩ := inv.nextproc_fits started
    have state (c : Nat) : (t.world.kernel.cont c).state = (s.world.kernel.cont c).state := by
      by_cases here : c = i
      · rw [here]
        exact congrArg Census.Charter.state moved
      · rw [conts c here]
    have runs {cpu' i' : Nat} {p' : ProcId} (current' : s.world.cpu cpu' = some (i', p')) :
        (s.world.kernel.procAt p').state = .running := by
      refine inv.runs current' ?_
      rw [unlocked]
      exact nofun
    have begun {i' : Nat} (h : Started (s.world.kernel.cont i')) : Started (t.world.kernel.cont i') := by
      unfold Started at *
      rwa [state]
    have fit (c : Nat) : Fit (charter (t.world.kernel.cont c)) := by
      by_cases here : c = i
      · rw [here, moved]
        refine ⟨(inv.fit i).vacant, (inv.fit i).roomy, ?_⟩
        exact ahead
      · rw [conts c here]
        exact inv.fit c
    rcases picks with ⟨cpus, procs⟩ | ⟨p, slot, runnable, running, others, cpus⟩
    · refine inv.keeps base hands fit (fun c h => (state c).trans h) fun cpu' i' p' current' => ?_
      rw [cpus] at current'
      refine ⟨current', fun h _ => begun h, Or.inr ?_⟩
      unfold Kernel.procAt
      rw [procs]
      exact runs current'
    · have home : p.cont = i := by
        have own := selected_own (k := s.world.kernel) inside low (next.trans_le (inv.base.capped i))
        cases slot.symm.trans own
        rfl
      have elsewhere {cpu' i' : Nat} {p' : ProcId} (current' : t.world.cpu cpu' = some (i', p')) :
          cpu' = cpu ∧ i' = i ∧ p' = p ∨ cpu' ≠ cpu ∧ p' ≠ p ∧ s.world.cpu cpu' = some (i', p') := by
        rw [cpus, update_apply] at current'
        split at current'
        · rename_i here
          cases current'
          exact Or.inl ⟨here, rfl, rfl⟩
        · rename_i other
          refine Or.inr ⟨other, ?_, current'⟩
          rintro rfl
          cases runnable.symm.trans (runs current')
      obtain ⟨taken, owner, wish⟩ := inv.steady_taken hands fun c h => (state c).trans h
      refine ⟨base, fit, ?_, ?_, taken, owner, wish⟩
      · intro cpu' i' p' current'
        rcases elsewhere current' with ⟨-, rfl, rfl⟩ | ⟨-, other, current'⟩
        · exact ⟨begun started, home, Or.inr running⟩
        · obtain ⟨h, home', -⟩ := inv.manned cpu' i' p' current'
          rw [others p' other]
          exact ⟨begun h, home', Or.inr (runs current')⟩
      · intro c c' j j' q h h'
        rcases elsewhere h with ⟨here, -, same⟩ | ⟨-, other, h⟩ <;>
          rcases elsewhere h' with ⟨here', -, same'⟩ | ⟨-, other', h'⟩
        · exact here.trans here'.symm
        · exact absurd same other'
        · exact absurd same' other
        · exact inv.single c c' j j' q h h'

end Shifting

section Strokes
variable {s : State} {k : Kernel} {c : Nat} {f : Census.Charter → Census.Charter}

variable {k' : Kernel}

theorem Sets.self {k : Kernel} (sets : Sets c f k k') : charter (k'.cont c) = f (charter (k.cont c)) :=
  (sets.2 c).trans (if_pos rfl)

theorem Sets.other {k : Kernel} (sets : Sets c f k k') {d : Nat} (away : d ≠ c) :
    charter (k'.cont d) = charter (k.cont d) := (sets.2 d).trans (if_neg away)

theorem Sets.procAt {k : Kernel} (sets : Sets c f k k') (q : ProcId) : k'.procAt q = k.procAt q := by
  unfold Kernel.procAt
  rw [sets.1]

/- A container in use changes its state. -/
theorem base_frame {w : World} (inv : Races.Inv w) (sets : Sets c f w.kernel k)
    (mproc : ∀ x, (f x).mproc = x.mproc) (uproc : ∀ x, (f x).uproc = x.uproc)
    (used : (f (charter (w.kernel.cont c))).state = .cunused → (w.kernel.cont c).state = .cunused) :
    Races.Inv { w with kernel := k } := by
  refine inv.quiet (fun q => ?_) rfl fun d => ?_
  · change Stirs _ (k.procAt q)
    rw [sets.procAt]
    exact .refl _
  · change (charter (k.cont d)).mproc = _ ∧ (charter (k.cont d)).uproc = _ ∧ ((charter (k.cont d)).state = _ → _)
    by_cases here : d = c
    · rw [here, sets.self, mproc, uproc]
      exact ⟨rfl, rfl, used⟩
    · rw [sets.other here]
      exact ⟨rfl, rfl, id⟩

/- A container without room for processes is published or given up. -/
theorem base_refit {w : World} (inv : Races.Inv w) (sets : Sets c f w.kernel k)
    (room : (w.kernel.cont c).mproc ≤ 0) (uproc : ∀ x, (f x).uproc = x.uproc)
    (capped : (f (charter (w.kernel.cont c))).mproc ≤ NPROC)
    (empty : (f (charter (w.kernel.cont c))).state = .cunused →
      (f (charter (w.kernel.cont c))).mproc ≤ 0) : Races.Inv { w with kernel := k } := by
  have vacant (q : ProcId) (alive : Alive (w.kernel.procAt q)) : q.cont ≠ c := by
    rintro rfl
    have below := (inv.housed q alive).2.1
    omega
  refine inv.refits vacant sets.1 rfl (fun d away => sets.other away) ?_ ?_ ?_
  · change (charter (k.cont c)).mproc ≤ _
    rw [sets.self]
    exact capped
  · change (charter (k.cont c)).state = _ → (charter (k.cont c)).mproc ≤ 0
    rw [sets.self]
    exact empty
  · change (charter (k.cont c)).uproc = _
    rw [sets.self, uproc]
    rfl

variable {t : State}

/- The invariant when one container changes, from what is asked of that container. -/
theorem Inv.sets (inv : Inv s) (world : t.world = { s.world with kernel := k })
    (sets : Sets c f s.world.kernel k) (base : Races.Inv { s.world with kernel := k })
    (fit : Fit (f (charter (s.world.kernel.cont c))))
    (started : Started (s.world.kernel.cont c) → Started (k.cont c))
    (taken : ∀ p d, (t.hand p).Takes d → (k.cont d).state = .cembryo)
    (owner : ∀ p p' d, (t.hand p).Takes d → (t.hand p').Takes d → p = p')
    (wish : ∀ p w, (t.hand p).Wishes w → 1 ≤ w.mproc ∧ w.mproc ≤ NPROC) : Inv t := by
  rcases t with ⟨w, hand⟩
  dsimp only at world
  subst world
  refine ⟨base, fun d => ?_, ?_, inv.single, taken, owner, wish⟩
  · change Fit (charter (k.cont d))
    by_cases here : d = c
    · rw [here, sets.self]
      exact fit
    · rw [sets.other here]
      exact inv.fit d
  · intro cpu i p current
    obtain ⟨begun, home, runs⟩ := inv.manned cpu i p current
    refine ⟨?_, home, ?_⟩
    · by_cases here : i = c
      · subst here
        exact started begun
      · have state : (k.cont i).state = (s.world.kernel.cont i).state :=
          congrArg Census.Charter.state (sets.other here)
        unfold Started at *
        dsimp only
        rwa [state]
    · rw [sets.procAt]
      exact runs

variable {p : ProcId}

theorem fewer_update {hand : ProcId → Hand} {h : Hand} (fewer : (hand p).Fewer h) (q : ProcId) :
    (hand q).Fewer (update hand p h q) :=
  (forall_update_iff hand fun q => (hand q).Fewer).2 ⟨fewer, fun _ _ => ⟨fun _ h => h, fun _ h => h⟩⟩ q

theorem idle_fewer (h : Hand) : h.Fewer .idle := ⟨fun _ => False.elim, fun _ => False.elim⟩

/- A container that has been published becomes one in which processes can run. -/
theorem Inv.restates (inv : Inv s) {b : ContState} (world : t.world = { s.world with kernel := k })
    (fewer : ∀ q, (s.hand q).Fewer (t.hand q)) (sets : Sets c (setState b) s.world.kernel k)
    (used : (s.world.kernel.cont c).state ≠ .cunused) (published : (s.world.kernel.cont c).state ≠ .cembryo)
    (after : b = .crunnable ∨ b = .cpaused ∨ b = .cstopping) : Inv t := by
  have state : (k.cont c).state = b := congrArg Census.Charter.state sets.self
  have live : b ≠ .cunused ∧ b ≠ .cembryo := by
    rcases after with rfl | rfl | rfl <;> exact ⟨nofun, nofun⟩
  have base := base_frame inv.base sets (fun _ => rfl) (fun _ => rfl) fun h => absurd h live.1
  refine inv.sets world sets base ⟨?_, ?_, (inv.fit c).pointer⟩ ?_ ?_ ?_ ?_
  · exact fun h => absurd h live.2
  · exact fun _ _ => (inv.fit c).roomy used published
  · intro _
    unfold Started
    rwa [state]
  · intro p d takes
    have before := inv.taken p d ((fewer p).1 d takes)
    have away : d ≠ c := by
      rintro rfl
      exact published before
    exact (congrArg Census.Charter.state (sets.other away)).trans before
  · exact fun p p' d h h' => inv.owner p p' d ((fewer p).1 d h) ((fewer p').1 d h')
  · exact fun p w h => inv.wish p w ((fewer p).2 w h)

/- Nothing happens to the containers. -/
theorem Inv.plans (inv : Inv s) (world : t.world = { s.world with kernel := k })
    (sets : Sets c id s.world.kernel k) (taken : ∀ p d, (t.hand p).Takes d → (s.hand p).Takes d)
    (wish : ∀ p w, (t.hand p).Wishes w → 1 ≤ w.mproc ∧ w.mproc ≤ NPROC) : Inv t := by
  have same (d : Nat) : charter (k.cont d) = charter (s.world.kernel.cont d) := by
    by_cases here : d = c
    · rw [here]
      exact sets.self
    · exact sets.other here
  have state (d : Nat) : (k.cont d).state = (s.world.kernel.cont d).state :=
    congrArg Census.Charter.state (same d)
  have base := base_frame inv.base sets (fun _ => rfl) (fun _ => rfl) id
  refine inv.sets world sets base (inv.fit c) ?_ ?_ ?_ wish
  · unfold Started
    rw [state]
    exact id
  · intro p d takes
    rw [state]
    exact inv.taken p d (taken p d takes)
  · exact fun p p' d h h' => inv.owner p p' d (taken p d h) (taken p' d h')

/- alloccont takes a free slot. -/
theorem Inv.allocs (inv : Inv s) {w : Wish} (wanted : s.hand p = .wanted w)
    (free : (s.world.kernel.cont c).state = .cunused) (sets : Sets c (setState .cembryo) s.world.kernel k) :
    Inv ⟨{ s.world with kernel := k }, update s.hand p (.alloced c w)⟩ := by
  have state : (k.cont c).state = .cembryo := congrArg Census.Charter.state sets.self
  have untaken (q : ProcId) : ¬ (s.hand q).Takes c := fun takes =>
    nomatch free.symm.trans (inv.taken q c takes)
  have takes {q : ProcId} {d : Nat} (h : (update s.hand p (.alloced c w) q).Takes d) :
      q = p ∧ d = c ∨ d ≠ c ∧ (s.hand q).Takes d := by
    rw [update_apply] at h
    split at h
    · rename_i here
      exact Or.inl ⟨here, h.symm⟩
    · refine Or.inr ⟨?_, h⟩
      rintro rfl
      exact untaken q h
  have base := base_frame inv.base sets (fun _ => rfl) (fun _ => rfl) fun h => nomatch h
  refine inv.sets rfl sets base ⟨?_, ?_, (inv.fit c).pointer⟩ ?_ ?_ ?_ ?_
  · exact fun _ => inv.base.empty c free
  · exact fun _ h => absurd rfl h
  · intro started
    rcases started with h | h | h <;> cases free.symm.trans h
  · intro q d h
    rcases takes h with ⟨-, rfl⟩ | ⟨away, h⟩
    · exact state
    · exact (congrArg Census.Charter.state (sets.other away)).trans (inv.taken q d h)
  · intro q q' d h h'
    rcases takes h with ⟨here, same⟩ | ⟨away, h⟩ <;> rcases takes h' with ⟨here', same'⟩ | ⟨away', h'⟩
    · exact here.trans here'.symm
    · exact absurd same away'
    · exact absurd same' away
    · exact inv.owner q q' d h h'
  · intro q v h
    dsimp only at h
    rw [update_apply] at h
    split at h
    · cases h
      exact inv.wish p w (wanted ▸ rfl)
    · exact inv.wish q v h

/- The ccreate that has taken a slot publishes it or gives it up. -/
theorem Inv.settles (inv : Inv s) (takes : (s.hand p).Takes c) (sets : Sets c f s.world.kernel k)
    (uproc : ∀ x, (f x).uproc = x.uproc) (nextproc : ∀ x, (f x).nextproc = x.nextproc)
    (capped : (f (charter (s.world.kernel.cont c))).mproc ≤ NPROC)
    (empty : (f (charter (s.world.kernel.cont c))).state = .cunused →
      (f (charter (s.world.kernel.cont c))).mproc ≤ 0)
    (embryo : (f (charter (s.world.kernel.cont c))).state ≠ .cembryo)
    (roomy : (f (charter (s.world.kernel.cont c))).state ≠ .cunused →
      1 ≤ (f (charter (s.world.kernel.cont c))).mproc) :
    Inv ⟨{ s.world with kernel := k }, update s.hand p .idle⟩ := by
  have before := inv.taken p c takes
  have room := (inv.fit c).vacant before
  have base := base_refit inv.base sets room uproc capped empty
  have still {q : ProcId} {d : Nat} (h : (update s.hand p .idle q).Takes d) :
      d ≠ c ∧ (s.hand q).Takes d := by
    rw [update_apply] at h
    split at h
    · exact h.elim
    · rename_i other
      refine ⟨?_, h⟩
      rintro rfl
      exact other (inv.owner q p d h takes)
  have pointer : (s.world.kernel.cont c).nextproc = 0 := by
    obtain ⟨low, zero | below⟩ := (inv.fit c).pointer
    · exact zero
    · exact absurd (low.trans_lt below) (not_lt.mpr room)
  refine inv.sets rfl sets base ⟨fun h => absurd h embryo, fun h _ => roomy h, ?_⟩ ?_ ?_ ?_ ?_
  · rw [nextproc]
    exact ⟨pointer.ge, Or.inl pointer⟩
  · intro started
    exact absurd before started.not_embryo
  · intro q d h
    obtain ⟨away, h⟩ := still h
    exact (congrArg Census.Charter.state (sets.other away)).trans (inv.taken q d h)
  · exact fun q q' d h h' => inv.owner q q' d (still h).2 (still h').2
  · exact fun q w h => inv.wish q w ((fewer_update (idle_fewer _) q).2 w h)

end Strokes

/- The test that a call made still holds when it writes, or the container already is in the
state that it writes; ccreate is called for at least one process; and the scheduler does not
find uproc at zero while a slot waits to be counted. -/
def Fresh (s : State) : Label → Prop
  | .part cpu .assign => ∀ i p c op, s.world.cpu cpu = some (i, p) → s.hand p = .change c op →
      (s.world.kernel.cont c).state ∈ op.source ∨ (s.world.kernel.cont c).state = op.target
  | .part cpu .launch => ∀ i p c udsk, s.world.cpu cpu = some (i, p) → s.hand p = .sized c udsk →
      (s.world.kernel.cont c).state = .cready ∨ (s.world.kernel.cont c).state = .crunnable
  | .part _ (.want w) => 1 ≤ w.mproc
  | .other l => Clear s.world l
  | _ => True

/- The changes of state there are to be, and the states that cexit ends. -/
def changes : List (ContState × ContState) :=
  [(.cunused, .cembryo), (.cembryo, .cready), (.cembryo, .cunused), (.cready, .crunnable),
    (.crunnable, .cpaused), (.cpaused, .crunnable), (.crunnable, .cstopping), (.cpaused, .cstopping)]

def ends : List ContState := [.crunnable, .cpaused, .cstopping]

def Legal (l : Label) (a b : ContState) : Prop :=
  (a, b) ∈ changes ∨ (∃ cpu, l = .other (.leave cpu)) ∧ a ∈ ends ∧ b = .cunused

section Steps
variable {s t : State}

variable {cpu : Nat}

theorem part_some {l : Part} (taken : step s (.part cpu l) = some t) :
    ∃ i p x h k, s.world.cpu cpu = some (i, p) ∧ Running s.world.kernel p ∧ part p (s.hand p) l = some x ∧
      after x s.world.kernel = some (h, k) ∧
      t = ⟨{ s.world with kernel := k }, update s.hand p h⟩ := by
  dsimp only [step] at taken
  split at taken
  · cases taken
  · rename_i i p current
    split at taken
    · rename_i runs
      obtain ⟨x, next, done⟩ := Option.bind_eq_some_iff.mp taken
      obtain ⟨⟨h, k⟩, ended, same⟩ := Option.map_eq_some_iff.mp done
      exact ⟨i, p, x, h, k, current, runs.1, next, ended, same.symm⟩
    · cases taken

/- The process that a CPU runs is in a container that has been started. -/
theorem Inv.started (inv : Inv s) {i : Nat} {p : ProcId} (current : s.world.cpu cpu = some (i, p))
    (running : Running s.world.kernel p) : Started (s.world.kernel.cont (s.world.kernel.contOf p)) := by
  obtain ⟨started, home, -⟩ := inv.manned cpu i p current
  rw [inv.base.runs_home running, home]
  exact started

variable {c : Cont}

theorem Started.used (started : Started c) : c.state ≠ .cunused := by
  rcases started with h | h | h <;> rw [h] <;> exact nofun

/- A container that passes its test, or is in the target state already. -/
theorem fresh_started {op : Op} (fresh : c.state ∈ op.source ∨ c.state = op.target) : Started c := by
  unfold Started
  cases op <;> simp only [Op.source, Op.target, List.mem_cons, List.not_mem_nil, or_false] at fresh <;> tauto

theorem target_started (op : Op) : op.target = .crunnable ∨ op.target = .cpaused ∨ op.target = .cstopping := by
  cases op <;> decide

theorem kill_sets (taken : step s (.kill cpu) = some t) :
    ∃ i p k, s.world.cpu cpu = some (i, p) ∧ Running s.world.kernel p ∧
      Sets (s.world.kernel.contOf p) (setState .cstopping) s.world.kernel k ∧
      t = ⟨{ s.world with kernel := k }, s.hand⟩ := by
  obtain ⟨w, done, same⟩ := Option.map_eq_some_iff.mp taken
  obtain ⟨i, p, current, running, done⟩ := acts_some done
  cases done
  refine ⟨i, p, _, current, running, ?_, same.symm⟩
  exact sets_update rfl rfl rfl

theorem other_some {l : Races.Label} (taken : step s (.other l) = some t) :
    ∃ w, Races.step s.world l = some w ∧ (∀ mproc, l ≠ .create mproc) ∧ (∀ c state, l ≠ .change c state) ∧
      t = { s with world := w } := by
  dsimp only [step] at taken
  split at taken
  · rename_i allowed
    obtain ⟨w, done, same⟩ := Option.map_eq_some_iff.mp taken
    refine ⟨w, done, ?_, ?_, same.symm⟩
    · rintro mproc rfl
      cases allowed
    · rintro c state rfl
      cases allowed
  · cases taken

variable {l : Label}

theorem step_inv (inv : Inv s) (fresh : Fresh s l) (taken : step s l = some t) : Inv t := by
  cases l with
  | part cpu l =>
    obtain ⟨i, p, x, h, k, current, running, next, ended, rfl⟩ := part_some taken
    have stroke := after_spec (part_stroke next) ended
    have own := inv.started current running
    generalize hand : s.hand p = now at stroke
    cases stroke with
    | plans sets fewer =>
      have fewer := fewer_update (hand ▸ fewer)
      exact inv.plans rfl sets (fun q => (fewer q).1) fun q w h => inv.wish q w ((fewer q).2 w h)
    | killed sets fewer =>
      have fewer := fewer_update (hand ▸ fewer)
      exact inv.restates rfl fewer sets own.used own.not_embryo (Or.inr (Or.inr rfl))
    | @wants w small =>
      refine inv.plans rfl (.refl 0 _) (fun q d h => ?_) fun q v h => ?_
      · dsimp only at h
        rw [update_apply] at h
        split at h
        · exact h.elim
        · exact h
      · dsimp only at h
        rw [update_apply] at h
        split at h
        · cases h
          exact ⟨fresh, small⟩
        · exact inv.wish q v h
    | @assigns c op _ sets =>
      have started := fresh_started (fresh i p c op current hand)
      exact inv.restates rfl (fewer_update (idle_fewer _)) sets started.used started.not_embryo
        (target_started op)
    | @launches c udsk _ sets =>
      have before := fresh i p c udsk current hand
      refine inv.restates rfl (fewer_update (idle_fewer _)) sets ?_ ?_ (Or.inl rfl)
      · rcases before with h | h <;> rw [h] <;> exact nofun
      · rcases before with h | h <;> rw [h] <;> exact nofun
    | allocs free sets => exact inv.allocs hand free sets
    | @abandons c _ sets =>
      have takes : (s.hand p).Takes c := hand ▸ rfl
      have room := (inv.fit c).vacant (inv.taken p c takes)
      refine inv.settles takes sets (fun _ => rfl) (fun _ => rfl) ?_ ?_ nofun fun used => absurd rfl used
      · exact room.trans (by decide)
      · exact fun _ => room
    | @publishes c ip w _ sets =>
      have takes : (s.hand p).Takes c := hand ▸ rfl
      obtain ⟨room, small⟩ := inv.wish p w (hand ▸ rfl)
      exact inv.settles takes sets (fun _ => rfl) (fun _ => rfl) small nofun nofun fun _ => room
  | kill cpu =>
    obtain ⟨i, p, k, current, running, sets, rfl⟩ := kill_sets taken
    have own := inv.started current running
    exact inv.restates rfl (fun _ => ⟨fun _ h => h, fun _ h => h⟩) sets own.used own.not_embryo
      (Or.inr (Or.inr rfl))
  | files fs =>
    cases taken
    exact inv.plans rfl (c := 0) ⟨rfl, (Sets.refl 0 s.world.kernel).2⟩ (fun _ _ h => h) inv.wish
  | other l =>
    obtain ⟨w, done, made, changed, rfl⟩ := other_some taken
    have base := Races.step_inv inv.base fresh done
    exact shift_inv inv base rfl fresh (step_shift inv.base done made changed)

theorem sets_legal {k : Kernel} {c : Nat} {f : Census.Charter → Census.Charter}
    (sets : Sets c f s.world.kernel k)
    (legal : (f (charter (s.world.kernel.cont c))).state ≠ (s.world.kernel.cont c).state →
      Legal l (s.world.kernel.cont c).state (f (charter (s.world.kernel.cont c))).state) (d : Nat)
    (changed : (k.cont d).state ≠ (s.world.kernel.cont d).state) :
    Legal l (s.world.kernel.cont d).state (k.cont d).state := by
  by_cases here : d = c
  · subst here
    have state : (k.cont d).state = _ := congrArg Census.Charter.state sets.self
    rw [state] at changed ⊢
    exact legal changed
  · exact absurd (congrArg Census.Charter.state (sets.other here)) changed

theorem kill_legal (started : Started c) (changed : .cstopping ≠ c.state) : Legal l c.state .cstopping := by
  refine Or.inl ?_
  rcases started with h | h | h <;> rw [h] at changed ⊢
  · decide
  · decide
  · exact absurd rfl changed

theorem assign_legal {op : Op} (fresh : c.state ∈ op.source ∨ c.state = op.target)
    (changed : op.target ≠ c.state) : Legal l c.state op.target := by
  have before := fresh.resolve_right fun same => changed same.symm
  refine Or.inl ?_
  cases op
  · rcases List.mem_pair.mp before with h | h <;> rw [h] <;> decide
  · rw [List.mem_singleton.mp before]
    decide
  · rw [List.mem_singleton.mp before]
    decide

theorem shift_legal {l : Races.Label} {w : World} (inv : Inv s) (shift : Shift s.world w l) (d : Nat)
    (changed : (w.kernel.cont d).state ≠ (s.world.kernel.cont d).state) :
    Legal (.other l) (s.world.kernel.cont d).state (w.kernel.cont d).state := by
  cases shift with
  | stays _ _ _ steady => exact absurd (steady d).1 changed
  | stops _ _ _ _ _ steady => exact absurd (steady d).1 changed
  | @leaves cpu i p current _ _ _ _ conts =>
    rcases conts with same | ⟨-, gone, same⟩
    · exact absurd (congrArg (fun conts : Nat → Cont => (conts d).state) same) changed
    · by_cases here : d = i
      · subst here
        have unused : (w.kernel.cont d).state = .cunused := congrArg Census.Charter.state gone
        rw [unused]
        refine Or.inr ⟨⟨cpu, rfl⟩, ?_, rfl⟩
        rcases (inv.manned cpu d p current).1 with h | h | h <;> rw [h] <;> decide
      · exact absurd (congrArg Cont.state (same d here)) changed
  | @visits cpu i _ _ _ _ _ _ moved conts =>
    by_cases here : d = i
    · subst here
      exact absurd (congrArg Census.Charter.state moved) changed
    · exact absurd (congrArg Cont.state (conts d here)) changed

theorem step_legal (inv : Inv s) (fresh : Fresh s l) (taken : step s l = some t) (d : Nat)
    (changed : (t.world.kernel.cont d).state ≠ (s.world.kernel.cont d).state) :
    Legal l (s.world.kernel.cont d).state (t.world.kernel.cont d).state := by
  cases l with
  | part cpu l =>
    obtain ⟨i, p, x, h, k, current, running, next, ended, rfl⟩ := part_some taken
    have stroke := after_spec (part_stroke next) ended
    have own := inv.started current running
    generalize hand : s.hand p = now at stroke
    cases stroke with
    | plans sets _ => exact sets_legal sets (fun same => absurd rfl same) d changed
    | killed sets _ => exact sets_legal sets (kill_legal own) d changed
    | wants _ => exact absurd rfl changed
    | @assigns c op _ sets => exact sets_legal sets (assign_legal (fresh i p c op current hand)) d changed
    | @launches c udsk _ sets =>
      refine sets_legal sets (fun changed => ?_) d changed
      have before := (fresh i p c udsk current hand).resolve_right fun same => changed same.symm
      rw [before]
      exact Or.inl (show (ContState.cready, ContState.crunnable) ∈ changes by decide)
    | allocs free sets =>
      refine sets_legal sets (fun _ => ?_) d changed
      rw [free]
      exact Or.inl (show (ContState.cunused, ContState.cembryo) ∈ changes by decide)
    | @abandons c _ sets =>
      refine sets_legal sets (fun _ => ?_) d changed
      rw [inv.taken p c (hand ▸ rfl)]
      exact Or.inl (show (ContState.cembryo, ContState.cunused) ∈ changes by decide)
    | @publishes c ip w _ sets =>
      refine sets_legal sets (fun _ => ?_) d changed
      rw [inv.taken p c (hand ▸ rfl)]
      exact Or.inl (show (ContState.cembryo, ContState.cready) ∈ changes by decide)
  | kill cpu =>
    obtain ⟨i, p, k, current, running, sets, rfl⟩ := kill_sets taken
    exact sets_legal sets (kill_legal (inv.started current running)) d changed
  | files fs =>
    cases taken
    exact absurd rfl changed
  | other l =>
    obtain ⟨w, done, made, altered, rfl⟩ := other_some taken
    exact shift_legal inv (step_shift inv.base done made altered) d changed

end Steps

/- The machine when userinit has made the first process. -/
structure Booted (s : State) : Prop where
  world : Races.Booted s.world
  hands : ∀ p, s.hand p = .idle

theorem Booted.inv {s : State} (booted : Booted s) : Inv s := by
  have idle (cpu : Nat) {x : Nat × ProcId} : s.world.cpu cpu ≠ some x := by
    rw [booted.world.cpus]
    exact nofun
  have record (c : Nat) : charter (s.world.kernel.cont c) = Census.boot.cont c :=
    congrArg (fun a : Census.State => a.cont c) booted.world.census
  refine ⟨booted.world.inv, fun c => ?_, ?_, ?_, ?_, ?_, ?_⟩
  · rw [record]
    unfold Census.boot
    dsimp only
    split
    · exact ⟨nofun, fun _ _ => by decide, by decide⟩
    · exact ⟨nofun, fun used => absurd rfl used, by decide⟩
  · exact fun cpu i p current => absurd current (idle cpu)
  · exact fun cpu _ _ _ p current => absurd current (idle cpu)
  · intro p c takes
    rw [booted.hands] at takes
    exact takes.elim
  · intro p p' c takes
    rw [booted.hands] at takes
    exact takes.elim
  · intro p w wishes
    rw [booted.hands] at wishes
    exact wishes.elim

/-- In every run in which the tests of the calls still hold when they write, ccreate is
called for at least one process, and the scheduler does not find uproc at zero while a slot
waits to be counted, every change of a container's state is one of those there are to be:
also those by kalloc, balloc, ccreate and cexit, which test nothing. -/
theorem container_states_legal {s t u : State} {ls : List Label} {l : Label} (booted : Booted s)
    (fresh : Along step Fresh s ls) (reached : Lib.exec step s ls = some t) (next : Fresh t l)
    (taken : step t l = some u) (c : Nat)
    (changed : (u.world.kernel.cont c).state ≠ (t.world.kernel.cont c).state) :
    Legal l (t.world.kernel.cont c).state (u.world.kernel.cont c).state := by
  have inv : Inv t := run_invariant (fun _ _ _ inv fresh taken => step_inv inv fresh taken) booted.inv fresh
    reached
  exact step_legal inv next taken c changed

def bootState : State := ⟨bootWorld, fun _ => .idle⟩

theorem bootState_booted : Booted bootState := ⟨bootWorld_booted, fun _ => rfl⟩

def xName : Fs.CStr := ⟨[120], Fs.x_whole⟩

/- The file system when some process has had the directory x open. -/
def openedFs : FileSys :=
  { Fs.smallFs with icache := fun i =>
      if i = 0 then ⟨ROOTINO, 3, false, true, Fs.smallRoot⟩
      else if i = 1 then ⟨2, 2, false, true, Fs.smallInode Fs.T_DIR 48 101⟩
      else Inode.zero }

/- The first process makes a container over x for two processes and starts it. -/
def createLabels : List Label :=
  [.other (.visit 0 0), .part 0 (.want ⟨xName, 2, 0, 100⟩), .part 0 .alloc, .part 0 .lookup]

def startLabels : List Label :=
  createLabels ++ [.part 0 .publish, .files openedFs, .part 0 (.seek xName), .part 0 .size, .part 0 .launch]

/- Then it forks into its own container or into the new one. -/
def forkLabels (into : Option Int) : List Label :=
  [.other (.find 0 into), .other (.check 0), .other (.mark 0), .other (.stack 0 1), .other (.copy 0 1)]

theorem container_states_legal_publish :
    ∃ t u, Lib.exec step bootState createLabels = some t ∧ step t (.part 0 .publish) = some u ∧
      (t.world.kernel.cont 1).state = .cembryo ∧ (u.world.kernel.cont 1).state = .cready ∧
      Legal (.part 0 .publish) (t.world.kernel.cont 1).state (u.world.kernel.cont 1).state := by
  obtain ⟨t, reached, before, u, taken, now⟩ : ∃ t, Lib.exec step bootState createLabels = some t ∧
      (t.world.kernel.cont 1).state = .cembryo ∧ ∃ u, step t (.part 0 .publish) = some u ∧
        (u.world.kernel.cont 1).state = .cready := by decide +kernel
  have fresh : Along step Fresh bootState createLabels := by
    refine ⟨trivial, fun _ _ => ⟨?_, fun _ _ => ⟨trivial, fun _ _ => ⟨trivial, fun _ _ => trivial⟩⟩⟩⟩
    change (1 : Int) ≤ 2
    decide
  have next : Fresh t (.part 0 .publish) := trivial
  refine ⟨t, u, reached, taken, before, now, ?_⟩
  refine container_states_legal bootState_booted fresh reached next taken 1 ?_
  rw [before, now]
  exact nofun

/- cresume tests CPAUSED, cstop makes the container CSTOPPING, and cresume writes CRUNNABLE;
and cstop tests CRUNNABLE, the last process of the container exits, and cstop writes
CSTOPPING into the free slot. -/
theorem stale_tests_write :
    Booted bootState ∧
    (∃ t u, Lib.exec step bootState (startLabels ++ forkLabels none ++ [.other (.visit 1 0),
        .part 0 (.test .pause xName), .part 0 .assign, .part 0 (.test .resume xName),
        .part 1 (.test .stop xName), .part 1 .assign]) = some t ∧ step t (.part 0 .assign) = some u ∧
      (t.world.kernel.cont 1).state = .cstopping ∧ (u.world.kernel.cont 1).state = .crunnable ∧
      ¬ Legal (.part 0 .assign) .cstopping .crunnable) ∧
    ∃ t u, Lib.exec step bootState (startLabels ++ forkLabels (some 2) ++ [.other (.visit 1 1),
        .part 0 (.test .stop xName), .other (.exit 1), .other (.leave 1)]) = some t ∧
      step t (.part 0 .assign) = some u ∧ (t.world.kernel.cont 1).state = .cunused ∧
      (u.world.kernel.cont 1).state = .cstopping ∧ ¬ Legal (.part 0 .assign) .cunused .cstopping := by
  have writes {x : Option State} {a b : ContState} (other : (a, b) ∉ changes)
      (ran : ∃ t, x = some t ∧ (t.world.kernel.cont 1).state = a ∧ ∃ u, step t (.part 0 .assign) = some u ∧
        (u.world.kernel.cont 1).state = b) :
      ∃ t u, x = some t ∧ step t (.part 0 .assign) = some u ∧ (t.world.kernel.cont 1).state = a ∧
        (u.world.kernel.cont 1).state = b ∧ ¬ Legal (.part 0 .assign) a b := by
    obtain ⟨t, reached, before, u, taken, now⟩ := ran
    refine ⟨t, u, reached, taken, before, now, ?_⟩
    rintro (listed | ⟨⟨cpu, same⟩, -⟩)
    · exact other listed
    · cases same
  refine ⟨bootState_booted, ?_, ?_⟩
  · exact writes (by decide) (by decide +kernel)
  · exact writes (by decide) (by decide +kernel)

end Xv6c.Control

import Xv6c.Lib.Machine

/-! Data under a spin lock, with threads that sleep until the data lets them go on. A thread
locks the table of threads before it gives up the lock of the data to sleep, and the table is
locked while sleepers are woken. -/
namespace Xv6c.Lib
open Function

/- A client in state k makes the calls of may k. A call sleeps on a channel while it is blocked;
then it acts, may wake the sleepers of a channel, and leaves the client in another state. -/
structure Monitor (D J K C : Type) where
  may : K → J → Bool
  blocked : J → D → Bool
  act : J → D → D
  after : K → J → D → K
  wakes : J → D → Option C
  chan : J → C
  /- A call that frees a blocked one wakes it. -/
  signals : ∀ i j d, blocked i d = false → blocked j d = true →
    blocked j (act i d) = true ∨ wakes i d = some (chan j)

namespace Monitor

/- Where a call stands until it acts. -/
inductive Stage where
  | entering
  /- The thread has the lock. -/
  | testing
  /- It is to sleep, and has the lock, both locks, and then the table. -/
  | parking
  | parked
  | dozing
  | asleep
  | ready
  /- It runs again and has the table. -/
  | resuming
  deriving DecidableEq

variable {D J K C : Type}

inductive Place (m : Monitor D J K C) where
  | outside (k : K)
  | waits (k : K) (j : J) (allowed : m.may k j = true) (x : Stage)
  /- The thread has the lock, with sleepers to wake or none. -/
  | acted (k : K) (wake : Option C)
  /- The thread has both locks. -/
  | waking (k : K) (c : C)

variable {m : Monitor D J K C}

namespace Place

def client : Place m → K
  | outside k | waits k _ _ _ | acted k _ | waking k _ => k

def locks : Place m → Bool
  | outside _ => false
  | waits _ _ _ x => x ∈ [.testing, .parking, .parked]
  | _ => true

def tables : Place m → Bool
  | waits _ _ _ x => x ∈ [.parked, .dozing, .resuming]
  | waking _ _ => true
  | _ => false

/- The call that sleeps or is to sleep. -/
def naps : Place m → Option J
  | waits _ j _ x => if x ∈ [.parking, .parked, .dozing, .asleep] then some j else none
  | _ => none

/- The channel whose sleepers are about to be woken. -/
def alarm : Place m → Option C
  | acted _ wake => wake
  | waking _ c => some c
  | _ => none

end Place

/- A thread makes a call, goes on, or is made to run although nobody has woken it. -/
inductive Act (J : Type) where
  | call (j : J)
  | run
  | kick

/- The next place of a thread, and the data then. -/
def next (d : D) : Act J → Place m → Option (Place m × D)
  | .call j, .outside k => if allowed : m.may k j = true then some (.waits k j allowed .entering, d) else none
  | .kick, .waits k j h .asleep => some (.waits k j h .ready, d)
  | .run, .waits k j h .entering => some (.waits k j h .testing, d)
  | .run, .waits k j h .testing =>
    if m.blocked j d then some (.waits k j h .parking, d)
    else some (.acted (m.after k j d) (m.wakes j d), m.act j d)
  | .run, .waits k j h .parking => some (.waits k j h .parked, d)
  | .run, .waits k j h .parked => some (.waits k j h .dozing, d)
  | .run, .waits k j h .dozing => some (.waits k j h .asleep, d)
  | .run, .waits k j h .ready => some (.waits k j h .resuming, d)
  | .run, .waits k j h .resuming => some (.waits k j h .entering, d)
  | .run, .acted k (some c) => some (.waking k c, d)
  | .run, .waking k _ => some (.acted k none, d)
  | .run, .acted k none => some (.outside k, d)
  | _, _ => none

structure State (T : Type) (m : Monitor D J K C) where
  data : D
  lock : Option T
  table : Option T
  place : T → Place m

variable {T : Type}

def start (m : Monitor D J K C) (d : D) (k : K) : State T m := ⟨d, none, none, fun _ => .outside k⟩

/- A lock that thread t had or not, and is to have or not. -/
def pass (had has : Bool) (t : T) (lock : Option T) : Option (Option T) :=
  if had = has then some lock
  else if has then if lock = none then some (some t) else none
  else some none

/- What a thread at q becomes when another at p goes on. -/
def rouse [DecidableEq C] : Place m → Place m → Place m
  | .waking _ c, .waits k j h .asleep => .waits k j h (if m.chan j = c then .ready else .asleep)
  | _, q => q

def step [DecidableEq T] [DecidableEq C] (m : Monitor D J K C) (s : State T m) : T × Act J → Option (State T m)
  | (t, a) => do
    let (p, d) ← next s.data a (s.place t)
    let lock ← pass (s.place t).locks p.locks t s.lock
    let table ← pass (s.place t).tables p.tables t s.table
    pure ⟨d, lock, table, update (fun u => rouse (s.place t) (s.place u)) t p⟩

/- A lock belongs to the one thread that is where it has it. -/
def Exact (owner : Option T) (has : T → Bool) : Prop := ∀ t, owner = some t ↔ has t = true

structure Inv (s : State T m) : Prop where
  lock : Exact s.lock fun t => (s.place t).locks
  table : Exact s.table fun t => (s.place t).tables
  /- Whoever sleeps on data that lets it go on is about to be woken. -/
  alert : ∀ t j, (s.place t).naps = some j → m.blocked j s.data = true ∨ ∃ u, (s.place u).alarm = some (m.chan j)

variable {d d' : D} {a : Act J} {p q : Place m}

/- A call acts, or nothing changes but where the thread stands. -/
theorem next_cases (goes : next d a q = some (p, d')) :
    (∃ k j h, q = .waits k j h .testing ∧ m.blocked j d = false ∧ p = .acted (m.after k j d) (m.wakes j d) ∧
      d' = m.act j d) ∨
    d' = d ∧ p.client = q.client ∧ (p.alarm = q.alarm ∨ ∃ k c, q = .waking k c) ∧
      ∀ j, p.naps = some j → m.blocked j d = true ∨ q.naps = some j := by
  unfold next at goes
  split at goes
  all_goals try split at goes
  all_goals cases goes
  all_goals simp_all [Place.client, Place.alarm, Place.naps]

theorem alarm_locks {c : C} (alarm : q.alarm = some c) : q.locks = true := by
  cases q with
  | acted | waking => rfl
  | _ => cases alarm

theorem Exact.unique {owner : Option T} {has : T → Bool} {t u : T} (exact : Exact owner has) (one : has t = true)
    (two : has u = true) : t = u :=
  Option.some.inj (((exact t).mpr one).symm.trans ((exact u).mpr two))

theorem pass_exact {had has : T → Bool} {t : T} {lock lock' : Option T} (exact : Exact lock had)
    (passed : pass (had t) (has t) t lock = some lock') (others : ∀ u, u ≠ t → has u = had u) : Exact lock' has := by
  intro u
  have old := exact t
  have here := exact u
  unfold pass at passed
  obtain rfl | apart := eq_or_ne u t
  · grind
  · rw [others u apart]
    grind

theorem start_inv (d : D) (k : K) : Inv (m.start d k : State T m) where
  lock t := by simp [start, Place.locks]
  table t := by simp [start, Place.tables]
  alert t j nap := by simp [start, Place.naps] at nap

/- The owner of the table can always go on, and then the owner of the lock. -/
theorem next_run (d : D) (q : Place m) : (q.tables = false ∧ q.locks = false ∧
    ((∃ k, q = .outside k) ∨ ∃ k j h, q = .waits k j h .asleep)) ∨
    ∃ p d', next d .run q = some (p, d') ∧ (p.locks = true → q.tables = true → q.locks = true) := by
  cases q with
  | outside k => exact .inl ⟨rfl, rfl, .inl ⟨k, rfl⟩⟩
  | waits k j h x =>
    cases x with
    | asleep => exact .inl ⟨rfl, rfl, .inr ⟨k, j, h, rfl⟩⟩
    | testing =>
      refine .inr ?_
      simp only [next]
      split <;> exact ⟨_, _, rfl, fun _ _ => rfl⟩
    | _ => exact .inr ⟨_, _, rfl, by simp [Place.tables, Place.locks]⟩
  | acted k wake => cases wake <;> exact .inr ⟨_, _, rfl, fun _ _ => rfl⟩
  | _ => exact .inr ⟨_, _, rfl, fun _ _ => rfl⟩

variable [DecidableEq C]

theorem rouse_same (p q : Place m) : (rouse p q).locks = q.locks ∧ (rouse p q).tables = q.tables ∧
    (rouse p q).client = q.client ∧ (rouse p q).alarm = q.alarm := by
  unfold rouse
  split
  · split <;> exact ⟨rfl, rfl, rfl, rfl⟩
  · exact ⟨rfl, rfl, rfl, rfl⟩

/- A thread that is not yet asleep when the table is locked has a lock. -/
theorem rouse_naps {j : J} (naps : (rouse p q).naps = some j) : q.naps = some j ∧
    ∀ k, p = .waking k (m.chan j) → q.locks = true ∨ q.tables = true := by
  cases q with
  | waits k i h x =>
    cases p <;> cases x <;> simp_all [rouse, Place.naps, Place.locks, Place.tables]
    grind
  | _ => cases p <;> cases naps

variable [DecidableEq T] {s s' : State T m} {t : T}

theorem step_cases (taken : m.step s (t, a) = some s') : next s.data a (s.place t) = some (s'.place t, s'.data) ∧
    pass (s.place t).locks (s'.place t).locks t s.lock = some s'.lock ∧
    pass (s.place t).tables (s'.place t).tables t s.table = some s'.table ∧
    ∀ u, u ≠ t → s'.place u = rouse (s.place t) (s.place u) := by
  simp only [step, Option.bind_eq_bind, Option.bind_eq_some_iff] at taken
  obtain ⟨⟨p, d⟩, goes, lock, locked, table, tabled, same⟩ := taken
  cases same
  simp only [update_self]
  exact ⟨goes, locked, tabled, fun u ne => update_of_ne ne _ _⟩

/- What the clients see: the data and their own states. -/
def State.view (s : State T m) : D × (T → K) := (s.data, fun t => (s.place t).client)

/- A call as one step. -/
def Atomic (m : Monitor D J K C) (x y : D × (T → K)) : Prop := ∃ t j, m.may (x.2 t) j = true ∧
  m.blocked j x.1 = false ∧ y = (m.act j x.1, update x.2 t (m.after (x.2 t) j x.1))

theorem quiet_alert {u : T} {j : J} (inv : Inv s) (others : ∀ u, u ≠ t → s'.place u = rouse (s.place t) (s.place u))
    (alarm : (s'.place t).alarm = (s.place t).alarm ∨ ∃ k c, s.place t = .waking k c)
    (nap : (s'.place u).naps = some j) (napped : (s.place u).naps = some j) :
    m.blocked j s.data = true ∨ ∃ v, (s'.place v).alarm = some (m.chan j) := by
  refine (inv.alert u j napped).imp_right ?_
  rintro ⟨v, rings⟩
  by_cases at_t : v = t
  · rw [at_t] at rings
    obtain alarm | ⟨k, c, waking⟩ := alarm
    · exact ⟨t, alarm.trans rings⟩
    -- The sleepers wake now, and who is not yet asleep has a lock that this thread has.
    cases Option.some.inj ((congrArg Place.alarm waking).symm.trans rings)
    have apart : u ≠ t := by
      rintro rfl
      rw [waking] at napped
      cases napped
    rw [others u apart] at nap
    obtain locks | tables := (rouse_naps nap).2 k waking
    · exact absurd (inv.lock.unique locks (congrArg Place.locks waking)) apart
    · exact absurd (inv.table.unique tables (congrArg Place.tables waking)) apart
  · exact ⟨v, by rw [others v at_t, (rouse_same _ _).2.2.2, rings]⟩

variable {P : D × (T → K) → Prop}

theorem step_inv (preserves : ∀ x y, P x → Atomic m x y → P y) (old : Inv s ∧ P s.view)
    (taken : m.step s (t, a) = some s') : Inv s' ∧ P s'.view := by
  obtain ⟨goes, locked, tabled, others⟩ := step_cases taken
  obtain ⟨inv, holds⟩ := old
  have same : ∀ u, u ≠ t → _ := fun u ne => others u ne ▸ rouse_same (s.place t) (s.place u)
  have lock := pass_exact inv.lock locked fun u ne => (same u ne).1
  have table := pass_exact inv.table tabled fun u ne => (same u ne).2.1
  have view (k) (after : (s'.place t).client = k) : s'.view = (s'.data, update s.view.2 t k) :=
    Prod.ext rfl (eq_update_iff.mpr ⟨after, fun u ne => (same u ne).2.2.1⟩)
  obtain ⟨k, j, allowed, testing, free, acts, data⟩ | ⟨data, client, alarm, naps⟩ := next_cases goes
  · have client : s.view.2 t = k := congrArg Place.client testing
    refine ⟨⟨lock, table, fun u j' nap => ?_⟩, preserves _ _ holds ⟨t, j, client.symm ▸ allowed, free, ?_⟩⟩
    · have apart : u ≠ t := by
        rintro rfl
        rw [acts] at nap
        cases nap
      rw [others u apart] at nap
      obtain blocked | ⟨v, alarm⟩ := inv.alert u j' (rouse_naps nap).1
      · rw [data]
        refine (m.signals j j' s.data free blocked).imp_right fun wakes => ⟨t, ?_⟩
        rw [acts]
        exact wakes
      -- No other thread is about to wake sleepers while this one has the lock.
      · rw [inv.lock.unique (alarm_locks alarm) (congrArg Place.locks testing), testing] at alarm
        cases alarm
    · rw [client, view _ (congrArg Place.client acts), data]
      rfl
  · refine ⟨⟨lock, table, fun u j nap => ?_⟩, ?_⟩
    · rw [data]
      by_cases at_t : u = t
      · exact (naps j (at_t ▸ nap)).elim .inl fun napped => quiet_alert inv others alarm nap (at_t ▸ napped)
      · exact quiet_alert inv others alarm nap (rouse_naps (others u at_t ▸ nap)).1
    · have kept : update s.view.2 t (s.place t).client = s.view.2 := update_eq_self t s.view.2
      rw [view _ client, data, kept]
      exact holds

/-- What the calls preserve as single steps holds in every state of the threads. -/
theorem reached_inv {k : K} {ls : List (T × Act J)} (preserves : ∀ x y, P x → Atomic m x y → P y)
    (initial : P (d, fun _ => k)) (reached : exec m.step (m.start d k) ls = some s) : Inv s ∧ P s.view := by
  exact run_invariant (fun _ _ _ old _ => step_inv preserves old) (And.intro (start_inv d k) initial)
    (along_true _ _) reached

/- Nobody can go on. -/
def State.Still (s : State T m) : Prop := ∀ t, m.step s (t, .run) = none

theorem still_cases (still : s.Still) (t : T) : (s.place t).tables = false ∧ (s.table = none →
    (s.place t).locks = false ∧ (s.lock = none → (∃ k, s.place t = .outside k) ∨
      ∃ k j h, s.place t = .waits k j h .asleep)) := by
  obtain ⟨tables, locks, rests⟩ | ⟨p, d, goes, free⟩ := next_run s.data (s.place t)
  · exact ⟨tables, fun _ => ⟨locks, fun _ => rests⟩⟩
  · have none := still t
    simp only [step, goes, pass] at none
    grind

/-- Where nobody can go on, every thread is outside or sleeps for a good reason. -/
theorem still_places (inv : Inv s) (still : s.Still) (t : T) : (∃ k, s.place t = .outside k) ∨
    ∃ k j h, s.place t = .waits k j h .asleep ∧ m.blocked j s.data = true := by
  have table : s.table = none := Option.eq_none_iff_forall_ne_some.mpr fun u owner =>
    absurd ((inv.table u).mp owner) (by simp [(still_cases still u).1])
  have lock : s.lock = none := Option.eq_none_iff_forall_ne_some.mpr fun u owner =>
    absurd ((inv.lock u).mp owner) (by simp [((still_cases still u).2 table).1])
  obtain out | ⟨k, j, h, asleep⟩ := ((still_cases still t).2 table).2 lock
  · exact .inl out
  · refine .inr ⟨k, j, h, asleep, (inv.alert t j (congrArg Place.naps asleep)).resolve_right ?_⟩
    rintro ⟨u, alarm⟩
    rw [(inv.lock u).mpr (alarm_locks alarm)] at lock
    cases lock

end Monitor
end Xv6c.Lib

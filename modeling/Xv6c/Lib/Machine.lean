import Mathlib.Tactic.Common

/-! Deterministic labelled machines. A label that is not enabled in a state has
no successor, so a run is a list of labels that all succeed. The rules below are
the only inductions over runs that the rest of the development uses. -/
namespace Xv6c.Lib

def exec {S L : Type} (step : S → L → Option S) (s : S) : List L → Option S
  | [] => some s
  | l :: ls => (step s l).bind (fun t => exec step t ls)

/- Where a computation ends can be computed. -/
instance decidableEnds {A : Type} (x : Option A) (P : A → Prop) [DecidablePred P] : Decidable (∃ a, x = some a ∧ P a) :=
  match x with
  | none => isFalse nofun
  | some a => decidable_of_iff (P a) ⟨fun h => ⟨a, rfl, h⟩, fun ⟨_, same, h⟩ => Option.some.inj same ▸ h⟩

/- Every step of the run from s along the labels meets ok in the state before it. -/
def Along {S L : Type} (step : S → L → Option S) (ok : S → L → Prop) (s : S) : List L → Prop
  | [] => True
  | l :: ls => ok s l ∧ ∀ t, step s l = some t → Along step ok t ls

variable {S L : Type} {s : S} {ls : List L} {step : S → L → Option S}

/- A step behind a test. -/
theorem guarded {t : S} {c : Prop} [Decidable c] (taken : (if c then some s else none) = some t) :
    c ∧ s = t := by
  simpa using taken

theorem exec_cons {u : S} {l : L} (reached : exec step s (l :: ls) = some u) :
    ∃ t, step s l = some t ∧ exec step t ls = some u := by
  simpa only [exec, Option.bind_eq_some_iff] using reached

theorem exec_append (step : S → L → Option S) (s : S) (ls ks : List L) :
    exec step s (ls ++ ks) = (exec step s ls).bind (fun t => exec step t ks) := by
  induction ls generalizing s with
  | nil => rfl
  | cons l ls ih =>
    simp only [List.cons_append, exec, Option.bind_assoc, ih]

variable {p : S → L → Prop}

theorem along_mono {q : S → L → Prop} (weaker : ∀ s l, p s l → q s l) (all : Along step p s ls) :
    Along step q s ls := by
  induction ls generalizing s with
  | nil => trivial
  | cons l ls ih => exact ⟨weaker s l all.1, fun t ht => ih (all.2 t ht)⟩

theorem along_and {q : S → L → Prop} (first : Along step p s ls) (second : Along step q s ls) :
    Along step (fun s l => p s l ∧ q s l) s ls := by
  induction ls generalizing s with
  | nil => trivial
  | cons l ls ih => exact ⟨⟨first.1, second.1⟩, fun t ht => ih (first.2 t ht) (second.2 t ht)⟩

theorem along_of_forall (each : ∀ l ∈ ls, ∀ s, p s l) (s : S) : Along step p s ls := by
  induction ls generalizing s with
  | nil => trivial
  | cons l ls ih =>
    exact ⟨each l List.mem_cons_self s,
      fun t _ => ih (fun k hk => each k (List.mem_cons_of_mem _ hk)) t⟩

variable {t : S}

theorem along_append {ks : List L} (first : Along step p s ls) (reached : exec step s ls = some t)
    (second : Along step p t ks) : Along step p s (ls ++ ks) := by
  induction ls generalizing s with
  | nil => cases reached; exact second
  | cons l ls ih =>
    obtain ⟨u, hu, ht⟩ := exec_cons reached
    refine ⟨first.1, fun v hv => ?_⟩
    cases hu.symm.trans hv
    exact ih (first.2 u hu) ht

/- Along for a decidable condition, by running the machine. -/
def checks {S L : Type} (step : S → L → Option S) (ok : S → L → Prop) [∀ s l, Decidable (ok s l)]
    (s : S) : List L → Bool
  | [] => true
  | l :: ls => decide (ok s l) && match step s l with
    | some t => checks step ok t ls
    | none => true

variable {ok : S → L → Prop}

theorem along_of_checks [∀ s l, Decidable (ok s l)] (pass : checks step ok s ls = true) :
    Along step ok s ls := by
  induction ls generalizing s with
  | nil => trivial
  | cons l ls ih =>
    simp only [checks, Bool.and_eq_true, decide_eq_true_eq] at pass
    refine ⟨pass.1, fun t ht => ih ?_⟩
    simpa only [ht] using pass.2

variable {inv : S → Prop}

/-- What one step preserves under its side condition, a whole run preserves. -/
theorem run_invariant (preserves : ∀ s l t, inv s → ok s l → step s l = some t → inv t) {s t : S}
    (initial : inv s) (all : Along step ok s ls) (reached : exec step s ls = some t) : inv t := by
  induction ls generalizing s with
  | nil => cases Option.some.inj reached; exact initial
  | cons l ls ih =>
    obtain ⟨u, hu, ht⟩ := exec_cons reached
    exact ih (preserves s l u initial all.1 hu) (all.2 u hu) ht

/- Where a step keeps the invariant just when it meets the side condition, the steps of a run
all meet it just when the invariant holds after each of them. -/
theorem along_iff_prefixes (exact : ∀ s l t, inv s → step s l = some t → (inv t ↔ ok s l)) (initial : inv s)
    (reached : exec step s ls = some t) :
    Along step ok s ls ↔ ∀ ks u, ks <+: ls → exec step s ks = some u → inv u := by
  constructor
  · rintro all ks u ⟨rest, rfl⟩ part
    induction ks generalizing s with
    | nil =>
      cases part
      exact initial
    | cons l ks ih =>
      obtain ⟨v, taken, part⟩ := exec_cons part
      obtain ⟨v', taken', reached⟩ := exec_cons reached
      cases taken.symm.trans taken'
      exact ih ((exact s l v initial taken).mpr all.1) reached (all.2 v taken) part
  · intro always
    induction ls generalizing s with
    | nil => trivial
    | cons l ls ih =>
      obtain ⟨v, taken, reached⟩ := exec_cons reached
      have kept : inv v := always [l] v ⟨ls, rfl⟩ (by simp only [exec, taken, Option.bind_some])
      refine ⟨(exact s l v initial taken).mp kept, fun v' taken' => ?_⟩
      cases taken.symm.trans taken'
      refine ih kept reached fun ks u part run => always (l :: ks) u (List.prefix_cons_inj l |>.mpr part) ?_
      simpa only [exec, taken, Option.bind_some] using run

theorem along_true (s : S) (ls : List L) : Along step (fun _ _ => True) s ls := along_of_forall (fun _ _ _ => trivial) s

/- What an invariant implies of every step holds along every run whose steps keep it. -/
theorem along_under (inv : S → Prop) (implies : ∀ s l, inv s → ok s l → p s l)
    (preserves : ∀ s l t, inv s → ok s l → step s l = some t → inv t) (initial : inv s)
    (all : Along step ok s ls) : Along step p s ls := by
  induction ls generalizing s with
  | nil => trivial
  | cons l ls ih =>
    exact ⟨implies s l initial all.1, fun t ht => ih (preserves s l t initial all.1 ht) (all.2 t ht)⟩

theorem along_invariant (inv : S → Prop) (implies : ∀ s l, inv s → p s l)
    (preserves : ∀ s l t, inv s → step s l = some t → inv t) (initial : inv s) (ls : List L) : Along step p s ls :=
  along_under inv (fun s l h _ => implies s l h) (fun s l t h _ => preserves s l t h) initial (along_true s ls)

/- The same for an invariant that also speaks of the labels so far. -/
theorem run_history {inv : List L → S → Prop}
    (preserves : ∀ ks s l t, inv ks s → ok s l → step s l = some t → inv (ks ++ [l]) t) {ks : List L}
    (initial : inv ks s) (all : Along step ok s ls) (reached : exec step s ls = some t) : inv (ks ++ ls) t := by
  induction ls generalizing s ks with
  | nil => cases Option.some.inj reached; simpa using initial
  | cons l ls ih =>
    obtain ⟨u, hu, ht⟩ := exec_cons reached
    simpa using ih (preserves ks s l u initial all.1 hu) (all.2 u hu) ht

/- The number of steps of a run that are of some kind. -/
def tally {S L : Type} (step : S → L → Option S) (kind : S → L → Bool) (s : S) : List L → Nat
  | [] => 0
  | l :: ls => (kind s l).toNat + (step s l).elim 0 fun t => tally step kind t ls

theorem tally_cons {kind : S → L → Bool} {l : L} (taken : step s l = some t) (ls : List L) :
    tally step kind s (l :: ls) = (kind s l).toNat + tally step kind t ls := by
  simp only [tally, taken, Option.elim_some]

/- Two kinds of steps whose difference is the change of a potential of the state. -/
theorem tally_difference {one two : S → L → Bool} {potential : S → Int}
    (each : ∀ s l t, inv s → ok s l → step s l = some t →
      inv t ∧ ((one s l).toNat : Int) - (two s l).toNat = potential t - potential s) {s t : S}
    (initial : inv s) (all : Along step ok s ls) (reached : exec step s ls = some t) : inv t ∧
    (tally step one s ls : Int) - tally step two s ls = potential t - potential s := by
  induction ls generalizing s with
  | nil =>
    cases Option.some.inj reached
    exact ⟨initial, by simp [tally]⟩
  | cons l ls ih =>
    obtain ⟨u, hu, ht⟩ := exec_cons reached
    obtain ⟨kept, first⟩ := each s l u initial all.1 hu
    obtain ⟨last, rest⟩ := ih kept (all.2 u hu) ht
    refine ⟨last, ?_⟩
    rw [tally_cons hu, tally_cons hu]
    push_cast
    omega

/- Runs of a nondeterministic specification over the same labels. -/
inductive Trace {A L : Type} (next : A → L → A → Prop) : A → List L → A → Prop where
  | nil (a : A) : Trace next a [] a
  | cons {a b c : A} {l : L} {ls : List L} :
      next a l b → Trace next b ls c → Trace next a (l :: ls) c

/-- Forward simulation: each step of the machine is answered by a step of the
specification with the same label, so each run is a run of the specification. -/
theorem run_simulation {A : Type} {next : A → L → A → Prop} {rel : S → A → Prop}
    (answers : ∀ s a l t, rel s a → ok s l → step s l = some t → ∃ b, next a l b ∧ rel t b) {a : A}
    (initial : rel s a) (all : Along step ok s ls) (reached : exec step s ls = some t) :
    ∃ b, Trace next a ls b ∧ rel t b := by
  induction ls generalizing s a with
  | nil =>
    cases Option.some.inj reached
    exact ⟨a, .nil a, initial⟩
  | cons l ls ih =>
    obtain ⟨u, hu, ht⟩ := exec_cons reached
    obtain ⟨b, hb, hr⟩ := answers s a l u initial all.1 hu
    obtain ⟨c, hc, hrc⟩ := ih hr (all.2 u hu) ht
    exact ⟨c, .cons hb hc, hrc⟩

theorem trace_invariant {A : Type} {next : A → L → A → Prop} (inv : A → Prop)
    (preserves : ∀ a l b, inv a → next a l b → inv b) {a b : A} (initial : inv a) (run : Trace next a ls b) :
    inv b := by
  induction run with
  | nil => exact initial
  | cons hn _ ih => exact ih (preserves _ _ _ initial hn)

end Xv6c.Lib

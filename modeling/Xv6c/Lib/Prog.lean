import Mathlib.Logic.Relation
import Mathlib.Tactic.Common

/-! Sequential programs over a state, and what holds when they are done. A program
reports events on its way and ends with a value and a new state, or in a fault
after which nothing runs. The weakest precondition is taken in a mode: the events
a run may report for anything to be owed, what is owed of each event, and the
faults it may end in. -/
namespace Xv6c.Lib

/- Every entry of a table is related to what it was when the one that changes is. -/
theorem update_related {I V : Type} [DecidableEq I] {t : I → V} {i : I} {v : V} {R : V → V → Prop}
    (refl : ∀ v, R v v) (here : R (t i) v) (j : I) : R (t j) (Function.update t i v j) := by
  obtain rfl | other := eq_or_ne j i
  · rwa [Function.update_self]
  · rw [Function.update_of_ne other]
    exact refl _

theorem update_same {I V W : Type} [DecidableEq I] {t : I → V} {i : I} {v : V} {g : V → W}
    (same : g v = g (t i)) (j : I) : g (Function.update t i v j) = g (t j) :=
  update_related (R := fun u v => g v = g u) (fun _ => rfl) same j

def Prog (E F S A : Type) : Type := S → List E × Except F (A × S)

namespace Prog

variable {D E F S T A B : Type}

protected def pure (a : A) : Prog E F S A := fun s => ([], .ok (a, s))

protected def bind (x : Prog E F S A) (f : A → Prog E F S B) : Prog E F S B := fun s =>
  match x s with
  | (es, .ok (a, t)) => (es ++ (f a t).1, (f a t).2)
  | (es, .error e) => (es, .error e)

instance : Monad (Prog E F S) where
  pure := Prog.pure
  bind := Prog.bind

instance : LawfulMonad (Prog E F S) :=
  LawfulMonad.mk' (Prog E F S)
    (fun x => by
      funext s
      change Prog.bind x (fun a => Prog.pure (id a)) s = x s
      unfold Prog.bind Prog.pure
      rcases x s with ⟨es, _ | ⟨a, t⟩⟩ <;> simp)
    (fun _ _ => rfl)
    (fun x f g => by
      funext s
      change Prog.bind (Prog.bind x f) g s = Prog.bind x (fun a => Prog.bind (f a) g) s
      unfold Prog.bind
      rcases x s with ⟨es, _ | ⟨a, t⟩⟩
      · rfl
      · dsimp only
        rcases f a t with ⟨es', _ | ⟨b, u⟩⟩ <;> simp)

def get : Prog E F S S := fun s => ([], .ok (s, s))
def modify (f : S → S) : Prog E F S Unit := fun s => ([], .ok ((), f s))
def fault (e : F) : Prog E F S A := fun _ => ([], .error e)
def emit (e : E) : Prog E F S Unit := fun s => ([e], .ok ((), s))

theorem get_bind (f : S → Prog E F S A) (s : S) : (get >>= f) s = f s s := rfl

/- A program over a part T of the state S, whose events are some of those over S. -/
def zoom (note : D → E) (view : S → T) (put : S → T → S) (x : Prog D F T A) : Prog E F S A := fun s =>
  match x (view s) with
  | (es, .ok (a, t)) => (es.map note, .ok (a, put s t))
  | (es, .error e) => (es.map note, .error e)

/- The fault that a run ends in. -/
def faultOf (x : Prog E F S A) (s : S) : Option F :=
  match (x s).2 with
  | .ok _ => none
  | .error e => some e

/- A run that ends, with a value and a state that pass a test. -/
def passes (x : Prog E F S A) (s : S) (test : A → S → Bool) : Bool :=
  match (x s).2 with
  | .ok (a, t) => test a t
  | .error _ => false

end Prog

structure Mode (E F : Type) where
  good : E → Prop
  owes : E → Prop
  fails : F → Prop

/- The mode for the events of a part. -/
def Mode.comap {D E F : Type} (M : Mode E F) (note : D → E) : Mode D F :=
  ⟨fun e => M.good (note e), fun e => M.owes (note e), M.fails⟩

variable {D E F S T A B : Type} {M : Mode E F}

/- If all events of the run are good, then each is as owed, and the run ends with a
value and a state in Q, or in a fault that the mode admits. -/
def wp (M : Mode E F) (x : Prog E F S A) (Q : A → S → Prop) (s : S) : Prop :=
  (∀ e ∈ (x s).1, M.good e) → (∀ e ∈ (x s).1, M.owes e) ∧
    match (x s).2 with
    | .ok (a, t) => Q a t
    | .error f => M.fails f

variable {Q : A → S → Prop} {s : S}

theorem wp_pure {a : A} (h : Q a s) : wp M (pure a : Prog E F S A) Q s :=
  fun _ => ⟨fun _ he => (nomatch he), h⟩

variable {x : Prog E F S A} {f : A → Prog E F S B}

theorem wp_bind {Q : B → S → Prop} (h : wp M x (fun a t => wp M (f a) Q t) s) : wp M (x >>= f) Q s := by
  change wp M (Prog.bind x f) Q s
  unfold wp Prog.bind at *
  rcases hx : x s with ⟨es, r⟩
  rw [hx] at h
  cases r with
  | error e => exact h
  | ok p =>
    obtain ⟨a, t⟩ := p
    simp only [List.mem_append]
    intro good
    obtain ⟨first, rest⟩ := h (fun e he => good e (Or.inl he))
    obtain ⟨second, holds⟩ := rest (fun e he => good e (Or.inr he))
    exact ⟨fun e he => he.elim (first e) (second e), holds⟩

/- A rule for a program followed by others also serves when nothing follows. -/
theorem wp_last (h : wp M (x >>= pure) Q s) : wp M x Q s := by
  rwa [bind_pure] at h

theorem wp_mono {R : A → S → Prop} (h : wp M x Q s) (weaker : ∀ a t, Q a t → R a t) : wp M x R s := by
  intro good
  obtain ⟨owed, holds⟩ := h good
  refine ⟨owed, ?_⟩
  split at holds
  · exact weaker _ _ holds
  · exact holds

/- The rule for sequencing: a specification of the first program, then the rest from
what it guarantees. -/
theorem wp_seq {P : A → S → Prop} {Q : B → S → Prop} (first : wp M x P s) (rest : ∀ a t, P a t → wp M (f a) Q t) :
    wp M (x >>= f) Q s :=
  wp_bind (wp_mono first rest)

theorem wp_and {R : A → S → Prop} (h : wp M x Q s) (k : wp M x R s) : wp M x (fun a t => Q a t ∧ R a t) s := by
  intro good
  obtain ⟨owed, left⟩ := h good
  obtain ⟨_, right⟩ := k good
  refine ⟨owed, ?_⟩
  revert left right
  split
  · exact fun left right => ⟨left, right⟩
  · exact fun left _ => left

theorem wp_get {Q : S → S → Prop} (h : Q s s) : wp M (Prog.get : Prog E F S S) Q s :=
  fun _ => ⟨fun _ he => (nomatch he), h⟩

theorem wp_modify {f : S → S} {Q : Unit → S → Prop} (h : Q () (f s)) :
    wp M (Prog.modify f : Prog E F S Unit) Q s :=
  fun _ => ⟨fun _ he => (nomatch he), h⟩

variable {e : F}

theorem wp_fault (h : M.fails e) : wp M (Prog.fault e : Prog E F S A) Q s :=
  fun _ => ⟨fun _ he => (nomatch he), h⟩

theorem wp_emit {e : E} {Q : Unit → S → Prop} (h : M.good e → M.owes e ∧ Q () s) :
    wp M (Prog.emit e : Prog E F S Unit) Q s := by
  intro good
  obtain ⟨owed, holds⟩ := h (good e List.mem_cons_self)
  exact ⟨fun d hd => List.mem_singleton.mp hd ▸ owed, holds⟩

theorem wp_get_bind {f : S → Prog E F S B} {Q : B → S → Prop} (h : wp M (f s) Q s) :
    wp M (Prog.get >>= f) Q s :=
  wp_bind (wp_get h)

theorem wp_modify_bind {g : S → S} {f : Unit → Prog E F S B} {Q : B → S → Prop} (h : wp M (f ()) Q (g s)) :
    wp M (Prog.modify g >>= f) Q s :=
  wp_bind (wp_modify h)

theorem wp_emit_bind {e : E} {f : Unit → Prog E F S B} {Q : B → S → Prop}
    (h : M.good e → M.owes e ∧ wp M (f ()) Q s) : wp M (Prog.emit e >>= f) Q s :=
  wp_bind (wp_emit h)

theorem wp_zoom {note : D → E} {view : S → T} {put : S → T → S} {x : Prog D F T A}
    (h : wp (M.comap note) x (fun a t => Q a (put s t)) (view s)) : wp M (Prog.zoom note view put x) Q s := by
  unfold wp Prog.zoom at *
  rcases hx : x (view s) with ⟨es, r⟩
  rw [hx] at h
  cases r with
  | error e =>
    simp only [List.mem_map, forall_exists_index, and_imp, forall_apply_eq_imp_iff₂]
    exact h
  | ok p =>
    simp only [List.mem_map, forall_exists_index, and_imp, forall_apply_eq_imp_iff₂]
    exact h

/- Where nothing is owed and every fault admitted, a program does what it does. -/
theorem wp_self (x : Prog E F S A) (s : S) (owed : ∀ e, M.owes e) (admitted : ∀ f, M.fails f) :
    wp M x (fun a t => (x s).2 = .ok (a, t)) s := by
  refine fun _ => ⟨fun e _ => owed e, ?_⟩
  split
  · assumption
  · exact admitted _

theorem wp_any (x : Prog E F S A) (s : S) (owed : ∀ e, M.owes e) (admitted : ∀ f, M.fails f) :
    wp M x (fun _ _ => True) s :=
  wp_mono (wp_self x s owed admitted) fun _ _ _ => trivial

theorem wp_ite {c : Prop} [Decidable c] {y : Prog E F S A} (left : c → wp M x Q s) (right : ¬ c → wp M y Q s) :
    wp M (if c then x else y) Q s := by
  split
  · exact left ‹_›
  · exact right ‹_›

theorem wp_congr {y : Prog E F S A} (same : x s = y s) (h : wp M y Q s) : wp M x Q s := by
  unfold wp
  rw [same]
  exact h

/- The value and the state that a run ends with are those of the program. -/
theorem wp_result (h : wp M x Q s) : wp M x (fun a t => Q a t ∧ (x s).2 = .ok (a, t)) s := by
  intro good
  obtain ⟨owed, holds⟩ := h good
  refine ⟨owed, ?_⟩
  split at holds
  · exact ⟨holds, ‹_›⟩
  · exact holds

/- A run with good events that ends in a fault of another kind. -/
theorem not_wp_of_fault (good : ∀ e ∈ (x s).1, M.good e) (fault : x.faultOf s = some e) (other : ¬ M.fails e) :
    ¬ wp M x Q s := by
  intro h
  have ended := (h good).2
  unfold Prog.faultOf at fault
  cases result : (x s).2 with
  | error f =>
    rw [result] at fault ended
    obtain rfl := Option.some.inj fault
    exact other ended
  | ok r =>
    rw [result] at fault
    exact nomatch fault

/- What holds in one mode holds in a mode that asks less. -/
theorem wp_mode {N : Mode E F} (h : wp N x Q s) (good : ∀ e, M.good e → N.good e)
    (owed : ∀ e, N.owes e → M.owes e) (admitted : ∀ f, N.fails f → M.fails f) : wp M x Q s := by
  intro reported
  obtain ⟨owes, holds⟩ := h fun e he => good e (reported e he)
  refine ⟨fun e he => owed e (owes e he), ?_⟩
  split at holds
  · exact holds
  · exact admitted _ holds

/- Nothing is asked of events, and the faults in P are admitted. -/
def Mode.faults (P : F → Prop) : Mode E F := ⟨fun _ => True, fun _ => True, P⟩

/- A run that can fail in one way only, and does just when P holds. -/
theorem faultOf_iff {P : Prop} (h : wp (Mode.faults fun f => f = e ∧ P) x (fun _ _ => ¬ P) s) :
    x.faultOf s = some e ↔ P := by
  obtain ⟨-, ended⟩ := h fun _ _ => trivial
  unfold Prog.faultOf
  cases result : (x s).2 with
  | ok r =>
    rw [result] at ended
    exact iff_of_false nofun ended
  | error f =>
    rw [result] at ended
    obtain ⟨rfl, holds⟩ := ended
    exact iff_of_true rfl holds

/- A program changes the state by steps of r only and ends in no fault outside P. As a
class, so that whoever uses a program finds the proof for it. -/
class Does (P : F → Prop) (r : S → S → Prop) (x : Prog E F S A) : Prop where
  within : ∀ s, wp (Mode.faults P) x (fun _ t => Relation.ReflTransGen r s t) s

section Does
variable {P : F → Prop} {r : S → S → Prop}

variable {x : Prog E F S A}

theorem Does.does (acts : Does P r x) (owed : ∀ e, M.owes e) (admitted : ∀ f, P f → M.fails f) (s : S) :
    wp M x (fun _ t => Relation.ReflTransGen r s t) s :=
  wp_mode (acts.within s) (fun _ _ => trivial) (fun e _ => owed e) admitted

instance does_pure (a : A) : Does P r (pure a : Prog E F S A) := ⟨fun _ => wp_pure .refl⟩

theorem does_fault {e : F} (admitted : P e) : Does P r (Prog.fault e : Prog E F S A) :=
  ⟨fun _ => wp_fault admitted⟩

instance does_get : Does P r (Prog.get : Prog E F S S) := ⟨fun _ => wp_get .refl⟩

instance does_emit (e : E) : Does P r (Prog.emit e : Prog E F S Unit) :=
  ⟨fun _ => wp_emit fun _ => ⟨trivial, .refl⟩⟩

instance does_bind {x : Prog E F S A} {f : A → Prog E F S B} [first : Does P r x]
    [rest : ∀ a, Does P r (f a)] : Does P r (x >>= f) :=
  ⟨fun s => wp_seq (first.within s) fun a t before =>
    wp_mono ((rest a).within t) fun _ _ after => before.trans after⟩

instance does_ite {c : Prop} [Decidable c] {x y : Prog E F S A} [left : Does P r x]
    [right : Does P r y] : Does P r (if c then x else y) :=
  ⟨fun s => wp_ite (fun _ => left.within s) fun _ => right.within s⟩

/- The rules with the parts still to be shown. -/
theorem Does.seq {f : A → Prog E F S B} [Does P r x] (rest : ∀ a, Does P r (f a)) : Does P r (x >>= f) := does_bind

theorem Does.branch {c : Prop} [Decidable c] {y : Prog E F S A} (left : Does P r x) (right : Does P r y) :
    Does P r (if c then x else y) := does_ite

theorem does_modify {f : S → S} (each : ∀ s, r s (f s)) :
    Does P r (Prog.modify f : Prog E F S Unit) := ⟨fun s => wp_modify (.single (each s))⟩

end Does

/- The run of x from s reports es and ends with the value a in the state t. -/
def Ends (x : Prog E F S A) (s : S) (es : List E) (a : A) (t : S) : Prop := x s = (es, .ok (a, t))

section Ends
variable {x : Prog E F S A} {s t : S} {es : List E} {a : A} {b : B}

theorem ends_pure {c : A} : Ends (pure c : Prog E F S A) s es a t ↔ es = [] ∧ a = c ∧ t = s := by
  constructor
  · intro h
    cases h
    exact ⟨rfl, rfl, rfl⟩
  · rintro ⟨rfl, rfl, rfl⟩
    rfl

theorem ends_modify {f : S → S} {u : Unit} :
    Ends (Prog.modify f : Prog E F S Unit) s es u t ↔ es = [] ∧ t = f s := by
  constructor
  · intro h
    cases h
    exact ⟨rfl, rfl⟩
  · rintro ⟨rfl, rfl⟩
    rfl

variable {f : A → Prog E F S B}

theorem ends_bind : Ends (x >>= f) s es b t ↔
    ∃ es₁ a u es₂, Ends x s es₁ a u ∧ Ends (f a) u es₂ b t ∧ es = es₁ ++ es₂ := by
  unfold Ends
  change Prog.bind x f s = _ ↔ _
  unfold Prog.bind
  rcases x s with ⟨es₁, _ | ⟨a, u⟩⟩
  · simp
  · constructor
    · intro h
      obtain ⟨rfl, result⟩ := Prod.mk.inj h
      exact ⟨es₁, a, u, (f a u).1, rfl, Prod.ext rfl result, rfl⟩
    · rintro ⟨_, _, _, es₂, first, second, rfl⟩
      cases first
      dsimp only
      rw [second]

/- The same step by step, where the first part reports nothing. -/
theorem Ends.seq {u : S} (first : Ends x s [] a u) (second : Ends (f a) u es b t) :
    Ends (x >>= f) s es b t := ends_bind.mpr ⟨[], a, u, es, first, second, rfl⟩

theorem ends_get_bind {f : S → Prog E F S B} :
    Ends (Prog.get >>= f) s es b t ↔ Ends (f s) s es b t := Iff.rfl

theorem ends_modify_bind {g : S → S} {f : Unit → Prog E F S B} :
    Ends (Prog.modify g >>= f) s es b t ↔ Ends (f ()) (g s) es b t := Iff.rfl

theorem ends_emit_bind {e : E} {f : Unit → Prog E F S B} :
    Ends (Prog.emit e >>= f) s es b t ↔ ∃ rest, Ends (f ()) s rest b t ∧ es = e :: rest := by
  rw [ends_bind]
  constructor
  · rintro ⟨_, _, _, rest, first, second, rfl⟩
    cases first
    exact ⟨rest, second, rfl⟩
  · rintro ⟨rest, second, rfl⟩
    exact ⟨[e], (), s, rest, rfl, second, rfl⟩

theorem ends_zoom {note : D → E} {view : S → T} {put : S → T → S} {y : Prog D F T A} :
    Ends (Prog.zoom note view put y) s es a t ↔
      ∃ ds u, Ends y (view s) ds a u ∧ es = ds.map note ∧ t = put s u := by
  unfold Ends Prog.zoom
  rcases y (view s) with ⟨ds, _ | ⟨c, u⟩⟩
  · simp
  · simp only [Prod.mk.injEq, Except.ok.injEq]
    constructor
    · rintro ⟨rfl, rfl, rfl⟩
      exact ⟨ds, u, ⟨rfl, rfl, rfl⟩, rfl, rfl⟩
    · rintro ⟨_, _, ⟨rfl, rfl, rfl⟩, rfl, rfl⟩
      exact ⟨rfl, rfl, rfl⟩

variable {Q : A → S → Prop}

/- What a run that ends has come to, where every event is good; and that a run ends where no
fault is admitted. -/
theorem wp_value (h : wp M x Q s) (good : ∀ e, M.good e) (ended : (x s).2 = .ok (a, t)) : Q a t := by
  obtain ⟨-, holds⟩ := h fun e _ => good e
  rwa [ended] at holds

theorem wp_sure (h : wp M x Q s) (good : ∀ e, M.good e) (sure : ∀ f, ¬ M.fails f) :
    ∃ a t, (x s).2 = .ok (a, t) ∧ Q a t := by
  obtain ⟨-, holds⟩ := h fun e _ => good e
  split at holds
  · exact ⟨_, _, ‹_›, holds⟩
  · exact absurd holds (sure _)

/- Nothing is reported and no fault admitted. -/
def Mode.silent : Mode E F := ⟨fun _ => True, fun _ => False, fun _ => False⟩

theorem ends_of_silent (h : wp Mode.silent x Q s) : ∃ a t, Ends x s [] a t ∧ Q a t := by
  obtain ⟨owed, holds⟩ := h fun _ _ => trivial
  unfold Ends
  rcases result : x s with ⟨es, f | ⟨a, t⟩⟩
  · rw [result] at holds
    exact holds.elim
  · rw [result] at owed holds
    have none : es = [] := List.eq_nil_iff_forall_not_mem.mpr owed
    exact ⟨a, t, by rw [none], holds⟩

theorem ends_of_passes {test : A → S → Bool} (h : x.passes s test = true) :
    ∃ es a t, Ends x s es a t ∧ test a t = true := by
  unfold Prog.passes at h
  unfold Ends
  rcases result : x s with ⟨es, f | ⟨a, t⟩⟩
  · rw [result] at h
    exact nomatch h
  · rw [result] at h
    exact ⟨es, a, t, rfl, h⟩

theorem wp_of_quiet (ends : Ends x s [] a t) (h : Q a t) : wp M x Q s := by
  unfold wp
  rw [ends]
  exact fun _ => ⟨fun _ none => (nomatch none), h⟩

theorem wp_ends (ends : Ends x s es a t) (owed : ∀ e, M.owes e) (h : Q a t) : wp M x Q s := by
  unfold wp
  rw [ends]
  exact fun _ => ⟨fun e _ => owed e, h⟩

/- A run that can end in no fault of the one mode that is one of the other ends. -/
theorem ends_of_modes {N : Mode E F} {R : A → S → Prop} (first : wp M x Q s) (second : wp N x R s)
    (good : ∀ e, M.good e) (good' : ∀ e, N.good e) (apart : ∀ f, M.fails f → ¬ N.fails f) :
    ∃ es a t, Ends x s es a t ∧ Q a t ∧ R a t := by
  have here := (first fun e _ => good e).2
  have there := (second fun e _ => good' e).2
  rcases result : x s with ⟨es, f | ⟨a, t⟩⟩
  · rw [result] at here there
    exact absurd there (apart f here)
  · rw [result] at here there
    exact ⟨es, a, t, result, here, there⟩

end Ends

end Xv6c.Lib

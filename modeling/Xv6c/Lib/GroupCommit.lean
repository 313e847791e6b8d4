import Mathlib.Logic.Function.Basic
import Xv6c.Lib.Machine

/-! A disk with atomic groups of operations, as a specification. Processes enter
and leave sections; all sections that overlap form one group, which is closed by
the last one to leave. A crash keeps every group whose closing process has
returned, may keep the closed group that has not returned yet, and drops the
group that is still open. Nothing here says how a disk achieves this. -/
namespace Xv6c.Lib.GroupCommit

inductive Event (B : Type) where
  | enter (p : Nat)
  | write (p b : Nat) (v : B)
  | leave (p : Nat)

abbrev Group (B : Type) := List (Event B)

variable {B : Type}

def Event.apply (d : Nat → B) : Event B → (Nat → B)
  | .write _ b v => Function.update d b v
  | _ => d

def replayGroup (d : Nat → B) (g : Group B) : Nat → B := g.foldl Event.apply d
def replay (d : Nat → B) (gs : List (Group B)) : Nat → B := gs.foldl replayGroup d

/- The processes inside a section after a list of events, if the events are
correctly bracketed: one section at a time, and writes only inside a section. -/
def track (l : List Nat) : Event B → Option (List Nat)
  | .enter p => if p ∈ l then none else some (p :: l)
  | .write p _ _ => if p ∈ l then some l else none
  | .leave p => if p ∈ l then some (l.erase p) else none

def inside (g : Group B) : Option (List Nat) := g.foldlM track []

/-- Every section that has an event in the group lies in it from entry to exit. -/
def Whole (g : Group B) : Prop := inside g = some []

structure Spec (B : Type) where
  durable : List (Group B)
  pending : Option (Group B)
  current : Group B

def start : Spec B := ⟨[], none, []⟩

inductive Label (B : Type) where
  | event (e : Event B)
  | returned
  | crash
  | silent

inductive Next : Spec B → Label B → Spec B → Prop where
  | event {s : Spec B} {e : Event B} {l : List Nat} :
      inside (s.current ++ [e]) = some l → l ≠ [] →
        Next s (.event e) { s with current := s.current ++ [e] }
  | close {s : Spec B} {e : Event B} : s.pending = none → Whole (s.current ++ [e]) →
      Next s (.event e) { s with pending := some (s.current ++ [e]), current := [] }
  | returned {s : Spec B} {g : Group B} : s.pending = some g →
      Next s .returned { s with durable := s.durable ++ [g], pending := none }
  | lost (s : Spec B) : Next s .crash { s with pending := none, current := [] }
  | kept {s : Spec B} {g : Group B} : s.pending = some g →
      Next s .crash ⟨s.durable ++ [g], none, []⟩
  | silent (s : Spec B) : Next s .silent s

@[simp] theorem replay_nil (d : Nat → B) : replay d [] = d := rfl

@[simp] theorem replay_append (d : Nat → B) (gs : List (Group B)) (g : Group B) :
    replay d (gs ++ [g]) = replayGroup (replay d gs) g := by
  simp [replay]

@[simp] theorem replayGroup_nil (d : Nat → B) : replayGroup d [] = d := rfl

@[simp] theorem replayGroup_append (d : Nat → B) (g : Group B) (e : Event B) :
    replayGroup d (g ++ [e]) = e.apply (replayGroup d g) := by
  simp [replayGroup]

@[simp] theorem inside_nil : inside ([] : Group B) = some [] := rfl

theorem inside_append (g : Group B) (e : Event B) :
    inside (g ++ [e]) = (inside g).bind (fun l => track l e) := by
  simp only [inside, List.foldlM_append, List.foldlM_cons, List.foldlM_nil]
  simp

def Sealed (s : Spec B) : Prop :=
  (∀ g ∈ s.durable, Whole g) ∧ ∀ g, s.pending = some g → Whole g

variable {s t : Spec B}

theorem next_whole {l : Label B} (whole : Sealed s) (step : Next s l t) : Sealed t := by
  have grown {g : Group B} (hg : Whole g) : ∀ k ∈ s.durable ++ [g], Whole k := by
    intro k hk
    rcases List.mem_append.mp hk with hk | hk
    · exact whole.1 k hk
    · rw [List.mem_singleton.mp hk]; exact hg
  cases step with
  | event _ _ => exact whole
  | close _ hw => exact ⟨whole.1, fun g hg => Option.some.inj hg ▸ hw⟩
  | returned hp => exact ⟨grown (whole.2 _ hp), fun g hg => (nomatch hg)⟩
  | lost => exact ⟨whole.1, fun g hg => (nomatch hg)⟩
  | kept hp => exact ⟨grown (whole.2 _ hp), fun g hg => (nomatch hg)⟩
  | silent => exact whole

variable {L : Type} {observe : L → Label B} {ls : List L}

/-- Only whole groups become durable. -/
theorem durable_whole (run : Trace (fun a l b => Next a (observe l) b) start ls s) : ∀ g ∈ s.durable, Whole g := by
  have sealed : Sealed s :=
    trace_invariant Sealed (fun _ _ _ whole step => next_whole whole step) (by simp [Sealed, start]) run
  exact sealed.1

theorem silent_trace (silent : ∀ l ∈ ls, observe l = .silent)
    (run : Trace (fun a l b => Next a (observe l) b) s ls t) : t = s := by
  induction run with
  | nil => rfl
  | @cons a b c l ls step _ ih =>
    simp only [silent l List.mem_cons_self] at step
    cases step
    exact ih (fun k hk => silent k (List.mem_cons_of_mem _ hk))

/- No event of the group writes block b. -/
def Untouched (b : Nat) (g : Group B) : Prop := ∀ p v, Event.write p b v ∉ g

variable {b : Nat}

theorem replayGroup_untouched {g : Group B} (clear : Untouched b g) (d : Nat → B) :
    replayGroup d g b = d b := by
  induction g generalizing d with
  | nil => rfl
  | cons e g ih =>
    have tail : Untouched b g := fun p v hm => clear p v (List.mem_cons_of_mem _ hm)
    rw [replayGroup, List.foldl_cons, ← replayGroup, ih tail]
    cases e with
    | write p c v =>
      have apart : b ≠ c := by
        rintro rfl
        exact clear p v List.mem_cons_self
      simp [Event.apply, Function.update_of_ne apart]
    | enter p => rfl
    | leave p => rfl

theorem replay_untouched {gs : List (Group B)} (clear : ∀ g ∈ gs, Untouched b g) (d : Nat → B) :
    replay d gs b = d b := by
  induction gs generalizing d with
  | nil => rfl
  | cons g gs ih =>
    have head := replayGroup_untouched (clear g List.mem_cons_self) d
    have tail := ih (fun k hk => clear k (List.mem_cons_of_mem _ hk)) (replayGroup d g)
    exact tail.trans head

theorem next_untouched {l : Label B}
    (clear : Untouched b s.current ∧ (∀ g, s.pending = some g → Untouched b g) ∧
      ∀ g ∈ s.durable, Untouched b g) (avoids : ∀ p v, l ≠ .event (.write p b v)) (step : Next s l t) :
    Untouched b t.current ∧ (∀ g, t.pending = some g → Untouched b g) ∧
      ∀ g ∈ t.durable, Untouched b g := by
  have longer {e : Event B} (he : ∀ p v, Label.event e ≠ .event (.write p b v)) :
      Untouched b (s.current ++ [e]) := by
    intro p v hm
    rcases List.mem_append.mp hm with hm | hm
    · exact clear.1 p v hm
    · exact he p v (by rw [List.mem_singleton.mp hm])
  have grown {g : Group B} (hg : Untouched b g) : ∀ k ∈ s.durable ++ [g], Untouched b k := by
    intro k hk
    rcases List.mem_append.mp hk with hk | hk
    · exact clear.2.2 k hk
    · rw [List.mem_singleton.mp hk]; exact hg
  have empty : Untouched b ([] : Group B) := fun p v hm => (nomatch hm)
  cases step with
  | event _ _ => exact ⟨longer avoids, clear.2⟩
  | close _ _ => exact ⟨empty, fun g hg => Option.some.inj hg ▸ longer avoids, clear.2.2⟩
  | returned hp => exact ⟨clear.1, fun g hg => (nomatch hg), grown (clear.2.1 _ hp)⟩
  | lost => exact ⟨empty, fun g hg => (nomatch hg), clear.2.2⟩
  | kept hp => exact ⟨empty, fun g hg => (nomatch hg), grown (clear.2.1 _ hp)⟩
  | silent => exact clear

/-- A block that no label writes keeps its first contents in every outcome. -/
theorem replay_of_avoids (avoids : ∀ l ∈ ls, ∀ p v, observe l ≠ .event (.write p b v))
    (run : Trace (fun a l c => Next a (observe l) c) start ls s) (d : Nat → B) :
    replay d s.durable b = d b := by
  apply replay_untouched
  suffices h : ∀ {a : Spec B}, Untouched b a.current → (∀ g, a.pending = some g → Untouched b g) →
      (∀ g ∈ a.durable, Untouched b g) → Trace (fun a l c => Next a (observe l) c) a ls s →
      ∀ g ∈ s.durable, Untouched b g by
    exact h (by simp [start, Untouched]) (by simp [start]) (by simp [start]) run
  clear run
  intro a hc hp hd run
  induction run with
  | nil => exact hd
  | @cons a c e l ls step _ ih =>
    have next := next_untouched ⟨hc, hp, hd⟩ (avoids l List.mem_cons_self) step
    exact ih (fun k hk => avoids k (List.mem_cons_of_mem _ hk)) next.1 next.2.1 next.2.2

end Xv6c.Lib.GroupCommit

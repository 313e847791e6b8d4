import Xv6c.Kernel.Transitions

/-! The root directories of the containers. ccreate tests the name of a container, but what
a container gets is the inode that the name leads to. -/
namespace Xv6c.Control
open Lib Races

/- A container that has been published. -/
def Live (c : Cont) : Prop := c.state ≠ .cunused ∧ c.state ≠ .cembryo

instance (c : Cont) : Decidable (Live c) := inferInstanceAs (Decidable (_ ∧ _))

/- Two containers do not share a root directory. -/
def Apart (k : Kernel) : Prop :=
  ∀ c d, c ≠ d → Live (k.cont c) → Live (k.cont d) → ∀ ip, (k.cont c).rootdir = some ip →
    (k.cont d).rootdir ≠ some ip

/- When ccreate looks its name up, the name does not lead to the root directory of a
container, nor to one that another ccreate has found and not yet published. -/
def Unshared (s : State) : Label → Prop
  | .part cpu .lookup => ∀ i p c w ip k, s.world.cpu cpu = some (i, p) → s.hand p = .alloced c w →
      after (onFs p (Fs.namei (s.world.kernel.walker p) w.name)) s.world.kernel = some (some ip, k) →
      (∀ d, (s.world.kernel.cont d).rootdir ≠ some ip) ∧ ∀ q d v, s.hand q ≠ .rooted d ip v
  | _ => True

structure Distinct (s : State) : Prop where
  roots : ∀ c d ip, (s.world.kernel.cont c).rootdir = some ip → (s.world.kernel.cont d).rootdir = some ip → c = d
  found : ∀ p c ip w, s.hand p = .rooted c ip w → ∀ d, (s.world.kernel.cont d).rootdir ≠ some ip
  single : ∀ p p' c c' ip w w', s.hand p = .rooted c ip w → s.hand p' = .rooted c' ip w' → p = p'

/- Root directories only go away. -/
def Fades (k k' : Kernel) : Prop :=
  ∀ c, (k'.cont c).rootdir = (k.cont c).rootdir ∨ (k'.cont c).rootdir = none

section Fading
variable {s t : World}

theorem Fades.refl (k : Kernel) : Fades k k := fun _ => Or.inl rfl

theorem fades_update {k k' : Kernel} {i : Nat} {x : Cont} (conts : k'.cont = Function.update k.cont i x)
    (fades : x.rootdir = (k.cont i).rootdir ∨ x.rootdir = none) : Fades k k' := by
  intro c
  rw [conts, Function.update_apply]
  split
  · rename_i here
    rw [here]
    exact fades
  · exact Or.inl rfl

theorem Fades.some {k k' : Kernel} (fades : Fades k k') {c ip : Nat} (now : (k'.cont c).rootdir = some ip) :
    (k.cont c).rootdir = some ip := by
  rcases fades c with same | none
  · exact same.symm.trans now
  · cases none.symm.trans now

theorem step_fades {l : Races.Label} (taken : Races.step s l = some t) : Fades s.kernel t.kernel := by
  cases step_outcome taken with
  | counts => exact fades_update rfl (Or.inl rfl)
  | exits => exact fades_update rfl (Or.inl rfl)
  | ends _ _ _ _ gone => exact fades_update rfl (Or.inr gone)
  | passes => exact fades_update rfl (Or.inl rfl)
  | picks => exact fades_update rfl (Or.inl rfl)
  | creates _ _ _ _ same => exact fades_update rfl (Or.inl same)
  | changes => exact fades_update rfl (Or.inl rfl)
  | _ => exact .refl _

end Fading

/- What a part does to the root directories. -/
inductive Finds (p : ProcId) (k : Kernel) : Part → Hand → Hand → Kernel → Prop where
  | plain {l : Part} {h h' : Hand} {k' : Kernel} : Fades k k' → (∀ c ip w, h' ≠ .rooted c ip w) →
      Finds p k l h h' k'
  | finds {c ip : Nat} {w : Wish} {k' : Kernel} : Fades k k' →
      after (onFs p (Fs.namei (k.walker p) w.name)) k = some (some ip, k') →
      Finds p k .lookup (.alloced c w) (.rooted c ip w) k'
  | publishes {c ip : Nat} {w : Wish} {k' : Kernel} :
      (∀ d, (k'.cont d).rootdir = if d = c then some ip else (k.cont d).rootdir) →
      Finds p k .publish (.rooted c ip w) .idle k'

section Finding
variable {p : ProcId} {k : Kernel}

theorem onFs_fades {A : Type} (x : Fs.FsM A) [acts : Fs.Acts x] :
    wp anyMode (onFs p x) (fun _ k' => Fades k k') k :=
  wp_zoom (wp_mono (acts.does (fun _ => trivial) (fun _ _ => trivial) _) fun _ _ _ => fades_update rfl (Or.inl rfl))

theorem modifyCont_fades {i : Nat} {f : Cont → Cont} (keeps : (f (k.cont i)).rootdir = (k.cont i).rootdir) :
    wp anyMode (modifyCont i f) (fun _ k' => Fades k k') k := wp_modify (fades_update rfl (Or.inl keeps))

theorem alloccont_fades : wp anyMode alloccont (fun _ k' => Fades k k') k := by
  refine wp_get_bind ?_
  split
  · exact wp_seq (modifyCont_fades rfl) fun _ _ fades => wp_modify_bind (wp_pure fades)
  · exact wp_pure (.refl _)

theorem lookup_finds (c : Nat) (w : Wish) :
    wp anyMode (lookup p c w) (fun h k' => Finds p k .lookup (.alloced c w) h k') k := by
  refine wp_get_bind (wp_seq (wp_and (onFs_fades _) (wp_self _ k (fun _ => trivial) fun _ => trivial)) ?_)
  rintro r k' ⟨fades, ended⟩
  cases r with
  | none => exact wp_pure (.plain fades nofun)
  | some ip =>
    refine wp_pure (.finds fades ?_)
    unfold after
    rw [ended]

theorem publish_finds (c ip : Nat) (w : Wish) :
    wp anyMode (publish p c ip w) (fun h k' => Finds p k .publish (.rooted c ip w) h k') k := by
  refine wp_seq (onFs_idup ip) ?_
  rintro _ k₁ ⟨rfl, -, conts⟩
  refine wp_modify_bind (wp_pure (.publishes fun d => ?_))
  dsimp only
  rw [conts, Function.update_apply]
  split <;> rfl

theorem part_finds {h : Hand} {l : Part} {x : KM Hand} (next : part p h l = some x) :
    wp anyMode x (fun h' k' => Finds p k l h h' k') k := by
  have idle {l : Part} {h h' : Hand} (other : ∀ c ip w, h' ≠ .rooted c ip w) : Finds p k l h h' k :=
    .plain (.refl k) other
  unfold part at next
  split at next <;> cases next
  · refine wp_get_bind (wp_ite (fun _ => wp_pure (idle (by simp))) fun _ => ?_)
    split
    · exact wp_pure (idle (by simp))
    · exact wp_ite (fun _ => wp_pure (idle (by simp))) fun _ => wp_pure (idle (by simp))
  · exact wp_seq (modifyCont_fades rfl) fun _ _ fades => wp_pure (.plain fades (by simp))
  · refine wp_get_bind ?_
    split
    · exact wp_pure (idle (by simp))
    · exact wp_pure (idle (by simp))
  · refine wp_get_bind (wp_seq (onFs_fades _) fun udsk k' fades => ?_)
    exact wp_ite (fun _ => wp_pure (.plain fades (by simp))) fun _ => wp_pure (.plain fades (by simp))
  · exact wp_seq (modifyCont_fades rfl) fun _ _ fades => wp_pure (.plain fades (by simp))
  · refine wp_get_bind (wp_ite (fun _ => wp_pure (idle (by simp))) fun _ => ?_)
    exact wp_ite (fun _ => wp_pure (idle (by simp))) fun _ => wp_pure (idle (by simp))
  · refine wp_seq alloccont_fades fun r k' fades => ?_
    cases r with
    | none => exact wp_pure (.plain fades (by simp))
    | some c => exact wp_pure (.plain fades (by simp))
  · exact lookup_finds _ _
  · exact wp_seq (modifyCont_fades rfl) fun _ _ fades => wp_pure (.plain fades (by simp))
  · exact publish_finds _ _ _

end Finding

section Runs
variable {s t : State}

/- What a step does to the root directories and to those that ccreate has found. -/
inductive Moves (s t : State) : Label → Prop where
  | plain {l : Label} : Fades s.world.kernel t.world.kernel →
      (∀ p c ip w, t.hand p = .rooted c ip w → s.hand p = .rooted c ip w) → Moves s t l
  | finds {cpu i c ip : Nat} {p : ProcId} {w : Wish} {k : Kernel} : s.world.cpu cpu = some (i, p) →
      s.hand p = .alloced c w →
      after (onFs p (Fs.namei (s.world.kernel.walker p) w.name)) s.world.kernel = some (some ip, k) →
      Fades s.world.kernel t.world.kernel → t.hand = Function.update s.hand p (.rooted c ip w) →
      Moves s t (.part cpu .lookup)
  | publishes {cpu c ip : Nat} {p : ProcId} {w : Wish} : s.hand p = .rooted c ip w →
      (∀ d, (t.world.kernel.cont d).rootdir = if d = c then some ip else (s.world.kernel.cont d).rootdir) →
      t.hand = Function.update s.hand p .idle → Moves s t (.part cpu .publish)

theorem step_moves {l : Label} (taken : step s l = some t) : Moves s t l := by
  cases l with
  | part cpu l =>
    obtain ⟨i, p, x, h, k, current, -, next, ended, rfl⟩ := part_some taken
    have finds := after_spec (part_finds next) ended
    generalize hand : s.hand p = now at finds
    cases finds with
    | plain fades other =>
      refine .plain fades fun q c ip w found => ?_
      dsimp only at found
      rw [Function.update_apply] at found
      split at found
      · exact absurd found (other c ip w)
      · exact found
    | finds fades resolved => exact .finds current hand resolved fades rfl
    | publishes set => exact .publishes hand set rfl
  | kill cpu =>
    obtain ⟨w, done, rfl⟩ := Option.map_eq_some_iff.mp taken
    obtain ⟨-, p, -, -, done⟩ := acts_some done
    cases done
    exact .plain (fades_update rfl (Or.inl rfl)) fun _ _ _ _ h => h
  | files fs =>
    cases taken
    exact .plain (.refl _) fun _ _ _ _ h => h
  | other l =>
    obtain ⟨w, done, -, -, rfl⟩ := other_some taken
    exact .plain (step_fades done) fun _ _ _ _ h => h

theorem rooted_update {hand : ProcId → Hand} {p q : ProcId} {h : Hand} {c ip : Nat} {w : Wish}
    (found : Function.update hand p h q = .rooted c ip w) :
    q = p ∧ h = .rooted c ip w ∨ q ≠ p ∧ hand q = .rooted c ip w := by
  rw [Function.update_apply] at found
  split at found
  · rename_i here
    exact Or.inl ⟨here, found⟩
  · rename_i other
    exact Or.inr ⟨other, found⟩

theorem Distinct.step {l : Label} (inv : Distinct s) (unshared : Unshared s l) (taken : step s l = some t) :
    Distinct t := by
  cases step_moves taken with
  | plain fades hands =>
    refine ⟨fun c d ip h h' => inv.roots c d ip (fades.some h) (fades.some h'), ?_, ?_⟩
    · exact fun p c ip w h d h' => inv.found p c ip w (hands p c ip w h) d (fades.some h')
    · exact fun p p' c c' ip w w' h h' => inv.single p p' c c' ip w w' (hands _ _ _ _ h) (hands _ _ _ _ h')
  | @finds cpu i c ip p w k current hand resolved fades hands =>
    obtain ⟨free, unfound⟩ := unshared i p c w ip k current hand resolved
    refine ⟨fun c d ip h h' => inv.roots c d ip (fades.some h) (fades.some h'), ?_, ?_⟩
    · intro q c' ip' w' found d root
      rw [hands] at found
      rcases rooted_update found with ⟨-, same⟩ | ⟨-, found⟩
      · cases same
        exact free d (fades.some root)
      · exact inv.found q c' ip' w' found d (fades.some root)
    · intro q q' c₁ c₂ ip' w₁ w₂ h₁ h₂
      rw [hands] at h₁ h₂
      rcases rooted_update h₁ with ⟨here, same⟩ | ⟨-, h₁⟩ <;>
        rcases rooted_update h₂ with ⟨here', same'⟩ | ⟨-, h₂⟩
      · exact here.trans here'.symm
      · cases same
        exact absurd h₂ (unfound q' c₂ w₂)
      · cases same'
        exact absurd h₁ (unfound q c₁ w₁)
      · exact inv.single q q' c₁ c₂ ip' w₁ w₂ h₁ h₂
  | @publishes cpu c ip p w hand set hands =>
    have free := inv.found p c ip w hand
    have root {d ip' : Nat} (now : (t.world.kernel.cont d).rootdir = some ip') :
        d = c ∧ ip' = ip ∨ d ≠ c ∧ (s.world.kernel.cont d).rootdir = some ip' := by
      rw [set] at now
      split at now
      · rename_i here
        exact Or.inl ⟨here, (Option.some.inj now).symm⟩
      · rename_i other
        exact Or.inr ⟨other, now⟩
    have still {q : ProcId} {c' ip' : Nat} {w' : Wish} (found : t.hand q = .rooted c' ip' w') :
        q ≠ p ∧ s.hand q = .rooted c' ip' w' := by
      rw [hands] at found
      rcases rooted_update found with ⟨-, same⟩ | found
      · cases same
      · exact found
    refine ⟨?_, ?_, ?_⟩
    · intro d e ip' h h'
      rcases root h with ⟨here, same⟩ | ⟨-, h⟩ <;> rcases root h' with ⟨here', same'⟩ | ⟨-, h'⟩
      · exact here.trans here'.symm
      · exact absurd (same ▸ h') (free e)
      · exact absurd (same' ▸ h) (free d)
      · exact inv.roots d e ip' h h'
    · intro q c' ip' w' found d now
      obtain ⟨other, found⟩ := still found
      rcases root now with ⟨-, same⟩ | ⟨-, now⟩
      · subst same
        exact other (inv.single q p c' c ip' w' w found hand)
      · exact inv.found q c' ip' w' found d now
    · exact fun q q' c₁ c₂ ip' w₁ w₂ h₁ h₂ => inv.single q q' c₁ c₂ ip' w₁ w₂ (still h₁).2 (still h₂).2

/-- In every run in which no ccreate finds, under whatever name, the root directory of a
container or of another ccreate on its way, two containers never share a root directory. -/
theorem roots_apart {ls : List Label} (booted : Booted s)
    (bare : ∀ c, c ≠ 0 → (s.world.kernel.cont c).rootdir = none) (unshared : Along step Unshared s ls)
    (reached : Lib.exec step s ls = some t) : Apart t.world.kernel := by
  have initial : Distinct s := by
    have root {c ip : Nat} (h : (s.world.kernel.cont c).rootdir = some ip) : c = 0 := by
      by_contra other
      cases (bare c other).symm.trans h
    have idle {p : ProcId} {c ip : Nat} {w : Wish} : s.hand p ≠ .rooted c ip w := by
      rw [booted.hands]
      exact nofun
    refine ⟨fun c d ip h h' => (root h).trans (root h').symm, ?_, ?_⟩
    · exact fun p c ip w h => absurd h idle
    · exact fun p p' c c' ip w w' h => absurd h idle
  have distinct : Distinct t := run_invariant (fun _ _ _ inv unshared taken => inv.step unshared taken) initial
    unshared reached
  intro c d other _ _ ip h h'
  exact other (distinct.roots c d ip h h')

end Runs

theorem bootState_bare (c : Nat) (other : c ≠ 0) : (bootState.world.kernel.cont c).rootdir = none := by
  change (bootKernel.cont c).rootdir = none
  unfold bootKernel
  dsimp only
  rw [if_neg other]
  rfl

/- The names ./x and /x. -/
def dotName : Fs.CStr := ⟨[46, 47, 120], Fs.dotX_whole⟩
def rootName : Fs.CStr := ⟨[47, 120], by decide⟩

def createAs (cpu : Nat) (name : Fs.CStr) : List Label :=
  [.part cpu (.want ⟨name, 2, 0, 100⟩), .part cpu .alloc, .part cpu .lookup, .part cpu .publish]

/- Before the first lookup the root container has the only root directory. -/
structure Untouched (s : State) : Prop where
  roots : ∀ c ip, (s.world.kernel.cont c).rootdir = some ip → ip = 0
  hands : ∀ p c ip w, s.hand p ≠ .rooted c ip w

/- The steps but for the last two of ccreate. -/
def Early : Label → Prop
  | .part _ .lookup => False
  | .part _ .publish => False
  | _ => True

theorem Untouched.step {s t : State} {l : Label} (untouched : Untouched s) (taken : step s l = some t)
    (early : Early l) : Untouched t := by
  cases step_moves taken with
  | plain fades hands =>
    refine ⟨fun c ip root => untouched.roots c ip (fades.some root), fun p c ip w found => ?_⟩
    exact untouched.hands p c ip w (hands p c ip w found)
  | finds => exact early.elim
  | publishes => exact early.elim

/- What namei delivers at the next lookup of a CPU is not the root container's directory. -/
def otherRoot (s : State) (cpu : Nat) : Bool :=
  match s.world.cpu cpu with
  | some (_, p) => match s.hand p with
    | .alloced _ w => (after (onFs p (Fs.namei (s.world.kernel.walker p) w.name)) s.world.kernel).all
        fun r => r.1 != some 0
    | _ => true
  | none => true

theorem Untouched.unshared {s : State} {cpu : Nat} (untouched : Untouched s) (other : otherRoot s cpu) :
    Unshared s (.part cpu .lookup) := by
  intro i p c w ip k current hand resolved
  have away : ip ≠ 0 := by
    rintro rfl
    simp [otherRoot, current, hand, resolved] at other
  exact ⟨fun d root => away (untouched.roots d ip root), fun q d v => untouched.hands q d ip v⟩

def allocLabels : List Label :=
  [.other (.visit 0 0), .part 0 (.want ⟨xName, 2, 0, 100⟩), .part 0 .alloc]

theorem roots_apart_start :
    ∃ t, Lib.exec step bootState (allocLabels ++ [.part 0 .lookup, .part 0 .publish]) = some t ∧
      (t.world.kernel.cont 1).state = .cready ∧ Apart t.world.kernel := by
  obtain ⟨t, reached, ready⟩ : ∃ t, Lib.exec step bootState (allocLabels ++ [.part 0 .lookup, .part 0 .publish]) =
      some t ∧ (t.world.kernel.cont 1).state = .cready := by decide +kernel
  have named : (Lib.exec step bootState allocLabels).all fun s => otherRoot s 0 := by decide +kernel
  have initial : Untouched bootState := by
    refine ⟨fun c ip root => ?_, fun _ _ _ _ => nofun⟩
    by_cases here : c = 0
    · subst here
      exact (Option.some.inj root).symm
    · cases (bootState_bare c here).symm.trans root
  have unshared : Along step Unshared bootState (allocLabels ++ [.part 0 .lookup, .part 0 .publish]) := by
    refine ⟨trivial, fun s₁ h₁ => ⟨trivial, fun s₂ h₂ => ⟨trivial, fun s₃ h₃ => ⟨?_, fun _ _ => ?_⟩⟩⟩⟩
    · refine (((initial.step h₁ trivial).step h₂ trivial).step h₃ trivial).unshared ?_
      have reached : Lib.exec step bootState allocLabels = some s₃ := by
        simp only [allocLabels, Lib.exec, h₁, h₂, h₃, Option.bind_some]
      rw [reached] at named
      exact named
    · exact ⟨trivial, fun _ _ => trivial⟩
  exact ⟨t, reached, ready, roots_apart bootState_booted bootState_bare unshared reached⟩

/- x and ./x are two names, so both are accepted; and two processes that create x at the
same time both find no container of that name. -/
theorem roots_shared :
    Booted bootState ∧ (∀ c, c ≠ 0 → (bootState.world.kernel.cont c).rootdir = none) ∧
    (∃ t, Lib.exec step bootState (.other (.visit 0 0) :: createAs 0 xName ++ createAs 0 dotName) = some t ∧
      (t.world.kernel.cont 1).state = .cready ∧ (t.world.kernel.cont 2).state = .cready ∧
      (t.world.kernel.cont 1).rootdir = some 1 ∧ (t.world.kernel.cont 2).rootdir = some 1) ∧
    ∃ t, Lib.exec step bootState (.other (.visit 0 0) :: forkLabels none ++ [.other (.visit 1 0),
        .part 0 (.want ⟨rootName, 2, 0, 100⟩)] ++ createAs 1 rootName ++ [.part 0 .alloc, .part 0 .lookup,
        .part 0 .publish]) = some t ∧
      (t.world.kernel.cont 1).state = .cready ∧ (t.world.kernel.cont 2).state = .cready ∧
      (t.world.kernel.cont 1).rootdir = some 1 ∧ (t.world.kernel.cont 2).rootdir = some 1 := by
  refine ⟨bootState_booted, bootState_bare, ?_, ?_⟩
  · decide +kernel
  · decide +kernel

end Xv6c.Control

import Xv6c.Fs.Directory
import Xv6c.Kernel.Turns

/-! The names of the containers. A lookup compares a string with the beginning of each name,
in the order of the slots; in a run of the whole system the names in use are different, and
a lookup finds the container of that very name exactly if none that goes on longer is first. -/
namespace Xv6c
open Lib
open Function (update update_of_ne update_self)

/- The name of a container: the bytes before the NUL. -/
def called (c : Cont) : List Byte := Fs.cut c.name

def InUse (k : Kernel) (c : Nat) : Prop := (k.cont c).state ≠ .cunused

def Ready (k : Kernel) (c : Nat) : Prop := (k.cont c).state = .cready

instance (k : Kernel) (c : Nat) : Decidable (InUse k c) := inferInstanceAs (Decidable (_ ≠ _))
instance (k : Kernel) (c : Nat) : Decidable (Ready k c) := inferInstanceAs (Decidable (_ = _))

section Strings

/- strncmp, for as many bytes as the first string has. -/
theorem strncmp_eq_zero (p q : List Byte) (whole : 0 ∉ p) : strncmp p q p.length = 0 ↔ p <+: Fs.cut q := by
  induction p generalizing q with
  | nil => simp [strncmp]
  | cons a p ih =>
    have nonzero : a ≠ 0 := fun zero => whole (zero ▸ List.mem_cons_self)
    have rest : 0 ∉ p := fun inside => whole (List.mem_cons_of_mem a inside)
    cases q with
    | nil =>
      change (if a ≠ 0 ∧ a = 0 then _ else (a.toNat : Int) - (0 : Byte).toNat) = 0 ↔ _
      rw [if_neg fun both => both.1 both.2, Fs.byte_sub_eq_zero]
      exact iff_of_false nonzero fun start => List.cons_ne_nil _ _ (List.prefix_nil.mp start)
    | cons b q =>
      change (if a ≠ 0 ∧ a = b then strncmp p q p.length else (a.toNat : Int) - b.toNat) = 0 ↔ _
      rw [Fs.cut_cons]
      by_cases same : a = b
      · subst same
        rw [if_pos ⟨nonzero, rfl⟩, if_neg nonzero, List.cons_prefix_cons, ih q rest]
        exact (and_iff_right rfl).symm
      · rw [if_neg fun both => same both.2, Fs.byte_sub_eq_zero]
        refine iff_of_false same fun start => ?_
        split at start
        · exact List.cons_ne_nil _ _ (List.prefix_nil.mp start)
        · exact same (List.cons_prefix_cons.mp start).1

theorem nameMatches_iff (name : Fs.CStr) (c : Cont) : nameMatches name c ↔ name.bytes <+: called c :=
  strncmp_eq_zero name.bytes c.name name.whole

/- A name that fits into the array is kept whole. -/
theorem cut_strncpy (name : Fs.CStr) (fits : name.bytes.length < 16) :
    Fs.cut (strncpy name.bytes 16) = name.bytes := by
  obtain ⟨m, room⟩ : ∃ m, 16 - name.bytes.length = m + 1 := ⟨15 - name.bytes.length, by omega⟩
  have nonzero (b : Byte) (inside : b ∈ name.bytes) : (b != 0) = true := by
    have other : b ≠ 0 := fun zero => name.whole (zero ▸ inside)
    simpa using other
  unfold strncpy Fs.cut
  rw [List.take_of_length_le fits.le, room, List.replicate_succ, List.takeWhile_append_of_pos nonzero]
  simp

end Strings

section Lookup

theorem findCont_eq_some {p : Nat → Bool} {c : Nat} :
    findCont p = some c ↔ c < NCONT ∧ p c ∧ ∀ e < c, ¬ p e := by
  unfold findCont
  rw [List.find?_range_eq_some]
  simp only [List.mem_range, Bool.not_eq_true', Bool.not_eq_true]
  tauto

variable {k : Kernel} {ok : Nat → Prop} [DecidablePred ok]

/- Every container that goes on where the string ends stands behind one of that very name. -/
def Foremost (k : Kernel) (ok : Nat → Prop) (name : Fs.CStr) : Prop :=
  ∀ d < NCONT, ok d → name.bytes <+: called (k.cont d) → name.bytes ≠ called (k.cont d) →
    ∃ e < d, ok e ∧ called (k.cont e) = name.bytes

/- The container that a call finds, of those that it looks at. -/
def resolve (k : Kernel) (ok : Nat → Prop) [DecidablePred ok] (name : Fs.CStr) : Option Nat :=
  findCont fun i => nameMatches name (k.cont i) ∧ ok i

theorem resolve_eq_some {name : Fs.CStr} {c : Nat} : resolve k ok name = some c ↔
    c < NCONT ∧ (name.bytes <+: called (k.cont c) ∧ ok c) ∧
      ∀ e < c, ok e → ¬ name.bytes <+: called (k.cont e) := by
  unfold resolve
  rw [findCont_eq_some]
  simp only [decide_eq_true_eq, nameMatches_iff, not_and']

theorem resolve_exact (distinct : ∀ c d, ok c → ok d → called (k.cont c) = called (k.cont d) → c = d)
    (name : Fs.CStr) :
    (∀ c < NCONT, ok c → (resolve k ok name = some c ↔ name.bytes = called (k.cont c))) ↔
      Foremost k ok name := by
  constructor
  · intro resolves d inside here start longer
    -- the first container that the string fits is the one of that name
    have fits : ∃ c, c < NCONT ∧ ok c ∧ name.bytes <+: called (k.cont c) := ⟨d, inside, here, start⟩
    classical
    obtain ⟨below, here', start'⟩ := Nat.find_spec fits
    have first : resolve k ok name = some (Nat.find fits) := by
      refine resolve_eq_some.mpr ⟨below, ⟨start', here'⟩, fun e before ready fit => ?_⟩
      exact Nat.find_min fits before ⟨before.trans below, ready, fit⟩
    have named := (resolves _ below here').mp first
    refine ⟨Nat.find fits, lt_of_le_of_ne (Nat.find_min' fits ⟨inside, here, start⟩) ?_, here', named.symm⟩
    intro same
    rw [same] at named
    exact longer named
  · intro foremost c inside here
    rw [resolve_eq_some]
    constructor
    · rintro ⟨-, ⟨start, -⟩, first⟩
      by_contra longer
      obtain ⟨e, before, ready, named⟩ := foremost c inside here start longer
      exact first e before ready (named ▸ List.prefix_rfl)
    · intro named
      refine ⟨inside, ⟨named ▸ List.prefix_rfl, here⟩, fun e before ready start => ?_⟩
      have longer : name.bytes ≠ called (k.cont e) := by
        intro same
        exact before.ne (distinct e c ready here (same.symm.trans named))
      obtain ⟨f, earlier, ready', same⟩ := foremost e (before.trans inside) ready start longer
      have clash := distinct f c ready' here (same.trans named)
      omega

end Lookup

/- Containers can go out of use, and the others keep their names. -/
def KeepsNames (k k' : Kernel) : Prop := ∀ c, InUse k' c → InUse k c ∧ (k'.cont c).name = (k.cont c).name

/- What a turn does to the names: the second case is ccreate of the name. -/
inductive Renames (k k' : Kernel) : Option Fs.CStr → Prop where
  | keeps : KeepsNames k k' → Renames k k' none
  | creates {c : Nat} {name : Fs.CStr} : name2cont k name = none → ¬ InUse k c → c < NCONT →
      (InUse k' c → (k'.cont c).name = strncpy name.bytes 16) →
      (∀ d, d ≠ c → InUse k' d → InUse k d ∧ (k'.cont d).name = (k.cont d).name) →
      Renames k k' (some name)

/- Container c is in use or not as before, under the same name and cid. -/
def SameTitle (k k' : Kernel) (c : Nat) : Prop :=
  (InUse k' c ↔ InUse k c) ∧ (k'.cont c).name = (k.cont c).name ∧ (k'.cont c).cid = (k.cont c).cid

def SameTitles (k k' : Kernel) : Prop := k'.nextcid = k.nextcid ∧ ∀ c, SameTitle k k' c

/- ccreate has taken the next cid for container c, and the name if it succeeds. -/
structure Founds (k k' : Kernel) (c : Nat) (name : Fs.CStr) : Prop where
  fresh : name2cont k name = none
  free : ¬ InUse k c
  inside : c < NCONT
  next : k'.nextcid = incr k.nextcid
  cid : (k'.cont c).cid = k.nextcid
  named : InUse k' c → (k'.cont c).name = strncpy name.bytes 16
  others : ∀ d, d ≠ c → SameTitle k k' d

/- Containers are given up. -/
def Retires (k k' : Kernel) : Prop :=
  k'.nextcid = k.nextcid ∧ ∀ c, k'.cont c = k.cont c ∨ ¬ InUse k' c ∧ (k'.cont c).cid = 0

section Steps
variable {p : ProcId} {k k' : Kernel}

theorem SameTitle.trans {k₁ k₂ k₃ : Kernel} {c : Nat} (first : SameTitle k₁ k₂ c)
    (second : SameTitle k₂ k₃ c) : SameTitle k₁ k₃ c :=
  ⟨second.1.trans first.1, second.2.1.trans first.2.1, second.2.2.trans first.2.2⟩

theorem SameTitles.refl (k : Kernel) : SameTitles k k := ⟨rfl, fun _ => ⟨Iff.rfl, rfl, rfl⟩⟩

theorem SameTitles.trans {k₁ k₂ k₃ : Kernel} (first : SameTitles k₁ k₂) (second : SameTitles k₂ k₃) :
    SameTitles k₁ k₃ :=
  ⟨second.1.trans first.1, fun c => (first.2 c).trans (second.2 c)⟩

theorem SameTitles.inUse (same : SameTitles k k') {c : Nat} : InUse k' c ↔ InUse k c := (same.2 c).1

/- One container changes, and stays in use or out of it. -/
theorem sameTitles_update {i : Nat} {x : Cont} (next : k'.nextcid = k.nextcid)
    (conts : k'.cont = update k.cont i x) (state : x.state ≠ .cunused ↔ InUse k i)
    (name : x.name = (k.cont i).name) (cid : x.cid = (k.cont i).cid) : SameTitles k k' := by
  refine ⟨next, fun c => ?_⟩
  unfold SameTitle InUse at *
  rw [conts, Function.update_apply]
  split
  · rename_i here
    rw [here]
    exact ⟨state, name, cid⟩
  · exact ⟨Iff.rfl, rfl, rfl⟩

theorem sameTitles_of_cont (next : k'.nextcid = k.nextcid) (conts : k'.cont = k.cont) : SameTitles k k' := by
  refine ⟨next, fun c => ?_⟩
  unfold SameTitle InUse
  rw [conts]
  exact ⟨Iff.rfl, rfl, rfl⟩

/- A container that its process kills was in use. -/
theorem killed_inUse {i : Nat} {state : ContState} (inUse : InUse k i)
    (goes : state = (k.cont i).state ∨ state = .cstopping) : state ≠ .cunused ↔ InUse k i := by
  refine iff_of_true ?_ inUse
  rcases goes with same | stopped
  · rw [same]
    exact inUse
  · rw [stopped]
    exact nofun

theorem Effect.sameTitles {sc : Scope} (records : ∀ i, ¬ sc.records i) (inUse : InUse k (k.contOf p))
    (effect : Effect p sc k k') : SameTitles k k' := by
  cases effect with
  | fs s effects => exact sameTitles_update rfl rfl (killed_inUse inUse effects.cstate) rfl rfl
  | mem s effects => exact sameTitles_update rfl rfl (killed_inUse inUse effects.cstate) rfl rfl
  | count i n _ => exact sameTitles_update rfl rfl Iff.rfl rfl rfl
  | record i c inside => exact absurd inside (records i)
  | nextcid cid i inside => exact absurd inside (records i)
  | _ => exact sameTitles_of_cont rfl rfl

theorem Effects.sameTitles {sc : Scope} (records : ∀ i, ¬ sc.records i) (inUse : InUse k (k.contOf p))
    (effects : Effects p sc k k') : SameTitles k k' := by
  induction effects with
  | refl => exact .refl k
  | tail before last ih =>
    refine ih.trans (last.sameTitles records ?_)
    rw [Effects.contOf before]
    exact ih.inUse.mpr inUse

/- Any process, count and file, but no record of a container. -/
def Scope.processes : Scope := ⟨fun _ => True, fun _ => True, fun _ => False, fun _ => True⟩

theorem acts_sameTitles {A : Type} {x : KM A} (acts : Acts p (k.contOf p) .processes x)
    (inUse : InUse k (k.contOf p)) : wp anyMode x (fun _ k' => SameTitles k k') k :=
  wp_mono (acts k rfl) fun _ _ effects => effects.sameTitles (fun _ => id) inUse

theorem changeState_sameTitles (name : Fs.CStr) {source : List ContState} {target : ContState}
    (lives : target ≠ .cunused) :
    wp anyMode (changeState p name source target) (fun _ k' => SameTitles k k') k := by
  refine wp_get_bind (wp_ite (fun _ => wp_pure (.refl k)) fun _ => ?_)
  split
  · exact wp_pure (.refl k)
  · rename_i c found
    refine wp_ite (fun _ => wp_modify_bind (wp_pure ?_)) fun _ => wp_pure (.refl k)
    have inUse : InUse k c := (of_decide_eq_true (findCont_some found).2).2
    exact sameTitles_update rfl rfl (iff_of_true lives inUse) rfl rfl

theorem cstart_sameTitles (name : Fs.CStr) (inUse : InUse k (k.contOf p)) :
    wp anyMode (cstart p name) (fun _ k' => SameTitles k k') k := by
  refine wp_get_bind ?_
  split
  · exact wp_pure (.refl k)
  · rename_i nc found
    have ready : InUse k nc := by
      unfold InUse
      rw [(of_decide_eq_true (findCont_some found).2).2]
      decide
    refine wp_seq (acts_sameTitles (acts_onFs _) inUse) fun udsk k₁ first => ?_
    refine wp_ite (fun _ => wp_pure first) fun _ => wp_modify_bind (wp_get_bind (wp_pure ?_))
    refine first.trans (sameTitles_update rfl rfl (iff_of_true (by simp [InUse]) ?_) rfl rfl)
    exact first.inUse.mpr ready

theorem cfork_sameTitles (home : p.cont = k.contOf p) (cid : Int) (inUse : InUse k (k.contOf p)) :
    wp anyMode (cfork p cid) (fun _ k' => SameTitles k k') k := by
  refine acts_sameTitles (acts_get fun _ _ => ?_) inUse
  split
  · exact acts_pure _
  · exact acts_fork home trivial trivial _ rfl

theorem alloccont_titles : wp anyMode alloccont (fun r k' => match r with
    | none => k' = k
    | some c => c < NCONT ∧ ¬ InUse k c ∧ InUse k' c ∧ k'.proc = k.proc ∧
      k'.nextcid = incr k.nextcid ∧ (k'.cont c).cid = k.nextcid ∧
      ∀ d, d ≠ c → k'.cont d = k.cont d) k := by
  refine wp_get_bind ?_
  split
  · rename_i c found
    obtain ⟨inside, free⟩ := findCont_some found
    refine wp_modify_bind (wp_modify_bind (wp_pure ⟨inside, fun inUse => ?_, ?_, rfl, rfl, ?_, ?_⟩))
    · exact inUse (of_decide_eq_true free)
    · unfold InUse
      dsimp only
      rw [update_self]
      simp
    · dsimp only
      rw [update_self]
    · exact fun d other => update_of_ne other _ _
  · exact wp_pure rfl

/- ccreate: the name is new, and the container that gets it was not in use. -/
theorem ccreate_titles (name : Fs.CStr) (mproc : Int) (msz mdsk : Nat) (inUse : InUse k (k.contOf p)) :
    wp anyMode (ccreate p name mproc msz mdsk)
      (fun _ k' => SameTitles k k' ∨ ∃ c, Founds k k' c name) k := by
  have same : SameTitles k k := .refl k
  refine wp_get_bind (wp_ite (fun _ => wp_pure (Or.inl same)) fun fresh => ?_)
  refine wp_ite (fun _ => wp_pure (Or.inl same)) fun _ => wp_seq alloccont_titles fun r k₁ spec => ?_
  cases r with
  | none =>
    cases spec
    exact wp_pure (Or.inl same)
  | some nc =>
    obtain ⟨inside, free, taken, procs, next, cid, others⟩ := spec
    have home : k₁.contOf p = k.contOf p := by
      unfold Kernel.contOf Kernel.procAt
      rw [procs]
    have inUse₁ : InUse k₁ (k₁.contOf p) := by
      rw [home]
      unfold InUse
      rw [others]
      · exact inUse
      · exact fun here => free (here ▸ inUse)
    have first (d : Nat) (other : d ≠ nc) : SameTitle k k₁ d := by
      unfold SameTitle InUse
      rw [others d other]
      exact ⟨Iff.rfl, rfl, rfl⟩
    -- the last assignment to the record of nc leaves its cid and the other records alone
    have founds {k₂ : Kernel} {x : Cont} (looked : SameTitles k₁ k₂) (kept : x.cid = (k₂.cont nc).cid)
        (named : x.state ≠ .cunused → x.name = strncpy name.bytes 16) :
        Founds k { k₂ with cont := update k₂.cont nc x } nc name := by
      refine ⟨by simpa using fresh, free, inside, looked.1.trans next, ?_, ?_, fun d other => ?_⟩
      · dsimp only
        rw [update_self, kept, (looked.2 nc).2.2, cid]
      · unfold InUse
        dsimp only
        rw [update_self]
        exact named
      · refine ((first d other).trans (looked.2 d)).trans ?_
        unfold SameTitle InUse
        dsimp only
        rw [update_of_ne other]
        exact ⟨Iff.rfl, rfl, rfl⟩
    refine wp_get_bind (wp_seq
      (wp_and (acts_sameTitles (acts_onFs _) inUse₁)
        (wp_mono (acts_onFs _ k₁ rfl) fun _ _ (effects : Effects p .processes k₁ _) => effects.contOf)) ?_)
    rintro found k₂ ⟨looked, home₂⟩
    cases found with
    | none =>
      refine wp_modify_bind (wp_pure (Or.inr ⟨nc, founds looked rfl fun inUse => ?_⟩))
      exact absurd rfl inUse
    | some ip =>
      have inUse₂ : InUse k₂ (k₂.contOf p) := by
        rw [home₂]
        exact looked.inUse.mpr inUse₁
      refine wp_seq (acts_sameTitles (acts_onFs _) inUse₂) fun rootdir k₃ dup => ?_
      exact wp_modify_bind (wp_pure (Or.inr ⟨nc, founds (looked.trans dup) rfl fun _ => rfl⟩))

theorem syscall_titles (home : p.cont = k.contOf p) (inUse : InUse k (k.contOf p)) (call : Syscall) :
    wp anyMode (syscall p call) (fun _ k' => SameTitles k k' ∨
      ∃ c name mproc msz mdsk, Founds k k' c name ∧ call = .ccreate name mproc msz mdsk) k := by
  have plain {x : KM (Option Int)} (same : wp anyMode x (fun _ k' => SameTitles k k') k) :
      wp anyMode x (fun _ k' => SameTitles k k' ∨
        ∃ c name mproc msz mdsk, Founds k k' c name ∧ call = .ccreate name mproc msz mdsk) k :=
    wp_mono same fun _ _ same => Or.inl same
  have returned {x : KM Int} (same : wp anyMode x (fun _ k' => SameTitles k k') k) :
      wp anyMode (returns x) (fun _ k' => SameTitles k k') k := wp_seq same fun _ _ h => wp_pure h
  by_cases container : ContainerCall call
  · cases call with
    | ccreate name mproc msz mdsk =>
      refine wp_seq (ccreate_titles name mproc msz mdsk inUse) fun _ k' titles => wp_pure ?_
      rcases titles with same | ⟨c, founds⟩
      · exact Or.inl same
      · exact Or.inr ⟨c, name, mproc, msz, mdsk, founds, rfl⟩
    | cstart name => exact plain (returned (cstart_sameTitles name inUse))
    | cfork cid => exact plain (returned (cfork_sameTitles home cid inUse))
    | cstop name => exact plain (returned (changeState_sameTitles name nofun))
    | cpause name => exact plain (returned (changeState_sameTitles name nofun))
    | cresume name => exact plain (returned (changeState_sameTitles name nofun))
    | _ => exact container.elim
  · exact plain (acts_sameTitles
      (acts_syscall home trivial trivial (fun _ => trivial) call container) inUse)

theorem visit_sameTitles (i : Nat) : wp anyMode (visit i) (fun _ k' => SameTitles k k') k := by
  refine wp_get_bind (wp_ite (fun _ => wp_pure (.refl k)) fun _ => ?_)
  split
  · exact wp_fault trivial
  · rename_i q _
    have moved {k₁ : Kernel} {n : Int} (next : k₁.nextcid = k.nextcid)
        (conts : k₁.cont = update k.cont i { k.cont i with nextproc := n }) : SameTitles k k₁ :=
      sameTitles_update next conts Iff.rfl rfl rfl
    have rest {k₁ : Kernel} (same : SameTitles k k₁) :
        wp anyMode (switchuvm q >>= fun _ => modifyProc q (fun r => { r with state := .running }) >>=
          fun _ => (pure (some q) : KM (Option ProcId))) (fun _ k' => SameTitles k k') k₁ := by
      refine wp_seq (switchuvm_same q) fun _ k₂ unchanged => ?_
      subst unchanged
      exact wp_modify_bind (wp_pure (same.trans (sameTitles_of_cont rfl rfl)))
    refine wp_modify_bind (wp_ite (fun _ => wp_pure (moved rfl rfl)) fun _ => ?_)
    refine wp_ite (fun _ => wp_modify_bind (rest ?_)) fun _ => rest (moved rfl rfl)
    exact moved rfl rfl

theorem Retires.refl (k : Kernel) : Retires k k := ⟨rfl, fun _ => Or.inl rfl⟩

theorem afterRun_retires (i : Nat) : wp anyMode (afterRun i) (fun _ k' => Retires k k') k := by
  refine wp_get_bind (wp_ite (fun _ => wp_modify ⟨rfl, fun c => ?_⟩) fun _ => wp_pure (.refl k))
  unfold InUse
  dsimp only
  by_cases here : c = i
  · subst here
    rw [update_self]
    exact Or.inr ⟨fun inUse => inUse rfl, rfl⟩
  · exact Or.inl (update_of_ne here _ _)

theorem switchBack_retires {s t : Smp} {cpu i : Nat} (back : switchBack s cpu i p k = some t) :
    Retires k t.kernel := by
  unfold switchBack at back
  split at back
  · cases back
    exact .refl k
  · obtain ⟨⟨_, k₁⟩, done, same⟩ := Option.map_eq_some_iff.mp back
    cases same
    exact after_spec (Q := fun _ k' => Retires k k') (afterRun_retires i) done

theorem Running.inUse (running : Running k p) (sound : Census.Sound (census k)) :
    p.cont = k.contOf p ∧ InUse k (k.contOf p) := by
  obtain ⟨parent, live⟩ := running.own sound
  have home := (role_eq_live.mp live).2.1
  refine ⟨home.symm, ?_⟩
  change (k.cont (k.procAt p).cont).state ≠ _
  rw [home]
  exact (sound.started p _ _ live).1

/- What a turn does to the names and cids: a call, then the exit of a container. -/
theorem turn_titles {s t : Smp} {l : Turn} (sound : Census.Sound (census s.kernel)) (taken : turn s l = some t) :
    ∃ k, (SameTitles s.kernel k ∨ ∃ c name cpu mproc msz mdsk, Founds s.kernel k c name ∧
      l = .call cpu (.ccreate name mproc msz mdsk)) ∧ Retires k t.kernel := by
  cases l with
  | visit cpu i =>
    obtain ⟨-, r, done, -⟩ := visit_some taken
    have same := after_spec (Q := fun _ k' => SameTitles s.kernel k') (visit_sameTitles i) done
    exact ⟨t.kernel, Or.inl same, .refl _⟩
  | call cpu c =>
    obtain ⟨i, p, k, -, running, made, back⟩ := runs_some taken
    obtain ⟨home, inUse⟩ := running.inUse sound
    refine ⟨k, ?_, switchBack_retires back⟩
    rcases call_spec (syscall_titles home inUse c) made with same | ⟨nc, name, mproc, msz, mdsk, founds, rfl⟩
    · exact Or.inl same
    · exact Or.inr ⟨nc, name, cpu, mproc, msz, mdsk, founds, rfl⟩
  | store cpu va b =>
    obtain ⟨i, p, k, -, running, made, back⟩ := runs_some taken
    obtain ⟨-, inUse⟩ := running.inUse sound
    have acts : Acts p (s.kernel.contOf p) .processes (perform (.store p va b)) :=
      acts_get fun _ _ => acts_bind (acts_onMem _) fun _ => acts_pure _
    have same := (step_spec (fun _ => acts_sameTitles acts inUse) fun _ _ => trivial).2 k made
    exact ⟨k, Or.inl same, switchBack_retires back⟩
  | yield cpu =>
    obtain ⟨i, p, k, -, -, made, back⟩ := runs_some taken
    obtain ⟨⟨_, k₁⟩, done, same⟩ := Option.map_eq_some_iff.mp made
    cases same
    have same : SameTitles s.kernel k₁ :=
      after_spec (Q := fun _ k' => SameTitles s.kernel k') (wp_modify (sameTitles_of_cont rfl rfl)) done
    exact ⟨k₁, Or.inl same, switchBack_retires back⟩

theorem Retires.keepsNames (retires : Retires k k') : KeepsNames k k' := by
  intro c now
  rcases retires.2 c with same | ⟨gone, -⟩
  · unfold InUse at *
    rw [same] at now ⊢
    exact ⟨now, rfl⟩
  · exact absurd now gone

theorem turn_renames {s t : Smp} {l : Turn} (sound : Census.Sound (census s.kernel)) (taken : turn s l = some t) :
    ∃ o, Renames s.kernel t.kernel o ∧
      ∀ name, o = some name → ∃ cpu mproc msz mdsk, l = .call cpu (.ccreate name mproc msz mdsk) := by
  obtain ⟨k, titles, retires⟩ := turn_titles sound taken
  have after := retires.keepsNames
  rcases titles with same | ⟨c, name, cpu, mproc, msz, mdsk, founds, rfl⟩
  · refine ⟨none, .keeps fun c now => ?_, nofun⟩
    obtain ⟨before, kept⟩ := after c now
    exact ⟨same.inUse.mp before, kept.trans (same.2 c).2.1⟩
  · refine ⟨some name, .creates founds.fresh founds.free founds.inside (fun now => ?_) fun d other now => ?_,
      fun _ same => Option.some.inj same ▸ ⟨cpu, mproc, msz, mdsk, rfl⟩⟩
    · obtain ⟨before, kept⟩ := after c now
      exact kept.trans (founds.named before)
    · obtain ⟨before, kept⟩ := after d now
      obtain ⟨inUse, name, -⟩ := founds.others d other
      exact ⟨inUse.mp before, kept.trans name⟩

end Steps

/- The containers in use have different names. -/
structure Titled (k : Kernel) : Prop where
  inside : ∀ c, InUse k c → c < NCONT
  distinct : ∀ c d, InUse k c → InUse k d → called (k.cont c) = called (k.cont d) → c = d

/- The name that ccreate is given fits into the array with its NUL. -/
def Short (_ : Smp) : Turn → Prop
  | .call _ (.ccreate name _ _ _) => name.bytes.length < 16
  | _ => True

section Runs
variable {s t : Smp}

theorem name2cont_none {k : Kernel} {name : Fs.CStr} (fresh : name2cont k name = none) {d : Nat}
    (inside : d < NCONT) (inUse : InUse k d) : ¬ name.bytes <+: called (k.cont d) := by
  intro start
  have skipped := List.find?_eq_none.mp fresh d (List.mem_range.mpr inside)
  exact skipped (decide_eq_true ⟨(nameMatches_iff name _).mpr start, inUse⟩)

theorem Renames.titled {k k' : Kernel} {o : Option Fs.CStr} (titled : Titled k) (renames : Renames k k' o)
    (short : ∀ name, o = some name → name.bytes.length < 16) : Titled k' := by
  have kept {d : Nat} (name : (k'.cont d).name = (k.cont d).name) : called (k'.cont d) = called (k.cont d) :=
    congrArg Fs.cut name
  cases renames with
  | keeps same =>
    refine ⟨fun c now => titled.inside c (same c now).1, fun c d here there equal => ?_⟩
    rw [kept (same c here).2, kept (same d there).2] at equal
    exact titled.distinct c d (same c here).1 (same d there).1 equal
  | @creates c name fresh free inside named others =>
    have title (now : InUse k' c) : called (k'.cont c) = name.bytes :=
      (congrArg Fs.cut (named now)).trans (cut_strncpy name (short name rfl))
    -- no other container has the new name
    have apart {d : Nat} (other : d ≠ c) (now : InUse k' d) (equal : called (k'.cont d) = name.bytes) : False := by
      obtain ⟨before, same⟩ := others d other now
      rw [kept same] at equal
      exact name2cont_none fresh (titled.inside d before) before (equal ▸ List.prefix_rfl)
    refine ⟨fun d now => ?_, fun d e here there equal => ?_⟩
    · by_cases other : d = c
      · exact other ▸ inside
      · exact titled.inside d (others d other now).1
    · by_cases first : d = c <;> by_cases second : e = c
      · exact first.trans second.symm
      · subst first
        exact (apart second there (equal.symm.trans (title here))).elim
      · subst second
        exact (apart first here (equal.trans (title there))).elim
      · obtain ⟨before, same⟩ := others d first here
        obtain ⟨before', same'⟩ := others e second there
        rw [kept same, kept same'] at equal
        exact titled.distinct d e before before' equal

theorem turn_sound {l : Turn} (sound : Census.Sound (census s.kernel)) (taken : turn s l = some t) :
    Census.Sound (census t.kernel) :=
  Census.path_invariant Census.Sound (fun _ _ _ sound _ move => Census.move_sound sound move)
    (turn_path sound taken) sound

theorem turn_titled (s : Smp) (l : Turn) (t : Smp) (inv : Census.Sound (census s.kernel) ∧ Titled s.kernel)
    (short : Short s l) (taken : turn s l = some t) : Census.Sound (census t.kernel) ∧ Titled t.kernel := by
  obtain ⟨o, renames, named⟩ := turn_renames inv.1 taken
  refine ⟨turn_sound inv.1 taken, renames.titled inv.2 fun name same => ?_⟩
  obtain ⟨cpu, mproc, msz, mdsk, rfl⟩ := named name same
  exact short

/- At boot there is the root container. -/
theorem Booted.inUse (booted : Booted s) {c : Nat} : InUse s.kernel c ↔ c = 0 := by
  have record : charter (s.kernel.cont c) = Census.boot.cont c :=
    congrArg (fun a : Census.State => a.cont c) booted.census
  have state := congrArg Census.Charter.state record
  rw [Census.boot] at state
  dsimp only [charter] at state
  unfold InUse
  rw [state]
  by_cases root : c = 0
  · rw [if_pos root]
    exact iff_of_true nofun root
  · rw [if_neg root]
    exact iff_of_false (fun inUse => inUse rfl) root

theorem booted_titled (booted : Booted s) : Census.Sound (census s.kernel) ∧ Titled s.kernel := by
  refine ⟨booted.census ▸ Census.boot_sound, fun c inUse => booted.inUse.mp inUse ▸ by decide, ?_⟩
  exact fun c d here there _ => (booted.inUse.mp here).trans (booted.inUse.mp there).symm

/- A container keeps its name as long as it is in use. -/
theorem run_name {ls : List Turn} {c : Nat} (sound : Census.Sound (census s.kernel))
    (stays : Along turn (fun u _ => InUse u.kernel c) s ls) (reached : Lib.exec turn s ls = some t)
    (live : InUse t.kernel c) : (t.kernel.cont c).name = (s.kernel.cont c).name := by
  have kept (u : Smp) (l : Turn) (v : Smp) (inv : Census.Sound (census u.kernel) ∧
      (InUse u.kernel c → (u.kernel.cont c).name = (s.kernel.cont c).name)) (inUse : InUse u.kernel c)
      (taken : turn u l = some v) : Census.Sound (census v.kernel) ∧
        (InUse v.kernel c → (v.kernel.cont c).name = (s.kernel.cont c).name) := by
    refine ⟨turn_sound inv.1 taken, fun now => ?_⟩
    obtain ⟨o, renames, -⟩ := turn_renames inv.1 taken
    cases renames with
    | keeps same => exact (same c now).2.trans (inv.2 inUse)
    | @creates d name fresh free inside named others =>
      have other : c ≠ d := by
        rintro rfl
        exact free inUse
      exact (others c other now).2.trans (inv.2 inUse)
  exact (run_invariant kept ⟨sound, fun _ => rfl⟩ stays reached).2 live

/- The container that a ccreate has brought into use has the name that the call was given. -/
theorem created_called {u : Smp} {cpu c : Nat} {name : Fs.CStr} {mproc : Int} {msz mdsk : Nat}
    (sound : Census.Sound (census s.kernel))
    (created : turn s (.call cpu (.ccreate name mproc msz mdsk)) = some u) (free : ¬ InUse s.kernel c)
    (made : InUse u.kernel c) : (u.kernel.cont c).name = strncpy name.bytes 16 := by
  obtain ⟨o, renames, named⟩ := turn_renames sound created
  cases renames with
  | keeps same => exact absurd (same c made).1 free
  | @creates d other fresh _ inside title others =>
    obtain ⟨_, _, _, _, same⟩ := named other rfl
    cases same
    by_cases here : c = d
    · subst here
      exact title made
    · exact absurd (others c here made).1 free

/-- In every run whose containers are given names of less than 16 bytes, a container that
ccreate made under a name and that is still in use is found under a string by the calls that
look at it exactly if the string is the name, provided that every container of a longer name
that begins with the string stands behind one of that very name; and without this proviso
some container is found wrongly or not found. -/
theorem names_identify {s₁ s₂ : Smp} {ls₁ ls₂ : List Turn} {cpu c : Nat} {name : Fs.CStr} {mproc : Int}
    {msz mdsk : Nat} (booted : Booted s) (short₁ : Along turn Short s ls₁)
    (before : Lib.exec turn s ls₁ = some s₁) (short : name.bytes.length < 16)
    (created : turn s₁ (.call cpu (.ccreate name mproc msz mdsk)) = some s₂) (free : ¬ InUse s₁.kernel c)
    (short₂ : Along turn Short s₂ ls₂) (stays : Along turn (fun u _ => InUse u.kernel c) s₂ ls₂)
    (reached : Lib.exec turn s₂ ls₂ = some t) (live : InUse t.kernel c) (q : Fs.CStr) :
    (Foremost t.kernel (InUse t.kernel) q → (name2cont t.kernel q = some c ↔ q = name)) ∧
    (Foremost t.kernel (Ready t.kernel) q → Ready t.kernel c →
      (findCont (fun i => nameMatches q (t.kernel.cont i) ∧ (t.kernel.cont i).state = .cready) = some c ↔
        q = name)) ∧
    ((∀ d < NCONT, InUse t.kernel d → (name2cont t.kernel q = some d ↔ q.bytes = called (t.kernel.cont d))) ↔
      Foremost t.kernel (InUse t.kernel) q) := by
  have inv₁ := run_invariant turn_titled (booted_titled booted) short₁ before
  have inv₂ := turn_titled s₁ (.call cpu (.ccreate name mproc msz mdsk)) s₂ inv₁ short created
  have titled := (run_invariant turn_titled inv₂ short₂ reached).2
  have made : InUse s₂.kernel c := by
    cases ls₂ with
    | nil =>
      cases reached
      exact live
    | cons l ls => exact stays.1
  have title : called (t.kernel.cont c) = name.bytes := by
    have kept := run_name inv₂.1 stays reached live
    have given := created_called inv₁.1 created free made
    unfold called
    rw [kept, given, cut_strncpy name short]
  have inside := titled.inside c live
  have same : q.bytes = called (t.kernel.cont c) ↔ q = name := by
    rw [title]
    exact ⟨fun bytes => by cases q; cases name; cases bytes; rfl, congrArg Fs.CStr.bytes⟩
  have exact := resolve_exact (k := t.kernel) titled.distinct q
  refine ⟨fun foremost => ?_, fun foremost ready => ?_, exact⟩
  · exact (exact.mpr foremost c inside live).trans same
  · have distinct (d e : Nat) (here : Ready t.kernel d) (there : Ready t.kernel e) :=
      titled.distinct d e (fun unused => nomatch here.symm.trans unused)
        fun unused => nomatch there.symm.trans unused
    exact ((resolve_exact distinct q).mpr foremost c inside ready).trans same

end Runs

instance (s : Smp) (l : Turn) : Decidable (Short s l) := by
  unfold Short
  split <;> infer_instance

instance (k : Kernel) (ok : Nat → Prop) [DecidablePred ok] (name : Fs.CStr) : Decidable (Foremost k ok name) :=
  let _behind (d : Nat) : Decidable (∃ e < d, ok e ∧ called (k.cont e) = name.bytes) := inferInstance
  let _each (d : Nat) : Decidable (name.bytes ≠ called (k.cont d) →
    ∃ e < d, ok e ∧ called (k.cont e) = name.bytes) := inferInstance
  inferInstanceAs (Decidable (∀ d < NCONT, _ → _ → _))

/- The strings x, . and ./x, and i. -/
def strX : Fs.CStr := ⟨[120], Fs.x_whole⟩
def strDot : Fs.CStr := ⟨[46], by decide⟩
def strDotX : Fs.CStr := ⟨[46, 47, 120], Fs.dotX_whole⟩
def strI : Fs.CStr := ⟨[105], by decide⟩

theorem names_identify_start :
    ∃ s₁ s₂ t, Lib.exec turn bootSmp [.visit 0 0] = some s₁ ∧
      turn s₁ (.call 0 (.ccreate strDotX 1 0 100)) = some s₂ ∧
      Lib.exec turn s₂ [.call 0 (.ccreate strX 1 0 100)] = some t ∧
      name2cont t.kernel strDotX = some 1 := by
  obtain ⟨s₁, before, free, s₂, created, made, t, reached, live, foremost⟩ :
      ∃ s₁, Lib.exec turn bootSmp [.visit 0 0] = some s₁ ∧ ¬ InUse s₁.kernel 1 ∧
        ∃ s₂, turn s₁ (.call 0 (.ccreate strDotX 1 0 100)) = some s₂ ∧ InUse s₂.kernel 1 ∧
          ∃ t, Lib.exec turn s₂ [.call 0 (.ccreate strX 1 0 100)] = some t ∧ InUse t.kernel 1 ∧
            Foremost t.kernel (InUse t.kernel) strDotX := by decide +kernel
  have short₁ : Along turn Short bootSmp [.visit 0 0] := ⟨trivial, fun _ _ => trivial⟩
  have short₂ : Along turn Short s₂ [.call 0 (.ccreate strX 1 0 100)] :=
    ⟨show strX.bytes.length < 16 by decide, fun _ _ => trivial⟩
  have stays : Along turn (fun u _ => InUse u.kernel 1) s₂ [.call 0 (.ccreate strX 1 0 100)] :=
    ⟨made, fun _ _ => trivial⟩
  refine ⟨s₁, s₂, t, before, created, reached, ?_⟩
  exact ((names_identify (booted_of rfl rfl rfl) short₁ before (by decide) created free
    short₂ stays reached live strDotX).1 foremost).mpr rfl

/- The string . finds the container ./x, and cstop of i stops the root container, which is
called initcont. -/
theorem beginnings_resolve :
    Booted bootSmp ∧
    (∃ t, Lib.exec turn bootSmp [.visit 0 0, .call 0 (.ccreate strDotX 1 0 100)] = some t ∧
      called (t.kernel.cont 1) = strDotX.bytes ∧ name2cont t.kernel strDot = some 1) ∧
    ∃ t, Lib.exec turn bootSmp [.visit 0 0, .call 0 (.cstop strI)] = some t ∧
      called (t.kernel.cont 0) = rootTitle ∧ (t.kernel.cont 0).state = .cstopping := by
  refine ⟨booted_of rfl rfl rfl, ?_, ?_⟩
  · decide +kernel
  · decide +kernel

end Xv6c

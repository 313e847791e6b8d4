import Xv6c.Kernel.Confinement
import Xv6c.Kernel.Isolation

/-! The memory limit of a container against the pages that are held for it. -/
namespace Xv6c
open Lib Mem
open Multiset (card card_add)

/- A kernel, and for each page of a pipe the container whose process made it. -/
structure Ledger where
  kernel : Kernel
  maker : Nat → Nat

def row (c : Nat) : Finset ProcId := slots.filter fun q => q.cont = c

/- The pages held on behalf of the processes of container c. -/
def usage (s : Ledger) (c : Nat) : Nat :=
  ∑ q ∈ row c, card (procPages s.kernel.kmem.mem (s.kernel.procAt q)) +
    ((pipePages s.kernel.file).filter fun r => s.maker r = c).card

/- The calls that allocate and free pages. -/
def memCall : Syscall → Bool
  | .fork | .cfork _ | .exec _ _ | .sbrk _ | .pipe | .close _ | .exit | .wait => true
  | _ => false

def memStep (s : Ledger) (l : ProcId × Syscall) : Option Ledger :=
  if memCall l.2 then
    match step s.kernel (.call l.1 l.2) with
    | some k => some ⟨k, fun r => if r ∈ pipePages s.kernel.file then s.maker r
        else s.kernel.contOf l.1⟩
    | none => none
  else none

/- The container whose processes get the pages that a call allocates. -/
def beneficiary (k : Kernel) (p : ProcId) : Syscall → Option Nat
  | .fork | .exec _ _ | .sbrk _ | .pipe => some (k.contOf p)
  | .cfork cid => cid2cont k cid
  | _ => none

/- The most that a call adds to the pages held, where that is known before. -/
def need (k : Kernel) (p : ProcId) : Syscall → Option Nat
  | .fork | .cfork _ => some (1 + childSpace (k.procAt p).sz)
  | .pipe => some 1
  | _ => none

/- A call that allocates for container c is made by one of its processes, and the counter
is not behind the pages held, or there is room for all that the call may need. -/
def Covered (c : Nat) (s : Ledger) (l : ProcId × Syscall) : Prop :=
  beneficiary s.kernel l.1 l.2 = some c →
    (s.kernel.contOf l.1 = c ∧ usage s c ≤ (s.kernel.cont c).upg) ∨
    ∃ n, need s.kernel l.1 l.2 = some n ∧ (usage s c + n) * PGSIZE ≤ (s.kernel.cont c).msz

section Frame
variable {p : ProcId} {sc : Scope} {k k' : Kernel}

/- Limits stay, and the counter of pages is that of the caller's container. -/
theorem Effect.limits (h : Effect p sc k k') (records : ∀ i, ¬ sc.records i) (c : Nat) :
    (k'.cont c).msz = (k.cont c).msz ∧ (c ≠ k.contOf p → (k'.cont c).upg = (k.cont c).upg) := by
  cases h with
  | fs s _ =>
    simp only [Kernel.fsPut, Function.update_apply]
    split <;> simp_all
  | mem s _ =>
    simp only [Kernel.memPut, Function.update_apply]
    split <;> simp_all
  | count i n counted =>
    simp only [Function.update_apply]
    split <;> simp_all
  | record i d recorded => exact absurd recorded (records i)
  | _ => exact ⟨rfl, fun _ => rfl⟩

theorem Effects.limits (h : Effects p sc k k') (records : ∀ i, ¬ sc.records i) (c : Nat) :
    (k'.cont c).msz = (k.cont c).msz ∧ (c ≠ k.contOf p → (k'.cont c).upg = (k.cont c).upg) := by
  induction h with
  | refl => exact ⟨rfl, fun _ => rfl⟩
  | tail before last ih =>
    obtain ⟨msz, upg⟩ := last.limits records c
    exact ⟨msz.trans ih.1, fun other => (upg (Effects.contOf before ▸ other)).trans (ih.2 other)⟩

theorem Effects.sameFile (h : Effects p sc k k') {f : Nat} (fixed : ¬ sc.files f) :
    SameFile (k.file f) (k'.file f) := by
  induction h with
  | refl => exact ⟨rfl, rfl⟩
  | tail before last ih =>
    cases last with
    | file F files =>
      obtain ⟨type, pipe⟩ := (files f).resolve_left fixed
      exact ⟨type.trans ih.1, pipe.trans ih.2⟩
    | _ => exact ih

end Frame

/- The files that a call may close or turn into pipes. -/
def retyped (k : Kernel) : Syscall → Nat → Prop
  | .close _, _ | .exit, _ | .wait, _ => True
  | .pipe, f => (k.file f).ref = 0
  | _, _ => False

def Scope.mem (k : Kernel) (c : Syscall) : Scope :=
  ⟨fun _ => True, fun _ => True, fun _ => False, retyped k c⟩

variable {p : ProcId} {c : Syscall}

theorem memCall_acts {k : Kernel} (mem : memCall c) (home : k.contOf p = p.cont) :
    wp anyMode (syscall p c) (fun _ k' => Effects p (Scope.mem k c) k k') k := by
  have acts {x : KM (Option Int)} (h : Acts p p.cont (Scope.mem k c) x) :
      wp anyMode x (fun _ k' => Effects p (Scope.mem k c) k k') k := h k home
  cases c with
  | fork => exact acts (acts_returns (acts_fork rfl trivial trivial none rfl))
  | exit => exact acts (acts_bind (acts_exit rfl trivial trivial fun _ => trivial) fun _ => acts_pure _)
  | wait => exact acts (acts_wait trivial)
  | sbrk n =>
    exact acts (acts_returns (acts_get fun _ _ =>
      acts_bind (acts_walks _) fun _ => acts_pure _))
  | exec path argv => exact acts (acts_returns (acts_walks _))
  | pipe =>
    exact wp_seq (sysPipe_acts home fun _ free => free) fun _ _ done => wp_pure done
  | close fd => exact acts (acts_returns (acts_sysClose (fun _ => trivial) fd))
  | cfork cid =>
    refine acts (acts_returns (acts_get fun k _ => ?_))
    split
    · exact acts_pure _
    · exact acts_fork rfl trivial trivial _ rfl
  | _ => exact absurd mem Bool.false_ne_true

/- The number of pages of slot q, and of all slots and pipes. -/
def slotPages (k : Kernel) (q : ProcId) : Nat := card (procPages k.kmem.mem (k.procAt q))

def total (k : Kernel) : Nat := ∑ q ∈ slots, slotPages k q + (pipePages k.file).card

theorem card_held (k : Kernel) : card (held k slots k.kmem.mem) =
    total k + card (space k.kmem.mem k.kmem.kpgdir) := by
  rw [held, card_add, card_add, Multiset.card_sum]
  rfl

theorem anyMode_kernel : KernelMode anyMode False :=
  ⟨fun _ _ => trivial, fun _ => trivial, fun _ _ => trivial⟩

/- The books of a call, with other pages of the slots and other pipes. -/
def reckoned (k : Kernel) (p : ProcId) (m : Option Nat) (slot : ProcId → Multiset Nat)
    (pipes : Finset Nat) : Books :=
  { books k p m with pages := slot, pipes := pipes }

section Reckoned
variable {k k' : Kernel} {p : ProcId} {m : Option Nat} {slot : ProcId → Multiset Nat} {pipes : Finset Nat}

theorem Settled.slotPages {q : ProcId} (h : Settled (reckoned k p m slot pipes) k') (inside : q ∈ slots) :
    Xv6c.slotPages k' q = card (slot q) := by
  obtain ⟨l, h⟩ := h
  exact congrArg card (h.pages q inside)

theorem Settled.known (h : Settled (reckoned k p m slot pipes) k') : pipePages k'.file ⊆ pipes := by
  obtain ⟨l, h⟩ := h
  exact h.known

/- What is taken from the allocator is charged to the caller's container. -/
theorem Settled.charged (h : Settled (reckoned k p m slot pipes) k') :
    total k' + (k.cont (k.contOf p)).upg ≤ total k + (k'.cont (k.contOf p)).upg := by
  obtain ⟨l, h⟩ := h
  have balance := h.balance
  have kernel : space k'.kmem.mem k'.kmem.kpgdir = space k.kmem.mem k.kmem.kpgdir := h.kernel
  rw [zero_add, card_held, kernel] at balance
  simp only [reckoned, books, card_held] at balance
  omega

/- The limit of the caller's container holds for its counter. -/
theorem Settled.counter {n : Nat} (h : Settled (reckoned k p (some n) slot pipes) k') :
    (k'.cont (k.contOf p)).upg * PGSIZE ≤ n := by
  obtain ⟨l, h⟩ := h
  exact (h.limit n rfl).2.1

end Reckoned

/- What a call does to the pages held: none are added, or those of one slot change, or
a pipe is made. -/
inductive Turnover (k k' : Kernel) (p : ProcId) (c : Syscall) : Prop where
  | fewer (slot : ∀ q ∈ slots, slotPages k' q ≤ slotPages k q)
      (pipes : pipePages k'.file ⊆ pipePages k.file)
  | slot (q : ProcId) (inside : q ∈ slots) (target : beneficiary k p c = some q.cont)
      (others : ∀ r ∈ slots, r ≠ q → slotPages k' r = slotPages k r)
      (pipes : pipePages k'.file = pipePages k.file)
      (bounded : ∀ n, need k p c = some n → slotPages k' q ≤ slotPages k q + n)
  | pipe (made : c = .pipe) (slot : ∀ q ∈ slots, slotPages k' q = slotPages k q)
      (kept : pipePages k.file ⊆ pipePages k'.file)
      (one : (pipePages k'.file).card ≤ (pipePages k.file).card + 1)

section Turnover
variable {k k' : Kernel} {p : ProcId} {m : Option Nat} {c : Syscall}

theorem turnover_settled (h : Settled (books k p m) k') : Turnover k k' p c :=
  have h : Settled (reckoned k p m (books k p m).pages (pipePages k.file)) k' := h
  .fewer (fun _ inside => (h.slotPages inside).le) h.known

/- The pages of one slot have changed, and no pipe has. -/
theorem turnover_settle {q : ProcId} {P : Multiset Nat} (h : Settled ((books k p m).settle q P) k')
    (target : beneficiary k p c = some q.cont) (files : ∀ f, SameFile (k.file f) (k'.file f))
    (bounded : ∀ n, need k p c = some n → card P ≤ slotPages k q + n) :
    Turnover k k' p c := by
  have h : Settled (reckoned k p m (Function.update (books k p m).pages q P) (pipePages k.file)) k' := h
  have other (r : ProcId) (inside : r ∈ slots) (away : r ≠ q) : slotPages k' r = slotPages k r := by
    rw [h.slotPages inside, Function.update_of_ne away]
    rfl
  have pipes : pipePages k'.file = pipePages k.file :=
    pipePages_congr (fun f => (files f).1) fun f => (files f).2
  by_cases inside : q ∈ slots
  · refine .slot q inside target other pipes fun n needed => ?_
    rw [h.slotPages inside, Function.update_self]
    exact bounded n needed
  · refine .fewer (fun r hr => (other r hr ?_).le) pipes.subset
    rintro rfl
    exact inside hr

/- A slot has been given up. -/
theorem turnover_reaped {q : ProcId} (h : Settled ((books k p m).settle q 0) k') :
    Turnover k k' p c := by
  have h : Settled (reckoned k p m (Function.update (books k p m).pages q 0) (pipePages k.file)) k' := h
  refine .fewer (fun r inside => ?_) h.known
  rw [h.slotPages inside, Function.update_apply]
  split
  · exact Nat.zero_le _
  · exact le_rfl

/- Pipes that were there are kept, and one page at most is new. -/
theorem turnover_piped {l : List Nat} (files : Files k.file) (h : Piped (books k p m) k l k')
    (kept : ∀ f, (k.file f).ref ≠ 0 → SameFile (k.file f) (k'.file f)) :
    Turnover k k' p .pipe := by
  obtain ⟨r, h⟩ := h
  have final : Files k'.file := h.choose_spec.1.files
  have h : Settled (reckoned k p m (books k p m).pages (insert r (pipePages k.file))) k' := h.settled
  refine .pipe rfl (fun q inside => h.slotPages inside) (fun x old => ?_) ?_
  · obtain ⟨f, isPipe, page⟩ := (mem_pipePages_iff files).mp old
    have used : (k.file f).ref ≠ 0 := by
      intro unused
      rw [files.unused f unused] at isPipe
      cases isPipe
    obtain ⟨type, pipe⟩ := kept f used
    exact (mem_pipePages_iff final).mpr ⟨f, type.trans isPipe, pipe.trans page⟩
  · exact (Finset.card_le_card h.known).trans (Finset.card_insert_le _ _)

end Turnover

theorem memCall_spec {k : Kernel} {m : Option Nat} (mem : memCall c) (settled : Settled (books k p m) k)
    (runs : CanRun k p) (home : k.contOf p = p.cont) :
    wp anyMode (syscall p c) (fun _ k' => Turnover k k' p c ∧
      ∃ slot pipes, Settled (reckoned k p m slot pipes) k') k := by
  have same {k' : Kernel} (fixed : ∀ f, ¬ retyped k c f)
      (effects : Effects p (Scope.mem k c) k k') (f : Nat) : SameFile (k.file f) (k'.file f) :=
    effects.sameFile (fixed f)
  have forked {d : Nat} {k' : Kernel} (h : Forked (books k p m) d (k.procAt p).sz k')
      (target : beneficiary k p c = some d) (needs : need k p c = some (1 + childSpace (k.procAt p).sz))
      (files : ∀ f, SameFile (k.file f) (k'.file f)) : Turnover k k' p c ∧
        ∃ slot pipes, Settled (reckoned k p m slot pipes) k' := by
    rcases h with settled | ⟨np, P, rfl, -, -, small, settled⟩
    · exact ⟨turnover_settled settled, _, _, settled⟩
    · refine ⟨turnover_settle settled target files fun n needed => ?_, _, _, settled⟩
      rw [needs, Option.some.injEq] at needed
      omega
  have resettled {k' : Kernel} (h : Resettled (books k p m) p k')
      (target : beneficiary k p c = some p.cont) (unknown : need k p c = none)
      (files : ∀ f, SameFile (k.file f) (k'.file f)) : Turnover k k' p c ∧
        ∃ slot pipes, Settled (reckoned k p m slot pipes) k' := by
    obtain ⟨P, settled⟩ := h
    refine ⟨turnover_settle settled target files fun n needed => ?_, _, _, settled⟩
    rw [unknown] at needed
    cases needed
  have keeps (kept : PagesKept c) (plain : ∀ n x y z, c ≠ .ccreate n x y z) :
      wp anyMode (syscall p c) (fun _ k' => Turnover k k' p c ∧
        ∃ slot pipes, Settled (reckoned k p m slot pipes) k') k :=
    wp_mono ((keeps_syscall (g := books k p m) anyMode_kernel kept
      fun _ _ _ _ same => absurd same (plain _ _ _ _)).settled settled)
      fun _ _ settled => ⟨turnover_settled settled, _, _, settled⟩
  refine wp_mono (wp_and (memCall_acts mem home) (?_ : wp anyMode (syscall p c) (fun _ k' =>
    Effects p (Scope.mem k c) k k' → Turnover k k' p c ∧
      ∃ slot pipes, Settled (reckoned k p m slot pipes) k') k)) fun _ _ h => h.2 h.1
  cases c with
  | close fd => exact wp_mono (keeps trivial (by simp)) fun _ _ h _ => h
  | exit => exact wp_mono (keeps trivial (by simp)) fun _ _ h _ => h
  | fork =>
    refine wp_seq (fork_spec (g := books k p m) anyMode_kernel none settled settled.home.2)
      fun _ _ done => wp_pure fun effects => forked done rfl rfl (same (fun _ h => h) effects)
  | cfork cid =>
    refine wp_seq (cfork_spec (g := books k p m) anyMode_kernel cid settled)
      fun _ k' done => wp_pure fun effects => ?_
    rcases done with settled | ⟨d, named, done⟩
    · exact ⟨turnover_settled settled, _, _, settled⟩
    · exact forked done named rfl (same (fun _ h => h) effects)
  | wait =>
    refine wp_mono (wait_spec (g := books k p m) anyMode_kernel settled ?_) fun _ k' done _ => ?_
    · rcases runs.2.2 with state | state <;> simp [books, state]
    · rcases done with settled | ⟨q, -, settled⟩
      · exact ⟨turnover_settled settled, _, _, settled⟩
      · exact ⟨turnover_reaped settled, _, _, settled⟩
  | sbrk n =>
    have grown : wp anyMode (sysSbrk p n) (fun _ k' => Resettled (books k p m) p k') k :=
      wp_get_bind (wp_seq (growproc_spec (g := books k p m) anyMode_kernel n settled False.elim)
        fun _ _ done => wp_pure done.1)
    refine wp_seq grown fun _ k' done => wp_pure fun effects => ?_
    exact resettled done (congrArg some home) rfl (same (fun _ h => h) effects)
  | exec path argv =>
    refine wp_seq (exec_spec (g := books k p m) anyMode_kernel settled)
      fun _ k' done => wp_pure fun effects => ?_
    exact resettled done (congrArg some home) rfl (same (fun _ h => h) effects)
  | pipe =>
    obtain ⟨l, owned⟩ := settled
    refine wp_seq (sysPipe_spec (g := books k p m) anyMode_kernel owned)
      fun _ k' done => wp_pure fun effects => ⟨?_, _, _, done.choose_spec.settled⟩
    exact turnover_piped owned.files done fun f used => effects.sameFile used
  | _ => exact absurd mem Bool.false_ne_true

/- A sum in which one term changes. -/
theorem sum_change {S : Finset ProcId} {f g : ProcId → Nat} {q : ProcId} (inside : q ∈ S)
    (others : ∀ r ∈ S, r ≠ q → g r = f r) : ∑ r ∈ S, g r + f q = ∑ r ∈ S, f r + g q := by
  have rest : ∑ r ∈ S.erase q, g r = ∑ r ∈ S.erase q, f r :=
    Finset.sum_congr rfl fun r hr => others r (Finset.mem_of_mem_erase hr) (Finset.ne_of_mem_erase hr)
  rw [← Finset.add_sum_erase S g inside, ← Finset.add_sum_erase S f inside, rest]
  omega

section Usage
variable {s t : Ledger} {p : ProcId} {i : Nat}

theorem usage_fewer (maker : ∀ r ∈ pipePages t.kernel.file, t.maker r = i →
      r ∈ pipePages s.kernel.file ∧ s.maker r = i)
    (slot : ∀ q ∈ row i, slotPages t.kernel q ≤ slotPages s.kernel q) : usage t i ≤ usage s i := by
  refine Nat.add_le_add (Finset.sum_le_sum slot) (Finset.card_le_card fun r member => ?_)
  obtain ⟨inside, owner⟩ := Finset.mem_filter.mp member
  exact Finset.mem_filter.mpr (maker r inside owner)

/- The pages of one slot of the container change, and with them the total. -/
theorem usage_slot {q : ProcId} (inside : q ∈ slots) (here : q.cont = i)
    (others : ∀ r ∈ slots, r ≠ q → slotPages t.kernel r = slotPages s.kernel r)
    (pipes : pipePages t.kernel.file = pipePages s.kernel.file)
    (kept : ∀ r ∈ pipePages s.kernel.file, t.maker r = s.maker r) :
    usage t i + slotPages s.kernel q = usage s i + slotPages t.kernel q ∧
      total t.kernel + slotPages s.kernel q = total s.kernel + slotPages t.kernel q := by
  have own : ∑ r ∈ row i, slotPages t.kernel r + slotPages s.kernel q =
      ∑ r ∈ row i, slotPages s.kernel r + slotPages t.kernel q :=
    sum_change (Finset.mem_filter.mpr ⟨inside, here⟩) fun r hr => others r (Finset.mem_filter.mp hr).1
  have all := sum_change inside others
  have same : ((pipePages t.kernel.file).filter fun r => t.maker r = i) =
      (pipePages s.kernel.file).filter fun r => s.maker r = i := by
    rw [pipes]
    exact Finset.filter_congr fun r hr => by rw [kept r hr]
  unfold usage total
  rw [same, pipes]
  unfold slotPages at *
  omega

/- New pipes are added to the container that made them. -/
theorem usage_pipe (slot : ∀ q ∈ slots, slotPages t.kernel q = slotPages s.kernel q)
    (grows : pipePages s.kernel.file ⊆ pipePages t.kernel.file)
    (kept : ∀ r ∈ pipePages s.kernel.file, t.maker r = s.maker r)
    (made : ∀ r, r ∉ pipePages s.kernel.file → t.maker r = i) :
    usage t i + (pipePages s.kernel.file).card = usage s i + (pipePages t.kernel.file).card ∧
      total t.kernel + (pipePages s.kernel.file).card =
        total s.kernel + (pipePages t.kernel.file).card := by
  have split : ((pipePages t.kernel.file).filter fun r => t.maker r = i) =
      ((pipePages s.kernel.file).filter fun r => s.maker r = i) ∪
        (pipePages t.kernel.file \ pipePages s.kernel.file) := by
    ext r
    simp only [Finset.mem_filter, Finset.mem_union, Finset.mem_sdiff]
    by_cases old : r ∈ pipePages s.kernel.file
    · simp [old, grows old, kept r old]
    · simp [old, made r old]
  have apart : Disjoint ((pipePages s.kernel.file).filter fun r => s.maker r = i)
      (pipePages t.kernel.file \ pipePages s.kernel.file) :=
    Finset.disjoint_of_subset_left (Finset.filter_subset _ _) Finset.disjoint_sdiff
  have fresh := Finset.card_sdiff_add_card_eq_card grows
  have own : ∑ q ∈ row i, slotPages t.kernel q = ∑ q ∈ row i, slotPages s.kernel q :=
    Finset.sum_congr rfl fun q hq => slot q (Finset.mem_filter.mp hq).1
  have all := Finset.sum_congr rfl slot
  unfold usage total
  rw [split, Finset.card_union_of_disjoint apart]
  unfold slotPages at *
  omega

end Usage

variable {s t : Ledger}

theorem memStep_some (taken : memStep s (p, c) = some t) :
    memCall c ∧ step s.kernel (.call p c) = some t.kernel ∧
      (∀ r ∈ pipePages s.kernel.file, t.maker r = s.maker r) ∧
      ∀ r, r ∉ pipePages s.kernel.file → t.maker r = s.kernel.contOf p := by
  unfold memStep at taken
  split at taken
  · rename_i mem
    split at taken
    · rename_i k done
      cases Option.some.inj taken
      exact ⟨mem, done, fun r old => if_pos old, fun r new => if_neg new⟩
    · cases taken
  · cases taken

/- The pages held for container i and its counter are within its limit. -/
structure Within (i : Nat) (s : Ledger) : Prop where
  paged : ∃ l, Paged s.kernel l
  real : usage s i * PGSIZE ≤ (s.kernel.cont i).msz
  counted : (s.kernel.cont i).upg * PGSIZE ≤ (s.kernel.cont i).msz
  small : (s.kernel.cont i).msz < 2 ^ 31

/- A covered call keeps the pages of container i within what the counter allows, or
within the room there was. -/
theorem usage_step {i : Nat} (kept : ∀ r ∈ pipePages s.kernel.file, t.maker r = s.maker r)
    (made : ∀ r, r ∉ pipePages s.kernel.file → t.maker r = s.kernel.contOf p)
    (turnover : Turnover s.kernel t.kernel p c)
    (charged : total t.kernel + (s.kernel.cont (s.kernel.contOf p)).upg ≤
      total s.kernel + (t.kernel.cont (s.kernel.contOf p)).upg) (covered : Covered i s (p, c)) :
    usage t i ≤ usage s i ∨ (s.kernel.contOf p = i ∧ usage t i ≤ (t.kernel.cont i).upg) ∨
      usage t i * PGSIZE ≤ (s.kernel.cont i).msz := by
  have grown {a b : Nat} (own : usage t i + a = usage s i + b) (all : total t.kernel + a = total s.kernel + b)
      (target : beneficiary s.kernel p c = some i)
      (bounded : ∀ n, need s.kernel p c = some n → b ≤ a + n) :
      (s.kernel.contOf p = i ∧ usage t i ≤ (t.kernel.cont i).upg) ∨
        usage t i * PGSIZE ≤ (s.kernel.cont i).msz := by
    rcases covered target with ⟨here, ahead⟩ | ⟨n, needs, room⟩
    · rw [here] at charged
      exact Or.inl ⟨here, by omega⟩
    · have := bounded n needs
      exact Or.inr ((Nat.mul_le_mul_right _ (by omega)).trans room)
  cases turnover with
  | fewer slot pipes =>
    exact Or.inl (usage_fewer (fun r inside owner => ⟨pipes inside, kept r (pipes inside) ▸ owner⟩)
      fun q hq => slot q (Finset.mem_filter.mp hq).1)
  | slot q inside target others pipes bounded =>
    by_cases here : q.cont = i
    · obtain ⟨own, all⟩ := usage_slot inside here others pipes kept
      exact Or.inr (grown own all (here ▸ target) bounded)
    · refine Or.inl (usage_fewer (fun r inside owner => ?_) fun r hr => (others r ?_ ?_).le)
      · rw [pipes] at inside
        exact ⟨inside, kept r inside ▸ owner⟩
      · exact (Finset.mem_filter.mp hr).1
      · rintro rfl
        exact here (Finset.mem_filter.mp hr).2
  | pipe isPipe slot grows one =>
    by_cases here : s.kernel.contOf p = i
    · obtain ⟨own, all⟩ := usage_pipe slot grows kept fun r new => (made r new).trans here
      refine Or.inr (grown own all (by rw [isPipe, ← here]; rfl) fun n needs => ?_)
      rw [isPipe] at needs
      cases needs
      exact one
    · refine Or.inl (usage_fewer (fun r inside owner => ?_)
        fun q hq => (slot q (Finset.mem_filter.mp hq).1).le)
      by_cases old : r ∈ pipePages s.kernel.file
      · exact ⟨old, kept r old ▸ owner⟩
      · exact absurd ((made r old).symm.trans owner) here

theorem within_step {i : Nat} {l : ProcId × Syscall} (h : Within i s) (covered : Covered i s l)
    (taken : memStep s l = some t) : Within i t := by
  obtain ⟨p, c⟩ := l
  obtain ⟨mem, done, kept, made⟩ := memStep_some taken
  obtain ⟨l, paged⟩ := h.paged
  have runs : CanRun s.kernel p := by
    by_contra never
    simp [step, Enabled, never] at done
  have home : s.kernel.contOf p = p.cont :=
    (paged.tidy p (mem_slots.mpr ⟨runs.1, runs.2.1⟩) runs.live).home
  have limits := (call_spec (memCall_acts mem home) done).limits (fun _ => id) i
  have result {m : Option Nat} (settled : Settled (books s.kernel p m) s.kernel) :
      Turnover s.kernel t.kernel p c ∧ ∃ slot pipes, Settled (reckoned s.kernel p m slot pipes) t.kernel :=
    call_spec (memCall_spec mem settled runs home) done
  by_cases here : s.kernel.contOf p = i
  · obtain ⟨turnover, slot, pipes, settled⟩ := result (m := some (s.kernel.cont i).msz)
      (paged.settled runs fun m same => by
        cases same
        rw [here]
        exact ⟨rfl, h.counted, h.small⟩)
    obtain ⟨msz, -⟩ := limits
    have counted := settled.counter
    rw [here] at counted
    refine ⟨settled.paged, ?_, msz ▸ counted, msz ▸ h.small⟩
    rw [msz]
    rcases usage_step kept made turnover settled.charged covered with less | ⟨-, ahead⟩ | room
    · exact (Nat.mul_le_mul_right _ less).trans h.real
    · exact (Nat.mul_le_mul_right _ ahead).trans counted
    · exact room
  · obtain ⟨turnover, slot, pipes, settled⟩ := result (m := none)
      (paged.settled runs fun _ off => nomatch off)
    obtain ⟨msz, upg⟩ := limits
    refine ⟨settled.paged, ?_, ?_, msz ▸ h.small⟩
    · rw [msz]
      rcases usage_step kept made turnover settled.charged covered with less | ⟨same, -⟩ | room
      · exact (Nat.mul_le_mul_right _ less).trans h.real
      · exact absurd same here
      · exact room
    · rw [msz, upg (Ne.symm here)]
      exact h.counted

/-- Over every run of calls that are covered when they are made, the pages held for a
container stay within its memory limit. -/
theorem memory_bounded {i : Nat} {s t : Ledger} {ls : List (ProcId × Syscall)} (initial : Within i s)
    (covered : Along memStep (Covered i) s ls) (reached : Lib.exec memStep s ls = some t) :
    usage t i * PGSIZE ≤ (t.kernel.cont i).msz :=
  (run_invariant (fun _ _ _ h ok taken => within_step h ok taken) initial covered reached).real

/- A container at its limit of two pages: its process has a kernel stack, a page table
that maps nothing, and both ends of a pipe that the root container made. -/
def tenant : Ledger where
  kernel := { Kernel.zero.setProc ⟨1, 0⟩ { Proc.zero with
      state := .running, kstack := 0x201, pgdir := 0x202, cont := 1
      ofile := fun fd => if fd < 2 then some fd else none } with
    kmem := ⟨fun p => if p = 0x204 then setWord (setWord zeros pipeReadopen 1) pipeWriteopen 1 else zeros,
      0, 0x110, 0x200, 0x203⟩
    file := fun f => if f < 2 then ⟨.pipe, 1, f = 0, f = 1, 0x204, 0, 0⟩ else File.zero
    cont := Function.update (fun _ => Cont.zero) 1 { Cont.zero with
      msz := 2 * PGSIZE, upg := 2, mproc := 1, uproc := 1, state := .crunnable, cid := 2 } }
  maker _ := 0

theorem tenant_procAt (q : ProcId) : ¬ q = ⟨1, 0⟩ → tenant.kernel.procAt q = Proc.zero := fun other =>
  (procAt_setProc Kernel.zero ⟨1, 0⟩ q _).trans (if_neg other)

theorem tenant_pipePages : pipePages tenant.kernel.file = {0x204} := by decide +kernel

theorem tenant_file {f : Nat} (isPipe : (tenant.kernel.file f).type = .pipe) : f = 0 ∨ f = 1 := by
  by_contra other
  have : tenant.kernel.file f = File.zero := if_neg (by omega)
  rw [this] at isPipe
  cases isPipe

theorem tenant_paged : Paged tenant.kernel [] := by
  have free {f : Nat} (large : ¬ f < 2) : tenant.kernel.file f = File.zero := if_neg large
  refine paged_solo (p := ⟨1, 0⟩) ⟨rfl, fun _ never => (nomatch never), ⟨by decide, by decide, by decide⟩⟩
    (mem_slots.mpr (by decide)) (by decide) (fun q other => ?_) rfl rfl ?_ (by decide) rfl
    ⟨fun f unused => ?_, fun f outside => ?_⟩ ⟨fun f isPipe => ?_, fun f h isPipe isPipe' _ side => ?_⟩ ?_
  · rw [tenant_procAt q other]
    exact fun live => live.1 rfl
  · rw [tenant_pipePages]
    decide
  · by_cases pipe : f < 2
    · rw [show tenant.kernel.file f = _ from if_pos pipe] at unused
      cases unused
    · rw [free pipe]
      rfl
  · rw [free (by unfold NFILE at outside; omega)]
    rfl
  · rcases tenant_file isPipe with rfl | rfl <;> decide +kernel
  · rcases tenant_file isPipe with rfl | rfl <;> rcases tenant_file isPipe' with rfl | rfl
    · rfl
    · exact absurd side (by decide)
    · exact absurd side (by decide)
    · rfl
  · intro i
    simp only [tenant, Function.update_apply]
    split <;> decide

theorem tenant_usage : usage tenant 1 = 2 := by
  have inside : (⟨1, 0⟩ : ProcId) ∈ row 1 := Finset.mem_filter.mpr ⟨mem_slots.mpr (by decide), rfl⟩
  have own : card (procPages tenant.kernel.kmem.mem (tenant.kernel.procAt ⟨1, 0⟩)) = 2 := by
    rw [procPages, if_pos (by decide), space_blank rfl]
    rfl
  have pipes : ((pipePages tenant.kernel.file).filter fun r => tenant.maker r = 1).card = 0 := by
    rw [tenant_pipePages]
    rfl
  rw [usage, Finset.sum_eq_single (⟨1, 0⟩ : ProcId), own, pipes]
  · intro q _ other
    rw [tenant_procAt q other]
    rfl
  · exact fun outside => absurd inside outside

theorem tenant_within : Within 1 tenant := by
  refine ⟨⟨[], tenant_paged⟩, ?_, by decide, by decide⟩
  rw [tenant_usage]
  decide

/- While the pipe is not closed, the counter keeps the process from making another. -/
theorem memory_bounded_tenant :
    ∃ t, Lib.exec memStep tenant [(⟨1, 0⟩, .pipe)] = some t ∧
      usage t 1 * PGSIZE ≤ (t.kernel.cont 1).msz := by
  have ran : (Lib.exec memStep tenant [(⟨1, 0⟩, .pipe)]).isSome := by decide +kernel
  obtain ⟨t, reached⟩ := Option.isSome_iff_exists.mp ran
  have covered : Along memStep (Covered 1) tenant [(⟨1, 0⟩, .pipe)] :=
    ⟨fun _ => Or.inl ⟨rfl, tenant_usage.le⟩, fun _ _ => trivial⟩
  exact ⟨t, reached, memory_bounded tenant_within covered reached⟩

/- Closing the pipe is credited to the container that did not pay for it; after that it
gets a page more than its limit. -/
theorem foreign_pipe_exceeds :
    Within 1 tenant ∧ ∃ t, Lib.exec memStep tenant
      [(⟨1, 0⟩, .close 0), (⟨1, 0⟩, .close 1), (⟨1, 0⟩, .pipe)] = some t ∧
      (t.kernel.cont 1).msz < usage t 1 * PGSIZE := by
  have ran : (Lib.exec memStep tenant
      [(⟨1, 0⟩, .close 0), (⟨1, 0⟩, .close 1), (⟨1, 0⟩, .pipe)]).map (fun t =>
        ((t.kernel.procAt ⟨1, 0⟩).state, (t.kernel.file 0).type, t.maker (t.kernel.file 0).pipe,
          (t.kernel.cont 1).msz)) = some (.running, .pipe, 1, 2 * PGSIZE) := by decide +kernel
  obtain ⟨t, reached, facts⟩ := Option.map_eq_some_iff.mp ran
  simp only [Prod.mk.injEq] at facts
  obtain ⟨state, type, maker, msz⟩ := facts
  refine ⟨tenant_within, t, reached, ?_⟩
  have slot : 2 ≤ slotPages t.kernel ⟨1, 0⟩ := by
    rw [slotPages, procPages, if_pos (by simp [Live, state]), space]
    simp only [card_add, Multiset.card_singleton]
    omega
  have pipe : 1 ≤ ((pipePages t.kernel.file).filter fun r => t.maker r = 1).card := by
    refine Finset.card_pos.mpr ⟨(t.kernel.file 0).pipe, Finset.mem_filter.mpr ⟨?_, maker⟩⟩
    exact Finset.mem_image.mpr ⟨0, Finset.mem_filter.mpr ⟨mem_fileIds.mpr (by decide), type⟩, rfl⟩
  have row : slotPages t.kernel ⟨1, 0⟩ ≤ ∑ q ∈ row 1, slotPages t.kernel q :=
    Finset.single_le_sum (fun _ _ => Nat.zero_le _)
      (Finset.mem_filter.mpr ⟨mem_slots.mpr (by decide), rfl⟩)
  rw [msz]
  refine Nat.mul_lt_mul_of_pos_right (?_ : 2 < usage t 1) (by decide)
  unfold usage
  unfold slotPages at row slot
  omega

end Xv6c

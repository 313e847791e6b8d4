import Xv6c.Mem.Store
import Xv6c.Mem.Supply

/-! The address space that copyuvm makes for the child of a fork: it holds what the parent's
holds, and from then on neither sees what is written through the other. -/
namespace Xv6c.Mem
open Lib

variable {m n : Nat → Bytes} {a d e src sz va : Nat} {b : Byte}

/- The memory after userStore. -/
def stored (m : Nat → Bytes) (d va : Nat) (b : Byte) : Nat → Bytes :=
  if present (pte m d (pageOf va)) ∧ userBit (pte m d (pageOf va)) ∧ (pteFlags (pte m d (pageOf va))).getLsbD 1 then
    Function.update m (ptePage (pte m d (pageOf va)))
      (Function.update (m (ptePage (pte m d (pageOf va)))) (va % PGSIZE) b)
  else m

variable {M : Mode Freed Fault}

theorem userStore_stored (s : MemState) :
    wp M (userStore d va b) (fun _ t => t = { s with mem := stored s.mem d va b }) s := by
  unfold userStore
  refine wp_lookup (fun missing => wp_pure ?_) (fun here => wp_get_bind ?_)
  · rw [PDX_pageOf] at missing
    have none : ¬ present (pte s.mem d (pageOf va)) := fun mapped => missing (table_of_present mapped)
    rw [stored, if_neg fun all => none all.1]
  · rw [entry_eq here]
    refine wp_ite (fun mapped => wp_modify_bind (wp_pure ?_)) (fun blocked => wp_pure ?_)
    · rw [stored, if_pos mapped]
    · rw [stored, if_neg blocked]

/- Programs store bytes, each through the page table that is named with it. -/
def userStores : List (Nat × Nat × Byte) → MemM Unit
  | [] => pure ()
  | (d, va, b) :: xs => do
    let _ ← userStore d va b
    userStores xs

def storedAll (m : Nat → Bytes) (xs : List (Nat × Nat × Byte)) : Nat → Bytes :=
  xs.foldl (fun m x => stored m x.1 x.2.1 x.2.2) m

theorem userStores_stored (xs : List (Nat × Nat × Byte)) (s : MemState) :
    wp M (userStores xs) (fun _ t => t.mem = storedAll s.mem xs) s := by
  induction xs generalizing s with
  | nil => exact wp_pure rfl
  | cons x xs ih =>
    refine wp_seq (userStore_stored s) ?_
    rintro _ t rfl
    exact ih _

/- A page table that no program can change through it. -/
structure Sound (m : Nat → Bytes) (d : Nat) : Prop where
  guarded : Guarded m d
  apart : ∀ q ∈ users m d, q ∉ {d} + refs (m d)

variable {q : Nat}

theorem stored_other (guarded : Guarded m d) (outside : q ∉ users m d) : stored m d va b q = m q := by
  unfold stored
  split
  · rename_i mapped
    refine Function.update_of_ne ?_ _ _
    rintro rfl
    exact outside (mem_users (guarded _ (pageOf_lt va) mapped.2.1) mapped.1)
  · rfl

theorem mem_space_of_users (user : q ∈ users m d) : q ∈ space m d :=
  Multiset.mem_add.mpr (Or.inr user)

theorem mem_space_of_tables (table : q ∈ {d} + refs (m d)) : q ∈ space m d :=
  Multiset.mem_add.mpr (Or.inl table)

/- Where the tables are the same, so is all that they describe. -/
theorem Sound.congr (h : Sound m d) (same : ∀ q ∈ {d} + refs (m d), n q = m q) : Sound n d ∧ space n d = space m d := by
  have dir : n d = m d := same d (by simp)
  have spaces := space_congr same
  have tables : users n d = users m d := by
    rw [space, space, dir] at spaces
    exact Multiset.add_right_inj.mp spaces
  refine ⟨⟨fun v hv user => h.guarded v hv (pte_congr same hv ▸ user), fun q user => ?_⟩, spaces⟩
  rw [dir]
  exact h.apart q (tables ▸ user)

theorem Sound.stored (h : Sound m d) (va : Nat) (b : Byte) :
    Sound (stored m d va b) d ∧ space (stored m d va b) d = space m d :=
  h.congr fun q table => stored_other h.guarded fun user => h.apart q user table

/- Two page tables without a page in common. -/
structure Two (m : Nat → Bytes) (a d : Nat) : Prop where
  left : Sound m a
  right : Sound m d
  apart : ∀ q ∈ space m d, q ∉ space m a

theorem Two.symm (h : Two m a d) : Two m d a := ⟨h.right, h.left, fun q first second => h.apart q second first⟩

theorem Two.ne (h : Two m a d) : a ≠ d := by
  rintro rfl
  exact h.apart a (by simp [space]) (by simp [space])

/- The pages of one are left alone by a store through the other. -/
theorem Two.kept (h : Two m a d) (va : Nat) (b : Byte) (inside : q ∈ space m a) : stored m d va b q = m q :=
  stored_other h.right.guarded fun user => h.apart q (mem_space_of_users user) inside

theorem Two.stored (h : Two m a d) (va : Nat) (b : Byte) : Two (stored m d va b) a d := by
  obtain ⟨right, spaces⟩ := h.right.stored va b
  obtain ⟨left, same⟩ := h.left.congr fun q table => h.kept va b (mem_space_of_tables table)
  refine ⟨left, right, ?_⟩
  rw [spaces, same]
  exact h.apart

/- Two memories that hold the same for one page table. -/
def Sees (m n : Nat → Bytes) (d : Nat) : Prop := ∀ q ∈ space m d, n q = m q

theorem Sees.pte (h : Sees m n d) {v : Nat} (hv : v < 2 ^ 20) : pte n d v = pte m d v :=
  pte_congr (fun q table => h q (mem_space_of_tables table)) hv

theorem Sees.userByte (h : Sees m n d) (guarded : Guarded m d) (va : Nat) : userByte n d va = userByte m d va := by
  unfold Mem.userByte
  rw [h.pte (pageOf_lt va)]
  split
  · rename_i mapped
    have user := mem_users (guarded _ (pageOf_lt va) mapped.2) mapped.1
    rw [h _ (mem_space_of_users user)]
  · rfl

/- The same store in both. -/
theorem Sees.stored (h : Sees m n d) (sound : Sound m d) (va : Nat) (b : Byte) :
    Sees (stored m d va b) (stored n d va b) d := by
  intro q inside
  rw [(sound.stored va b).2] at inside
  unfold Mem.stored
  rw [h.pte (pageOf_lt va)]
  split
  · rename_i mapped
    have user := mem_users (sound.guarded _ (pageOf_lt va) mapped.2.1) mapped.1
    rw [h _ (mem_space_of_users user), Function.update_apply, Function.update_apply, h q inside]
  · exact h q inside

/- A store through the other page table in one of them. -/
theorem Sees.other (h : Sees m n a) (sound : Sound m a) (two : Two n a d) (va : Nat) (b : Byte) :
    Sees m (Mem.stored n d va b) a := by
  intro q inside
  have spaces := (sound.congr fun q table => h q (mem_space_of_tables table)).2
  rw [two.kept va b (spaces ▸ inside)]
  exact h q inside

variable {xs : List (Nat × Nat × Byte)}

/- The stores through one page table alone leave for it what all of them leave. -/
theorem Sees.run (h : Sees m n a) (sound : Sound m a) (two : Two n a d) (through : ∀ x ∈ xs, x.1 = a ∨ x.1 = d) :
    Sees (storedAll m (xs.filter (·.1 = a))) (storedAll n xs) a ∧ Sound (storedAll m (xs.filter (·.1 = a))) a := by
  induction xs generalizing m n with
  | nil => exact ⟨h, sound⟩
  | cons x xs ih =>
    obtain ⟨e, va, b⟩ := x
    have rest : ∀ x ∈ xs, x.1 = a ∨ x.1 = d := fun x inside => through x (List.mem_cons_of_mem _ inside)
    rcases through _ List.mem_cons_self with own | other
    · obtain rfl : e = a := own
      rw [List.filter_cons_of_pos (by simp)]
      exact ih (h.stored sound va b) (sound.stored va b).1 (two.symm.stored va b).symm rest
    · obtain rfl : e = d := other
      rw [List.filter_cons_of_neg (by simp [two.ne.symm])]
      exact ih (h.other sound two va b) sound (two.stored va b) rest

/- The mode of a run that ends without a fault. -/
def sure : Mode Freed Fault := Mode.faults fun _ => False

theorem sure_safe : SafeMode sure True True := ⟨fun _ risky => absurd trivial risky, id, fun _ _ => trivial⟩

theorem Two.unseen {t : MemState} (h : Two t.mem a d) (through : ∀ x ∈ xs, x.1 = a ∨ x.1 = d) :
    ∃ u v, (userStores xs t).2 = .ok ((), u) ∧
      (userStores (xs.filter (·.1 = a)) t).2 = .ok ((), v) ∧ ∀ va, userByte u.mem a va = userByte v.mem a va := by
  obtain ⟨sees, sound⟩ := Sees.run (m := t.mem) (fun _ _ => rfl) h.left h through
  obtain ⟨⟨⟩, u, all, mem⟩ := wp_sure (M := sure) (userStores_stored xs t) (fun _ => trivial) (fun _ => id)
  obtain ⟨⟨⟩, v, own, mem'⟩ := wp_sure (M := sure) (userStores_stored (xs.filter (·.1 = a)) t) (fun _ => trivial)
    (fun _ => id)
  refine ⟨u, v, all, own, fun va => ?_⟩
  rw [mem, mem']
  exact sees.userByte sound.guarded va

/- The page directory d after copyuvm(src, sz), from s to t. -/
structure Forked (s t : MemState) (src sz d : Nat) : Prop where
  pages : ∀ va < PGROUNDUP sz, present (pte t.mem d (pageOf va)) ∧
    pteFlags (pte t.mem d (pageOf va)) = pteFlags (pte s.mem src (pageOf va)) ∧
    t.mem (ptePage (pte t.mem d (pageOf va))) = s.mem (ptePage (pte s.mem src (pageOf va)))
  rest : ∀ va, PGROUNDUP sz ≤ va → va < KERNBASE → ¬ present (pte t.mem d (pageOf va))
  kernel : ∀ s' l' d' t', Heap s'.toKmem l' → l'.Nodup → s'.dataPg = s.dataPg → (setupkvm s').2 = .ok (d', t') →
    d' ≠ 0 → ∀ va, KERNBASE ≤ va → va < 2 ^ 32 → pte t.mem d (pageOf va) = pte t'.mem d' (pageOf va)
  parent : ∀ q ∈ space s.mem src, t.mem q = s.mem q
  apart : ∀ q ∈ space t.mem d, q ∉ space t.mem src
  unseen : Sound s.mem src → ∀ xs, (∀ x ∈ xs, x.1 = src ∨ x.1 = d) → ∀ e, e = src ∨ e = d →
    ∃ u v, (userStores xs t).2 = .ok ((), u) ∧ (userStores (xs.filter (·.1 = e)) t).2 = .ok ((), v) ∧
      ∀ va, userByte u.mem e va = userByte v.mem e va

/-- The child of a fork has the parent's memory, in pages of its own. -/
theorem copyuvm_faithful {s : MemState} {l : List Nat} (heap : Heap s.toKmem l) (once : l.Nodup)
    (small : sz < KERNBASE) (mapped : ∀ v, v * PGSIZE < sz → present (pte s.mem src v))
    (apart : ∀ q ∈ space s.mem src, q ∉ l) :
    ∃ d t, (copyuvm src sz s).2 = .ok (d, t) ∧ (d ≠ 0 → Forked s t src sz d) := by
  have beside : ∀ q ∈ space s.mem src, q ∉ (l : Multiset Nat) + 0 := by
    simpa only [add_zero, Multiset.mem_coe] using apart
  obtain ⟨d, t, ended, l', result⟩ := wp_sure (copyuvm_spec sure_safe heap (Multiset.coe_nodup.mpr once) small.le
    (fun _ v _ => mapped v) fun _ q table => beside q (mem_space_of_tables table)) (fun _ => trivial) (fun _ => id)
  refine ⟨d, t, ended, fun nonzero => ?_⟩
  obtain ⟨-, moves, table, kernel, faithful⟩ := result.resolve_left fun failed => nonzero failed.1
  have parent : ∀ q ∈ space s.mem src, t.mem q = s.mem q := fun q inside => moves.works.same q (beside q inside)
  have spaces : space t.mem src = space s.mem src := space_congr fun q table => parent q (mem_space_of_tables table)
  have fresh : ∀ q ∈ space t.mem d, q ∉ space t.mem src := by
    intro q new old
    rw [spaces] at old
    exact beside q old (Multiset.mem_of_le moves.works.fewer (Multiset.mem_add.mpr (Or.inr new)))
  have own : (space t.mem d).Nodup := by
    have all := moves.nodup (by simpa using once)
    exact (Multiset.nodup_add.mp all).2.1
  simp only [KERNBASE] at small
  refine ⟨fun va below => ?_, fun va above low => ?_, fun s' l' d' t' heap' once' data done nonzero' va high top => ?_,
    parent, fresh, fun sound xs through e which => ?_⟩
  · have page : pageOf va < 2 ^ 19 ∧ pageOf va * PGSIZE < sz := by
      simp only [PGROUNDUP, pageOf, PGSIZE] at below ⊢
      omega
    refine ⟨(table.pages _ page.1).mpr page.2, faithful ⟨?_, ?_⟩ _ (Nat.zero_le _) page.2⟩
    · exact fun q table => beside q (mem_space_of_tables table)
    · exact fun v low inside => beside _ (mem_space_of_users (mem_users low (mapped v inside)))
  · intro present
    have inside := (table.pages _ ?_).mp present
    · simp only [PGROUNDUP, pageOf, PGSIZE, KERNBASE] at above low inside
      omega
    · simp only [pageOf, PGSIZE, KERNBASE] at low ⊢
      omega
  · have high' : 2 ^ 19 ≤ pageOf va := by
      simp only [pageOf, PGSIZE, KERNBASE] at high ⊢
      omega
    obtain ⟨l'', made⟩ := wp_value (setupkvm_spec sure_safe heap' (Multiset.coe_nodup.mpr once')) (fun _ => trivial) done
    obtain ⟨-, -, -, entries⟩ := made.resolve_left fun failed => nonzero' failed.1
    rw [kernel _ (pageOf_lt va) high', entries _ (pageOf_lt va), kmap, kmap, data]
  · have two : Two t.mem src d := by
      refine ⟨(sound.congr fun q table => parent q (mem_space_of_tables table)).1, ⟨table.guarded, ?_⟩, fresh⟩
      intro q user table
      exact held_apart own table user
    rcases which with rfl | rfl
    · exact two.unseen through
    · exact two.symm.unseen fun x inside => (through x inside).symm

/- A process with 4 MB of memory, and 2100 free pages. -/
def parentMem : MemState where
  mem p := if p = 0x202 then rowTable 1 0x204
    else if p = 0x204 then rowTable 1024 0x1000
    else if 0x1000 ≤ p then fun i => BitVec.ofNat 8 (p + i)
    else freePages 2868 p
  freelist := 768
  dataPg := 0x110
  endPg := 0x200
  kpgdir := 0x203
  upg := 1026
  msz := MAX_CONT_MEM
  cstate := .crunnable

theorem parentMem_heap : Heap parentMem.toKmem (List.range' 768 2100) := by
  have count : 768 + 2100 = 2868 := rfl
  refine ⟨chain_freePages (fun i low high => ?_) count le_rfl (by decide), fun q free => ?_,
    ⟨by decide, by decide, by decide⟩⟩
  · simp only [parentMem]
    rw [if_neg (by omega), if_neg (by omega), if_neg (by omega)]
  · obtain ⟨low, high⟩ := List.mem_range'_1.mp free
    change 0x200 ≤ q ∧ q < PHYSTOP / PGSIZE
    simp only [PHYSTOP, PGSIZE]
    omega

theorem parentMem_dir : parentMem.mem 0x202 = rowTable 1 0x204 := rfl

theorem parentMem_tables : ∀ i < 1, parentMem.mem (0x204 + i) = rowTable 1024 (0x1000 + i * 1024) := by
  intro i first
  obtain rfl : i = 0 := by omega
  rfl

theorem parentMem_space : space parentMem.mem 0x202 =
    {0x202} + (Multiset.range 1).map (0x204 + ·) + (Multiset.range (1 * 1024)).map (0x1000 + ·) :=
  space_rows parentMem_dir parentMem_tables (by decide) (by decide) (by decide)

theorem parentMem_once : ((List.range' 768 2100 : List Nat) + space parentMem.mem 0x202 : Multiset Nat).Nodup := by
  rw [parentMem_space]
  exact rows_once (by decide) (by decide) (by decide)

theorem parentMem_mapped {v : Nat} (below : v * PGSIZE < 1024 * PGSIZE) : present (pte parentMem.mem 0x202 v) := by
  have low : v < 1 * 1024 := Nat.lt_of_mul_lt_mul_right below
  rw [pte_rows parentMem_dir parentMem_tables (by decide) low, present_mkPte]
  decide

theorem copyuvm_faithful_megabytes : ∃ d t, (copyuvm 0x202 (1024 * PGSIZE) parentMem).2 = .ok (d, t) ∧ d ≠ 0 ∧
    Forked parentMem t 0x202 (1024 * PGSIZE) d := by
  have once : (List.range' 768 2100).Nodup := List.nodup_range'
  have small : 1024 * PGSIZE < KERNBASE := by decide
  have apart : ∀ q ∈ space parentMem.mem 0x202, q ∉ List.range' 768 2100 := fun q inside free =>
    held_apart parentMem_once (Multiset.mem_coe.mpr free) inside
  obtain ⟨d, t, ended, forked⟩ := copyuvm_faithful parentMem_heap once small (fun _ => parentMem_mapped) apart
  have room : wp mapMode (copyuvm 0x202 (1024 * PGSIZE)) (fun r _ => r ≠ 0) parentMem :=
    copyuvm_stocked (p := 768) (l := List.range' 769 2099) parentMem_heap once small
      (by rw [List.length_range']; decide) (by decide) (by decide)
  have nonzero := wp_value room (fun _ => trivial) ended
  exact ⟨d, t, ended, nonzero, forked nonzero⟩

end Xv6c.Mem

import Xv6c.Mem.Uvm

/-! Stores to user memory, by the kernel and by the program, stay on the pages of the
address space. -/
namespace Xv6c.Mem
open Lib
open Function (update update_of_ne)

variable {M : Mode Freed Fault} {sized safe : Prop} {s : MemState} {l : List Nat} {d : Nat}

/- The virtual page of an address. -/
def pageOf (va : Nat) : Nat := va / PGSIZE % 2 ^ 20

theorem pageOf_lt (va : Nat) : pageOf va < 2 ^ 20 := Nat.mod_lt _ (by decide)

theorem PDX_pageOf (va : Nat) : PDX va = pageOf va / 1024 := by
  simp only [PDX, pageOf, PGSIZE]
  omega

theorem PTX_pageOf (va : Nat) : PTX va = pageOf va % 1024 := by
  simp only [PTX, pageOf, PGSIZE]
  omega

variable {m : Nat → Bytes} {va : Nat}

/- The entry that walkpgdir finds. -/
theorem entry_eq (here : present (word (m d) (PDX va))) :
    word (m (ptePage (word (m d) (PDX va)))) (PTX va) = pte m d (pageOf va) := by
  rw [PDX_pageOf] at here
  rw [pte, if_pos here, PDX_pageOf, PTX_pageOf]

variable {b : Bytes}

/- A user page is written. -/
theorem store_moves {p : Nat} (heap : Heap s.toKmem l) (once : ((l : Multiset Nat) + space s.mem d).Nodup)
    (user : p ∈ users s.mem d) : Saves s { s with mem := update s.mem p b } l l (space s.mem d)
        (space (update s.mem p b) d) ∧
      ∀ v < 2 ^ 20, pte (update s.mem p b) d v = pte s.mem d v := by
  have outside : p ∉ {d} + refs (s.mem d) := fun h =>
    held_apart (Multiset.nodup_add.mp once).2.1 h user
  have same := table_congr b outside
  refine ⟨(Saves.refl heap _).write once (fun q hq => update_of_ne ?_ _ _)
    (space_congr same), fun v hv => pte_congr same hv⟩
  rintro rfl
  exact hq (Multiset.mem_add.mpr (Or.inr user))

/- The entry of a page is there only if its table is. -/
theorem table_of_present {v : Nat} (mapped : present (pte m d v)) : present (word (m d) (v / 1024)) := by
  by_contra missing
  rw [pte, if_neg missing] at mapped
  exact absurd mapped (by decide)

theorem store_dir {p : Nat} (b : Bytes) (once : (space m d).Nodup) (user : p ∈ users m d) :
    update m p b d = m d := by
  refine table_congr (d := d) b (fun table => ?_) d (by simp)
  exact held_apart once table user

theorem clearpteu_spec {uva : Nat} (sm : SafeMode M sized safe) (heap : Heap s.toKmem l)
    (once : ((l : Multiset Nat) + space s.mem d).Nodup)
    (mapped : safe → present (pte s.mem d (pageOf uva))) :
    wp M (clearpteu d uva) (fun _ t => Saves s t l l (space s.mem d) (space t.mem d) ∧
      t.mem d = s.mem d ∧
      (∀ v < 2 ^ 20, v ≠ pageOf uva → pte t.mem d v = pte s.mem d v) ∧
      pteFlags (pte t.mem d (pageOf uva)) = pteFlags (pte s.mem d (pageOf uva)) &&& ~~~ PTE_U ∧
      (Guarded s.mem d → Guarded t.mem d) ∧
      ∀ v < 2 ^ 20, present (pte t.mem d v) = present (pte s.mem d v)) s := by
  unfold clearpteu
  refine wp_lookup (fun missing => wp_fault (sm.other (fun yes => missing ?_) (by decide)))
    (fun here => wp_get_bind (wp_modify ?_))
  · rw [PDX_pageOf]
    exact table_of_present (mapped yes)
  have dir := dir_once once
  have hi : PDX uva < 1024 := Nat.mod_lt _ (by decide)
  have hj : PTX uva < 1024 := Nat.mod_lt _ (by decide)
  rw [entry_eq here]
  generalize cleared : mkPte (ptePage (pte s.mem d (pageOf uva)))
    (pteFlags (pte s.mem d (pageOf uva)) &&& ~~~ PTE_U) = w
  have small : ptePage (pte s.mem d (pageOf uva)) < 2 ^ 20 := BitVec.isLt _
  have mapped : present w = present (pte s.mem d (pageOf uva)) := by
    rw [← cleared, present_mkPte]
    simp [present, PTE_U]
  have kept : single w = single (pte s.mem d (pageOf uva)) := by
    rw [single, single, mapped, ← cleared, ptePage_mkPte _ small]
  have ptes (v : Nat) (hv : v < 2 ^ 20) := pte_setPte dir hi hj here w hv
  rw [PDX_pageOf, PTX_pageOf, Nat.div_add_mod', ← PDX_pageOf, ← PTX_pageOf] at ptes
  refine ⟨?_, ?_, fun v hv other => ?_, ?_, fun guarded v hv user => ?_, fun v hv => ?_⟩
  · refine (Saves.refl heap _).write once (fun q outside => update_of_ne ?_ _ _) ?_
    · rintro rfl
      exact outside (by simp [space, mem_refs hi here])
    · have changed := space_setPte dir hi hj here w
      dsimp only at changed
      rw [entry_eq here, kept] at changed
      exact add_right_cancel changed
  · exact update_of_ne (Ne.symm (table_ne_dir dir hi here)) _ _
  · dsimp only
    rw [ptes v hv, if_neg other]
  · dsimp only
    rw [ptes _ (pageOf_lt uva), if_pos rfl, ← cleared, pteFlags_mkPte]
  · dsimp only at user
    rw [ptes v hv] at user
    split at user
    · rw [← cleared, userBit, pteFlags_mkPte] at user
      simp [PTE_U] at user
    · exact guarded v hv user
  · dsimp only
    rw [ptes v hv]
    split
    · rename_i same
      rw [mapped, same]
    · rfl

/- The byte that the program finds at address va. -/
def userByte (m : Nat → Bytes) (d va : Nat) : Option Byte :=
  if present (pte m d (pageOf va)) ∧ userBit (pte m d (pageOf va)) then
    some (m (ptePage (pte m d (pageOf va))) (va % PGSIZE))
  else none

/- uva2ka returns the user page of the address, or 0. -/
theorem wp_uva2ka {uva : Nat} {B : Type} {k : Nat → MemM B} {Q : B → MemState → Prop}
    (sm : SafeMode M sized safe) (guarded : Guarded s.mem d)
    (reach : safe → present (word (s.mem d) (pageOf uva / 1024)))
    (none : userByte s.mem d uva = none → wp M (k 0) Q s)
    (some : pageOf uva < 2 ^ 19 → present (pte s.mem d (pageOf uva)) → userBit (pte s.mem d (pageOf uva)) →
      wp M (k (ptePage (pte s.mem d (pageOf uva)))) Q s) :
    wp M (uva2ka d uva >>= k) Q s := by
  refine wp_bind ?_
  unfold uva2ka
  refine wp_lookup (fun missing => wp_fault (sm.other (fun yes => missing ?_) (by decide)))
    (fun here => wp_get_bind ?_)
  · rw [PDX_pageOf]
    exact reach yes
  rw [entry_eq here]
  refine wp_ite (fun mapped => wp_pure (some ?_ mapped.1 mapped.2)) (fun blank => wp_pure (none (if_neg blank)))
  exact guarded _ (pageOf_lt uva) mapped.2

/- A user page is overwritten. -/
theorem userByte_store {v : Nat} (heap : Heap s.toKmem l) (once : ((l : Multiset Nat) + space s.mem d).Nodup)
    (guarded : Guarded s.mem d) (low : v < 2 ^ 19) (mapped : present (pte s.mem d v))
    (user : userBit (pte s.mem d v)) (va : Nat) :
    userByte (update s.mem (ptePage (pte s.mem d v)) b) d va =
      if pageOf va = v then some (b (va % PGSIZE)) else userByte s.mem d va := by
  have same := (store_moves (b := b) heap once (mem_users low mapped)).2 _ (pageOf_lt va)
  unfold userByte
  rw [same]
  by_cases here : pageOf va = v
  · rw [here, if_pos ⟨mapped, user⟩, if_pos rfl, Function.update_self]
  · rw [if_neg here]
    refine ite_congr rfl (fun visible => ?_) fun _ => rfl
    rw [update_of_ne]
    intro page
    refine here (users_apart ?_ (guarded _ (pageOf_lt va) visible.2) low visible.1 mapped page)
    exact (Multiset.nodup_add.mp (Multiset.nodup_add.mp once).2.1).2.1

/- What copyout does to user memory: the bytes from va on are those of buf. -/
def Delivered (m n : Nat → Bytes) (d va len : Nat) (buf : Bytes) : Prop := ∀ a < 2 ^ 32,
  userByte n d a = if va ≤ a ∧ a < va + len then some (buf (a - va)) else userByte m d a

/- What the loop of copyout ends with: all was written, or an address was not the user's. -/
structure CopiedOut (s t : MemState) (l : List Nat) (d va len : Nat) (buf : Bytes) (r : Bool) : Prop where
  saves : Saves s t l l (space s.mem d) (space t.mem d)
  dir : t.mem d = s.mem d
  ptes : ∀ v < 2 ^ 20, pte t.mem d v = pte s.mem d v
  done : r = true → Delivered s.mem t.mem d va len buf
  below : r = true → 0 < len → va + len ≤ KERNBASE
  refused : r = false → ∃ a, va ≤ a ∧ a < va + len ∧
    (userByte s.mem d a = none ∨ ptePage (pte s.mem d (pageOf a)) = 0)

variable {len : Nat} {buf : Bytes}

theorem CopiedOut.none (heap : Heap s.toKmem l) (empty : len = 0) : CopiedOut s s l d va len buf true := by
  refine ⟨.refl heap _, rfl, fun _ _ => rfl, fun _ a _ => ?_, fun _ some => ?_, nofun⟩
  · rw [if_neg (by omega)]
  · omega

/- The first m bytes are written to the page of va, and the others from the next page on. -/
theorem CopiedOut.page {t : MemState} {m next : Nat} {r : Bool} (heap : Heap s.toKmem l)
    (once : ((l : Multiset Nat) + space s.mem d).Nodup) (guarded : Guarded s.mem d) (start : va < 2 ^ 32)
    (low : pageOf va < 2 ^ 19) (mapped : present (pte s.mem d (pageOf va)))
    (user : userBit (pte s.mem d (pageOf va))) (size : m = min len (PGSIZE - va % PGSIZE))
    (goes : next = (va / PGSIZE + 1) * PGSIZE)
    (written : b = copyIn (s.mem (ptePage (pte s.mem d (pageOf va)))) (va % PGSIZE) m buf)
    (rest : CopiedOut { s with mem := update s.mem (ptePage (pte s.mem d (pageOf va))) b } t l d next
      (len - m) (fun i => buf (m + i)) r) : CopiedOut s t l d va len buf r := by
  obtain ⟨moves, ptes⟩ := store_moves (b := b) heap once (mem_users low mapped)
  have stored := userByte_store (b := b) heap once guarded low mapped user
  have split := Nat.div_add_mod' va PGSIZE
  have inside := Nat.mod_lt va (show 0 < PGSIZE by decide)
  -- the next page starts where the first m bytes end, if there are more
  have onward : m < len → next = va + m := by
    intro more
    rw [goes, Nat.add_mul, Nat.one_mul]
    omega
  have samePage (a : Nat) (small : a < 2 ^ 32) : pageOf a = pageOf va ↔ a / PGSIZE = va / PGSIZE := by
    simp only [pageOf, PGSIZE]
    omega
  have dir := store_dir b (Multiset.nodup_add.mp once).2.1 (mem_users low mapped)
  refine ⟨moves.trans rest.saves, rest.dir.trans dir, fun v hv => (rest.ptes v hv).trans (ptes v hv),
    fun ok a small => ?_, fun ok some => ?_, fun failed => ?_⟩
  · rw [rest.done ok a small, stored]
    simp only [samePage a small]
    by_cases later : next ≤ a ∧ a < next + (len - m)
    · have place := onward (by omega)
      rw [if_pos later, if_pos (by omega), show m + (a - next) = a - va by omega]
    · rw [if_neg later]
      by_cases here : a / PGSIZE = va / PGSIZE
      · have same := Nat.div_add_mod' a PGSIZE
        rw [here] at same
        have visible : userByte s.mem d a = some (s.mem (ptePage (pte s.mem d (pageOf va))) (a % PGSIZE)) := by
          rw [userByte, (samePage a small).mpr here, if_pos ⟨mapped, user⟩]
        rw [if_pos here, written, copyIn, visible]
        by_cases first : va % PGSIZE ≤ a % PGSIZE ∧ a % PGSIZE < va % PGSIZE + m
        · rw [if_pos first, if_pos (by omega), show a % PGSIZE - va % PGSIZE = a - va by omega]
        · rw [if_neg first, if_neg]
          have inPage := Nat.mod_lt a (show 0 < PGSIZE by decide)
          omega
      · rw [if_neg here, if_neg]
        rintro ⟨above, below⟩
        have early : a < va + m := by
          by_contra late
          have place := onward (by omega)
          exact later (by omega)
        refine here ?_
        simp only [PGSIZE] at size inside split ⊢
        omega
  · by_cases more : m < len
    · have bound := rest.below ok (by omega)
      rw [onward more] at bound
      omega
    · simp only [pageOf, PGSIZE, KERNBASE] at low size ⊢
      omega
  · obtain ⟨a, above, below, why⟩ := rest.refused failed
    have more : m < len := by omega
    rw [onward more] at above below
    refine ⟨a, by omega, by omega, ?_⟩
    rw [ptes _ (pageOf_lt a), stored] at why
    split at why
    · exact Or.inr (why.resolve_left (by simp))
    · exact why

/- copyout up to its last byte. Where it is safe, every address has a page table, or the
first one is not the user's. -/
theorem copyoutLoop_spec {n tot : Nat} (sm : SafeMode M sized safe) (heap : Heap s.toKmem l)
    (once : ((l : Multiset Nat) + space s.mem d).Nodup) (guarded : Guarded s.mem d) (fuel : len ≤ n)
    (start : va < 2 ^ 32)
    (reach : safe → (∀ a, va ≤ a → a < va + len → present (word (s.mem d) (pageOf a / 1024))) ∨
      present (word (s.mem d) (pageOf va / 1024)) ∧ userByte s.mem d va = none) :
    wp M (copyoutLoop d buf n va len tot)
      (fun r t => CopiedOut s t l d va len (fun i => buf (tot + i)) r) s := by
  induction n generalizing va len tot s with
  | zero => exact wp_pure (.none heap (by omega))
  | succ n ih =>
    unfold copyoutLoop
    refine wp_ite (fun empty => wp_pure (.none heap empty)) (fun some => ?_)
    have page : pageOf (PGROUNDDOWN va) = pageOf va := by
      simp only [pageOf, PGROUNDDOWN, PGSIZE]
      omega
    have refused (why : userByte s.mem d va = none ∨ ptePage (pte s.mem d (pageOf va)) = 0) :
        CopiedOut s s l d va len (fun i => buf (tot + i)) false :=
      ⟨.refl heap _, rfl, fun _ _ => rfl, by simp, by simp, fun _ => ⟨va, le_rfl, by omega, why⟩⟩
    refine wp_uva2ka sm guarded (fun yes => page ▸ (reach yes).elim (fun all => all va le_rfl (by omega)) And.left)
      (fun blank => ?_) ?_
    · rw [if_pos rfl]
      refine wp_pure (refused (Or.inl ?_))
      simpa [userByte, page] using blank
    rw [page]
    intro low mapped user
    refine wp_ite (fun zero => wp_pure (refused (Or.inr zero))) (fun _ => wp_get_bind (wp_modify_bind ?_))
    have offset : va - PGROUNDDOWN va = va % PGSIZE := by
      simp only [PGROUNDDOWN, PGSIZE]
      omega
    have goes : (PGROUNDDOWN va + PGSIZE) % 2 ^ 32 = (va / PGSIZE + 1) * PGSIZE := by
      simp only [pageOf, PGROUNDDOWN, PGSIZE] at low ⊢
      omega
    rw [offset, goes]
    generalize size : min len (PGSIZE - va % PGSIZE) = m
    have inside := Nat.mod_lt va (show 0 < PGSIZE by decide)
    obtain ⟨moves, ptes⟩ := store_moves (b := copyIn (s.mem (ptePage (pte s.mem d (pageOf va))))
      (va % PGSIZE) m (fun i => buf (tot + i))) heap once (mem_users low mapped)
    have dir := store_dir (copyIn (s.mem (ptePage (pte s.mem d (pageOf va)))) (va % PGSIZE) m
      (fun i => buf (tot + i))) (Multiset.nodup_add.mp once).2.1 (mem_users low mapped)
    have goesOn : m < len → (va / PGSIZE + 1) * PGSIZE = va + m := by
      have split := Nat.div_add_mod' va PGSIZE
      rw [Nat.add_mul, Nat.one_mul]
      omega
    refine wp_mono (ih moves.heap (moves.nodup once) (fun v hv h => ?_) (by omega) ?_
      fun yes => Or.inl fun a above below => ?_) ?_
    · exact guarded v hv (ptes v hv ▸ h)
    · simp only [pageOf, PGSIZE] at low ⊢
      omega
    · dsimp only
      rw [dir]
      have place := goesOn (by omega)
      refine (reach yes).elim (fun all => all a (by omega) (by omega)) fun hidden => ?_
      rw [userByte, if_pos ⟨mapped, user⟩] at hidden
      cases hidden.2
    · intro r t rest
      refine CopiedOut.page heap once guarded start low mapped user size.symm rfl rfl ?_
      simpa only [Nat.add_assoc] using rest

/- An address without a page table: uva2ka follows the null pointer that walkpgdir returns. -/
theorem wp_copyout_trap {Q : Bool → MemState → Prop} (some : 0 < len)
    (missing : ¬ present (word (s.mem d) (pageOf va / 1024))) (trap : M.fails .trap) :
    wp M (copyout d va buf len) Q s := by
  obtain ⟨n, rfl⟩ := Nat.exists_eq_succ_of_ne_zero (Nat.ne_of_gt some)
  unfold copyout copyoutLoop
  rw [if_neg (Nat.succ_ne_zero n)]
  refine wp_bind ?_
  unfold uva2ka
  refine wp_lookup (fun _ => wp_fault trap) (fun here => absurd ?_ missing)
  have page : pageOf (PGROUNDDOWN va) = pageOf va := by
    simp only [pageOf, PGROUNDDOWN, PGSIZE]
    omega
  rwa [PDX_pageOf, page] at here

theorem userStore_spec {b : Byte} (heap : Heap s.toKmem l) (once : ((l : Multiset Nat) + space s.mem d).Nodup)
    (guarded : Guarded s.mem d) : wp M (userStore d va b) (fun _ t =>
      Saves s t l l (space s.mem d) (space t.mem d) ∧
      ∀ v < 2 ^ 20, pte t.mem d v = pte s.mem d v) s := by
  unfold userStore
  have stay : Saves s s l l (space s.mem d) (space s.mem d) ∧
      ∀ v < 2 ^ 20, pte s.mem d v = pte s.mem d v := ⟨.refl heap _, fun _ _ => rfl⟩
  refine wp_lookup (fun _ => wp_pure stay) (fun here => wp_get_bind ?_)
  rw [entry_eq here]
  refine wp_ite (fun mapped => wp_modify_bind (wp_pure ?_)) (fun _ => wp_pure stay)
  have low := guarded _ (pageOf_lt va) mapped.2.1
  exact store_moves heap once (mem_users low mapped.1)

end Xv6c.Mem

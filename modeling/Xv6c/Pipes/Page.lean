import Xv6c.Pipes.Model

/-! The calls on a pipe of the kernel, which lies in a page of memory, are those of the
model. -/
namespace Xv6c.Pipes
open Lib
open Function (update update_self update_of_ne)

/- The struct pipe that lies in a page. -/
def ofPage (page : Bytes) : Pipe where
  data i := if i < PIPESIZE then page (pipeData + i) else 0
  nread := word page pipeNread
  nwrite := word page pipeNwrite
  readopen := decide (word page pipeReadopen ≠ 0)
  writeopen := decide (word page pipeWriteopen ≠ 0)

section Page
variable {page : Bytes} {i : Nat} {w : BitVec 32} {b : Byte}

/- The words behind the ring. -/
theorem data_setWord (behind : pipeNread ≤ i) : (ofPage (setWord page i w)).data = (ofPage page).data := by
  funext j
  dsimp only [ofPage, setWord]
  split
  · refine if_neg ?_
    unfold pipeNread pipeData PIPESIZE at *
    omega
  · rfl

theorem ofPage_nread : ofPage (setWord page pipeNread w) = { ofPage page with nread := w } := by
  apply Pipe.ext
  · exact data_setWord (Nat.le_refl _)
  · exact word_setWord_self _ _ _
  all_goals
    dsimp only [ofPage]
    rw [word_setWord_ne _ _ (by decide)]

/- A byte of the ring. -/
theorem word_update (inside : i < PIPESIZE) {j : Nat} (behind : pipeNread ≤ j) :
    word (update page (pipeData + i) b) j = word page j := by
  apply word_congr
  intro n part
  refine update_of_ne ?_ _ _
  unfold pipeNread pipeData PIPESIZE at *
  omega

theorem ofPage_nwrite (inside : i < PIPESIZE) :
    ofPage (setWord (update page (pipeData + i) b) pipeNwrite w) =
      { ofPage page with data := update (ofPage page).data i b, nwrite := w } := by
  apply Pipe.ext
  · rw [data_setWord (by decide)]
    funext j
    dsimp only [ofPage]
    by_cases same : j = i
    · subst same
      rw [update_self, if_pos inside, update_self]
    · rw [update_of_ne same]
      split
      · exact update_of_ne (by omega) _ _
      · rfl
  · dsimp only [ofPage]
    rw [word_setWord_ne _ _ (by decide), word_update inside (by decide)]
  · exact word_setWord_self _ _ _
  all_goals
    dsimp only [ofPage]
    rw [word_setWord_ne _ _ (by decide), word_update inside (by decide)]

end Page

section Calls
variable {p : ProcId} {pipe : Nat}

/- The kernel with another page in place of the pipe's, written in the context of p. -/
theorem onMem_setPage (k : Kernel) (page : Bytes) :
    ∃ m, Ends (onMem p (Mem.setPage pipe page)) k [] () m ∧ m.kmem.mem pipe = page ∧
      m.procAt p = k.procAt p := by
  refine ⟨_, rfl, update_self _ _ _, rfl⟩

theorem onMem_setEntry (k : Kernel) (i : Nat) (w : BitVec 32) :
    ∃ m, Ends (onMem p (Mem.setEntry pipe i w)) k [] () m ∧
      m.kmem.mem pipe = setWord (k.kmem.mem pipe) i w ∧ m.procAt p = k.procAt p :=
  ⟨_, rfl, update_self _ _ _, rfl⟩

/-- The kernel's pipewrite does to the pipe in its page what the loop of the model does,
and returns or sleeps as that loop. -/
theorem pipewrite_page (bs : List Byte) (n : Int) (k : Kernel) :
    ∃ m, Ends (Xv6c.pipewrite p pipe bs n) k []
        (writeLoop (k.procAt p).killed n bs (ofPage (k.kmem.mem pipe))).2.2 m ∧
      ofPage (m.kmem.mem pipe) =
        (writeLoop (k.procAt p).killed n bs (ofPage (k.kmem.mem pipe))).1 := by
  induction bs generalizing k with
  | nil => exact ⟨_, rfl, rfl⟩
  | cons b bs ih =>
    unfold Xv6c.pipewrite writeLoop
    simp only [ends_get_bind]
    by_cases full : word (k.kmem.mem pipe) pipeNwrite =
        word (k.kmem.mem pipe) pipeNread + BitVec.ofNat 32 PIPESIZE
    · have same : (ofPage (k.kmem.mem pipe)).nwrite =
          (ofPage (k.kmem.mem pipe)).nread + BitVec.ofNat 32 PIPESIZE := full
      simp only [if_pos full, if_pos same]
      by_cases ends : word (k.kmem.mem pipe) pipeReadopen = 0 ∨ (k.procAt p).killed = true
      · have gives : (ofPage (k.kmem.mem pipe)).readopen = false ∨ (k.procAt p).killed = true := by
          simpa [ofPage] using ends
        simp only [if_pos ends, if_pos gives]
        exact ⟨k, rfl, rfl⟩
      · have waits : ¬((ofPage (k.kmem.mem pipe)).readopen = false ∨ (k.procAt p).killed = true) := by
          simpa [ofPage] using ends
        simp only [if_neg ends, if_neg waits]
        exact ⟨_, rfl, rfl⟩
    · have same : ¬(ofPage (k.kmem.mem pipe)).nwrite =
          (ofPage (k.kmem.mem pipe)).nread + BitVec.ofNat 32 PIPESIZE := full
      simp only [if_neg full, if_neg same]
      obtain ⟨m, wrote, page, proc⟩ := onMem_setPage (p := p) k (setWord
        (update (k.kmem.mem pipe) (pipeData + (word (k.kmem.mem pipe) pipeNwrite).toNat % PIPESIZE) b)
        pipeNwrite (word (k.kmem.mem pipe) pipeNwrite + 1))
      obtain ⟨l, rest, shows⟩ := ih m
      rw [page, proc, ofPage_nwrite (Nat.mod_lt _ (by decide))] at rest shows
      exact ⟨l, ends_bind.mpr ⟨[], (), m, [], wrote, rest, rfl⟩, shows⟩

theorem pipeTake_page (n : Nat) (k : Kernel) :
    ∃ m, Ends (pipeTake p pipe n) k [] (readLoop n (ofPage (k.kmem.mem pipe))).2 m ∧
      ofPage (m.kmem.mem pipe) = (readLoop n (ofPage (k.kmem.mem pipe))).1 := by
  induction n generalizing k with
  | zero => exact ⟨_, rfl, rfl⟩
  | succ n ih =>
    unfold pipeTake readLoop
    simp only [ends_get_bind]
    by_cases empty : word (k.kmem.mem pipe) pipeNread = word (k.kmem.mem pipe) pipeNwrite
    · have same : (ofPage (k.kmem.mem pipe)).nread = (ofPage (k.kmem.mem pipe)).nwrite := empty
      simp only [if_pos empty, if_pos same]
      exact ⟨k, rfl, rfl⟩
    · have same : ¬(ofPage (k.kmem.mem pipe)).nread = (ofPage (k.kmem.mem pipe)).nwrite := empty
      simp only [if_neg empty, if_neg same]
      obtain ⟨m, moved, page, -⟩ := onMem_setEntry (p := p) k pipeNread
        (word (k.kmem.mem pipe) pipeNread + 1)
      obtain ⟨l, rest, shows⟩ := ih m
      rw [page, ofPage_nread] at rest shows
      refine ⟨l, ends_bind.mpr ⟨[], (), m, [], moved, ?_, rfl⟩, shows⟩
      refine ends_bind.mpr ⟨[], _, l, [], rest, ends_pure.mpr ⟨rfl, ?_, rfl⟩, rfl⟩
      dsimp only [ofPage]
      rw [if_pos (Nat.mod_lt _ (by decide))]

/-- Likewise piperead, and the bytes it returns are those of the loop. -/
theorem piperead_page (n : Nat) (k : Kernel) :
    let page := ofPage (k.kmem.mem pipe)
    ∃ out m, Ends (Xv6c.piperead p pipe n) k [] out m ∧
      if page.nread = page.nwrite ∧ page.writeopen then
        out = (if (k.procAt p).killed then some (-1, []) else none) ∧ ofPage (m.kmem.mem pipe) = page
      else out = some (((readLoop n page).2.length : Int), (readLoop n page).2) ∧
        ofPage (m.kmem.mem pipe) = (readLoop n page).1 := by
  dsimp only
  unfold Xv6c.piperead
  simp only [ends_get_bind]
  by_cases waits : word (k.kmem.mem pipe) pipeNread = word (k.kmem.mem pipe) pipeNwrite ∧
      word (k.kmem.mem pipe) pipeWriteopen ≠ 0
  · have same : (ofPage (k.kmem.mem pipe)).nread = (ofPage (k.kmem.mem pipe)).nwrite ∧
        (ofPage (k.kmem.mem pipe)).writeopen = true := by simpa [ofPage] using waits
    simp only [if_pos waits, if_pos same]
    by_cases killed : (k.procAt p).killed = true
    · simp only [if_pos killed]
      exact ⟨_, k, rfl, rfl, rfl⟩
    · simp only [if_neg killed]
      exact ⟨_, _, rfl, rfl, rfl⟩
  · have same : ¬((ofPage (k.kmem.mem pipe)).nread = (ofPage (k.kmem.mem pipe)).nwrite ∧
        (ofPage (k.kmem.mem pipe)).writeopen = true) := by simpa [ofPage] using waits
    simp only [if_neg waits, if_neg same]
    obtain ⟨m, took, shows⟩ := pipeTake_page (p := p)  n k
    exact ⟨_, _, ends_bind.mpr ⟨[], _, m, [], took, rfl, rfl⟩, rfl, shows⟩

end Calls

end Xv6c.Pipes

import Xv6c.Lib.Window
import Xv6c.Pipes.Model

/-! A pipe hands out the bytes it was given, once each and in order. -/
namespace Xv6c.Pipes
open Lib
open Function (update update_self update_of_ne)

/- The bytes in the pipe. -/
def Pipe.buffered (p : Pipe) : List Byte := between p.data PIPESIZE p.nread p.nwrite

def Write.sent (w : Write) : List Byte := w.addr.take w.i

/- What the call in which a process is has stored. -/
def Proc.sent : Proc → List Byte
  | .sleeping (.write _ addr i) => addr.take i
  | .runnable (.write _ addr i) => addr.take i
  | _ => []

/- The bytes of one writer. -/
def State.sentBy (s : State) (pid : Nat) : List Byte :=
  (s.stored.filter fun x => x.1 = pid).map Prod.snd

section Loops
variable {p : Pipe}

theorem size_divides : PIPESIZE ∣ 2 ^ 32 := ⟨2 ^ 23, by decide⟩

/- A store to a ring that is not full. -/
theorem buffered_store (fits : p.buffered.length ≤ PIPESIZE)
    (room : p.nwrite ≠ p.nread + BitVec.ofNat 32 PIPESIZE) (b : Byte) :
    Pipe.buffered { p with data := update p.data (p.nwrite.toNat % PIPESIZE) b, nwrite := p.nwrite + 1 } =
      p.buffered ++ [b] := by
  unfold Pipe.buffered at *
  rw [length_between] at fits
  have less : (p.nwrite - p.nread).toNat < PIPESIZE := by
    unfold PIPESIZE at *
    bv_omega
  dsimp only
  rw [between_snoc _ size_divides (by unfold PIPESIZE at less; omega), between_push _ size_divides less,
    update_self]

theorem length_lt_of_room (fits : p.buffered.length ≤ PIPESIZE)
    (room : p.nwrite ≠ p.nread + BitVec.ofNat 32 PIPESIZE) : p.buffered.length < PIPESIZE := by
  unfold Pipe.buffered at *
  rw [length_between] at *
  unfold PIPESIZE at *
  bv_omega

theorem buffered_eq_nil : p.buffered = [] ↔ p.nread = p.nwrite := between_eq_nil

/- pipewrite stores the bytes it is given one after another, and all of them if it returns
n. -/
theorem writeLoop_stores (killed : Bool) (n : Int) (left : List Byte)
    (fits : p.buffered.length ≤ PIPESIZE) :
    (writeLoop killed n left p).2.1 ≤ left.length ∧
      (writeLoop killed n left p).1.buffered =
        p.buffered ++ left.take (writeLoop killed n left p).2.1 ∧
      (writeLoop killed n left p).1.buffered.length ≤ PIPESIZE ∧
      ∀ r, (writeLoop killed n left p).2.2 = some r → 0 ≤ r →
        (writeLoop killed n left p).2.1 = left.length := by
  induction left generalizing p with
  | nil => exact ⟨le_rfl, (List.append_nil _).symm, fits, fun _ _ _ => rfl⟩
  | cons b bs ih =>
    unfold writeLoop
    split
    · refine ⟨Nat.zero_le _, (List.append_nil _).symm, fits, ?_⟩
      intro r gives positive
      dsimp only at gives
      split at gives <;> cases gives
      contradiction
    · rename_i room
      have stored := buffered_store fits room b
      have less := length_lt_of_room fits room
      obtain ⟨few, now, fits, all⟩ := ih (by rw [stored, List.length_append]; exact less)
      refine ⟨Nat.succ_le_succ few, ?_, fits, ?_⟩
      · dsimp only
        rw [now, stored, List.append_assoc, List.take_succ_cons, List.singleton_append]
      · intro r gives positive
        exact congrArg Nat.succ (all r gives positive)

/- piperead takes bytes from the front, and none only if there is none. -/
theorem readLoop_takes (n : Nat) :
    p.buffered = (readLoop n p).2 ++ (readLoop n p).1.buffered ∧
      (readLoop n p).1.writeopen = p.writeopen ∧
      (0 < n → (readLoop n p).2 = [] → (readLoop n p).1 = p ∧ p.nread = p.nwrite) := by
  induction n generalizing p with
  | zero => exact ⟨rfl, rfl, nofun⟩
  | succ n ih =>
    unfold readLoop
    split
    · rename_i empty
      exact ⟨rfl, rfl, fun _ _ => ⟨rfl, empty⟩⟩
    · rename_i more
      obtain ⟨rest, same, -⟩ := ih (p := { p with nread := p.nread + 1 })
      refine ⟨?_, same, nofun⟩
      dsimp only
      rw [List.cons_append, ← rest]
      exact between_cons _ size_divides more

end Loops

/- What holds between the steps. -/
structure Inv (s : State) : Prop where
  fits : s.pipe.buffered.length ≤ PIPESIZE
  fifo : s.stored.map Prod.snd = s.taken ++ s.pipe.buffered
  order : ∀ pid, s.sentBy pid = (s.writes pid).flatMap Write.sent ++ (s.proc pid).sent
  whole : ∀ pid, ∀ w ∈ s.writes pid, 0 ≤ w.r → w.sent = w.addr

section Steps
variable {s t : State} {pid : Nat}

@[simp] theorem sent_wakeReader (q : Proc) : q.wakeReader.sent = q.sent := by
  unfold Proc.wakeReader
  split <;> rfl

@[simp] theorem sent_wakeWriter (q : Proc) : q.wakeWriter.sent = q.sent := by
  unfold Proc.wakeWriter
  split <;> rfl

/- A step that neither stores nor takes. -/
theorem Inv.frame (inv : Inv s) (pipe : t.pipe.buffered = s.pipe.buffered)
    (stored : t.stored = s.stored) (taken : t.taken = s.taken) (writes : t.writes = s.writes)
    (sent : ∀ q, (t.proc q).sent = (s.proc q).sent) : Inv t := by
  refine ⟨pipe ▸ inv.fits, ?_, ?_, by rw [writes]; exact inv.whole⟩
  · rw [stored, taken, pipe]
    exact inv.fifo
  · intro q
    rw [writes, sent q, State.sentBy, stored]
    exact inv.order q

theorem sentBy_append (s : State) (q : Nat) (bytes : List Byte) :
    State.sentBy { s with stored := s.stored ++ bytes.map (pid, ·) } q =
      s.sentBy q ++ (if q = pid then bytes else []) := by
  unfold State.sentBy
  dsimp only
  rw [List.filter_append, List.map_append]
  congr 1
  by_cases own : q = pid
  · subst own
    simp [List.filter_map, Function.comp_def]
  · rw [if_neg own, List.map_eq_nil_iff, List.filter_eq_nil_iff]
    intro x member
    obtain ⟨b, -, rfl⟩ := List.mem_map.mp member
    simpa using fun same => own same.symm

theorem Inv.pipewrite (inv : Inv s) {n : Int} {addr : List Byte} {i : Nat}
    (sent : (s.proc pid).sent = addr.take i) : Inv (Pipes.pipewrite s pid n addr i) := by
  have loop := writeLoop_stores (s.killed pid) n (addr.drop i) inv.fits
  dsimp only [Pipes.pipewrite]
  generalize writeLoop (s.killed pid) n (addr.drop i) s.pipe = out at *
  obtain ⟨p, k, r⟩ := out
  dsimp only at *
  obtain ⟨-, now, fits, all⟩ := loop
  have fifo : (s.stored ++ ((addr.drop i).take k).map (pid, ·)).map Prod.snd =
      s.taken ++ p.buffered := by
    rw [List.map_append, inv.fifo, now, List.append_assoc]
    simp [Function.comp_def]
  have further : addr.take i ++ (addr.drop i).take k = addr.take (i + k) := List.take_add.symm
  -- the other processes are at most woken, and have stored nothing
  have others (proc : Nat → Proc) (woken : ∀ q, (proc q).sent = (s.proc q).sent) (q : Nat)
      (other : q ≠ pid) : s.sentBy q ++ (if q = pid then (addr.drop i).take k else []) =
        (s.writes q).flatMap Write.sent ++ (proc q).sent := by
    rw [if_neg other, List.append_nil, woken, inv.order q]
  have woken (q : Nat) : ((if r.isSome && decide (k < (addr.drop i).length) then s.proc
      else fun q => (s.proc q).wakeReader) q).sent = (s.proc q).sent := by
    split
    · rfl
    · exact sent_wakeReader _
  cases r with
  | some r =>
    refine ⟨fits, fifo, ?_, ?_⟩
    · intro q
      dsimp only
      refine (sentBy_append s q _).trans ?_
      by_cases own : q = pid
      · subst own
        rw [if_pos rfl, update_self, update_self, inv.order q, sent, List.append_assoc, further,
          List.flatMap_append]
        simp [Write.sent, Proc.sent]
      · rw [update_of_ne own, update_of_ne own]
        exact others _ woken q own
    · intro q w listed positive
      dsimp only at listed
      by_cases own : q = pid
      · subst own
        rw [update_self] at listed
        rcases List.mem_append.mp listed with before | last
        · exact inv.whole q w before positive
        · cases List.mem_singleton.mp last
          have length := all r rfl positive
          rw [List.length_drop] at length
          exact List.take_of_length_le (by dsimp only; omega)
      · rw [update_of_ne own] at listed
        exact inv.whole q w listed positive
  | none =>
    refine ⟨fits, fifo, ?_, inv.whole⟩
    intro q
    refine (sentBy_append s q _).trans ?_
    dsimp only
    by_cases own : q = pid
    · subst own
      rw [if_pos rfl, update_self, inv.order q, sent, List.append_assoc, further]
      rfl
    · rw [update_of_ne own]
      exact others _ woken q own

theorem Inv.piperead (inv : Inv s) {n : Int} (none : (s.proc pid).sent = []) :
    Inv (Pipes.piperead s pid n) := by
  unfold Pipes.piperead
  split
  · refine inv.frame rfl rfl rfl rfl ?_
    intro q
    dsimp only
    obtain rfl | own := eq_or_ne q pid
    · rw [update_self, none]
      split <;> rfl
    · rw [update_of_ne own]
  · obtain ⟨takes, -, -⟩ := readLoop_takes (p := s.pipe) n.toNat
    have fits := inv.fits
    rw [takes, List.length_append] at fits
    refine ⟨by dsimp only; omega, ?_, ?_, inv.whole⟩
    · dsimp only
      rw [inv.fifo, List.append_assoc, ← takes]
    · intro q
      dsimp only
      refine (inv.order q).trans ?_
      by_cases own : q = pid
      · subst own
        rw [update_self, none]
        rfl
      · rw [update_of_ne own, sent_wakeWriter]

theorem step_inv {l : Label} (inv : Inv s) (taken : step s l = some t) : Inv t := by
  obtain ⟨-, taken⟩ := Option.ite_none_left_eq_some.mp taken
  cases l with
  | write pid n addr =>
    dsimp only at taken
    split at taken
    · rename_i outside
      obtain ⟨-, rfl⟩ := guarded taken
      exact inv.pipewrite (by rw [outside]; rfl)
    · cases taken
  | read pid n =>
    dsimp only at taken
    split at taken
    · rename_i outside
      cases taken
      exact inv.piperead (by rw [outside]; rfl)
    · cases taken
  | resume pid =>
    dsimp only at taken
    split at taken
    · rename_i inside
      cases taken
      exact inv.pipewrite (by rw [inside]; rfl)
    · rename_i inside
      cases taken
      exact inv.piperead (by rw [inside]; rfl)
    · cases taken
  | close writable =>
    cases taken
    refine inv.frame ?_ rfl rfl rfl ?_
    · unfold pipeclose
      cases writable <;> rfl
    · intro q
      cases writable
      · exact sent_wakeWriter _
      · exact sent_wakeReader _
  | kill pid =>
    cases taken
    refine inv.frame rfl rfl rfl rfl ?_
    intro q
    dsimp only
    obtain rfl | own := eq_or_ne q pid
    · rw [update_self, sent_wakeWriter, sent_wakeReader]
    · rw [update_of_ne own]

theorem boot_inv (data : Nat → Byte) (counter : BitVec 32) : Inv (boot data counter) where
  fits := by
    unfold Pipe.buffered boot
    rw [between_self]
    exact Nat.zero_le _
  fifo := by
    unfold Pipe.buffered boot
    rw [between_self]
    rfl
  order _ := rfl
  whole := nofun

/- The step runs piperead for process pid, which has asked for n bytes. -/
def Reads (s : State) (l : Label) (pid : Nat) (n : Int) : Prop :=
  l = .read pid n ∨ l = .resume pid ∧ s.proc pid = .runnable (.read n)

theorem step_reads {l : Label} {n : Int} (taken : step s l = some t) (reads : Reads s l pid n) :
    t = piperead s pid n := by
  obtain ⟨-, taken⟩ := Option.ite_none_left_eq_some.mp taken
  rcases reads with rfl | ⟨rfl, inside⟩ <;> dsimp only at taken
  · split at taken <;> cases taken
    rfl
  · rw [inside] at taken
    cases taken
    rfl

/- piperead that returns 0 found the pipe empty and closed for writing. -/
theorem piperead_zero {n : Int} (some : 0 < n) (zero : (piperead s pid n).proc pid = .user 0) :
    (piperead s pid n).pipe.writeopen = false ∧ (piperead s pid n).pipe.buffered = [] := by
  unfold piperead at *
  split at zero
  · dsimp only at zero
    rw [update_self] at zero
    split at zero <;> cases zero
  · rename_i open_
    obtain ⟨-, -, empty⟩ := readLoop_takes (p := s.pipe) n.toNat
    dsimp only at zero
    rw [update_self, Proc.user.injEq] at zero
    obtain ⟨same, drained⟩ := empty (by omega) (List.eq_nil_of_length_eq_zero (by omega))
    rw [if_neg open_]
    dsimp only
    rw [same, buffered_eq_nil]
    simp only [drained, true_and, Bool.not_eq_true] at open_
    exact ⟨open_, drained⟩

end Steps

/-- For a pipe used by any number of processes in any order: it holds at most PIPESIZE
bytes; the bytes stored are, in order, those that calls of piperead have returned followed
by those in the ring; each writer has stored its bytes in the order of its calls and, in
each call, from the first on, and all of them in a call that returned n; and a call of
piperead for n > 0 bytes returns 0 only when the write end is closed and all that was
stored has been read. -/
theorem pipe_fifo {data : Nat → Byte} {counter : BitVec 32} {ls : List Label} {s : State}
    (reached : Lib.exec step (boot data counter) ls = some s) :
    (s.pipe.nwrite - s.pipe.nread).toNat ≤ PIPESIZE ∧
      s.stored.map Prod.snd = s.taken ++ s.pipe.buffered ∧
      (∀ pid, s.sentBy pid = (s.writes pid).flatMap Write.sent ++ (s.proc pid).sent) ∧
      (∀ pid, ∀ w ∈ s.writes pid, 0 ≤ w.r → w.sent = w.addr) ∧
      ∀ l t pid n, step s l = some t → Reads s l pid n → 0 < n → t.proc pid = .user 0 →
        t.pipe.writeopen = false ∧ t.stored.map Prod.snd = t.taken := by
  have inv := run_invariant (fun _ _ _ inv _ taken => step_inv inv taken) (boot_inv data counter)
    (along_true _ ls) reached
  refine ⟨?_, inv.fifo, inv.order, inv.whole, ?_⟩
  · have length : s.pipe.buffered.length = (s.pipe.nwrite - s.pipe.nread).toNat := length_between
    exact length ▸ inv.fits
  · intro l t pid n taken reads some zero
    have now := step_inv inv taken
    cases step_reads taken reads
    obtain ⟨closed, empty⟩ := piperead_zero some zero
    refine ⟨closed, ?_⟩
    rw [now.fifo, empty, List.append_nil]

/- A reader waits, the counters wrap, and the write end is closed with a byte unread. -/
def wrapRun : List Label :=
  [.read 1 2, .write 0 3 [10, 11, 12], .resume 1, .close true]

theorem pipe_fifo_wraps : ∃ s, Lib.exec step (boot zeros (-1)) wrapRun = some s ∧ s.pipe.nwrite = 2 ∧
    s.taken = [10, 11] ∧ s.proc 1 = .user 2 ∧ s.stored.map Prod.snd = s.taken ++ s.pipe.buffered ∧
    s.sentBy 0 = (s.writes 0).flatMap Write.sent ++ (s.proc 0).sent := by
  obtain ⟨s, reached, wrapped, taken, result⟩ : ∃ s, Lib.exec step (boot zeros (-1)) wrapRun = some s ∧
      s.pipe.nwrite = 2 ∧ s.taken = [10, 11] ∧ s.proc 1 = .user 2 := by decide +kernel
  obtain ⟨-, fifo, order, -, -⟩ := pipe_fifo reached
  exact ⟨s, reached, wrapped, taken, result, fifo, order 0⟩

end Xv6c.Pipes

import Xv6c.Console.Streams

/-! Whether a process can sleep in consoleread while there is something for it to read. A
committed line wakes every reader; a switch of consoles wakes none. -/
namespace Xv6c.Console
open Lib

/- No process sleeps for the active console while that has a committed byte. -/
def Awake (s : State) : Prop :=
  ∀ p call, s.reader p = .sleeping call → (s.cons.active : Int) ≠ call.minor ∨ s.cons.input.r = s.cons.input.w

/- If a process sleeps for the console that is next, then that has no committed byte. -/
def Unwanted (s : State) : Prop :=
  ∀ p call, s.reader p = .sleeping call → (((s.cons.active + 1) % NCONT : Nat) : Int) = call.minor →
    (s.cons.buffers ((s.cons.active + 1) % NCONT)).r = (s.cons.buffers ((s.cons.active + 1) % NCONT)).w

/- Every ^T among the bytes finds the console that is next like that. -/
def Quiet (s : State) : List Byte → Prop
  | [] => True
  | c :: bytes => (c = ctrlT → Unwanted s) ∧ Quiet (key s c) bytes

def SwitchesQuietly (s : State) : Label → Prop
  | .keys bytes => Quiet s bytes
  | _ => True

/- The invariant: with it, the next console is another one. -/
structure Settled (s : State) : Prop where
  awake : Awake s
  inside : s.cons.active < NCONT

section Keys
variable {s : State}

theorem killLine_keeps (n : Nat) (i : Input) : (killLine n i).r = i.r ∧ (killLine n i).w = i.w := by
  induction n generalizing i with
  | zero => exact ⟨rfl, rfl⟩
  | succ n ih =>
    unfold killLine
    split
    · exact ih _
    · exact ⟨rfl, rfl⟩

/- Editing leaves the committed bytes alone. -/
theorem Settled.edits (h : Settled s) {i : Input} (r : i.r = s.cons.input.r) (w : i.w = s.cons.input.w) :
    Settled (setInput s i) := by
  refine ⟨fun p call asleep => ?_, h.inside⟩
  rcases h.awake p call asleep with other | empty
  · exact Or.inl other
  · exact Or.inr ((r.trans empty).trans w.symm)

theorem woken_ne_sleeping (q : Reader) (call : Call) : q.woken ≠ .sleeping call := by
  cases q <;> nofun

theorem wakeup_awake (s : State) : Awake (wakeup s) :=
  fun p call asleep => absurd asleep (woken_ne_sleeping (s.reader p) call)

theorem Settled.store (h : Settled s) (c : Byte) : Settled (Console.store s c) := by
  unfold Console.store
  dsimp only
  split
  · generalize (if c = carriageReturn then newline else c) = byte
    split
    · exact ⟨wakeup_awake _, h.inside⟩
    · exact h.edits rfl rfl
  · exact h

theorem Settled.nextconsole (h : Settled s) (unwanted : Unwanted s) :
    Settled { s with cons := Console.nextconsole s.cons } := by
  refine ⟨fun p call asleep => ?_, Nat.mod_lt _ (by decide)⟩
  by_cases wanted : (((s.cons.active + 1) % NCONT : Nat) : Int) = call.minor
  · right
    have empty := unwanted p call asleep wanted
    have apart : (s.cons.active + 1) % NCONT ≠ s.cons.active := by
      have := h.inside
      unfold NCONT at *
      omega
    have same : (Console.nextconsole s.cons).input = s.cons.buffers ((s.cons.active + 1) % NCONT) :=
      Function.update_of_ne apart _ _
    dsimp only
    rw [same]
    exact empty
  · exact Or.inl wanted

theorem Settled.key (h : Settled s) (c : Byte) (quiet : c = ctrlT → Unwanted s) :
    Settled (Console.key s c) := by
  unfold Console.key
  dsimp only
  split
  · exact h
  · split
    · rename_i switch
      exact h.nextconsole (quiet switch)
    · split
      · exact h.edits (killLine_keeps _ _).1 (killLine_keeps _ _).2
      · split
        · split
          · exact h.edits rfl rfl
          · exact h
        · exact h.store c

theorem Settled.consoleintr (h : Settled s) (bytes : List Byte) (quiet : Quiet s bytes) :
    Settled (Console.consoleintr s bytes) := by
  induction bytes generalizing s with
  | nil => exact h
  | cons c bytes ih => exact ih (h.key c quiet.1) quiet.2

end Keys

/- A read stays on its console; if there is nothing committed it changes nothing, and if
it sleeps there is nothing for it. -/
theorem readLoop_sleeps (killed : Bool) (minor : Int) (target n : Nat) (c : Cons) (took : List Byte) :
    let r := readLoop killed minor target n c took
    r.1.active = c.active ∧ (c.input.r = c.input.w → r.1.input.r = r.1.input.w) ∧
      ∀ call, r.2.2 = .sleeps call → (c.active : Int) ≠ call.minor ∨ r.1.input.r = r.1.input.w := by
  induction n generalizing c took with
  | zero =>
    refine ⟨rfl, id, fun call sleeps => ?_⟩
    cases sleeps
  | succ n ih =>
    unfold readLoop
    dsimp only
    split
    · rename_i waits
      split
      · refine ⟨rfl, id, fun call sleeps => ?_⟩
        cases sleeps
      · refine ⟨rfl, id, fun call sleeps => ?_⟩
        cases sleeps
        exact waits.symm
    · rename_i ready
      have some : c.input.r ≠ c.input.w := (not_or.mp ready).1
      split
      · split <;> refine ⟨rfl, fun empty => absurd empty some, fun call sleeps => ?_⟩ <;> cases sleeps
      · split
        · refine ⟨rfl, fun empty => absurd empty some, fun call sleeps => ?_⟩
          cases sleeps
        · obtain ⟨active, -, sleeps⟩ := ih { c with input := { c.input with r := c.input.r + 1 } }
            (took ++ [c.input.buf (c.input.r.toNat % INPUT_BUF)])
          exact ⟨active, fun empty => absurd empty some, sleeps⟩

theorem Settled.consoleread {s : State} (h : Settled s) (p : Nat) (call : Call) :
    Settled (Console.consoleread s p call) := by
  obtain ⟨active, empty, sleeps⟩ := readLoop_sleeps (s.killed p) call.minor call.target call.n s.cons []
  refine ⟨fun q other asleep => ?_, active ▸ h.inside⟩
  unfold Console.consoleread at asleep ⊢
  dsimp only at asleep ⊢
  rw [active]
  by_cases own : q = p
  · subst own
    rw [Function.update_self] at asleep
    split at asleep
    · rename_i again outcome
      cases asleep
      exact sleeps _ outcome
    · cases asleep
  · rw [Function.update_of_ne own] at asleep
    exact (h.awake q other asleep).imp_right empty

theorem step_settled {s t : State} {l : Label} (h : Settled s) (quiet : SwitchesQuietly s l)
    (taken : step s l = some t) : Settled t := by
  cases l with
  | keys bytes =>
    cases taken
    exact h.consoleintr bytes quiet
  | call p minor n =>
    dsimp only [step] at taken
    split at taken
    · cases taken
      exact h.consoleread p _
    · cases taken
  | resume p =>
    dsimp only [step] at taken
    split at taken
    · cases taken
      exact h.consoleread p _
    · cases taken
  | kill p =>
    cases taken
    refine ⟨fun q call asleep => ?_, h.inside⟩
    dsimp only at asleep ⊢
    by_cases own : q = p
    · subst own
      rw [Function.update_self] at asleep
      exact absurd asleep (woken_ne_sleeping _ _)
    · rw [Function.update_of_ne own] at asleep
      exact h.awake q call asleep

/-- In every run in which no ^T switches to a console that has committed bytes while a
reader of its minor sleeps, no process ever sleeps for the active console while that has
a committed byte. -/
theorem no_reader_sleeps_on_input {s : State} {ls : List Label}
    (quiet : Along step SwitchesQuietly boot ls) (reached : exec step boot ls = some s) {p : Nat}
    {call : Call} (asleep : s.reader p = .sleeping call) :
    (s.cons.active : Int) ≠ call.minor ∨ s.cons.input.r = s.cons.input.w := by
  have initial : Settled boot := ⟨nofun, by decide⟩
  have settled := run_invariant (fun s l t h ok taken => step_settled h ok taken) initial quiet reached
  exact settled.awake p call asleep

/- After a switch a reader waits, is woken by a line, reads it and waits again. -/
def waitRun : List Label :=
  [.keys [ctrlT, 97], .call 0 2 5, .keys [98, 10], .resume 0, .call 0 2 5]

theorem no_reader_sleeps_on_input_line : ∃ s, exec step boot waitRun = some s ∧
    s.reader 0 = .sleeping ⟨2, 5, 5⟩ ∧ ((s.cons.active : Int) ≠ 2 ∨ s.cons.input.r = s.cons.input.w) := by
  have quiet : Along step SwitchesQuietly boot waitRun :=
    ⟨⟨nofun, nofun, trivial⟩, fun _ _ => ⟨trivial, fun _ _ => ⟨⟨nofun, nofun, trivial⟩, fun _ _ =>
      ⟨trivial, fun _ _ => ⟨trivial, fun _ _ => trivial⟩⟩⟩⟩⟩
  obtain ⟨s, ran⟩ : ∃ s, exec step boot waitRun = some s := ⟨_, rfl⟩
  have asleep : s.reader 0 = .sleeping ⟨2, 5, 5⟩ := by
    cases ran
    rfl
  exact ⟨s, ran, asleep, no_reader_sleeps_on_input quiet ran asleep⟩

/- The reader that a line woke finds the console switched away and sleeps again; the
switches back to its console do not wake it. -/
theorem reader_sleeps_on_input : ∃ s,
    exec step boot [.call 0 1 5, .keys [97, 10], .keys [ctrlT], .resume 0,
      .keys [ctrlT, ctrlT, ctrlT, ctrlT, ctrlT, ctrlT, ctrlT]] = some s ∧
      s.reader 0 = .sleeping ⟨1, 5, 5⟩ ∧ s.cons.active = 1 ∧ s.cons.input.r ≠ s.cons.input.w := by
  refine ⟨_, rfl, rfl, rfl, ?_⟩
  decide

end Xv6c.Console

import Mathlib.Order.Nat
import Xv6c.Console.Model

/-! Each virtual console as a terminal of its own: what is typed while it is active goes
through the line editing and is committed, and readers of its minor take the committed
bytes in order. The console of console.c, with one ring that is swapped in and out,
behaves as these terminals. -/
namespace Xv6c.Console
open Lib
open Function (update update_apply update_of_ne update_self)

/- A terminal: the bytes committed so far, how many of them readers have taken, and the
line that is being edited. -/
structure Term where
  committed : List Byte
  taken : Nat
  line : List Byte

def Term.unread (t : Term) : List Byte := t.committed.drop t.taken

/- A byte that is not an editing key. A terminal that holds INPUT_BUF bytes drops it. -/
def Term.accept (t : Term) (c : Byte) : Term :=
  if c ≠ 0 ∧ t.unread.length + t.line.length < INPUT_BUF then
    let c := if c = carriageReturn then newline else c
    let line := t.line ++ [c]
    if c = newline ∨ c = ctrlD ∨ t.unread.length + line.length = INPUT_BUF then
      { t with committed := t.committed ++ line, line := [] }
    else { t with line := line }
  else t

def Term.key (t : Term) (c : Byte) : Term :=
  if c = ctrlU then { t with line := [] }
  else if c = ctrlH ∨ c = del then { t with line := t.line.dropLast }
  else t.accept c

structure Terms where
  term : Nat → Term
  active : Nat

def Terms.key (a : Terms) (c : Byte) : Terms :=
  if c = ctrlP then a
  else if c = ctrlT then { a with active := (a.active + 1) % NCONT }
  else { a with term := update a.term a.active ((a.term a.active).key c) }

def Term.take (t : Term) (n : Nat) : Term := { t with taken := t.taken + n }

/- The keys go to the active terminal; with any other step readers of the active terminal
may take some of what it has. -/
def Terms.Next (a : Terms) (l : Label) (b : Terms) : Prop :=
  match l with
  | .keys bytes => b = bytes.foldl Terms.key a
  | _ => ∃ n, n ≤ (a.term a.active).unread.length ∧
    b = { a with term := update a.term a.active ((a.term a.active).take n) }

def Terms.boot : Terms := ⟨fun _ => ⟨[], 0, []⟩, 1⟩

/- The ring holds what the terminal has. -/
structure Shows (i : Input) (t : Term) : Prop where
  ordered : (i.w - i.r).toNat ≤ (i.e - i.r).toNat
  fits : (i.e - i.r).toNat ≤ INPUT_BUF
  unread : between i.buf INPUT_BUF i.r i.w = t.unread
  line : between i.buf INPUT_BUF i.w i.e = t.line
  plain : newline ∉ t.line
  taken : t.taken ≤ t.committed.length

theorem ring_divides : INPUT_BUF ∣ 2 ^ 32 := by decide

section Ring
variable {i : Input} {t : Term}

theorem Shows.length_unread (h : Shows i t) : t.unread.length = (i.w - i.r).toNat := by
  rw [← h.unread, length_between]

theorem Shows.length_line (h : Shows i t) : t.line.length = (i.e - i.w).toNat := by
  rw [← h.line, length_between]

theorem Shows.count (h : Shows i t) :
    t.unread.length + t.line.length = (i.e - i.r).toNat := by
  rw [h.length_unread, h.length_line]
  have := h.ordered
  bv_omega

theorem killLine_eq (n : Nat) (i : Input) (count : (i.e - i.w).toNat = n)
    (plain : newline ∉ between i.buf INPUT_BUF i.w i.e) : killLine n i = { i with e := i.w } := by
  induction n generalizing i with
  | zero =>
    obtain ⟨buf, r, w, e⟩ := i
    have same : e = w := by bv_omega
    rw [killLine, same]
  | succ n ih =>
    have more : i.e ≠ i.w := by
      rintro same
      simp [same] at count
    have last := between_snoc i.buf (r := i.w) (w := i.e - 1) ring_divides (by bv_omega)
    rw [BitVec.sub_add_cancel] at last
    rw [last] at plain
    have other : i.buf ((i.e - 1).toNat % INPUT_BUF) ≠ newline := by
      intro same
      exact plain (List.mem_append_right _ (List.mem_singleton.mpr same.symm))
    rw [killLine, if_pos ⟨more, other⟩]
    refine (ih { i with e := i.e - 1 } (by dsimp only; bv_omega) ?_).trans rfl
    exact fun inside => plain (List.mem_append_left _ inside)

theorem Shows.erase (h : Shows i t) : Shows { i with e := i.w } { t with line := [] } where
  ordered := le_rfl
  fits := h.ordered.trans h.fits
  unread := h.unread
  line := between_self
  plain := nofun
  taken := h.taken

theorem Shows.backspace (h : Shows i t) (more : i.e ≠ i.w) :
    Shows { i with e := i.e - 1 } { t with line := t.line.dropLast } := by
  have last := between_snoc i.buf (r := i.w) (w := i.e - 1) ring_divides (by bv_omega)
  rw [BitVec.sub_add_cancel] at last
  have shorter : (i.w - i.r).toNat ≤ (i.e - 1 - i.r).toNat ∧ (i.e - 1 - i.r).toNat ≤ INPUT_BUF := by
    have ordered := h.ordered
    have fits := h.fits
    unfold INPUT_BUF at *
    constructor <;> bv_omega
  refine ⟨shorter.1, shorter.2, h.unread, ?_, ?_, h.taken⟩
  · rw [← h.line, last, List.dropLast_concat]
  · exact fun inside => h.plain (List.dropLast_subset _ inside)

/- One more byte at the end of the line. -/
theorem between_store (i : Input) (c : Byte) (r : BitVec 32) (room : (i.e - r).toNat < INPUT_BUF) :
    between (update i.buf (i.e.toNat % INPUT_BUF) c) INPUT_BUF r (i.e + 1) =
      between i.buf INPUT_BUF r i.e ++ [c] := by
  rw [between_snoc _ ring_divides (by unfold INPUT_BUF at room; omega),
    between_push _ ring_divides room, update_self]

theorem Shows.store (h : Shows i t) (room : (i.e - i.r).toNat < INPUT_BUF) {c : Byte}
    (plain : c ≠ newline) :
    Shows { i with buf := update i.buf (i.e.toNat % INPUT_BUF) c, e := i.e + 1 }
      { t with line := t.line ++ [c] } := by
  have ordered := h.ordered
  have behind : (i.e - i.w).toNat < INPUT_BUF := by bv_omega
  refine ⟨?_, ?_, ?_, ?_, ?_, h.taken⟩
  · unfold INPUT_BUF at room
    bv_omega
  · unfold INPUT_BUF at *
    bv_omega
  · have whole := between_push i.buf ring_divides room c
    rw [between_append ring_divides ordered, between_append (w := i.w) ring_divides ordered] at whole
    exact (List.append_inj_left whole (by simp)).trans h.unread
  · rw [between_store i c i.w behind, h.line]
  · simp [h.plain, plain.symm]

/- The byte that ends the line commits it. -/
theorem Shows.commit (h : Shows i t) (room : (i.e - i.r).toNat < INPUT_BUF) (c : Byte) :
    Shows { i with buf := update i.buf (i.e.toNat % INPUT_BUF) c, e := i.e + 1, w := i.e + 1 }
      { t with committed := t.committed ++ (t.line ++ [c]), line := [] } := by
  refine ⟨le_rfl, ?_, ?_, between_self, nofun, ?_⟩
  · unfold INPUT_BUF at *
    bv_omega
  · dsimp only
    rw [between_store i c i.r room, between_append ring_divides h.ordered, h.unread, h.line, Term.unread,
      Term.unread, List.drop_append_of_le_length h.taken, List.append_assoc]
  · exact h.taken.trans (by simp)

/- A reader takes the first of the committed bytes. -/
theorem Shows.pop (h : Shows i t) (some : i.r ≠ i.w) :
    t.unread = i.buf (i.r.toNat % INPUT_BUF) :: (t.take 1).unread ∧
      Shows { i with r := i.r + 1 } (t.take 1) := by
  have first := between_cons i.buf ring_divides some
  rw [h.unread] at first
  have rest : (t.take 1).unread = between i.buf INPUT_BUF (i.r + 1) i.w := by
    unfold Term.unread Term.take
    rw [← List.drop_drop, show t.committed.drop t.taken = t.unread from rfl, first, List.drop_one,
      List.tail_cons]
  refine ⟨by rw [rest, first], ?_, ?_, rest.symm, h.line, h.plain, ?_⟩
  · have ordered := h.ordered
    bv_omega
  · have fits := h.fits
    have ordered := h.ordered
    unfold INPUT_BUF at *
    bv_omega
  · have length := h.length_unread
    have positive : 0 < (i.w - i.r).toNat := by bv_omega
    rw [← length, Term.unread, List.length_drop] at positive
    unfold Term.take
    dsimp only
    omega

end Ring

/- The console behaves as the terminals, and what readers were given is what is taken. -/
structure Rel (s : State) (a : Terms) : Prop where
  active : a.active = s.cons.active
  inside : s.cons.active < NCONT
  shows : ∀ m < NCONT, Shows (s.cons.console m) (a.term m)
  given : ∀ m < NCONT, s.given m = (a.term m).committed.take (a.term m).taken
  others : ∀ m : Int, (∀ n < NCONT, m ≠ (n : Int)) → s.given m = []

section Steps
variable {s : State} {a : Terms}

theorem Rel.input (h : Rel s a) : Shows s.cons.input (a.term a.active) := by
  have own := h.shows s.cons.active h.inside
  rw [Cons.console, if_pos rfl] at own
  rwa [h.active]

/- A change of the active console is a change of the active terminal. -/
theorem Rel.setInput (h : Rel s a) {u : State} {i : Input} {t : Term} {g : List Byte}
    (cons : u.cons = { s.cons with input := i })
    (gives : u.given = update s.given s.cons.active g)
    (now : Shows i t) (taken : g = t.committed.take t.taken) :
    Rel u { a with term := update a.term a.active t } := by
  refine ⟨by rw [cons]; exact h.active, by rw [cons]; exact h.inside, ?_, ?_, ?_⟩
  · intro m inside
    rw [cons, h.active]
    obtain rfl | own := eq_or_ne m s.cons.active
    · simpa only [Cons.console, if_true, update_self] using now
    · have other := h.shows m inside
      simp only [Cons.console, if_neg own, update_of_ne own] at other ⊢
      exact other
  · intro m inside
    rw [gives, h.active]
    obtain rfl | own := eq_or_ne m s.cons.active
    · simpa only [update_self] using taken
    · have apart : (m : Int) ≠ s.cons.active := fun same => own (Int.ofNat_inj.mp same)
      simp only [update_of_ne own, update_of_ne apart]
      exact h.given m inside
  · intro m none
    rw [gives, update_of_ne (none _ h.inside)]
    exact h.others m none

/- The same when no reader is given anything. -/
theorem Rel.edit (h : Rel s a) {u : State} {i : Input} {t : Term}
    (cons : u.cons = { s.cons with input := i }) (gives : u.given = s.given) (now : Shows i t)
    (kept : t.committed.take t.taken = (a.term a.active).committed.take (a.term a.active).taken) :
    Rel u { a with term := update a.term a.active t } := by
  refine h.setInput cons (g := s.given s.cons.active) ?_ now ?_
  · rw [gives, Function.update_eq_self]
  · rw [kept, h.active]
    exact h.given _ h.inside

theorem Rel.nextconsole (h : Rel s a) :
    Rel { s with cons := Console.nextconsole s.cons } { a with active := (a.active + 1) % NCONT } := by
  refine ⟨by rw [h.active]; rfl, Nat.mod_lt _ (by decide), ?_, h.given, h.others⟩
  intro m inside
  have saved : (Console.nextconsole s.cons).console m = s.cons.console m := by
    unfold Cons.console
    by_cases next : m = (Console.nextconsole s.cons).active
    · rw [if_pos next, next]
      exact update_apply _ _ _ _
    · rw [if_neg next]
      exact update_apply _ _ _ _
  rw [saved]
  exact h.shows m inside

theorem Rel.store (h : Rel s a) (c : Byte) :
    Rel (Console.store s c)
      { a with term := update a.term a.active ((a.term a.active).accept c) } := by
  have input := h.input
  have count := input.count
  unfold Console.store Term.accept
  rw [count]
  dsimp only
  split
  · rename_i typed
    have room := typed.2
    generalize (if c = carriageReturn then newline else c) = byte
    have full : (s.cons.input.e + 1 = s.cons.input.r + BitVec.ofNat 32 INPUT_BUF) ↔
        (a.term a.active).unread.length + ((a.term a.active).line ++ [byte]).length = INPUT_BUF := by
      rw [List.length_append, List.length_singleton, ← Nat.add_assoc, count]
      unfold INPUT_BUF at *
      constructor <;> intro <;> bv_omega
    by_cases ends : byte = newline ∨ byte = ctrlD ∨
        s.cons.input.e + 1 = s.cons.input.r + BitVec.ofNat 32 INPUT_BUF
    · rw [if_pos ends, if_pos (ends.imp_right (Or.imp_right full.mp))]
      refine h.edit rfl rfl (input.commit room _) ?_
      exact List.take_append_of_le_length input.taken
    · rw [if_neg ends, if_neg fun short => ends (short.imp_right (Or.imp_right full.mpr))]
      exact h.edit rfl rfl (input.store room fun same => ends (Or.inl same)) rfl
  · exact h.edit (i := s.cons.input) rfl rfl input rfl

theorem Rel.key (h : Rel s a) (c : Byte) : Rel (Console.key s c) (a.key c) := by
  have input := h.input
  unfold Console.key Terms.key
  dsimp only
  split
  · exact h
  · split
    · exact h.nextconsole
    · unfold Term.key
      split
      · rw [killLine_eq _ _ rfl (by rw [input.line]; exact input.plain)]
        exact h.edit rfl rfl input.erase rfl
      · split
        · split
          · rename_i more
            exact h.edit rfl rfl (input.backspace more) rfl
          · rename_i none
            have empty : (a.term a.active).line = [] := by
              rw [← input.line, not_not.mp none, between_self]
            refine h.edit (i := s.cons.input) rfl rfl ?_ rfl
            rw [empty, List.dropLast_nil, ← empty]
            exact input
        · exact h.store c

theorem Rel.consoleintr (h : Rel s a) (bytes : List Byte) :
    Rel (Console.consoleintr s bytes) (bytes.foldl Terms.key a) := by
  induction bytes generalizing s a with
  | nil => exact h
  | cons c bytes ih => exact ih (h.key c)

end Steps

/- What consoleread takes are the first of the committed bytes that are left, and it
takes them from the active console only. -/
theorem readLoop_takes (killed : Bool) (minor : Int) (target n : Nat) (c : Cons) (took : List Byte)
    {t : Term} (now : Shows c.input t) :
    let r := readLoop killed minor target n c took
    ∃ k i, k ≤ t.unread.length ∧ r.1 = { c with input := i } ∧ r.2.1 = took ++ t.unread.take k ∧
      Shows i (t.take k) ∧ (k ≠ 0 → (c.active : Int) = minor) := by
  have nothing : ∃ k i, k ≤ t.unread.length ∧ c = { c with input := i } ∧
      took = took ++ t.unread.take k ∧ Shows i (t.take k) ∧ (k ≠ 0 → (c.active : Int) = minor) :=
    ⟨0, c.input, Nat.zero_le _, rfl, by simp, now, fun h => absurd rfl h⟩
  induction n generalizing c took t with
  | zero => exact nothing
  | succ n ih =>
    unfold readLoop
    dsimp only
    split
    · split <;> exact nothing
    · rename_i ready
      obtain ⟨some, same⟩ := not_or.mp ready
      obtain ⟨first, popped⟩ := now.pop some
      have one : ∃ k i, k ≤ t.unread.length ∧
          { c with input := { c.input with r := c.input.r + 1 } } = { c with input := i } ∧
          took ++ [c.input.buf (c.input.r.toNat % INPUT_BUF)] = took ++ t.unread.take k ∧
          Shows i (t.take k) ∧ (k ≠ 0 → (c.active : Int) = minor) :=
        ⟨1, _, by simp [first], rfl, by simp [first], popped, fun _ => not_not.mp same⟩
      split
      · split
        · refine ⟨0, c.input, Nat.zero_le _, ?_, by simp, now, fun h => absurd rfl h⟩
          rw [BitVec.add_sub_cancel]
        · exact one
      · split
        · exact one
        · obtain ⟨k, i, few, cons, got, shows, own⟩ := ih
            { c with input := { c.input with r := c.input.r + 1 } }
            (took ++ [c.input.buf (c.input.r.toNat % INPUT_BUF)]) popped
            ⟨0, _, Nat.zero_le _, rfl, by simp, popped, fun h => absurd rfl h⟩
          refine ⟨k + 1, i, by rw [first]; simpa using few, cons, ?_, ?_, fun _ => not_not.mp same⟩
          · rw [got, first, List.take_succ_cons, List.append_assoc, List.singleton_append]
          · have sum : (t.take 1).take k = t.take (k + 1) := by
              unfold Term.take
              dsimp only
              rw [Nat.add_assoc, Nat.add_comm 1 k]
            exact sum ▸ shows

theorem take_taken (t : Term) (n : Nat) :
    (t.take n).committed.take (t.take n).taken = t.committed.take t.taken ++ t.unread.take n := by
  unfold Term.take Term.unread
  exact List.take_add

theorem Rel.consoleread {s : State} {a : Terms} (h : Rel s a) (p : Nat) (call : Call) :
    ∃ n, n ≤ (a.term a.active).unread.length ∧ Rel (Console.consoleread s p call)
      { a with term := update a.term a.active ((a.term a.active).take n) } := by
  obtain ⟨k, i, few, cons, got, shows, own⟩ := readLoop_takes (s.killed p) call.minor call.target call.n
    s.cons [] h.input
  refine ⟨k, few, ?_⟩
  by_cases none : k = 0
  · subst none
    refine h.edit (u := Console.consoleread s p call) cons ?_ shows rfl
    unfold Console.consoleread
    dsimp only
    rw [got]
    simp
  · refine h.setInput (u := Console.consoleread s p call) cons ?_ shows (take_taken _ k).symm
    unfold Console.consoleread
    dsimp only
    rw [got, ← own none, List.nil_append, ← h.active, ← h.given _ (h.active ▸ h.inside)]

theorem step_terms {s t : State} {a : Terms} {l : Label} (h : Rel s a) (taken : step s l = some t) :
    ∃ b, a.Next l b ∧ Rel t b := by
  have reads {p : Nat} {call : Call} (same : Console.consoleread s p call = t) :
      ∃ b, a.Next (.resume p) b ∧ Rel t b := by
    obtain ⟨k, few, related⟩ := same ▸ h.consoleread p call
    exact ⟨_, ⟨k, few, rfl⟩, related⟩
  cases l with
  | keys bytes =>
    cases taken
    exact ⟨_, rfl, h.consoleintr bytes⟩
  | call p minor n =>
    dsimp only [step] at taken
    split at taken
    · exact reads (Option.some.inj taken)
    · cases taken
  | resume p =>
    dsimp only [step] at taken
    split at taken
    · exact reads (Option.some.inj taken)
    · cases taken
  | kill p =>
    cases taken
    refine ⟨_, ⟨0, Nat.zero_le _, rfl⟩, ?_⟩
    exact h.edit (i := s.cons.input) rfl rfl h.input rfl

theorem boot_terms : Rel boot Terms.boot where
  active := rfl
  inside := by decide
  shows m _ := by
    have same : boot.cons.console m = ⟨fun _ => 0, 0, 0, 0⟩ := by
      unfold Cons.console
      split <;> rfl
    rw [same]
    exact ⟨Nat.le_refl _, Nat.zero_le _, between_self, between_self, nofun, Nat.le_refl _⟩
  given _ _ := rfl
  others _ _ := rfl

/- Two lines and a half, with a correction. -/
def lineRun : List Label := [.keys [97, 98, 10, 99, 100, 8, 10, 101], .call 0 1 10]

end Xv6c.Console

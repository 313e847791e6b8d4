import Xv6c.Kernel.State

/-! How system calls fetch their arguments (syscall.c, and sys_exec in sysfile.c), in the 32-bit
arithmetic of the code. Each byte of user memory that is read is reported. -/
namespace Xv6c.Fetch
open Lib

/- The calling process: its size, its saved stack pointer and its memory. -/
structure User where
  sz : BitVec 32
  esp : BitVec 32
  mem : BitVec 32 → Byte

abbrev FetchM := Prog (BitVec 32) Fault User

def load (addr : BitVec 32) : FetchM Byte := do
  Prog.emit addr
  let u ← Prog.get
  pure (u.mem addr)

def fetchint (addr : BitVec 32) : FetchM (Option (BitVec 32)) := do
  let u ← Prog.get
  if u.sz ≤ addr ∨ u.sz < addr + 4 then pure none
  else
    let b0 ← load addr
    let b1 ← load (addr + 1)
    let b2 ← load (addr + 2)
    let b3 ← load (addr + 3)
    pure (some (b3 ++ b2 ++ b1 ++ b0))

/- The loop of fetchstr at s. -/
def fetchLoop (start ep : BitVec 32) : Nat → BitVec 32 → FetchM (Option (BitVec 32))
  | 0, _ => Prog.fault .hang
  | n + 1, s =>
    if s < ep then do
      let b ← load s
      if b = 0 then pure (some (s - start)) else fetchLoop start ep n (s + 1)
    else pure none

/- The string's address and its length. -/
def fetchstr (addr : BitVec 32) : FetchM (Option (BitVec 32 × BitVec 32)) := do
  let u ← Prog.get
  if u.sz ≤ addr then pure none
  else
    let len ← fetchLoop addr u.sz (u.sz.toNat + 1) addr
    pure (len.map fun n => (addr, n))

def argint (n : BitVec 32) : FetchM (Option (BitVec 32)) := do
  let u ← Prog.get
  fetchint (u.esp + 4 + 4 * n)

def argptr (n size : BitVec 32) : FetchM (Option (BitVec 32)) := do
  let u ← Prog.get
  match ← argint n with
  | none => pure none
  | some i => if size.slt 0 ∨ u.sz ≤ i ∨ u.sz < i + size then pure none else pure (some i)

def argstr (n : BitVec 32) : FetchM (Option (BitVec 32 × BitVec 32)) := do
  match ← argint n with
  | none => pure none
  | some addr => fetchstr addr

/- The loop of sys_exec at i, with the entries of argv found so far. -/
def execLoop (uargv : BitVec 32) : Nat → Nat → List (BitVec 32 × BitVec 32) →
    FetchM (Option (List (BitVec 32 × BitVec 32)))
  | 0, _, _ => Prog.fault .hang
  | n + 1, i, argv =>
    if MAXARG ≤ i then pure none
    else do
      match ← fetchint (uargv + 4 * BitVec.ofNat 32 i) with
      | none => pure none
      | some uarg =>
        if uarg = 0 then pure (some argv)
        else
          match ← fetchstr uarg with
          | none => pure none
          | some arg => execLoop uargv n (i + 1) (argv ++ [arg])

/- sys_exec up to its call of exec: the path and the arguments that it passes on. -/
def sysExec : FetchM (Option ((BitVec 32 × BitVec 32) × List (BitVec 32 × BitVec 32))) := do
  match ← argstr 0 with
  | none => pure none
  | some path =>
    match ← argint 1 with
    | none => pure none
    | some uargv =>
      let argv ← execLoop uargv (MAXARG + 1) 0 []
      pure (argv.map fun l => (path, l))

/- A string of the process, with its NUL. -/
structure StringIn (u : User) (arg : BitVec 32 × BitVec 32) : Prop where
  inside : arg.1.toNat + arg.2.toNat < u.sz.toNat
  text : ∀ j < arg.2.toNat, u.mem (arg.1 + BitVec.ofNat 32 j) ≠ 0
  nul : u.mem (arg.1 + arg.2) = 0

/- All reads stay below the size, and no fault is admitted. -/
def below (u : User) : Mode (BitVec 32) Fault := ⟨fun _ => True, fun a => a < u.sz, fun _ => False⟩

/- The run ends; it reads only below the size, and its result is as P says. -/
def Confined {A : Type} (u : User) (x : FetchM A) (P : A → Prop) : Prop :=
  ∃ es a, Ends x u es a u ∧ (∀ addr ∈ es, addr < u.sz) ∧ P a

variable {u : User} {A B : Type}

theorem confined_of_wp {x : FetchM A} {P : A → Prop} (h : wp (below u) x (fun a t => t = u ∧ P a) u) :
    Confined u x P := by
  obtain ⟨owed, holds⟩ := h fun _ _ => trivial
  unfold Confined Ends
  rcases result : x u with ⟨es, f | ⟨a, t⟩⟩
  · rw [result] at holds
    exact holds.elim
  · rw [result] at owed holds
    obtain ⟨rfl, good⟩ := holds
    exact ⟨es, a, rfl, owed, good⟩

theorem wp_load {addr : BitVec 32} {f : Byte → FetchM B} {Q : B → User → Prop} (inside : addr < u.sz)
    (next : wp (below u) (f (u.mem addr)) Q u) : wp (below u) (load addr >>= f) Q u := by
  unfold load
  rw [bind_assoc]
  refine wp_emit_bind fun _ => ⟨inside, ?_⟩
  exact next

section Calls
variable (small : u.sz.toNat < KERNBASE)
include small

/- The four bytes of a word. -/
def WordIn (u : User) (addr : BitVec 32) : Prop := addr.toNat + 4 ≤ u.sz.toNat

theorem fetchint_below (addr : BitVec 32) :
    wp (below u) (fetchint addr) (fun r t => t = u ∧ (r ≠ none → WordIn u addr)) u := by
  unfold fetchint
  refine wp_get_bind (wp_ite (fun _ => wp_pure ⟨rfl, fun some => absurd rfl some⟩) fun fits => ?_)
  simp only [KERNBASE] at small
  have inside : addr.toNat + 4 ≤ u.sz.toNat := by bv_omega
  refine wp_load (by bv_omega) (wp_load (by bv_omega) (wp_load (by bv_omega) (wp_load (by bv_omega) ?_)))
  exact wp_pure ⟨rfl, fun _ => inside⟩

/- The bytes from start up to s are not NUL. -/
theorem fetchLoop_below {start s : BitVec 32} {n : Nat} (above : start ≤ s) (below' : s ≤ u.sz)
    (text : ∀ j, start.toNat + j < s.toNat → u.mem (start + BitVec.ofNat 32 j) ≠ 0) (enough : u.sz.toNat < s.toNat + n) :
    wp (below u) (fetchLoop start u.sz n s) (fun r t => t = u ∧ ∀ len, r = some len → StringIn u (start, len)) u := by
  induction n generalizing s with
  | zero => bv_omega
  | succ n ih =>
    unfold fetchLoop
    refine wp_ite (fun inside => wp_load inside ?_) (fun _ => wp_pure ⟨rfl, nofun⟩)
    refine wp_ite (fun nul => wp_pure ⟨rfl, ?_⟩) (fun char => ih ?_ ?_ (fun j before => ?_) ?_)
    · rintro _ ⟨⟩
      refine ⟨by bv_omega, fun j before => text j (by bv_omega), ?_⟩
      rwa [show start + (s - start) = s by bv_omega]
    · simp only [KERNBASE] at small
      bv_omega
    · bv_omega
    · by_cases last : start.toNat + j = s.toNat
      · rwa [show start + BitVec.ofNat 32 j = s by bv_omega]
      · exact text j (by bv_omega)
    · bv_omega

theorem fetchstr_below (addr : BitVec 32) :
    wp (below u) (fetchstr addr) (fun r t => t = u ∧ ∀ arg, r = some arg → StringIn u arg) u := by
  unfold fetchstr
  refine wp_get_bind (wp_ite (fun _ => wp_pure ⟨rfl, nofun⟩) fun fits => ?_)
  refine wp_seq (fetchLoop_below small (by bv_omega) (by bv_omega) (fun j before => by omega) (by omega)) ?_
  rintro len _ ⟨rfl, found⟩
  refine wp_pure ⟨rfl, fun arg same => ?_⟩
  obtain ⟨n, here, rfl⟩ := Option.map_eq_some_iff.mp same
  exact found n here

theorem argint_below (n : BitVec 32) :
    wp (below u) (argint n) (fun r t => t = u ∧ (r ≠ none → WordIn u (u.esp + 4 + 4 * n))) u :=
  wp_get_bind (fetchint_below small _)

theorem argptr_below (n size : BitVec 32) : wp (below u) (argptr n size) (fun r t => t = u ∧ ∀ p, r = some p →
    0 ≤ size.toInt ∧ p.toNat < u.sz.toNat ∧ p.toNat + size.toInt ≤ u.sz.toNat) u := by
  unfold argptr
  refine wp_get_bind (wp_seq (argint_below small n) ?_)
  rintro (_ | i) _ ⟨rfl, -⟩
  · exact wp_pure ⟨rfl, nofun⟩
  refine wp_ite (fun _ => wp_pure ⟨rfl, nofun⟩) fun fits => wp_pure ⟨rfl, ?_⟩
  rintro _ ⟨⟩
  rw [not_or, not_or] at fits
  obtain ⟨positive, inside, fits⟩ := fits
  have sign : 0 ≤ size.toInt := by
    simpa [BitVec.slt] using positive
  have half : 2 * size.toNat < 2 ^ 32 := by
    by_contra large
    rw [BitVec.toInt_eq_toNat_cond, if_neg large] at sign
    omega
  simp only [KERNBASE] at small
  rw [BitVec.toInt_eq_toNat_of_lt half]
  refine ⟨Int.natCast_nonneg _, by bv_omega, ?_⟩
  bv_omega

theorem argstr_below (n : BitVec 32) :
    wp (below u) (argstr n) (fun r t => t = u ∧ ∀ arg, r = some arg → StringIn u arg) u := by
  unfold argstr
  refine wp_seq (argint_below small n) ?_
  rintro (_ | addr) _ ⟨rfl, -⟩
  · exact wp_pure ⟨rfl, nofun⟩
  · exact fetchstr_below small addr

theorem execLoop_below {uargv : BitVec 32} {n i : Nat} {argv : List (BitVec 32 × BitVec 32)} (enough : MAXARG < i + n)
    (few : i ≤ MAXARG) (length : argv.length = i) (found : ∀ arg ∈ argv, StringIn u arg) :
    wp (below u) (execLoop uargv n i argv) (fun r t => t = u ∧ ∀ l, r = some l →
      l.length < MAXARG ∧ ∀ arg ∈ l, StringIn u arg) u := by
  induction n generalizing i argv with
  | zero => exact wp_fault (by omega)
  | succ n ih =>
    unfold execLoop
    refine wp_ite (fun _ => wp_pure ⟨rfl, nofun⟩) fun room => wp_seq (fetchint_below small _) ?_
    rintro (_ | uarg) _ ⟨rfl, -⟩
    · exact wp_pure ⟨rfl, nofun⟩
    refine wp_ite (fun _ => wp_pure ⟨rfl, ?_⟩) fun _ => wp_seq (fetchstr_below small uarg) ?_
    · rintro _ ⟨⟩
      exact ⟨by omega, found⟩
    rintro (_ | arg) _ ⟨rfl, string⟩
    · exact wp_pure ⟨rfl, nofun⟩
    refine ih (by omega) (by omega) (by rw [List.length_append, length]; rfl) fun x member => ?_
    rcases List.mem_append.mp member with old | new
    · exact found x old
    · rw [List.mem_singleton.mp new]
      exact string arg rfl

theorem sysExec_below : wp (below u) sysExec (fun r t => t = u ∧ ∀ path argv, r = some (path, argv) →
    argv.length < MAXARG ∧ ∀ arg ∈ path :: argv, StringIn u arg) u := by
  unfold sysExec
  refine wp_seq (argstr_below small 0) ?_
  rintro (_ | path) _ ⟨rfl, string⟩
  · exact wp_pure ⟨rfl, nofun⟩
  refine wp_seq (argint_below small 1) ?_
  rintro (_ | uargv) _ ⟨rfl, -⟩
  · exact wp_pure ⟨rfl, nofun⟩
  refine wp_seq (execLoop_below small (by decide) (by decide) rfl (fun _ none => nomatch none)) ?_
  rintro (_ | l) _ ⟨rfl, found⟩
  · exact wp_pure ⟨rfl, nofun⟩
  · refine wp_pure ⟨rfl, ?_⟩
    rintro _ _ ⟨⟩
    obtain ⟨few, strings⟩ := found l rfl
    exact ⟨few, List.forall_mem_cons.mpr ⟨string path rfl, strings⟩⟩

end Calls

/-- Whatever the stack pointer, the argument and the memory: a call reads nothing at or above the
size of its process, and what it takes for a word, a block or a string lies below it. -/
theorem arguments_confined (u : User) (small : u.sz.toNat < KERNBASE) :
    (∀ addr, Confined u (fetchint addr) fun r => r ≠ none → WordIn u addr) ∧
    (∀ n, Confined u (argint n) fun r => r ≠ none → WordIn u (u.esp + 4 + 4 * n)) ∧
    (∀ n size, Confined u (argptr n size) fun r => ∀ p, r = some p →
      0 ≤ size.toInt ∧ p.toNat < u.sz.toNat ∧ p.toNat + size.toInt ≤ u.sz.toNat) ∧
    (∀ addr, Confined u (fetchstr addr) fun r => ∀ arg, r = some arg → StringIn u arg) ∧
    (∀ n, Confined u (argstr n) fun r => ∀ arg, r = some arg → StringIn u arg) ∧
    Confined u sysExec fun r => ∀ path argv, r = some (path, argv) →
      argv.length < MAXARG ∧ ∀ arg ∈ path :: argv, StringIn u arg :=
  ⟨fun addr => confined_of_wp (fetchint_below small addr), fun n => confined_of_wp (argint_below small n),
    fun n size => confined_of_wp (argptr_below small n size), fun addr => confined_of_wp (fetchstr_below small addr),
    fun n => confined_of_wp (argstr_below small n), confined_of_wp (sysExec_below small)⟩

/- A process of one page whose memory holds 4 at each fourth byte. -/
theorem arguments_confined_page : Confined ⟨4096, 4076, fun a => if a % 4 = 0 then 4 else 0⟩ (argptr 1 8) fun r =>
    ∀ p, r = some p → 0 ≤ (8 : BitVec 32).toInt ∧ p.toNat < 4096 ∧ p.toNat + (8 : BitVec 32).toInt ≤ 4096 :=
  (arguments_confined ⟨4096, 4076, fun a => if a % 4 = 0 then 4 else 0⟩ (by decide)).2.2.1 1 8

end Xv6c.Fetch

import Mathlib.Data.Set.Function
import Xv6c.Kernel.Rounds

/-! What cinfo writes to a user's buffer, byte by byte as continfo.h lays it out, and
that a process outside of the root container learns nothing from it about others. -/
namespace Xv6c
open Lib

/- struct pinfo: state, pid, name[16], ticks. -/
def sizePinfo : Nat := 28

/- struct cinfo: msz, mdsk, mproc, usz, udsk, cid, state, name[16], procs[NPROC]. -/
def sizeCinfo : Nat := 44 + NPROC * sizePinfo

/- An int or a uint at a byte offset, which is a multiple of 4 in these structures. -/
def setInt (f : Bytes) (off : Nat) (v : Int) : Bytes := setWord f (off / 4) (BitVec.ofInt 32 v)

/- safestrcpy(f + off, t, n): the bytes of t before its NUL, n - 1 of them at most, and a
NUL; what follows in the field is left alone. -/
def safestrcpy (f : Bytes) (off : Nat) (t : List Byte) (n : Nat) : Bytes :=
  let s := (t.takeWhile (· ≠ 0)).take (n - 1) ++ [0]
  copyIn f off s.length fun j => s.getD j 0

def putPinfo (f : Bytes) (off : Nat) (q : PInfo) : Bytes :=
  let f := setInt f (off + 4) q.pid
  let f := setInt f (off + 24) q.ticks
  let f := setInt f off q.state.ctorIdx
  safestrcpy f (off + 8) q.name 16

/- ci->conts[j] of a container. -/
def putCinfo (f : Bytes) (j : Nat) (c : CInfo) : Bytes :=
  let off := j * sizeCinfo
  let f := setInt f off c.msz
  let f := setInt f (off + 4) c.mdsk
  let f := setInt f (off + 8) c.mproc
  let f := setInt f (off + 12) c.usz
  let f := setInt f (off + 16) c.udsk
  let f := setInt f (off + 20) c.cid
  let f := setInt f (off + 24) c.state.ctorIdx
  let f := safestrcpy f (off + 28) c.name 16
  c.procs.zipIdx.foldl (fun f (q, l) => putPinfo f (off + 44 + l * sizePinfo) q) f

/- The buffer of struct continfo that cinfo is given, filled in. -/
def fillContinfo (f : Bytes) (root : Bool) (conts : List CInfo) : Bytes :=
  let f := setInt f (NCONT * sizeCinfo) root.toNat
  conts.zipIdx.foldl (fun f (c, j) => putCinfo f j c) f

/- The buffer behind cinfo(ci) by process p. -/
def cinfoBuffer (p : ProcId) (k : Kernel) (ci : Bytes) : Option Bytes :=
  (after (cinfo p) k).map fun ((root, conts), _) => fillContinfo ci root conts

/- The containers in use, the one of the process that makes the call among them. -/
def inUse (k : Kernel) (p : ProcId) : Set Nat :=
  { i | (i < NCONT ∧ (k.cont i).state ≠ .cunused) ∨ i = k.contOf p }

def DistinctCids (k : Kernel) (p : ProcId) : Prop := (inUse k p).InjOn fun i => (k.cont i).cid

/- Two kernels with the same process p, in the same container with the same processes. -/
structure SameContainer (k k' : Kernel) (p : ProcId) : Prop where
  proc : k'.procAt p = k.procAt p
  cont : k'.cont (k.contOf p) = k.cont (k.contOf p)
  slots : ∀ j : Nat, (j : Int) < (k.cont (k.contOf p)).mproc → k'.proc (k.contOf p) j = k.proc (k.contOf p) j

section Disclosure
variable {k k' : Kernel} {p : ProcId}

/- The containers of which cinfo tells p. -/
def Shown (k : Kernel) (p : ProcId) (i : Nat) : Prop :=
  ((k.cont (k.contOf p)).cid = ROOTCONT ∨ (k.cont (k.contOf p)).cid = (k.cont i).cid) ∧
    (k.cont i).state ≠ .cunused

instance (k : Kernel) (p : ProcId) (i : Nat) : Decidable (Shown k p i) := inferInstanceAs (Decidable (_ ∧ _))

theorem cinfoBuffer_eq (k : Kernel) (p : ProcId) (ci : Bytes) :
    cinfoBuffer p k ci = some (fillContinfo ci (decide ((k.cont (k.contOf p)).cid = ROOTCONT))
      (((List.range NCONT).filter fun i => Shown k p i).map (contInfo k))) := rfl

theorem SameContainer.contOf (same : SameContainer k k' p) : k'.contOf p = k.contOf p :=
  congrArg Proc.cont same.proc

/- Outside of the root container p is told of its own container only. -/
theorem shown_own (distinct : DistinctCids k p) (guest : (k.cont (k.contOf p)).cid ≠ ROOTCONT) {i : Nat}
    (inside : i < NCONT) : Shown k p i ↔ i = k.contOf p ∧ (k.cont (k.contOf p)).state ≠ .cunused := by
  constructor
  · rintro ⟨root | same, used⟩
    · exact absurd root guest
    · have own : i = k.contOf p := distinct (Or.inl ⟨inside, used⟩) (Or.inr rfl) same.symm
      exact ⟨own, own ▸ used⟩
  · rintro ⟨rfl, used⟩
    exact ⟨Or.inr rfl, used⟩

theorem SameContainer.contInfo (same : SameContainer k k' p) :
    contInfo k' (k.contOf p) = contInfo k (k.contOf p) := by
  unfold Xv6c.contInfo
  dsimp only
  rw [same.cont]
  have table : (List.range (k.cont (k.contOf p)).mproc.toNat).map (k'.proc (k.contOf p)) =
      (List.range (k.cont (k.contOf p)).mproc.toNat).map (k.proc (k.contOf p)) := by
    refine List.map_congr_left fun j listed => same.slots j ?_
    have below := List.mem_range.mp listed
    omega
  rw [table]

/-- Whatever the other containers and their processes are, cinfo writes the same bytes to
the buffer of a process outside of the root container. -/
theorem cinfo_tells_own (distinct : DistinctCids k p) (distinct' : DistinctCids k' p)
    (same : SameContainer k k' p) (guest : (k.cont (k.contOf p)).cid ≠ ROOTCONT) (ci : Bytes) :
    ∃ buffer, cinfoBuffer p k ci = some buffer ∧ cinfoBuffer p k' ci = some buffer := by
  have own := same.contOf
  have guest' : (k'.cont (k'.contOf p)).cid ≠ ROOTCONT := by
    rw [own, same.cont]
    exact guest
  have shown : ∀ i ∈ List.range NCONT, decide (Shown k' p i) = decide (Shown k p i) := by
    intro i listed
    have inside := List.mem_range.mp listed
    rw [decide_eq_decide, shown_own distinct' guest' inside, shown_own distinct guest inside, own, same.cont]
  have told : ((List.range NCONT).filter fun i => Shown k' p i).map (contInfo k') =
      ((List.range NCONT).filter fun i => Shown k p i).map (contInfo k) := by
    rw [List.filter_congr shown]
    refine List.map_congr_left fun i listed => ?_
    obtain ⟨ranged, told⟩ := List.mem_filter.mp listed
    rw [((shown_own distinct guest (List.mem_range.mp ranged)).mp (of_decide_eq_true told)).1]
    exact same.contInfo
  refine ⟨_, cinfoBuffer_eq k p ci, ?_⟩
  rw [cinfoBuffer_eq, told, own, same.cont]

/- The machine of tenantKernel with a busy root container beside the tenant. -/
def busyKernel : Kernel :=
  { tenantKernel .crunnable .running with
    cont := Function.update (tenantKernel .crunnable .running).cont 0
      { bootKernel.cont 0 with uproc := 5, upg := 77 }
    proc := Function.update (tenantKernel .crunnable .running).proc 0
      fun j => { bootKernel.proc 0 j with ticks := 9, state := .sleeping } }

theorem distinct_tenant {k : Kernel} (own : k.contOf ⟨1, 0⟩ = 1) (root : (k.cont 0).cid = 1)
    (tenant : (k.cont 1).cid = 2) (others : ∀ i, 2 ≤ i → (k.cont i).state = .cunused) :
    DistinctCids k ⟨1, 0⟩ := by
  have two (i : Nat) (used : i ∈ inUse k ⟨1, 0⟩) : i = 0 ∨ i = 1 := by
    rcases used with ⟨-, used⟩ | rfl
    · by_contra other
      exact used (others i (by omega))
    · exact Or.inr own
  intro i hi j hj same
  dsimp only at same
  rcases two i hi with rfl | rfl <;> rcases two j hj with rfl | rfl <;> first | rfl | omega

theorem cinfo_tells_own_tenant :
    ∃ buffer, cinfoBuffer ⟨1, 0⟩ (tenantKernel .crunnable .running) zeros = some buffer ∧
      cinfoBuffer ⟨1, 0⟩ busyKernel zeros = some buffer := by
  have others (i : Nat) (high : 2 ≤ i) : (tenantKernel .crunnable .running).cont i = Cont.zero :=
    (Function.update_of_ne (by omega) _ _).trans (if_neg (by omega))
  have quiet : DistinctCids (tenantKernel .crunnable .running) ⟨1, 0⟩ :=
    distinct_tenant rfl rfl rfl fun i high => congrArg Cont.state (others i high)
  have busy : DistinctCids busyKernel ⟨1, 0⟩ := distinct_tenant rfl rfl rfl fun i high =>
    congrArg Cont.state ((Function.update_of_ne (by omega) _ _).trans (others i high))
  exact cinfo_tells_own quiet busy ⟨rfl, rfl, fun _ _ => rfl⟩ (by decide) zeros

end Disclosure

end Xv6c

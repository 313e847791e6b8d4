import Xv6c.Fs.Calls
import Xv6c.Fs.Reading

/-! Directories as their entries. A name is what namecmp sees of a string: its bytes up
to a NUL, and not more than DIRSIZ of them. -/
namespace Xv6c.Fs
open Lib

section Names

theorem cut_cons (b : Byte) (q : List Byte) : cut (b :: q) = if b = 0 then [] else b :: cut q := by
  unfold cut
  rw [List.takeWhile_cons]
  by_cases zero : b = 0
  · rw [if_pos zero, if_neg]
    simp [zero]
  · rw [if_neg zero, if_pos]
    simpa using zero

theorem byte_sub_eq_zero {a b : Byte} : (a.toNat : Int) - b.toNat = 0 ↔ a = b := by
  rw [← BitVec.toNat_inj]
  omega

theorem cut_eq_nil (q : List Byte) : cut q = [] ↔ q.headD 0 = 0 := by
  cases q with
  | nil => simp [cut]
  | cons b q =>
    rw [cut_cons]
    by_cases zero : b = 0 <;> simp [zero]

theorem strncmp_eq_zero_iff (p q : List Byte) (n : Nat) :
    strncmp p q n = 0 ↔ cut (p.take n) = cut (q.take n) := by
  induction n generalizing p q with
  | zero => simp [strncmp, cut]
  | succ n ih =>
    rw [strncmp]
    by_cases same : p.headD 0 ≠ 0 ∧ p.headD 0 = q.headD 0
    · rw [if_pos same, ih]
      cases p with
      | nil => exact absurd rfl same.1
      | cons a p =>
        cases q with
        | nil => exact absurd same.2 same.1
        | cons b q =>
          obtain ⟨nonzero, equal⟩ : a ≠ 0 ∧ a = b := same
          subst equal
          simp only [List.tail_cons, List.take_succ_cons, cut_cons, if_neg nonzero, List.cons.injEq, true_and]
    · rw [if_neg same, byte_sub_eq_zero]
      have head (l : List Byte) : (l.take (n + 1)).headD 0 = l.headD 0 := by cases l <;> rfl
      constructor
      · intro equal
        have zero : p.headD 0 = 0 := by
          by_contra nonzero
          exact same ⟨nonzero, equal⟩
        rw [(cut_eq_nil _).mpr ((head p).trans zero), (cut_eq_nil _).mpr ((head q).trans (equal ▸ zero))]
      · intro equal
        by_cases zero : p.headD 0 = 0
        · have nil := (cut_eq_nil _).mpr ((head p).trans zero)
          rw [nil] at equal
          rw [zero, ← head q, (cut_eq_nil _).mp equal.symm]
        · cases p with
          | nil => exact absurd rfl zero
          | cons a p =>
            have zero : a ≠ 0 := zero
            rw [List.take_succ_cons, cut_cons, if_neg zero] at equal
            cases q with
            | nil => exact nomatch equal
            | cons b q =>
              rw [List.take_succ_cons, cut_cons] at equal
              split at equal
              · exact nomatch equal
              · exact (List.cons.inj equal).1

/- A string as a name in a directory. -/
def nameOf (l : List Byte) : List Byte := cut (l.take DIRSIZ)

theorem namecmp_eq_zero (p q : List Byte) : namecmp p q = 0 ↔ nameOf p = nameOf q := strncmp_eq_zero_iff p q DIRSIZ

theorem cut_self {l : List Byte} (whole : 0 ∉ l) : cut l = l :=
  List.takeWhile_eq_self_iff.mpr fun _ inside => bne_iff_ne.mpr fun zero => whole (zero ▸ inside)

/- A name that fits into an entry. -/
theorem nameOf_self {l : List Byte} (whole : 0 ∉ l) (short : l.length ≤ DIRSIZ) : nameOf l = l := by
  rw [nameOf, List.take_of_length_le short, cut_self whole]

theorem cut_padded (l : List Byte) (n : Nat) : cut ((List.range n).map fun i => l.getD i 0) = cut (l.take n) := by
  induction n generalizing l with
  | zero => rfl
  | succ n ih =>
    rw [List.range_succ_eq_map, List.map_cons, List.map_map, cut_cons]
    cases l with
    | nil => rfl
    | cons a l =>
      rw [List.take_succ_cons, cut_cons]
      exact congrArg (fun rest => if a = 0 then [] else a :: rest) (ih l)

theorem nameOf_padded (l : List Byte) : nameOf ((List.range DIRSIZ).map fun i => l.getD i 0) = nameOf l := by
  have length : ((List.range DIRSIZ).map fun i => l.getD i 0).length = DIRSIZ := by
    rw [List.length_map, List.length_range]
  rw [nameOf, List.take_of_length_le length.le, cut_padded]
  rfl

/- An entry of 16 bytes as mkDirent writes it. -/
theorem deInum_written {de : Bytes} {inum : Nat} {name : List Byte} (same : ∀ j < direntSize, de j = mkDirent inum name j) :
    deInum de = inum % 2 ^ 16 := by
  rw [deInum, same 0 (by decide), same 1 (by decide)]
  simp only [mkDirent, if_true, BitVec.toNat_ofNat]
  rw [if_neg (by decide)]
  simp only [BitVec.toNat_ofNat]
  omega

theorem deName_written {de : Bytes} {inum : Nat} {name : List Byte} (same : ∀ j < direntSize, de j = mkDirent inum name j) :
    nameOf (deName de) = nameOf name := by
  rw [← nameOf_padded name]
  refine congrArg nameOf (List.map_congr_left fun i inside => ?_)
  have inside := List.mem_range.mp inside
  rw [same (i + 2) (by change i + 2 < 16; change i < 14 at inside; omega), mkDirent, if_neg (by omega),
    if_neg (by omega), Nat.add_sub_cancel]

end Names

section Lookup
variable {M : Mode FsEvent Fault} {I : FsState → Prop} {bytes : Bytes} {s : FsState} {dp i n size : Nat}
  {name : List Byte}

/- Entry k of a directory with these bytes. -/
def entryOf (bytes : Bytes) (k : Nat) : Bytes := slice bytes (k * direntSize) direntSize

/- The entry is in use and has this name. -/
def Carries (de : Bytes) (name : List Byte) : Prop := deInum de ≠ 0 ∧ nameOf (deName de) = nameOf name

instance (de : Bytes) (name : List Byte) : Decidable (Carries de name) := inferInstanceAs (Decidable (_ ∧ _))

theorem le_entries (inside : n * direntSize ≤ size) : n ≤ entries size := by
  change n ≤ (size + 16 - 1) / 16
  change n * 16 ≤ size at inside
  omega

/- readi delivers the entries below size, and keeps I. -/
def Lists (M : Mode FsEvent Fault) (I : FsState → Prop) (dp : Nat) (bytes : Bytes) (size : Nat) : Prop :=
  ∀ s k, I s → (k + 1) * direntSize ≤ size →
    wp M (readi dp (k * direntSize) direntSize) (fun r t => I t ∧ r = ((direntSize : Int), entryOf bytes k)) s

/- The scan of dirlookup from entry i on stops at the first one with the name; the entries
that it comes to are below size. -/
theorem wp_lookupFrom {Q : Option (Nat × Nat) → FsState → Prop} (lists : Lists M I dp bytes size) (h : I s)
    (inside : ∀ j, j < i + n → (∀ l, i ≤ l → l < j → ¬ Carries (entryOf bytes l) name) →
      (j + 1) * direntSize ≤ size)
    (found : ∀ k t, I t → i ≤ k → k < i + n → Carries (entryOf bytes k) name →
      (∀ j, i ≤ j → j < k → ¬ Carries (entryOf bytes j) name) →
      wp M (iget (deInum (entryOf bytes k)) >>= fun ip => pure (some (ip, k * direntSize))) Q t)
    (missing : ∀ t, I t → (∀ j, i ≤ j → j < i + n → ¬ Carries (entryOf bytes j) name) → Q none t) :
    wp M (lookupFrom dp name n (i * direntSize)) Q s := by
  induction n generalizing i s with
  | zero => exact wp_pure (missing s h fun j low high => by omega)
  | succ n ih =>
    rw [lookupFrom]
    refine wp_seq (lists s i h (inside i (by omega) fun l low high => by omega)) ?_
    rintro _ t ⟨kept, rfl⟩
    dsimp only
    rw [if_neg (not_not.mpr rfl)]
    refine wp_ite (fun hit => ?_) fun miss => ?_
    · refine found i t kept (Nat.le_refl i) (by omega) ⟨hit.1, ?_⟩ fun j low high => by omega
      exact ((namecmp_eq_zero _ _).mp hit.2).symm
    · have not : ¬ Carries (entryOf bytes i) name := fun carries =>
        miss ⟨carries.1, (namecmp_eq_zero _ _).mpr carries.2.symm⟩
      have only (j : Nat) (low : i ≤ j) (rest : i + 1 ≤ j → ¬ Carries (entryOf bytes j) name) :
          ¬ Carries (entryOf bytes j) name := by
        rcases Nat.eq_or_lt_of_le low with rfl | later
        · exact not
        · exact rest later
      rw [← Nat.succ_mul]
      refine ih kept (fun j high none => ?_) (fun k t kept low high carries first => ?_) fun t kept none => ?_
      · exact inside j (by omega) fun l low high => only l low fun later => none l later high
      · exact found k t kept (by omega) (by omega) carries fun j low high => only j low fun later => first j later high
      · exact missing t kept fun j low high => only j low fun later => none j later (by omega)

end Lookup

end Xv6c.Fs

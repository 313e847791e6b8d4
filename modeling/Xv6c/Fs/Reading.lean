import Xv6c.Fs.Inode
import Xv6c.Fs.Places

/-! Reading a file by way of bmap: the loop of readi delivers the bytes of the file, if
bmap delivers its blocks. How bmap comes by them is left open here. -/
namespace Xv6c.Fs
open Lib

section Reading
variable {B : Type} {M : Mode FsEvent Fault} {I : Nat → FsState → Prop} {file : Nat → Block} {s : FsState}
  {bn ip off left limit n tot : Nat} {dst : Bytes}

theorem wp_bread_bind {b : Nat} {f : Block → FsM B} {Q : B → FsState → Prop} (inside : b < FSSIZE)
    (next : wp M (f (s.disk b)) Q s) : wp M (bread b >>= f) Q s := by
  unfold bread
  rw [if_neg (Nat.not_le.mpr inside)]
  exact wp_get_bind next

/- bmap finds the blocks of the file that begin below limit; I bn holds before block bn. -/
def Maps (M : Mode FsEvent Fault) (I : Nat → FsState → Prop) (ip : Nat) (file : Nat → Block) (limit : Nat) : Prop :=
  ∀ s bn, I bn s → bn * BSIZE < limit →
    wp M (bmap ip bn) (fun b t => I (bn + 1) t ∧ b < FSSIZE ∧ t.disk b = file bn) s

theorem wp_readLoop (maps : Maps M I ip file limit) (fuel : left ≤ n) (h : I bn s) (next : 0 < left → bn = off / BSIZE)
    (inside : off + left ≤ limit) :
    wp M (readLoop ip n off left tot dst) (fun out t =>
      (∃ bn, I bn t) ∧ out = copyIn dst tot left fun i => flat BSIZE file (off + i)) s := by
  induction n generalizing s bn off left tot dst with
  | zero =>
    obtain rfl : left = 0 := by omega
    exact wp_pure ⟨⟨bn, h⟩, (copyIn_zero dst).symm⟩
  | succ n ih =>
    rw [readLoop]
    refine wp_ite (fun none => ?_) fun some => ?_
    · subst none
      exact wp_pure ⟨⟨bn, h⟩, (copyIn_zero dst).symm⟩
    have split := Nat.div_add_mod' off BSIZE
    have partly : off % BSIZE < BSIZE := Nat.mod_lt _ (by decide)
    obtain rfl := next (by omega)
    refine wp_seq (maps s (off / BSIZE) h (by omega)) ?_
    rintro b t ⟨kept, below, block⟩
    refine wp_bread_bind below ?_
    rw [block]
    generalize piece : min left (BSIZE - off % BSIZE) = m
    have following : 0 < left - m → off / BSIZE + 1 = (off + m) / BSIZE := by
      intro more
      have whole : off + m = (off / BSIZE + 1) * BSIZE := by
        rw [Nat.add_mul]
        omega
      rw [whole, Nat.mul_div_cancel _ (by decide)]
    refine wp_mono (ih (by omega) kept following (by omega)) ?_
    rintro out u ⟨kept, rfl⟩
    refine ⟨kept, ?_⟩
    -- this piece, and what the rest of the loop puts behind it
    have here : copyIn dst tot m (fun i => file (off / BSIZE) (off % BSIZE + i)) =
        copyIn dst tot m fun i => flat BSIZE file (off + i) := by
      refine copyIn_congr fun i less => ?_
      have quotient : (off + i) / BSIZE = off / BSIZE := by
        refine Nat.div_eq_of_lt_le (by omega) ?_
        rw [Nat.succ_mul]
        omega
      have position : (off + i) % BSIZE = off % BSIZE + i := by
        have again := Nat.div_add_mod' (off + i) BSIZE
        rw [quotient] at again
        omega
      unfold flat
      rw [quotient, position]
    have rest : (fun i => flat BSIZE file (off + m + i)) = fun i => flat BSIZE file (off + (m + i)) :=
      funext fun i => congrArg _ (Nat.add_assoc _ _ _)
    have whole : copyIn (copyIn dst tot m fun i => flat BSIZE file (off + i)) (tot + m) (left - m)
        (fun i => flat BSIZE file (off + (m + i))) = copyIn dst tot (m + (left - m)) fun i => flat BSIZE file (off + i) :=
      copyIn_append dst m (left - m)
    rw [here, rest, whole, show m + (left - m) = left by omega]

/- The n bytes of f from off on. -/
def slice (f : Bytes) (off n : Nat) : Bytes := copyIn zeros 0 n fun i => f (off + i)

theorem slice_apply {f : Bytes} {i : Nat} (inside : i < n) : slice f off n i = f (off + i) := by
  unfold slice copyIn
  rw [if_pos (by omega), Nat.sub_zero]

theorem slice_congr {f g : Bytes} (same : ∀ i < n, f (off + i) = g (off + i)) : slice f off n = slice g off n :=
  copyIn_congr same

/- readi of bytes that a file has. -/
theorem wp_readi_inside (maps : Maps M I ip file limit) (h : I (off / BSIZE) s) (plain : (s.icache ip).d.type ≠ T_DEV)
    (fits : off + n ≤ (s.icache ip).d.size.toNat) (inside : off + n ≤ limit) :
    wp M (readi ip off n) (fun r t => (∃ bn, I bn t) ∧ r = ((n : Int), slice (flat BSIZE file) off n)) s := by
  have small := (s.icache ip).d.size.isLt
  unfold readi
  refine wp_get_bind ?_
  rw [if_neg plain, if_neg (by rw [Nat.mod_eq_of_lt (by omega)]; omega), if_neg (by omega)]
  refine wp_bind (wp_mono (wp_readLoop maps (Nat.le_refl n) h (fun _ => rfl) inside) ?_)
  rintro out t ⟨kept, rfl⟩
  exact wp_pure ⟨kept, rfl⟩

theorem readi_eq (plain : (s.icache ip).d.type ≠ T_DEV) (start : off ≤ (s.icache ip).d.size.toNat)
    (whole : off + n < 2 ^ 32) :
    readi ip off n s = (readLoop ip (min n ((s.icache ip).d.size.toNat - off)) off
      (min n ((s.icache ip).d.size.toNat - off)) 0 zeros >>= fun dst =>
        pure (((min n ((s.icache ip).d.size.toNat - off) : Nat) : Int), dst)) s := by
  have cutoff : (if (s.icache ip).d.size.toNat < off + n then (s.icache ip).d.size.toNat - off else n) =
      min n ((s.icache ip).d.size.toNat - off) := by
    split <;> omega
  unfold readi
  rw [Prog.get_bind, if_neg plain, if_neg (by rw [Nat.mod_eq_of_lt whole]; omega), cutoff]

/- A read past the end of a file is one up to its end. -/
theorem readi_min (plain : (s.icache ip).d.type ≠ T_DEV) (start : off ≤ (s.icache ip).d.size.toNat)
    (whole : off + n < 2 ^ 32) : readi ip off n s = readi ip off (min n ((s.icache ip).d.size.toNat - off)) s := by
  rw [readi_eq plain start whole, readi_eq plain start (by omega), Nat.min_assoc, Nat.min_self]

theorem readi_clamped (plain : (s.icache ip).d.type ≠ T_DEV) (start : off ≤ (s.icache ip).d.size.toNat)
    (whole : off + n < 2 ^ 32) (long : (s.icache ip).d.size.toNat ≤ off + n) :
    readi ip off n s = readi ip off ((s.icache ip).d.size.toNat - off) s := by
  rw [readi_min plain start whole, Nat.min_eq_right (by omega)]

end Reading

section Placed
variable {s : FsState} {ip bn n off : Nat}

theorem ends_bread (inside : n < FSSIZE) : Ends (bread n) s [] (s.disk n) s := by
  unfold bread
  rw [if_neg (Nat.not_le.mpr inside)]
  rfl

/- bmap of a block that is there. -/
theorem ends_bmap (below : bn < MAXFILE) (placed : placeOf s.disk (s.icache ip).d bn ≠ 0)
    (table : NDIRECT ≤ bn → placeOf s.disk (s.icache ip).d MAXFILE < FSSIZE) :
    Ends (bmap ip bn) s [] (placeOf s.disk (s.icache ip).d bn) s := by
  unfold bmap
  rw [ends_get_bind]
  by_cases direct : bn < NDIRECT
  · rw [placeOf_direct direct] at placed ⊢
    rw [if_pos direct]
    dsimp only
    rw [if_neg fun zero => placed (by rw [zero]; rfl)]
    rfl
  · have high := Nat.le_of_not_lt direct
    have some : (s.icache ip).d.addrs indirect ≠ 0 := fun zero => placed (by
      unfold placeOf
      rw [if_neg direct, if_pos below, if_pos zero])
    have entry : placeOf s.disk (s.icache ip).d bn =
        (word (s.disk (placeOf s.disk (s.icache ip).d MAXFILE)) (bn - NDIRECT)).toNat := placeOf_entry some high below
    have nonzero : word (s.disk (placeOf s.disk (s.icache ip).d MAXFILE)) (bn - NDIRECT) ≠ 0 := fun zero =>
      placed (by rw [entry, zero]; rfl)
    rw [if_neg direct, if_pos (by change bn - 12 < 128; change bn < 140 at below; omega)]
    dsimp only
    rw [if_neg some]
    refine Ends.seq (a := placeOf s.disk (s.icache ip).d MAXFILE) (u := s) rfl ((ends_bread (table high)).seq ?_)
    rw [if_neg nonzero, entry]
    rfl

/- readi of bytes whose blocks are all there. -/
theorem ends_readi (plain : (s.icache ip).d.type ≠ T_DEV) (fits : off + n ≤ (s.icache ip).d.size.toNat)
    (there : ∀ bn, off / BSIZE ≤ bn → bn * BSIZE < off + n → bn < MAXFILE ∧ placeOf s.disk (s.icache ip).d bn ≠ 0 ∧
      placeOf s.disk (s.icache ip).d bn < FSSIZE ∧
      (NDIRECT ≤ bn → placeOf s.disk (s.icache ip).d MAXFILE < FSSIZE)) :
    Ends (readi ip off n) s []
      ((n : Int), slice (flat BSIZE fun bn => s.disk (placeOf s.disk (s.icache ip).d bn)) off n) s := by
  have maps : Maps Mode.silent (fun bn t => t = s ∧ off / BSIZE ≤ bn) ip
      (fun bn => s.disk (placeOf s.disk (s.icache ip).d bn)) (off + n) := by
    rintro _ bn ⟨rfl, low⟩ inside
    obtain ⟨below, placed, disk, table⟩ := there bn low inside
    exact wp_of_quiet (ends_bmap below placed table) ⟨⟨rfl, by omega⟩, disk, rfl⟩
  obtain ⟨r, t, ends, ⟨_, rfl, _⟩, rfl⟩ := ends_of_silent (wp_readi_inside maps ⟨rfl, Nat.le_refl _⟩ plain fits (Nat.le_refl _))
  exact ends

/- The same as bytes of the file. -/
theorem slice_placed {disk : Nat → Block} {ino : Nat → Dinode} {i : Nat}
    (there : ∀ bn, off / BSIZE ≤ bn → bn * BSIZE < off + n → bn < MAXFILE ∧ place disk ino (i, bn) ≠ 0) :
    slice (flat BSIZE fun bn => disk (placeOf disk (ino i) bn)) off n = slice (fileByte disk ino i) off n := by
  refine slice_congr fun j less => ?_
  have start : (off + j) / BSIZE * BSIZE < off + n := by
    have := Nat.div_mul_le_self (off + j) BSIZE
    omega
  obtain ⟨below, placed⟩ := there _ (Nat.div_le_div_right (Nat.le_add_right off j)) start
  unfold fileByte flat
  rw [fileBlock_placed below placed]
  rfl

end Placed

end Xv6c.Fs

import Mathlib.Data.Nat.Digits.Lemmas
import Xv6c.User.Ulib

/-! itoa and atoi of ulib.c, and the names that diskbomb.c and schedtest.c make with them. itoa
writes no NUL behind its numeral. -/
namespace Xv6c.User
open Lib
open Function (update update_self update_of_ne)

def digitByte (i : BitVec 32) : Byte :=
  if i.toInt < 10 then (i + 48).setWidth 8 else (i + 97 - 10).setWidth 8

/- The loop that fills tmp, the last byte first, for the room that is left in tmp. -/
def itoaDigits (radix : BitVec 32) (room : Nat) (v : BitVec 32) (tmp : List Byte) : Option (List Byte) :=
  if v ≠ 0 ∨ tmp = [] then
    match room with
    | 0 => none
    | room + 1 => itoaDigits radix room (v / radix) (digitByte (v % radix) :: tmp)
  else some tmp

/- *sp++ = b for each byte. -/
def store (mem : Bytes) (sp : Nat) : List Byte → Bytes
  | [] => mem
  | b :: l => store (update mem sp b) (sp + 1) l

/- The length and the memory, unless the radix is zero or the digits overrun tmp. -/
def itoa (mem : Bytes) (value : BitVec 32) (sp : Nat) (radix : BitVec 32) : Option (Nat × Bytes) :=
  if radix = 0 then none
  else if radix = 10 ∧ value.toInt < 0 then
    (itoaDigits radix 16 (-value) []).map fun tmp => (tmp.length + 1, store mem sp (45 :: tmp))
  else (itoaDigits radix 16 value []).map fun tmp => (tmp.length, store mem sp tmp)

def atoi (mem : Bytes) : Nat → Nat → BitVec 32 → BitVec 32
  | 0, _, n => n
  | k + 1, s, n => if 48 ≤ mem s ∧ mem s ≤ 57 then atoi mem k (s + 1) (n * 10 + (mem s).setWidth 32 - 48) else n

/- diskbomb's names DB0, DB1, .. and schedtest's names Child:0, Child:1, .. -/
def setfilename (mem : Bytes) (filename : Nat) (i : BitVec 32) : Option Bytes :=
  (itoa (update (update mem filename 68) (filename + 1) 66) i (filename + 2) 10).map Prod.snd

def strcpy (mem : Bytes) (s : Nat) (t : List Byte) : Bytes := store mem s (t ++ [0])

def setchildname (mem : Bytes) (filename : Nat) (i : BitVec 32) : Option Bytes :=
  (itoa (strcpy mem filename [67, 104, 105, 108, 100, 58]) i (filename + 6) 10).map Prod.snd

/- The C string at s is l. -/
def CString (mem : Bytes) (s : Nat) (l : List Byte) : Prop := Reads mem s l ∧ 0 ∉ l ∧ mem (s + l.length) = 0

/- The decimal representation of a number, by its digits from the first one on. -/
def numeral (n : Nat) : List Nat := if n = 0 then [0] else (Nat.digits 10 n).reverse

def digits (ds : List Nat) : List Byte := ds.map fun d => BitVec.ofNat 8 (48 + d)

def decimal (v : Int) : List Byte := if v < 0 then 45 :: digits (numeral v.natAbs) else digits (numeral v.natAbs)

theorem numeral_eq (n : Nat) : numeral n = (Nat.digits 10 (n / 10)).reverse ++ [n % 10] := by
  unfold numeral
  split
  · rename_i zero
    subst zero
    rfl
  · rename_i some
    rw [Nat.digits_def' (by decide) (Nat.pos_of_ne_zero some), List.reverse_cons]

theorem numeral_lt {n d : Nat} (part : d ∈ numeral n) : d < 10 := by
  rw [numeral_eq, List.mem_append, List.mem_reverse, List.mem_singleton] at part
  rcases part with high | rfl
  · exact Nat.digits_lt_base (by decide) high
  · exact Nat.mod_lt _ (by decide)

theorem numeral_value (n : Nat) : (numeral n).foldl (fun a d => a * 10 + d) 0 = n := by
  have swap : (fun (d a : Nat) => a * 10 + d) = fun d a => d + 10 * a := by
    funext d a
    omega
  have high : (Nat.digits 10 (n / 10)).foldr (fun d a => d + 10 * a) 0 = n / 10 :=
    (Nat.ofDigits_eq_foldr 10 _).symm.trans (Nat.ofDigits_digits 10 _)
  rw [numeral_eq, List.foldl_append, List.foldl_reverse, swap, high]
  exact Nat.div_add_mod' n 10

theorem le_digit {n : Nat} {b : Byte} (part : b ∈ digits (numeral n)) : 48 ≤ b.toNat := by
  obtain ⟨d, inside, rfl⟩ := List.mem_map.mp part
  have small := numeral_lt inside
  rw [BitVec.toNat_ofNat]
  omega

theorem decimal_nonzero (v : Int) : 0 ∉ decimal v := by
  intro zero
  unfold decimal at zero
  split at zero
  · rcases List.mem_cons.mp zero with sign | part
    · exact nomatch sign
    · exact absurd (le_digit part) (by decide)
  · exact absurd (le_digit zero) (by decide)

theorem digits_injective {a b : Nat} (same : digits (numeral a) = digits (numeral b)) : a = b := by
  have value (n : Nat) : ((digits (numeral n)).map fun b => b.toNat - 48).foldl (fun a d => a * 10 + d) 0 = n := by
    rw [digits, List.map_map, List.map_congr_left fun d part => ?_, List.map_id', numeral_value]
    have small := numeral_lt part
    simp
    omega
  rw [← value a, same, value]

theorem decimal_injective {i j : Int} (same : decimal i = decimal j) : i = j := by
  have signed {n m : Nat} (other : 45 :: digits (numeral n) = digits (numeral m)) : False :=
    absurd (le_digit (other ▸ List.mem_cons_self)) (by decide)
  unfold decimal at same
  split_ifs at same
  · have size := digits_injective (List.cons.inj same).2
    omega
  · exact (signed same).elim
  · exact (signed same.symm).elim
  · have size := digits_injective same
    omega

theorem digitByte_eq {i : BitVec 32} (small : i.toNat < 10) : digitByte i = BitVec.ofNat 8 (48 + i.toNat) := by
  have signed : i.toInt = i.toNat := by
    rw [BitVec.toInt_eq_toNat_cond, if_pos (by omega)]
  unfold digitByte
  rw [if_pos (by omega)]
  refine BitVec.eq_of_toNat_eq ?_
  rw [BitVec.toNat_setWidth, BitVec.toNat_add, BitVec.toNat_ofNat, show (48 : BitVec 32).toNat = 48 from rfl]
  omega

section Loops
variable {mem : Bytes} {sp : Nat} {l : List Byte}

theorem itoaDigits_eq {v : BitVec 32} {room : Nat} {tmp : List Byte} (fits : v.toNat < 10 ^ room) (some : tmp ≠ []) :
    itoaDigits 10 room v tmp = Option.some (digits (Nat.digits 10 v.toNat).reverse ++ tmp) := by
  induction room generalizing v tmp with
  | zero =>
    obtain rfl : v = 0 := BitVec.eq_of_toNat_eq (Nat.lt_one_iff.mp fits)
    simp [itoaDigits, some, digits]
  | succ room ih =>
    unfold itoaDigits
    split
    · rename_i more
      have positive : 0 < v.toNat := Nat.pos_of_ne_zero fun zero =>
        more.elim (fun h => h (BitVec.eq_of_toNat_eq zero)) fun h => some h
      have quotient : (v / 10).toNat = v.toNat / 10 := rfl
      have last : digitByte (v % 10) = BitVec.ofNat 8 (48 + v.toNat % 10) := digitByte_eq (Nat.mod_lt _ (by decide))
      dsimp only
      rw [ih (by rw [quotient]; omega) (List.cons_ne_nil _ _), last, quotient, Nat.digits_def' (by decide) positive]
      simp [digits]
    · rename_i done
      obtain rfl : v = 0 := by tauto
      simp [digits]

theorem store_outside {j : Nat} (outside : j < sp ∨ sp + l.length ≤ j) : store mem sp l j = mem j := by
  induction l generalizing mem sp with
  | nil => rfl
  | cons b l ih =>
    rw [List.length_cons] at outside
    unfold store
    rw [ih (by omega), update_of_ne (by omega)]

theorem reads_store (mem : Bytes) (sp : Nat) (l : List Byte) : Reads (store mem sp l) sp l := by
  induction l generalizing mem sp with
  | nil => trivial
  | cons b l ih => exact ⟨(store_outside (Or.inl (Nat.lt_succ_self sp))).trans (update_self _ _ _), ih _ _⟩

theorem cstring_store (text : 0 ∉ l) : CString (store mem sp l) sp l ↔ mem (sp + l.length) = 0 := by
  unfold CString
  rw [store_outside (Or.inr (Nat.le_refl _))]
  exact ⟨fun h => h.2.2, fun nul => ⟨reads_store mem sp l, text, nul⟩⟩

end Loops

theorem itoaDigits_numeral (v : BitVec 32) : itoaDigits 10 16 v [] = some (digits (numeral v.toNat)) := by
  have last : digitByte (v % 10) = BitVec.ofNat 8 (48 + v.toNat % 10) := digitByte_eq (Nat.mod_lt _ (by decide))
  have size : (v / 10).toNat < 10 ^ 15 := by
    have := v.isLt
    change v.toNat / 10 < _
    omega
  unfold itoaDigits
  rw [if_pos (Or.inr rfl)]
  dsimp only
  rw [itoaDigits_eq size (List.cons_ne_nil _ _), last, numeral_eq]
  simp [digits]

theorem itoa_ten (mem : Bytes) (v : BitVec 32) (sp : Nat) :
    itoa mem v sp 10 = some ((decimal v.toInt).length, store mem sp (decimal v.toInt)) := by
  unfold itoa decimal
  rw [if_neg (by decide)]
  by_cases negative : v.toInt < 0
  · have size : (-v).toNat = v.toInt.natAbs := by
      rw [BitVec.toNat_neg]
      rw [BitVec.toInt_eq_toNat_cond] at *
      have := v.isLt
      split at * <;> omega
    rw [if_pos ⟨rfl, negative⟩, if_pos negative, itoaDigits_numeral, size]
    rfl
  · have size : v.toNat = v.toInt.natAbs := by
      rw [BitVec.toInt_eq_toNat_cond] at *
      have := v.isLt
      split at * <;> omega
    rw [if_neg fun h => negative h.2, if_neg negative, itoaDigits_numeral, size]
    rfl

theorem atoi_digits {mem : Bytes} {ds : List Nat} {s k a : Nat} (small : ∀ d ∈ ds, d < 10)
    (reads : Reads mem s (digits ds)) (nul : mem (s + ds.length) = 0) (enough : ds.length < k) :
    atoi mem k s (BitVec.ofNat 32 a) = BitVec.ofNat 32 (ds.foldl (fun a d => a * 10 + d) a) := by
  induction ds generalizing s k a with
  | nil =>
    cases k with
    | zero => rfl
    | succ k =>
      unfold atoi
      rw [show mem s = 0 from nul]
      rfl
  | cons d ds ih =>
    cases k with
    | zero => exact absurd enough (Nat.not_lt_zero _)
    | succ k =>
      have digit := small d List.mem_cons_self
      have byte : (BitVec.ofNat 8 (48 + d)).toNat = 48 + d := by rw [BitVec.toNat_ofNat]; omega
      rw [List.length_cons] at nul enough
      have wide : (BitVec.ofNat 8 (48 + d)).setWidth 32 = BitVec.ofNat 32 (48 + d) :=
        BitVec.eq_of_toNat_eq (by rw [BitVec.toNat_setWidth, byte, BitVec.toNat_ofNat])
      have next : BitVec.ofNat 32 a * 10 + BitVec.ofNat 32 (48 + d) - 48 = BitVec.ofNat 32 (a * 10 + d) := by
        rw [BitVec.ofNat_add, BitVec.ofNat_add, BitVec.ofNat_mul, BitVec.add_comm 48#32, ← BitVec.add_assoc]
        exact BitVec.add_sub_cancel _ _
      have inside : 48 ≤ BitVec.ofNat 8 (48 + d) ∧ BitVec.ofNat 8 (48 + d) ≤ 57 := by
        rw [BitVec.le_def, BitVec.le_def, byte]
        exact ⟨Nat.le_add_right _ _, Nat.add_le_add_left (Nat.le_of_lt_succ digit) 48⟩
      unfold atoi
      rw [reads.1, if_pos inside, wide, next]
      refine ih (fun e part => small e (List.mem_cons_of_mem d part)) reads.2 ?_ (by omega)
      rwa [Nat.add_right_comm]

theorem atoi_decimal {mem : Bytes} {v : BitVec 32} {s k : Nat} (positive : 0 ≤ v.toInt)
    (string : CString mem s (decimal v.toInt)) (enough : (decimal v.toInt).length < k) : atoi mem k s 0 = v := by
  obtain ⟨reads, -, nul⟩ := string
  unfold decimal at *
  rw [if_neg (Int.not_lt.mpr positive)] at *
  rw [digits, List.length_map] at nul enough
  rw [show (0 : BitVec 32) = BitVec.ofNat 32 0 from rfl, atoi_digits (fun _ => numeral_lt) reads nul enough,
    numeral_value]
  refine BitVec.eq_of_toNat_eq ?_
  rw [BitVec.toInt_eq_toNat_cond] at *
  have := v.isLt
  rw [BitVec.toNat_ofNat]
  split at * <;> omega

/- A name: a head that the buffer has already, then the number. -/
theorem cstring_name {mem : Bytes} {p : Nat} {head : List Byte} {i : BitVec 32} (reads : Reads mem p head)
    (text : 0 ∉ head) (nul : mem (p + head.length + (decimal i.toInt).length) = 0) :
    CString (store mem (p + head.length) (decimal i.toInt)) p (head ++ decimal i.toInt) := by
  refine ⟨reads_append.mpr ⟨reads.congr fun j low high => store_outside (Or.inl high), reads_store _ _ _⟩, ?_, ?_⟩
  · exact fun zero => (List.mem_append.mp zero).elim text (decimal_nonzero _)
  · rw [List.length_append, ← Nat.add_assoc, store_outside (Or.inr (Nat.le_refl _)), nul]

theorem setfilename_string {mem : Bytes} {p : Nat} {i : BitVec 32} (nul : mem (p + 2 + (decimal i.toInt).length) = 0) :
    ∃ r, setfilename mem p i = some r ∧ CString r p ([68, 66] ++ decimal i.toInt) := by
  unfold setfilename
  rw [itoa_ten]
  refine ⟨_, rfl, cstring_name (reads_store mem p [68, 66]) (by decide) ?_⟩
  rwa [store_outside (Or.inr (Nat.le_add_right _ _))]

theorem decimal_some (v : Int) : 0 < (decimal v).length := by
  unfold decimal
  split
  · exact Nat.succ_pos _
  · rw [digits, numeral_eq, List.length_map, List.length_append]
    exact Nat.succ_pos _

theorem setchildname_string {mem : Bytes} {p : Nat} {i : BitVec 32} (nul : mem (p + 6 + (decimal i.toInt).length) = 0) :
    ∃ r, setchildname mem p i = some r ∧ CString r p ([67, 104, 105, 108, 100, 58] ++ decimal i.toInt) := by
  have digits := decimal_some i.toInt
  unfold setchildname strcpy
  rw [itoa_ten]
  refine ⟨_, rfl, cstring_name (reads_append.mp (reads_store mem p _)).1 (by decide) ?_⟩
  -- the NUL of strcpy is overwritten by the first digit
  rwa [store_outside (Or.inr (by change p + 7 ≤ p + 6 + _; omega))]

/-- itoa writes the decimal numeral and returns its length; the C string at sp is the numeral, and
atoi reads it back, just when the byte behind it was a NUL before. Then names differ. -/
theorem itoa_numeral (mem mem₂ : Bytes) (v w : BitVec 32) (sp q : Nat) :
    (∃ mem', itoa mem v sp 10 = some ((decimal v.toInt).length, mem') ∧
      (CString mem' sp (decimal v.toInt) ∧
          (0 ≤ v.toInt → ∀ k, (decimal v.toInt).length < k → atoi mem' k sp 0 = v) ↔
        mem (sp + (decimal v.toInt).length) = 0)) ∧
    ∀ name ∈ [(setfilename, 2), (setchildname, 6)], v ≠ w →
      mem (sp + name.2 + (decimal v.toInt).length) = 0 → mem₂ (q + name.2 + (decimal w.toInt).length) = 0 →
      ∃ r₁ r₂ a b, name.1 mem sp v = some r₁ ∧ name.1 mem₂ q w = some r₂ ∧ CString r₁ sp a ∧ CString r₂ q b ∧ a ≠ b := by
  have apart (other : v ≠ w) (head : List Byte) : head ++ decimal v.toInt ≠ head ++ decimal w.toInt :=
    fun same => other (BitVec.eq_of_toInt_eq (decimal_injective (List.append_cancel_left same)))
  refine ⟨⟨_, itoa_ten mem v sp, ?_⟩, fun name known other first second => ?_⟩
  · rw [cstring_store (decimal_nonzero _)]
    refine ⟨fun h => h.1, fun nul => ⟨nul, fun positive k => atoi_decimal positive ?_⟩⟩
    exact (cstring_store (decimal_nonzero _)).mpr nul
  · rcases List.mem_pair.mp known with rfl | rfl
    · obtain ⟨r₁, done, one⟩ := setfilename_string first
      obtain ⟨r₂, also, two⟩ := setfilename_string second
      exact ⟨r₁, r₂, _, _, done, also, one, two, apart other _⟩
    · obtain ⟨r₁, done, one⟩ := setchildname_string first
      obtain ⟨r₂, also, two⟩ := setchildname_string second
      exact ⟨r₁, r₂, _, _, done, also, one, two, apart other _⟩

/- A buffer with the byte 0 behind: itoa of 1 leaves the string 10 there, and diskbomb's files 1
and 10 have one name. -/
theorem itoa_unterminated :
    (∃ mem', itoa (fun j => if j = 1 then 48 else 0) 1 0 10 = some (1, mem') ∧ CString mem' 0 [49, 48] ∧
      atoi mem' 3 0 0 = 10) ∧
    ∃ r₁ r₂, setfilename (fun j => if j = 3 then 48 else 0) 0 1 = some r₁ ∧ setfilename (fun _ => 0) 0 10 = some r₂ ∧
      CString r₁ 0 [68, 66, 49, 48] ∧ CString r₂ 0 [68, 66, 49, 48] := by
  refine ⟨⟨_, rfl, ⟨⟨rfl, rfl, trivial⟩, by decide, rfl⟩, rfl⟩, _, _, rfl, rfl, ?_, ?_⟩
  · exact ⟨⟨rfl, rfl, rfl, rfl, trivial⟩, by decide, rfl⟩
  · exact ⟨⟨rfl, rfl, rfl, rfl, trivial⟩, by decide, rfl⟩

end Xv6c.User

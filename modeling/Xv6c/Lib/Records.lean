import Mathlib.Data.List.Basic
import Xv6c.Lib.Bytes

/-! Records at byte offsets of a buffer, and arrays that are filled with them from the front.
What is not filled reads as an empty record. -/
namespace Xv6c.Lib

/- The size bytes from off on are zero. -/
def Blank (f : Bytes) (off size : Nat) : Prop := ∀ i, off ≤ i → i < off + size → f i = 0

/- How an A is written to size bytes of a buffer, and the V that is read there. The values in
fits are those that the bytes have room for; offsets are multiples of a word. -/
structure Record (A V : Type) where
  size : Nat
  put : Bytes → Nat → A → Bytes
  get : Bytes → Nat → V
  view : A → V
  empty : V
  fits : A → Prop
  words : 4 ∣ size
  outside : ∀ f off a i, fits a → 4 ∣ off → i < off ∨ off + size ≤ i → put f off a i = f i
  within : ∀ f g off, 4 ∣ off → (∀ i, off ≤ i → i < off + size → f i = g i) → get f off = get g off
  reads : ∀ f off a, fits a → 4 ∣ off → Blank f off size → get (put f off a) off = view a
  blank : ∀ f off, 4 ∣ off → Blank f off size → get f off = empty

namespace Record
variable {A V : Type} (r : Record A V) {f : Bytes} {off : Nat} {as : List A}

def putAll (f : Bytes) (off : Nat) : List A → Bytes
  | [] => f
  | a :: as => putAll (r.put f off a) (off + r.size) as

def getAll (f : Bytes) (off n : Nat) : List V := (List.range n).map fun l => r.get f (off + l * r.size)

/- A loop over the elements with their index. -/
theorem foldl_zipIdx (base n : Nat) :
    (as.zipIdx n).foldl (fun f (a, l) => r.put f (base + l * r.size) a) f = r.putAll f (base + n * r.size) as := by
  induction as generalizing f n with
  | nil => rfl
  | cons a as ih =>
    rw [List.zipIdx_cons, List.foldl_cons, ih, Nat.add_mul, Nat.one_mul, ← Nat.add_assoc]
    rfl

theorem next_word (word : 4 ∣ off) : 4 ∣ off + r.size := (Nat.dvd_add_right word).mpr r.words

theorem putAll_outside (fits : ∀ a ∈ as, r.fits a) (word : 4 ∣ off) {i : Nat} (beside : i < off ∨ off + as.length * r.size ≤ i) :
    r.putAll f off as i = f i := by
  induction as generalizing f off with
  | nil => rfl
  | cons a as ih =>
    rw [List.length_cons, Nat.add_mul, Nat.one_mul] at beside
    have here := r.outside f off a i (fits a List.mem_cons_self) word (by omega)
    rw [← here]
    exact ih (fun b member => fits b (List.mem_cons_of_mem _ member)) (r.next_word word) (by omega)

theorem getAll_cons (f : Bytes) (off n : Nat) :
    r.getAll f off (n + 1) = r.get f off :: r.getAll f (off + r.size) n := by
  unfold getAll
  rw [List.range_succ_eq_map, List.map_cons, List.map_map, Nat.zero_mul, Nat.add_zero]
  congr 1
  refine List.map_congr_left fun l _ => ?_
  rw [Function.comp_apply, Nat.succ_mul, Nat.add_assoc, Nat.add_comm (l * r.size)]

theorem getAll_blank {n : Nat} (word : 4 ∣ off) (clear : Blank f off (n * r.size)) :
    r.getAll f off n = List.replicate n r.empty := by
  induction n generalizing off with
  | zero => rfl
  | succ n ih =>
    rw [Nat.add_mul, Nat.one_mul] at clear
    rw [getAll_cons, List.replicate_succ, r.blank f off word fun i low high => clear i low (by omega),
      ih (r.next_word word) fun i low high => clear i (by omega) (by omega)]

/- The array reads as its elements, and as empty records behind them. -/
theorem getAll_putAll {n : Nat} (fits : ∀ a ∈ as, r.fits a) (room : as.length ≤ n) (word : 4 ∣ off)
    (clear : Blank f off (n * r.size)) :
    r.getAll (r.putAll f off as) off n = as.map r.view ++ List.replicate (n - as.length) r.empty := by
  induction as generalizing f off n with
  | nil => exact r.getAll_blank word clear
  | cons a as ih =>
    have first := fits a List.mem_cons_self
    have rest : ∀ b ∈ as, r.fits b := fun b member => fits b (List.mem_cons_of_mem _ member)
    rw [List.length_cons] at room
    obtain ⟨m, rfl⟩ : ∃ m, n = m + 1 := ⟨n - 1, by omega⟩
    rw [Nat.add_mul, Nat.one_mul] at clear
    have front : r.get (r.putAll f off (a :: as)) off = r.view a := by
      rw [← r.reads f off a first word fun i low high => clear i low (by omega)]
      exact r.within _ _ _ word fun i low high => r.putAll_outside rest (r.next_word word) (Or.inl (by omega))
    have behind : Blank (r.put f off a) (off + r.size) (m * r.size) := by
      intro i low high
      rw [r.outside f off a i first word (by omega)]
      exact clear i (by omega) (by omega)
    rw [getAll_cons, front, List.map_cons, List.length_cons, Nat.add_sub_add_right, List.cons_append]
    exact congrArg _ (ih rest (by omega) (r.next_word word) behind)

/- A reader that skips the empty records finds the elements. -/
theorem filter_getAll {n : Nat} {used : V → Bool} (fits : ∀ a ∈ as, r.fits a) (room : as.length ≤ n) (word : 4 ∣ off)
    (clear : Blank f off (n * r.size)) (all : ∀ a ∈ as, used (r.view a) = true) (none : used r.empty = false) :
    (r.getAll (r.putAll f off as) off n).filter used = as.map r.view := by
  rw [r.getAll_putAll fits room word clear, List.filter_append, List.filter_replicate, none]
  simp only [Bool.false_eq_true, if_false, List.append_nil]
  refine List.filter_eq_self.mpr fun v member => ?_
  obtain ⟨a, listed, rfl⟩ := List.mem_map.mp member
  exact all a listed

end Record

end Xv6c.Lib

import Mathlib.Computability.Language
import Xv6c.Lib.Bytes

/-! The matcher of grep.c, against the language that a pattern stands for. A string is the
list of the bytes before its NUL, and a pointer into it is the list from there on. -/
namespace Xv6c.Grep
open Lib Computability

def caret : Byte := 94
def dollar : Byte := 36
def period : Byte := 46
def asterisk : Byte := 42

mutual

/- Search for re at the beginning of text. -/
def matchhere (re text : List Byte) : Bool :=
  match re with
  | [] => true
  | c :: re =>
    if re.head? = some asterisk then matchstar c re.tail text
    else if c = dollar ∧ re = [] then text.isEmpty
    else
      match text with
      | [] => false
      | t :: text => if c = period ∨ c = t then matchhere re text else false
termination_by (re.length, text.length, 0)
decreasing_by
  · simp only [List.length_cons, List.length_tail]
    exact Prod.Lex.left _ _ (by omega)
  · exact Prod.Lex.left _ _ (Nat.lt_succ_self _)

/- Search for c*re at the beginning of text: one round of the loop for each byte of text. -/
def matchstar (c : Byte) (re text : List Byte) : Bool :=
  if matchhere re text then true
  else
    match text with
    | [] => false
    | t :: text => if t = c ∨ c = period then matchstar c re text else false
termination_by (re.length, text.length, 1)
decreasing_by
  · exact Prod.Lex.right _ (Prod.Lex.right _ Nat.zero_lt_one)
  · exact Prod.Lex.right _ (Prod.Lex.left _ _ (Nat.lt_succ_self _))

end

/- The loop of match, which looks at the empty end of text too. -/
def matchFrom (re : List Byte) : List Byte → Bool
  | [] => matchhere re []
  | t :: text => if matchhere re (t :: text) then true else matchFrom re text

/- match -/
def matchRe (re text : List Byte) : Bool :=
  if re.head? = some caret then matchhere re.tail text else matchFrom re text

/- The elements of a pattern behind its anchor: a character, or a character with a star. -/
inductive Element where
  | one (c : Byte)
  | many (c : Byte)

/- The elements, and whether the pattern is anchored at the end. -/
def elements : List Byte → List Element × Bool
  | [] => ([], false)
  | [c] => if c = dollar then ([], true) else ([.one c], false)
  | c :: d :: re =>
    if d = asterisk then (.many c :: (elements re).1, (elements re).2)
    else (.one c :: (elements (d :: re)).1, (elements (d :: re)).2)

/- The words of one character: any character for a period, else the character itself. -/
def letter (c : Byte) : Language Byte := {w | ∃ t, (c = period ∨ t = c) ∧ w = [t]}

def Element.words : Element → Language Byte
  | .one c => letter c
  | .many c => (letter c)∗

def words (es : List Element) : Language Byte := (es.map Element.words).prod

section Languages
variable {c : Byte} {es : List Element} {w : List Byte}

theorem mem_words_nil : w ∈ words [] ↔ w = [] := by
  change w ∈ (1 : Language Byte) ↔ w = []
  exact Language.mem_one w

theorem mem_words_cons {e : Element} : w ∈ words (e :: es) ↔ ∃ u ∈ e.words, ∃ v ∈ words es, u ++ v = w := by
  change w ∈ e.words * words es ↔ _
  exact Language.mem_mul

theorem mem_many : w ∈ (letter c)∗ ↔ ∀ t ∈ w, c = period ∨ t = c := by
  rw [Language.mem_kstar]
  constructor
  · rintro ⟨parts, rfl, single⟩ t inside
    obtain ⟨part, member, inside⟩ := List.mem_flatten.mp inside
    obtain ⟨u, matching, rfl⟩ := single part member
    obtain rfl := List.mem_singleton.mp inside
    exact matching
  · intro all
    refine ⟨w.map fun t => [t], ?_, fun part member => ?_⟩
    · induction w with
      | nil => rfl
      | cons t w ih =>
        have rest := ih fun u inside => all u (List.mem_cons_of_mem _ inside)
        rw [List.map_cons, List.flatten_cons, ← rest]
        rfl
    · obtain ⟨t, inside, rfl⟩ := List.mem_map.mp member
      exact ⟨t, all t inside, rfl⟩

end Languages

section Matcher
variable {c : Byte} {re text : List Byte}

theorem matchhere_nil (text : List Byte) : matchhere [] text = true := by rw [matchhere.eq_def]

theorem matchhere_many (c : Byte) (re text : List Byte) :
    matchhere (c :: asterisk :: re) text = matchstar c re text := by
  rw [matchhere.eq_def]
  exact if_pos rfl

theorem matchhere_end (text : List Byte) : matchhere [dollar] text = text.isEmpty := by
  rw [matchhere.eq_def]
  dsimp only
  rw [if_neg (by decide), if_pos ⟨rfl, rfl⟩]

theorem matchhere_one (plain : re.head? ≠ some asterisk) (inside : ¬ (c = dollar ∧ re = [])) :
    matchhere (c :: re) text = true ↔ ∃ t rest, text = t :: rest ∧ (c = period ∨ t = c) ∧ matchhere re rest = true := by
  rw [matchhere.eq_def]
  dsimp only
  rw [if_neg plain, if_neg inside]
  cases text with
  | nil => exact iff_of_false Bool.false_ne_true fun ⟨_, _, wrong, _⟩ => nomatch wrong
  | cons t text =>
    dsimp only
    constructor
    · intro found
      split at found
      · rename_i same
        exact ⟨t, text, rfl, same.imp_right Eq.symm, found⟩
      · exact absurd found Bool.false_ne_true
    · rintro ⟨_, _, split, same, found⟩
      obtain ⟨rfl, rfl⟩ := List.cons.inj split
      rw [if_pos (same.imp_right Eq.symm)]
      exact found

/- The loop of matchstar: by induction on text, over the bytes that the star takes. -/
theorem matchstar_iff : matchstar c re text = true ↔
    ∃ w rest, text = w ++ rest ∧ w ∈ (letter c)∗ ∧ matchhere re rest = true := by
  induction text with
  | nil =>
    rw [matchstar]
    constructor
    · intro found
      split at found
      · rename_i here
        exact ⟨[], [], rfl, Language.nil_mem_kstar _, here⟩
      · exact absurd found Bool.false_ne_true
    · rintro ⟨w, rest, split, -, here⟩
      obtain ⟨-, rfl⟩ := List.append_eq_nil_iff.mp split.symm
      rw [if_pos here]
  | cons t text ih =>
    rw [matchstar]
    constructor
    · intro found
      split at found
      · rename_i here
        exact ⟨[], t :: text, rfl, Language.nil_mem_kstar _, here⟩
      · split at found
        · rename_i same
          obtain ⟨w, rest, rfl, many, here⟩ := ih.mp found
          refine ⟨t :: w, rest, rfl, mem_many.mpr fun u inside => ?_, here⟩
          rcases List.mem_cons.mp inside with rfl | inside
          · exact same.symm
          · exact mem_many.mp many u inside
        · exact absurd found Bool.false_ne_true
    · rintro ⟨w, rest, split, many, here⟩
      cases w with
      | nil =>
        obtain rfl := split
        rw [if_pos here]
      | cons u w =>
        obtain ⟨rfl, rfl⟩ := List.cons.inj split
        have first := mem_many.mp many t List.mem_cons_self
        have others : w ∈ (letter c)∗ := mem_many.mpr fun u inside => mem_many.mp many u (List.mem_cons_of_mem _ inside)
        split
        · rfl
        · rw [if_pos first.symm]
          exact ih.mpr ⟨w, rest, rfl, others, here⟩

/- An element and what follows it. -/
theorem element_then {e : Element} {es : List Element} {found : List Byte → Prop} {last : List Byte → Prop}
    (rest_iff : ∀ text, found text ↔ ∃ w rest, text = w ++ rest ∧ w ∈ words es ∧ last rest) :
    (∃ u rest, text = u ++ rest ∧ u ∈ e.words ∧ found rest) ↔
      ∃ w rest, text = w ++ rest ∧ w ∈ words (e :: es) ∧ last rest := by
  constructor
  · rintro ⟨u, _, rfl, first, others⟩
    obtain ⟨v, rest, rfl, second, ended⟩ := (rest_iff _).mp others
    exact ⟨u ++ v, rest, (List.append_assoc u v rest).symm, mem_words_cons.mpr ⟨u, first, v, second, rfl⟩, ended⟩
  · rintro ⟨_, rest, rfl, inside, ended⟩
    obtain ⟨u, first, v, second, rfl⟩ := mem_words_cons.mp inside
    exact ⟨u, v ++ rest, List.append_assoc u v rest, first, (rest_iff _).mpr ⟨v, rest, rfl, second, ended⟩⟩

theorem one_then {found : List Byte → Prop} :
    (∃ t rest, text = t :: rest ∧ (c = period ∨ t = c) ∧ found rest) ↔
      ∃ u rest, text = u ++ rest ∧ u ∈ (Element.one c).words ∧ found rest := by
  constructor
  · rintro ⟨t, rest, rfl, same, others⟩
    exact ⟨[t], rest, rfl, ⟨t, same, rfl⟩, others⟩
  · rintro ⟨_, rest, rfl, ⟨t, same, rfl⟩, others⟩
    exact ⟨t, rest, rfl, same, others⟩

/- A prefix of text is in the language of the elements, and all of text if they are anchored. -/
theorem matchhere_iff : matchhere re text = true ↔ ∃ w rest, text = w ++ rest ∧ w ∈ words (elements re).1 ∧
    ((elements re).2 = true → rest = []) := by
  induction re using elements.induct generalizing text with
  | case1 =>
    rw [matchhere_nil]
    exact iff_of_true rfl ⟨[], text, rfl, mem_words_nil.mpr rfl, fun wrong => absurd wrong Bool.false_ne_true⟩
  | case2 =>
    rw [matchhere_end, elements, if_pos rfl, List.isEmpty_iff]
    constructor
    · rintro rfl
      exact ⟨[], [], rfl, mem_words_nil.mpr rfl, fun _ => rfl⟩
    · rintro ⟨w, rest, rfl, empty, last⟩
      rw [mem_words_nil.mp empty, last rfl]
      rfl
  | case3 c other =>
    have single : elements [c] = ([.one c], false) := if_neg other
    rw [matchhere_one (by decide) fun same => other same.1, single, one_then]
    refine element_then fun text => ?_
    rw [matchhere_nil]
    exact iff_of_true rfl ⟨[], text, rfl, mem_words_nil.mpr rfl, fun wrong => absurd wrong Bool.false_ne_true⟩
  | case4 c re ih =>
    have first : elements (c :: asterisk :: re) = (.many c :: (elements re).1, (elements re).2) := if_pos rfl
    rw [matchhere_many, matchstar_iff, first]
    exact element_then (e := .many c) fun _ => ih
  | case5 c d re other ih =>
    have plain : (d :: re).head? ≠ some asterisk := fun same => other (Option.some.inj same)
    have first : elements (c :: d :: re) = (.one c :: (elements (d :: re)).1, (elements (d :: re)).2) := if_neg other
    rw [matchhere_one plain (fun same => nomatch same.2), first, one_then]
    exact element_then fun _ => ih

theorem matchFrom_iff : matchFrom re text = true ↔ ∃ pre rest, text = pre ++ rest ∧ matchhere re rest = true := by
  induction text with
  | nil =>
    constructor
    · exact fun found => ⟨[], [], rfl, found⟩
    · rintro ⟨pre, rest, split, found⟩
      obtain ⟨-, rfl⟩ := List.append_eq_nil_iff.mp split.symm
      exact found
  | cons t text ih =>
    unfold matchFrom
    constructor
    · intro found
      split at found
      · rename_i here
        exact ⟨[], t :: text, rfl, here⟩
      · obtain ⟨pre, rest, rfl, here⟩ := ih.mp found
        exact ⟨t :: pre, rest, rfl, here⟩
    · rintro ⟨pre, rest, split, here⟩
      cases pre with
      | nil =>
        obtain rfl := split
        rw [if_pos here]
      | cons u pre =>
        obtain ⟨rfl, rfl⟩ := List.cons.inj split
        split
        · rfl
        · exact ih.mpr ⟨pre, rest, rfl, here⟩

end Matcher

/- A pattern: whether it is anchored at the start, and what stands behind the anchor. -/
def anchored (re : List Byte) : Bool := re.head? = some caret
def body (re : List Byte) : List Byte := if anchored re then re.tail else re

/-- match finds exactly the texts with a part in the language of the pattern: a prefix if the
pattern is anchored at the start, a suffix if it is anchored at the end. -/
theorem matchRe_iff (re text : List Byte) : matchRe re text = true ↔
    ∃ pre w rest, text = pre ++ w ++ rest ∧ w ∈ words (elements (body re)).1 ∧ (anchored re = true → pre = []) ∧
      ((elements (body re)).2 = true → rest = []) := by
  unfold matchRe body anchored
  by_cases start : re.head? = some caret
  · rw [if_pos start, if_pos (decide_eq_true start), matchhere_iff]
    constructor
    · rintro ⟨w, rest, rfl, inside, ended⟩
      exact ⟨[], w, rest, rfl, inside, fun _ => rfl, ended⟩
    · rintro ⟨pre, w, rest, rfl, inside, first, ended⟩
      obtain rfl := first (decide_eq_true start)
      exact ⟨w, rest, rfl, inside, ended⟩
  · rw [if_neg start, if_neg (fun same => start (of_decide_eq_true same)), matchFrom_iff]
    constructor
    · rintro ⟨pre, _, rfl, found⟩
      obtain ⟨w, rest, rfl, inside, ended⟩ := matchhere_iff.mp found
      exact ⟨pre, w, rest, (List.append_assoc pre w rest).symm, inside,
        fun same => absurd (of_decide_eq_true same) start, ended⟩
    · rintro ⟨pre, w, rest, rfl, inside, -, ended⟩
      exact ⟨pre, w ++ rest, List.append_assoc pre w rest, matchhere_iff.mpr ⟨w, rest, rfl, inside, ended⟩⟩

end Xv6c.Grep

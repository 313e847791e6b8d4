import Xv6c.Grep.Match
import Xv6c.User.Ulib

/-! The loop of grep over its buffer, for every way in which read delivers the input. -/
namespace Xv6c.Grep
open Lib User
open Function (update update_self update_of_ne)

def newline : Byte := 10

/- sizeof(buf) -/
def bufSize : Nat := 1024

/- buf, m, and what was written to file descriptor 1. -/
structure State where
  buf : Bytes
  m : Nat
  out : List Byte

/- The loop over the lines of the buffer, for at most n lines, from p on. -/
def linesLoop (pattern : List Byte) : Nat → Bytes → Nat → List Byte → Bytes × Nat × List Byte
  | 0, buf, p, out => (buf, p, out)
  | n + 1, buf, p, out =>
    match strchr buf newline (bufSize - p) p with
    | none => (buf, p, out)
    | some q =>
      let buf := update buf q 0
      if matchRe pattern (stringAt buf (bufSize - p) p) then
        let buf := update buf q newline
        linesLoop pattern n buf (q + 1) (out ++ (List.range (q + 1 - p)).map fun j => buf (p + j))
      else linesLoop pattern n buf (q + 1) out

/- One round: read has delivered piece at buf + m. -/
def round (pattern : List Byte) (s : State) (piece : List Byte) : State :=
  let m := s.m + piece.length
  let buf := update (copyIn s.buf s.m piece.length fun j => piece.getD j 0) m 0
  let (buf, p, out) := linesLoop pattern bufSize buf 0 s.out
  let m := if p = 0 then 0 else m
  if 0 < m then ⟨memmove buf 0 p (m - p), m - p, out⟩ else ⟨buf, m, out⟩

/- grep, when its calls of read deliver these pieces and then the end of the file. -/
def grep (pattern : List Byte) : State → List (List Byte) → State
  | s, [] => s
  | s, piece :: pieces => grep pattern (round pattern s piece) pieces

/- What read may deliver: some bytes, not more than it is asked for. -/
def Fits (pattern : List Byte) : State → List (List Byte) → Prop
  | _, [] => True
  | s, piece :: pieces => piece ≠ [] ∧ piece.length ≤ bufSize - s.m - 1 ∧ Fits pattern (round pattern s piece) pieces

/- Lines with their newlines. -/
def text (lines : List (List Byte)) : List Byte := (lines.map fun l => l ++ [newline]).flatten

/- A line of a text file. -/
def Line (l : List Byte) : Prop := newline ∉ l ∧ 0 ∉ l

section Text
variable {l rest : List Byte} {lines : List (List Byte)}

theorem text_cons : text (l :: lines) = l ++ newline :: text lines := by
  unfold text
  rw [List.map_cons, List.flatten_cons, List.append_assoc]
  rfl

theorem text_append {more : List (List Byte)} : text (lines ++ more) = text lines ++ text more := by
  unfold text
  rw [List.map_append, List.flatten_append]

/- Any bytes are some lines and the start of a line. -/
theorem exists_lines (b : List Byte) : ∃ lines rest, b = text lines ++ rest ∧ newline ∉ rest ∧ ∀ l ∈ lines, newline ∉ l := by
  induction b with
  | nil => exact ⟨[], [], rfl, nofun, nofun⟩
  | cons x b ih =>
    obtain ⟨lines, rest, rfl, plain, each⟩ := ih
    by_cases ends : x = newline
    · refine ⟨[] :: lines, rest, ?_, plain, fun l inside => ?_⟩
      · rw [text_cons, ends]
        rfl
      · rcases List.mem_cons.mp inside with rfl | inside
        · exact List.not_mem_nil
        · exact each l inside
    · cases lines with
      | nil =>
        refine ⟨[], x :: rest, rfl, fun inside => ?_, nofun⟩
        rcases List.mem_cons.mp inside with same | inside
        · exact ends same.symm
        · exact plain inside
      | cons l lines =>
        refine ⟨(x :: l) :: lines, rest, ?_, plain, fun l' inside => ?_⟩
        · rw [text_cons, text_cons]
          rfl
        · rcases List.mem_cons.mp inside with rfl | inside
          · intro here
            rcases List.mem_cons.mp here with same | here
            · exact ends same.symm
            · exact each l List.mem_cons_self here
          · exact each l' (List.mem_cons_of_mem _ inside)

theorem line_inj {l' a b : List Byte} (same : l ++ newline :: a = l' ++ newline :: b) (first : newline ∉ l)
    (second : newline ∉ l') : l = l' ∧ a = b := by
  induction l generalizing l' with
  | nil =>
    cases l' with
    | nil => exact ⟨rfl, (List.cons.inj same).2⟩
    | cons x l' =>
      have head := (List.cons.inj same).1
      exact absurd (by rw [head]; exact List.mem_cons_self) second
  | cons x l ih =>
    cases l' with
    | nil =>
      have head := (List.cons.inj same).1
      exact absurd (by rw [head]; exact List.mem_cons_self) first
    | cons y l' =>
      obtain ⟨rfl, tails⟩ := List.cons.inj same
      obtain ⟨rfl, rfl⟩ := ih tails (fun inside => first (List.mem_cons_of_mem _ inside))
        fun inside => second (List.mem_cons_of_mem _ inside)
      exact ⟨rfl, rfl⟩

/- Lines that a text starts with are its first lines. -/
theorem text_prefix {ls : List (List Byte)} {x : List Byte} (same : text ls ++ x = text lines)
    (first : ∀ l ∈ ls, newline ∉ l) (second : ∀ l ∈ lines, newline ∉ l) :
    ∃ more, lines = ls ++ more ∧ x = text more := by
  induction ls generalizing lines with
  | nil => exact ⟨lines, rfl, same⟩
  | cons l ls ih =>
    cases lines with
    | nil =>
      rw [text_cons] at same
      simp [text] at same
    | cons l' lines =>
      rw [text_cons, text_cons, List.append_assoc, List.cons_append] at same
      obtain ⟨rfl, tails⟩ := line_inj same (first l List.mem_cons_self) (second l' List.mem_cons_self)
      obtain ⟨more, rfl, rfl⟩ := ih tails (fun k inside => first k (List.mem_cons_of_mem _ inside))
        fun k inside => second k (List.mem_cons_of_mem _ inside)
      exact ⟨more, rfl, rfl⟩

end Text

/- The lines that grep writes. -/
def selected (pattern : List Byte) (lines : List (List Byte)) : List Byte := text (lines.filter (matchRe pattern))

section Buffer
variable {pattern : List Byte}

theorem selected_cons (l : List Byte) (lines : List (List Byte)) : selected pattern (l :: lines) =
    (if matchRe pattern l then l ++ [newline] else []) ++ selected pattern lines := by
  unfold selected
  by_cases found : matchRe pattern l = true
  · rw [List.filter_cons_of_pos found, if_pos found, text_cons, List.append_assoc]
    rfl
  · rw [List.filter_cons_of_neg found, if_neg found]
    rfl

theorem selected_append (lines more : List (List Byte)) :
    selected pattern (lines ++ more) = selected pattern lines ++ selected pattern more := by
  unfold selected
  rw [List.filter_append, text_append]

theorem text_length_le (lines : List (List Byte)) : lines.length ≤ (text lines).length := by
  induction lines with
  | nil => exact Nat.zero_le _
  | cons l lines ih =>
    rw [text_cons, List.length_append, List.length_cons, List.length_cons]
    omega

/- The loop over the lines, by induction on the lines in the buffer from p on. -/
theorem linesLoop_spec (pattern out : List Byte) {lines : List (List Byte)} {rest : List Byte} {buf : Bytes} {n p m : Nat}
    (reads : Reads buf p (text lines ++ rest)) (size : p + (text lines ++ rest).length = m) (nul : buf m = 0)
    (room : m < bufSize) (each : ∀ l ∈ lines, Line l) (partly : Line rest) (enough : lines.length < n) :
    ∃ buf', linesLoop pattern n buf p out = (buf', p + (text lines).length, out ++ selected pattern lines) ∧
      Reads buf' (p + (text lines).length) rest := by
  induction lines generalizing buf n p out with
  | nil =>
    cases n with
    | zero => exact absurd enough (Nat.not_lt_zero _)
    | succ n =>
      have none : strchr buf newline (bufSize - p) p = none := by
        refine strchr_none reads partly.2 partly.1 ?_ ?_
        · rw [size]
          exact nul
        · omega
      refine ⟨buf, ?_, reads⟩
      unfold linesLoop
      rw [none]
      exact congrArg (fun x => (buf, p, x)) (List.append_nil out).symm
  | cons l lines ih =>
    cases n with
    | zero => exact absurd enough (Nat.not_lt_zero _)
    | succ n =>
      have line := each l List.mem_cons_self
      rw [text_cons, List.append_assoc] at reads size
      rw [List.length_append, List.length_append, List.length_cons] at size
      have found : strchr buf newline (bufSize - p) p = some (p + l.length) :=
        strchr_some reads line.2 line.1 (by decide) (by omega)
      obtain ⟨first, -, others⟩ := reads_append.mp reads
      -- the line with a NUL in place of its newline
      have here : Reads (update buf (p + l.length) 0) p l := first.congr fun j _ high => update_of_ne (by omega) _ _
      have string : stringAt (update buf (p + l.length) 0) (bufSize - p) p = l :=
        stringAt_eq here line.2 (update_self _ _ _) (by omega)
      have later (b : Byte) : ∀ out, ∃ buf', linesLoop pattern n (update buf (p + l.length) b) (p + l.length + 1) out =
          (buf', p + l.length + 1 + (text lines).length, out ++ selected pattern lines) ∧
          Reads buf' (p + l.length + 1 + (text lines).length) rest := by
        intro out
        refine ih out (others.congr fun j low _ => update_of_ne (by omega) _ _) ?_ ?_
          (fun k inside => each k (List.mem_cons_of_mem _ inside)) ?_
        · rw [List.length_append]
          omega
        · rw [update_of_ne (by omega)]
          exact nul
        · rw [List.length_cons] at enough
          omega
      have stop : p + l.length + 1 + (text lines).length = p + (text (l :: lines)).length := by
        rw [text_cons, List.length_append, List.length_cons]
        omega
      rw [← stop, selected_cons]
      unfold linesLoop
      rw [found]
      dsimp only
      rw [string]
      by_cases matching : matchRe pattern l = true
      · have whole : Reads (update buf (p + l.length) newline) p (l ++ [newline]) :=
          reads_append.mpr ⟨first.congr fun j _ high => update_of_ne (by omega) _ _, update_self _ _ _, trivial⟩
        have written := whole.range
        rw [List.length_append, List.length_singleton] at written
        rw [if_pos matching, if_pos matching, Function.update_idem, Nat.add_assoc, Nat.add_sub_cancel_left, written,
          ← Nat.add_assoc]
        have more := later newline (out ++ (l ++ [newline]))
        rwa [List.append_assoc out] at more
      · rw [if_neg matching, if_neg matching, List.nil_append]
        exact later 0 _

/- The buffer after read. -/
theorem reads_delivered {mem : Bytes} {carry : List Byte} (reads : Reads mem 0 carry) (piece : List Byte) :
    Reads (update (copyIn mem carry.length piece.length fun j => piece.getD j 0) (carry.length + piece.length) 0) 0
      (carry ++ piece) := by
  refine reads_append.mpr ⟨reads.congr fun j _ high => ?_, reads_iff.mpr fun j inside => ?_⟩
  · rw [update_of_ne (by omega)]
    exact if_neg (by omega)
  · rw [update_of_ne (by omega), Nat.zero_add]
    unfold copyIn
    rw [if_pos (by omega), Nat.add_sub_cancel_left]

/- What is left of a line is moved to the front. -/
theorem reads_moved {mem : Bytes} {p : Nat} {rest : List Byte} (reads : Reads mem p rest) :
    Reads (memmove mem 0 p rest.length) 0 rest := by
  rw [memmove_eq fun up => absurd up (Nat.not_lt_zero p)]
  refine reads_iff.mpr fun j inside => ?_
  unfold copyIn
  rw [if_pos (by omega), Nat.zero_add, Nat.sub_zero]
  exact reads_iff.mp reads j inside

/- One round, with the start of a line in the buffer. It is kept only if there is a newline. -/
theorem round_spec (pattern : List Byte) {s : State} {carry piece rest : List Byte} {lines : List (List Byte)} (reads : Reads s.buf 0 carry)
    (size : s.m = carry.length) (split : carry ++ piece = text lines ++ rest) (each : ∀ l ∈ lines, Line l)
    (partly : Line rest) (some : piece ≠ []) (fits : piece.length ≤ bufSize - s.m - 1) :
    (round pattern s piece).out = s.out ++ selected pattern lines ∧
    (round pattern s piece).m = (if lines = [] then [] else rest).length ∧
    Reads (round pattern s piece).buf 0 (if lines = [] then [] else rest) := by
  have filled := List.length_pos_iff.mpr some
  have room : carry.length + piece.length < bufSize := by omega
  have total := congrArg List.length split
  rw [List.length_append, List.length_append] at total
  have few := text_length_le lines
  have delivered := reads_delivered reads piece
  rw [split] at delivered
  obtain ⟨buf, loop, after⟩ := linesLoop_spec pattern s.out (n := bufSize) delivered
    (by rw [List.length_append, Nat.zero_add]; exact total.symm) (update_self _ _ _) room each partly (by omega)
  rw [Nat.zero_add] at loop after
  unfold round
  rw [size]
  dsimp only
  rw [loop]
  dsimp only
  by_cases none : lines = []
  · have start : (text lines).length = 0 := by rw [none]; rfl
    rw [if_pos start, if_pos none, if_neg (Nat.lt_irrefl 0)]
    exact ⟨rfl, rfl, trivial⟩
  · have moved : (text lines).length ≠ 0 := by
      have := List.length_pos_iff.mpr none
      omega
    have left : carry.length + piece.length - (text lines).length = rest.length := by omega
    rw [if_neg moved, if_neg none, if_pos (by omega), left]
    exact ⟨rfl, rfl, reads_moved after⟩

end Buffer

section Run
variable {pattern carry : List Byte} {s : State} {pieces lines : List (List Byte)}

theorem zero_notMem_text (each : ∀ l ∈ lines, Line l) : 0 ∉ text lines := by
  intro inside
  obtain ⟨part, parts, inside⟩ := List.mem_flatten.mp inside
  obtain ⟨l, member, rfl⟩ := List.mem_map.mp parts
  rcases List.mem_append.mp inside with here | here
  · exact (each l member).2 here
  · exact absurd (List.mem_singleton.mp here) (by decide)

theorem newline_mem_text {l : List Byte} : newline ∈ text (l :: lines) := by
  rw [text_cons]
  exact List.mem_append_right _ List.mem_cons_self

/- The bytes in the buffer after a read, as lines and the start of a line. -/
theorem exists_buffer {b : List Byte} (plain : 0 ∉ b) :
    ∃ lines rest, b = text lines ++ rest ∧ Line rest ∧ ∀ l ∈ lines, Line l := by
  obtain ⟨lines, rest, rfl, ends, each⟩ := exists_lines b
  refine ⟨lines, rest, rfl, ⟨ends, fun here => plain (List.mem_append_right _ here)⟩, fun l member => ⟨each l member, ?_⟩⟩
  intro here
  exact plain (List.mem_append_left _ (List.mem_flatten.mpr
    ⟨l ++ [newline], List.mem_map_of_mem member, List.mem_append_left _ here⟩))

/- When every read delivers a newline. -/
theorem grep_selects (reads : Reads s.buf 0 carry) (size : s.m = carry.length) (partly : newline ∉ carry)
    (stream : carry ++ pieces.flatten = text lines) (each : ∀ l ∈ lines, Line l) (fits : Fits pattern s pieces)
    (ends : ∀ piece ∈ pieces, newline ∈ piece) : (grep pattern s pieces).out = s.out ++ selected pattern lines := by
  induction pieces generalizing s carry lines with
  | nil =>
    rw [List.flatten_nil, List.append_nil] at stream
    cases lines with
    | nil => exact (List.append_nil s.out).symm
    | cons l lines =>
      rw [stream] at partly
      exact absurd newline_mem_text partly
  | cons piece pieces ih =>
    obtain ⟨some, room, fits⟩ := fits
    have plain := zero_notMem_text each
    rw [List.flatten_cons, ← List.append_assoc] at stream
    rw [← stream] at plain
    obtain ⟨first, rest, split, left, firsts⟩ := exists_buffer fun here => plain (List.mem_append_left _ here)
    have more : first ≠ [] := by
      rintro rfl
      have here : newline ∈ carry ++ piece := List.mem_append_right _ (ends piece List.mem_cons_self)
      rw [split] at here
      exact left.1 here
    rw [split, List.append_assoc] at stream
    obtain ⟨later, rfl, remains⟩ := text_prefix stream (fun l member => (firsts l member).1) fun l member => (each l member).1
    obtain ⟨out, m, buf⟩ := round_spec pattern reads size split firsts left some room
    rw [if_neg more] at m buf
    have rest := ih buf m left.1 remains (fun l member => each l (List.mem_append_right _ member)) fits
      fun piece member => ends piece (List.mem_cons_of_mem _ member)
    unfold grep
    rw [rest, out, selected_append, List.append_assoc]

theorem matchRe_nil (l : List Byte) : matchRe [] l = true := by
  unfold matchRe
  rw [if_neg (by decide)]
  cases l with
  | nil => exact matchhere_nil []
  | cons x l => exact if_pos (matchhere_nil (x :: l))

theorem selected_nil (lines : List (List Byte)) : selected [] lines = text lines := by
  unfold selected
  rw [List.filter_eq_self.mpr fun l _ => matchRe_nil l]

/- With the empty pattern, grep writes no more than it reads, and less if a read delivers no newline. -/
theorem grep_loses (reads : Reads s.buf 0 carry) (size : s.m = carry.length) (partly : Line carry)
    (plain : 0 ∉ pieces.flatten) (fits : Fits [] s pieces) :
    (grep [] s pieces).out.length ≤ s.out.length + s.m + pieces.flatten.length ∧
    ((∃ piece ∈ pieces, newline ∉ piece) → (grep [] s pieces).out.length < s.out.length + s.m + pieces.flatten.length) := by
  induction pieces generalizing s carry with
  | nil => exact ⟨by unfold grep; omega, by simp⟩
  | cons piece pieces ih =>
    obtain ⟨some, room, fits⟩ := fits
    rw [List.flatten_cons] at plain ⊢
    have here : 0 ∉ carry ++ piece := fun inside => by
      rcases List.mem_append.mp inside with inside | inside
      · exact partly.2 inside
      · exact plain (List.mem_append_left _ inside)
    obtain ⟨first, rest, split, left, firsts⟩ := exists_buffer here
    obtain ⟨out, m, buf⟩ := round_spec [] reads size split firsts left some room
    have kept : Line (if first = [] then [] else rest) := by
      split
      · exact ⟨List.not_mem_nil, List.not_mem_nil⟩
      · exact left
    obtain ⟨most, less⟩ := ih buf m kept (fun inside => plain (List.mem_append_right _ inside)) fits
    have total := congrArg List.length split
    rw [List.length_append, List.length_append] at total
    have filled := List.length_pos_iff.mpr some
    rw [out, selected_nil, List.length_append] at most less
    unfold grep
    rw [List.length_append]
    by_cases none : first = []
    · rw [if_pos none] at m
      rw [m, none, List.length_nil] at most
      change _ ≤ _ + 0 + 0 + _ at most
      exact ⟨by omega, fun _ => by omega⟩
    · rw [if_neg none] at m
      refine ⟨by omega, ?_⟩
      rintro ⟨bad, member, without⟩
      rcases List.mem_cons.mp member with rfl | member
      · -- the newline of the first line is in this piece
        obtain ⟨l, lines, rfl⟩ := List.exists_cons_of_ne_nil none
        have inside : newline ∈ carry ++ bad := by
          rw [split]
          exact List.mem_append_left _ newline_mem_text
        rcases List.mem_append.mp inside with inside | inside
        · exact absurd inside partly.1
        · exact absurd inside without
      · have := less ⟨bad, member, without⟩
        omega

/-- For every input of whole lines and every way in which read delivers it: grep writes the lines
that match, whatever the pattern, if and only if every read delivers a newline. -/
theorem grep_iff (buf : Bytes) (stream : pieces.flatten = text lines) (each : ∀ l ∈ lines, Line l)
    (fits : ∀ pattern, Fits pattern ⟨buf, 0, []⟩ pieces) :
    (∀ pattern, (grep pattern ⟨buf, 0, []⟩ pieces).out = selected pattern lines) ↔ ∀ piece ∈ pieces, newline ∈ piece := by
  constructor
  · intro right piece member
    by_contra without
    have plain := zero_notMem_text each
    rw [← stream] at plain
    have empty : Reads buf 0 [] := trivial
    have less := (grep_loses (s := ⟨buf, 0, []⟩) empty rfl ⟨List.not_mem_nil, List.not_mem_nil⟩ plain
      (fits [])).2 ⟨piece, member, without⟩
    rw [right [], selected_nil, ← stream] at less
    change _ < 0 + 0 + _ at less
    omega
  · intro ends pattern
    have empty : Reads buf 0 [] := trivial
    exact grep_selects (s := ⟨buf, 0, []⟩) empty rfl List.not_mem_nil stream each (fits pattern) ends

end Run

theorem grep_iff_whole : (grep [97] ⟨zeros, 0, []⟩ [[97, 98, newline]]).out = selected [97] [[97, 98]] := by
  have line : ∀ l ∈ [([97, 98] : List Byte)], Line l := by
    intro l member
    obtain rfl := List.mem_singleton.mp member
    exact ⟨by decide, by decide⟩
  have fits (pattern : List Byte) : Fits pattern ⟨zeros, 0, []⟩ [[97, 98, newline]] := ⟨nofun, by decide, trivial⟩
  refine (grep_iff zeros (by decide) line fits).mpr (fun piece member => ?_) [97]
  obtain rfl := List.mem_singleton.mp member
  decide

theorem matchRe_letter (text : List Byte) : matchRe [97] text = true ↔ 97 ∈ text := by
  have search : matchRe [97] text = matchFrom [97] text := if_neg (by decide)
  rw [search, matchFrom_iff, List.mem_iff_append]
  refine exists_congr fun pre => ?_
  constructor
  · rintro ⟨rest, rfl, here⟩
    obtain ⟨t, rest, rfl, same, -⟩ := (matchhere_one (by decide) (by decide)).mp here
    rw [same.resolve_left (by decide)]
    exact ⟨rest, rfl⟩
  · rintro ⟨rest, rfl⟩
    exact ⟨97 :: rest, rfl, (matchhere_one (by decide) (by decide)).mpr ⟨97, rest, rfl, Or.inr rfl, matchhere_nil rest⟩⟩

/- The line ab in two pieces: grep drops the first piece and does not find the a. -/
theorem grep_drops_piece : Fits [97] ⟨zeros, 0, []⟩ [[97], [98, newline]] ∧
    [[97], [98, newline]].flatten = text [[97, 98]] ∧ Line [97, 98] ∧
    (grep [97] ⟨zeros, 0, []⟩ [[97], [98, newline]]).out = [] ∧ selected [97] [[97, 98]] = [97, 98, newline] := by
  have empty : Reads zeros 0 [] := trivial
  have none : ∀ l ∈ ([] : List (List Byte)), Line l := by simp
  have line : ∀ l ∈ [([98] : List Byte)], Line l := by
    intro l member
    obtain rfl := List.mem_singleton.mp member
    exact ⟨by decide, by decide⟩
  obtain ⟨out, m, buf⟩ := round_spec [97] (s := ⟨zeros, 0, []⟩) empty rfl (show [] ++ [97] = text [] ++ [97] from rfl) none
    ⟨by decide, by decide⟩ (by simp) (by decide)
  obtain ⟨out', -⟩ := round_spec [97] buf m (show [] ++ [98, newline] = text [[98]] ++ [] from rfl) line
    ⟨by decide, by decide⟩ (by simp) (by rw [m]; decide)
  have missed : matchRe [97] [98] = false := Bool.eq_false_iff.mpr fun found => absurd ((matchRe_letter _).mp found) (by decide)
  have found : matchRe [97] [97, 98] = true := (matchRe_letter _).mpr (by decide)
  refine ⟨⟨by simp, by decide, by simp, by rw [m]; decide, trivial⟩, by decide, ⟨by decide, by decide⟩, ?_, ?_⟩
  · refine out'.trans ?_
    rw [out, selected_cons, missed]
    rfl
  · rw [selected_cons, found]
    rfl

end Xv6c.Grep

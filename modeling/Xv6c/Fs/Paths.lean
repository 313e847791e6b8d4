import Xv6c.Fs.Balance
import Xv6c.Fs.Directory

/-! skipelem with the buffer that it copies a path element to, and the components of a path. -/
namespace Xv6c.Fs
open Lib
open Function (update update_self update_of_ne)

/- skipelem: the path behind the next element, and the buffer name after the copy. -/
def skipelemInto (path : List Byte) (name : Bytes) : Option (List Byte × Bytes) :=
  match path.dropWhile (· == slash) with
  | [] => none
  | c :: s =>
    let elem := (c :: s).takeWhile (· != slash)
    let rest := ((c :: s).dropWhile (· != slash)).dropWhile (· == slash)
    if DIRSIZ ≤ elem.length then some (rest, copyIn name 0 DIRSIZ fun j => elem.getD j 0)
    else some (rest, update (copyIn name 0 elem.length fun j => elem.getD j 0) elem.length 0)

/- The contents of the buffer: up to its first NUL, or all of it. -/
def nameIn (name : Bytes) : List Byte := cut ((List.range DIRSIZ).map name)

/- The components of a path: what stands between slashes, without the empty strings. -/
def components (path : List Byte) : List (List Byte) := (path.splitOn slash).filter (· ≠ [])

section Components
variable {path elem rest : List Byte}

theorem components_slash (path : List Byte) : components (slash :: path) = components path := by
  have each : ∀ b ∈ ([] : List Byte), (b == slash) = false := fun _ wrong => nomatch wrong
  have split : (slash :: path).splitOn slash = [] :: path.splitOn slash :=
    List.splitOnP_append_cons_of_forall_mem (p := (· == slash)) each slash (beq_self_eq_true slash) path
  unfold components
  rw [split]
  exact List.filter_cons_of_neg (by decide)

theorem components_slashes (path : List Byte) : components (path.dropWhile (· == slash)) = components path := by
  induction path with
  | nil => rfl
  | cons b path ih =>
    by_cases first : b = slash
    · subst first
      rw [List.dropWhile_cons_of_pos (p := (· == slash)) (beq_self_eq_true slash), ih, components_slash]
    · rw [List.dropWhile_cons_of_neg (by simpa using first)]

theorem slash_notMem_takeWhile : slash ∉ path.takeWhile (· != slash) := by
  intro inside
  simpa using List.mem_takeWhile_imp inside

theorem takeWhile_ne_nil {b : Byte} (first : b ≠ slash) : (b :: path).takeWhile (· != slash) ≠ [] := by
  rw [List.takeWhile_cons_of_pos (p := (· != slash)) (bne_iff_ne.mpr first)]
  exact List.cons_ne_nil _ _

/- Behind an element comes nothing or a slash. -/
theorem dropWhile_next (path : List Byte) :
    path.dropWhile (· != slash) = [] ∨ ∃ more, path.dropWhile (· != slash) = slash :: more := by
  cases left : path.dropWhile (· != slash) with
  | nil => exact Or.inl rfl
  | cons b more =>
    have stop := List.head?_dropWhile_not (· != slash) path
    rw [left] at stop
    have same : b = slash := by simpa using stop
    exact Or.inr ⟨more, by rw [same]⟩

theorem head_dropWhile (path : List Byte) : (path.dropWhile (· == slash)).head? ≠ some slash := by
  intro same
  have stop := List.head?_dropWhile_not (· == slash) path
  rw [same] at stop
  simp at stop

/- An element, and then nothing or a slash. -/
theorem components_elem (some : elem ≠ []) (plain : slash ∉ elem) (next : rest = [] ∨ ∃ more, rest = slash :: more) :
    components (elem ++ rest) = elem :: components rest := by
  have each : ∀ b ∈ elem, (b == slash) = false := fun b inside => by
    refine beq_eq_false_iff_ne.mpr fun same => plain ?_
    rwa [← same]
  rcases next with rfl | ⟨more, rfl⟩
  · have split : elem.splitOn slash = [elem] := List.splitOnP_eq_singleton each
    unfold components
    rw [List.append_nil, split]
    exact List.filter_cons_of_pos (decide_eq_true some)
  · have split : (elem ++ slash :: more).splitOn slash = elem :: more.splitOn slash :=
      List.splitOnP_append_cons_of_forall_mem (p := (· == slash)) each slash (beq_self_eq_true slash) more
    rw [components_slash]
    unfold components
    rw [split]
    exact List.filter_cons_of_pos (decide_eq_true some)

theorem components_eq_nil (start : rest.head? ≠ some slash) : components rest = [] ↔ rest = [] := by
  constructor
  · intro none
    by_contra some
    obtain ⟨b, more, rfl⟩ := List.exists_cons_of_ne_nil some
    have first : b ≠ slash := fun same => start (congrArg Option.some same)
    have split := List.takeWhile_append_dropWhile (p := (· != slash)) (l := b :: more)
    have next := dropWhile_next (b :: more)
    rw [← split, components_elem (takeWhile_ne_nil first) slash_notMem_takeWhile next] at none
    exact nomatch none
  · rintro rfl
    rfl

end Components

section Buffer
variable {elem : List Byte} {name : Bytes}

theorem cut_append_nul (text : 0 ∉ elem) (junk : List Byte) : cut (elem ++ 0 :: junk) = elem := by
  have each : ∀ b ∈ elem, (b != 0) = true := fun _ inside => bne_iff_ne.mpr fun zero => text (zero ▸ inside)
  unfold cut
  rw [List.takeWhile_append_of_pos each]
  exact List.append_nil elem

theorem nameIn_long (text : 0 ∉ elem) (long : DIRSIZ ≤ elem.length) :
    nameIn (copyIn name 0 DIRSIZ fun j => elem.getD j 0) = elem.take DIRSIZ := by
  have bytes : (List.range DIRSIZ).map (copyIn name 0 DIRSIZ fun j => elem.getD j 0) = elem.take DIRSIZ := by
    refine List.ext_getElem (by rw [List.length_map, List.length_range, List.length_take]; omega) fun j inside _ => ?_
    rw [List.length_map, List.length_range] at inside
    rw [List.getElem_map, List.getElem_range, List.getElem_take]
    unfold copyIn
    dsimp only
    rw [if_pos (by omega), Nat.sub_zero, List.getD_eq_getElem?_getD, List.getElem?_eq_getElem (by omega), Option.getD_some]
  unfold nameIn
  rw [bytes]
  exact cut_self fun inside => text (List.mem_of_mem_take inside)

theorem nameIn_short (text : 0 ∉ elem) (short : elem.length < DIRSIZ) :
    nameIn (update (copyIn name 0 elem.length fun j => elem.getD j 0) elem.length 0) = elem.take DIRSIZ := by
  have bytes : (List.range DIRSIZ).map (update (copyIn name 0 elem.length fun j => elem.getD j 0) elem.length 0) =
      elem ++ 0 :: (List.range (DIRSIZ - elem.length - 1)).map fun j => name (elem.length + 1 + j) := by
    refine List.ext_getElem? fun j => ?_
    by_cases inside : j < DIRSIZ
    · rw [List.getElem?_map, List.getElem?_range inside, Option.map_some]
      rcases Nat.lt_trichotomy j elem.length with front | rfl | back
      · rw [update_of_ne (by omega), List.getElem?_append_left front, List.getElem?_eq_getElem front]
        unfold copyIn
        dsimp only
        rw [if_pos (by omega), Nat.sub_zero, List.getD_eq_getElem?_getD, List.getElem?_eq_getElem front, Option.getD_some]
      · rw [update_self, List.getElem?_append_right (Nat.le_refl _), Nat.sub_self]
        rfl
      · obtain ⟨i, rfl⟩ : ∃ i, j = elem.length + 1 + i := ⟨j - elem.length - 1, by omega⟩
        rw [update_of_ne (by omega), List.getElem?_append_right (by omega),
          show elem.length + 1 + i - elem.length = i + 1 by omega, List.getElem?_cons_succ, List.getElem?_map,
          List.getElem?_range (by omega)]
        unfold copyIn
        rw [if_neg (by omega)]
        rfl
    · rw [List.getElem?_eq_none (by rw [List.length_map, List.length_range]; omega),
        List.getElem?_eq_none (by rw [List.length_append, List.length_cons, List.length_map, List.length_range]; omega)]
  unfold nameIn
  rw [bytes, cut_append_nul text, List.take_of_length_le short.le]

end Buffer

section Calls
variable {path : List Byte} {name : Bytes}

/- The model of skipelem that namex uses: the contents of the buffer, and the path behind. -/
theorem skipelem_eq (text : 0 ∉ path) (name : Bytes) :
    skipelem path = (skipelemInto path name).map fun r => (nameIn r.2, r.1) := by
  unfold skipelem skipelemInto
  cases front : path.dropWhile (· == slash) with
  | nil => rfl
  | cons c s =>
    have text : 0 ∉ (c :: s).takeWhile (· != slash) := fun inside => by
      have suffix := List.dropWhile_suffix (· == slash) (l := path)
      rw [front] at suffix
      exact text (suffix.subset (List.takeWhile_subset _ inside))
    dsimp only
    split
    · rename_i long
      rw [Option.map_some, nameIn_long text long]
    · rename_i short
      rw [Option.map_some, nameIn_short text (Nat.lt_of_not_le short)]

/- No component is left, or the first one is cut off. -/
theorem skipelem_components (path : List Byte) :
    (skipelem path = none ∧ components path = []) ∨
    ∃ elem rest, skipelem path = some (elem.take DIRSIZ, rest) ∧ components path = elem :: components rest ∧
      rest.head? ≠ some slash ∧ rest ⊆ path := by
  unfold skipelem
  rw [← components_slashes path]
  have suffix := List.dropWhile_suffix (· == slash) (l := path)
  cases front : path.dropWhile (· == slash) with
  | nil => exact Or.inl ⟨rfl, rfl⟩
  | cons c s =>
    have first : c ≠ slash := fun same => head_dropWhile path (by rw [front, same]; rfl)
    rw [front] at suffix
    refine Or.inr ⟨_, _, rfl, ?_, head_dropWhile _, ?_⟩
    · have split := List.takeWhile_append_dropWhile (p := (· != slash)) (l := c :: s)
      conv_lhs => rw [← split]
      rw [components_elem (takeWhile_ne_nil first) slash_notMem_takeWhile (dropWhile_next _), components_slashes]
    · exact ((List.dropWhile_suffix _).trans ((List.dropWhile_suffix _).trans suffix)).subset

theorem skipelemInto_shorter {rest : List Byte} {name' : Bytes} (call : skipelemInto path name = some (rest, name')) :
    rest.length < path.length := by
  have same : (skipelem path).map Prod.snd = (skipelemInto path name).map Prod.fst := by
    unfold skipelem skipelemInto
    cases path.dropWhile (· == slash) with
    | nil => rfl
    | cons c s =>
      dsimp only
      split <;> rfl
  rw [call] at same
  obtain ⟨⟨elem, _⟩, split, rfl⟩ := Option.map_eq_some_iff.mp same
  exact skipelem_shorter split

/- skipelem until it returns 0: after each call, the contents of the buffer and the path left. -/
def skipAll (path : List Byte) (name : Bytes) : List (List Byte × List Byte) :=
  match _call : skipelemInto path name with
  | none => []
  | some (rest, name') => (nameIn name', rest) :: skipAll rest name'
termination_by path.length
decreasing_by exact skipelemInto_shorter _call

theorem skipAll_none (call : skipelemInto path name = none) : skipAll path name = [] := by
  rw [skipAll]
  split
  · rfl
  · rename_i other
    exact nomatch call.symm.trans other

theorem skipAll_some {rest : List Byte} {name' : Bytes} (call : skipelemInto path name = some (rest, name')) :
    skipAll path name = (nameIn name', rest) :: skipAll rest name' := by
  rw [skipAll]
  split
  · rename_i other
    exact nomatch call.symm.trans other
  · rename_i other
    cases call.symm.trans other
    rfl

/- By induction on the length of the path, one call at a time. -/
theorem skipAll_eq (text : 0 ∉ path) (name : Bytes) :
    (skipAll path name).map Prod.fst = (components path).map (List.take DIRSIZ) ∧
    (skipAll path name).map (fun r => decide (r.2 = [])) =
      (List.range (components path).length).map fun i => decide (i + 1 = (components path).length) := by
  induction length : path.length using Nat.strong_induction_on generalizing path name with
  | _ n ih =>
    have model := skipelem_eq text name
    rcases skipelem_components path with ⟨none, empty⟩ | ⟨elem, rest, some, first, start, inside⟩
    · rw [none] at model
      rw [skipAll_none (Option.map_eq_none_iff.mp model.symm), empty]
      exact ⟨rfl, rfl⟩
    · rw [some] at model
      obtain ⟨⟨_, name'⟩, call, same⟩ := Option.map_eq_some_iff.mp model.symm
      obtain ⟨copied, rfl⟩ := Prod.mk.inj same
      have shorter := skipelemInto_shorter call
      obtain ⟨names, lasts⟩ := ih _ (length ▸ shorter) (fun zero => text (inside zero)) name' rfl
      rw [skipAll_some call, first, List.map_cons, List.map_cons, List.map_cons, names, lasts, copied]
      refine ⟨rfl, ?_⟩
      rw [List.length_cons, List.range_succ_eq_map, List.map_cons, List.map_map]
      congr 1
      · have last := components_eq_nil start
        rw [← List.length_eq_zero_iff] at last
        refine decide_eq_decide.mpr ⟨fun none => ?_, fun one => last.mp (by omega)⟩
        have := last.mpr none
        omega
      · refine List.map_congr_left fun i _ => decide_eq_decide.mpr ?_
        change i + 1 = _ ↔ i + 1 + 1 = _
        omega

/-- Whatever the buffer holds before: skipelem until it returns 0 finds the components of the
path in order, each cut to DIRSIZ bytes, and the path left is empty behind the last component
and only there. -/
theorem skipAll_components (path : CStr) (name : Bytes) :
    (skipAll path.bytes name).map Prod.fst = (components path.bytes).map (List.take DIRSIZ) ∧
    (∀ i r, (skipAll path.bytes name)[i]? = some r → (r.2 = [] ↔ i + 1 = (components path.bytes).length)) ∧
    skipelem path.bytes = (skipelemInto path.bytes name).map fun r => (nameIn r.2, r.1) := by
  obtain ⟨names, lasts⟩ := skipAll_eq path.whole name
  refine ⟨names, fun i r here => ?_, skipelem_eq path.whole name⟩
  have test := congrArg (fun l => l[i]?) lasts
  have inside : i < (components path.bytes).length := by
    have length := congrArg List.length names
    rw [List.length_map, List.length_map] at length
    rw [← length]
    exact (List.getElem?_eq_some_iff.mp here).1
  rw [List.getElem?_map, here, List.getElem?_map, List.getElem?_range inside] at test
  exact decide_eq_decide.mp (Option.some.inj test)

end Calls

end Xv6c.Fs

import Xv6c.Fs.Sample
import Xv6c.Kernel.Contents

/-! Processes that write to one open file. A round of filewrite's loop is three steps here: the
writer enters a transaction, writes one piece under the lock of the inode, and leaves the
transaction. The steps of different writers come in any order. -/
namespace Xv6c.Sharing
open Lib
open Function (update update_self update_of_ne)

/- Where a writer is in the loop of filewrite. -/
inductive Place where
  | outside
  | inside
  | wrote (r : Int)
  deriving DecidableEq

/- A process with the calls that it has not finished; i bytes of the first one are written. -/
structure Writer where
  p : ProcId
  calls : List (List Byte)
  i : Nat
  place : Place
  returned : List Int

/- The next step of a writer. In begin_op it may have to wait. -/
def Writer.next (f : Nat) (w : Writer) : KM Writer :=
  match w.calls with
  | [] => pure w
  | data :: rest =>
    match w.place with
    | .outside =>
      if w.i < data.length then do
        let k ← Prog.get
        if Log.admits k.fs.log then
          onFs w.p Fs.beginOp
          pure { w with place := .inside }
        else pure w
      else pure { w with
        calls := rest
        i := 0
        returned := w.returned ++ [(data.length : Int)] }
    | .inside => do
      let r ← chunkBody w.p f (fun j => data.getD (w.i + j) 0) (min (data.length - w.i) maxWrite)
      pure { w with place := .wrote r }
    | .wrote r => do
      onFs w.p Fs.endOp
      if r < 0 then pure { w with
        calls := rest
        i := 0
        place := .outside
        returned := w.returned ++ [-1] }
      else if r ≠ min (data.length - w.i) maxWrite then panic "short filewrite"
      else pure { w with
        i := w.i + min (data.length - w.i) maxWrite
        place := .outside }

/- Writer number j takes a step. -/
def turn (f : Nat) (ws : List Writer) (j : Nat) : KM (List Writer) :=
  match ws[j]? with
  | none => pure ws
  | some w => do
    let w ← w.next f
    pure (ws.set j w)

def turns (f : Nat) : List Nat → List Writer → KM (List Writer)
  | [], ws => pure ws
  | j :: js, ws => do
    let ws ← turn f ws j
    turns f js ws

structure State where
  kernel : Kernel
  writers : List Writer

def step (f : Nat) (s : State) (j : Nat) : Option State :=
  match (turn f s.writers j s.kernel).2 with
  | .ok (ws, k) => some ⟨k, ws⟩
  | .error _ => none

theorem bind_at {A B : Type} {x y : KM A} {k : Kernel} (same : x k = y k) (g : A → KM B) : (x >>= g) k = (y >>= g) k := by
  change Prog.bind x g k = Prog.bind y g k
  unfold Prog.bind
  rw [same]

section Rounds
variable {k : Kernel} {f fuel : Nat} {w : Writer} {data : List Byte} {rest : List (List Byte)} {r : Int}

theorem next_nil (calls : w.calls = []) : w.next f = pure w := by
  unfold Writer.next
  rw [calls]

theorem next_outside (calls : w.calls = data :: rest) (outside : w.place = .outside) : w.next f =
    if w.i < data.length then (do
      let k ← Prog.get
      if Log.admits k.fs.log then
        onFs w.p Fs.beginOp
        pure { w with place := .inside }
      else pure w)
    else pure { w with
      calls := rest
      i := 0
      returned := w.returned ++ [(data.length : Int)] } := by
  obtain ⟨p, _, i, _, returned⟩ := w
  obtain rfl := calls
  obtain rfl := outside
  rfl

theorem next_inside (calls : w.calls = data :: rest) (inside : w.place = .inside) : w.next f = (do
    let r ← chunkBody w.p f (fun j => data.getD (w.i + j) 0) (min (data.length - w.i) maxWrite)
    pure { w with place := .wrote r }) := by
  unfold Writer.next
  rw [calls, inside]

theorem next_wrote (calls : w.calls = data :: rest) (wrote : w.place = .wrote r) : w.next f = (do
    onFs w.p Fs.endOp
    if r < 0 then pure { w with
      calls := rest
      i := 0
      place := .outside
      returned := w.returned ++ [-1] }
    else if r ≠ min (data.length - w.i) maxWrite then panic "short filewrite"
    else pure { w with
      i := w.i + min (data.length - w.i) maxWrite
      place := .outside }) := by
  unfold Writer.next
  rw [calls, wrote]

/- Three steps of a writer are one round of filewrite's loop. -/
theorem filewriteLoop_next (calls : w.calls = data :: rest) (outside : w.place = .outside) (more : w.i < data.length)
    (admits : Log.admits k.fs.log = true) :
    filewriteLoop w.p f (fun j => data.getD j 0) data.length (fuel + 1) w.i k =
    (do
      let w ← w.next f
      let w ← w.next f
      let w ← w.next f
      if w.calls = rest then pure (-1)
      else filewriteLoop w.p f (fun j => data.getD j 0) data.length fuel w.i : KM Int) k := by
  have other : w.calls ≠ rest := fun same => absurd (congrArg List.length same) (by rw [calls, List.length_cons]; omega)
  have first : w.next f k = (do onFs w.p Fs.beginOp; pure { w with place := .inside } : KM Writer) k := by
    rw [next_outside calls outside, if_pos more, Prog.get_bind, if_pos admits]
  rw [filewriteLoop_succ, if_pos more, bind_at first, bind_assoc]
  refine congrFun (bind_congr fun _ => ?_) k
  rw [pure_bind, next_inside (w := { w with place := .inside }) calls rfl, bind_assoc]
  refine bind_congr fun r => ?_
  rw [pure_bind, next_wrote (w := { w with place := .wrote r }) calls rfl, bind_assoc]
  refine bind_congr fun _ => ?_
  split
  · rw [pure_bind, if_pos rfl]
  · split
    · rfl
    · rw [pure_bind, if_neg other]

end Rounds

/- The pieces in which filewrite writes its data. -/
def pieces (data : List Byte) : List (List Byte) :=
  if _none : data = [] then [] else data.take maxWrite :: pieces (data.drop maxWrite)
termination_by data.length
decreasing_by exact drop_shorter _none

theorem pieces_nil : pieces [] = [] := by rw [pieces, dif_pos rfl]

theorem pieces_some {data : List Byte} (some : data ≠ []) :
    pieces data = data.take maxWrite :: pieces (data.drop maxWrite) := by rw [pieces, dif_neg some]

theorem pieces_short {data : List Byte} (some : data ≠ []) (short : data.length ≤ maxWrite) : pieces data = [data] := by
  rw [pieces_some some, List.take_of_length_le short, List.drop_of_length_le short, pieces_nil]

/- The next piece of a call, and what is left behind it. -/
theorem next_piece (data : List Byte) (i : Nat) :
    (List.range (min (data.length - i) maxWrite)).map (fun j => data.getD (i + j) 0) = (data.drop i).take maxWrite := by
  refine List.ext_getElem? fun j => ?_
  by_cases inside : j < min (data.length - i) maxWrite
  · rw [List.getElem?_map, List.getElem?_range inside, List.getElem?_take_of_lt (by omega), List.getElem?_drop,
      List.getElem?_eq_getElem (by omega), Option.map_some, List.getD_eq_getElem?_getD, List.getElem?_eq_getElem (by omega), Option.getD_some]
  · rw [List.getElem?_eq_none (by rw [List.length_map, List.length_range]; omega),
      List.getElem?_eq_none (by rw [List.length_take, List.length_drop]; omega)]

theorem drop_piece (data : List Byte) (i : Nat) :
    (data.drop i).drop maxWrite = data.drop (i + min (data.length - i) maxWrite) := by
  rw [List.drop_drop]
  by_cases last : data.length - i ≤ maxWrite
  · rw [List.drop_of_length_le (by omega), List.drop_of_length_le (by omega)]
  · rw [Nat.min_eq_right (by omega)]

/- The pieces that a writer has still to write. -/
def Writer.todo (w : Writer) : List (List Byte) :=
  match w.calls with
  | [] => []
  | data :: rest =>
    (match w.place with
      | .wrote _ => pieces (data.drop (w.i + min (data.length - w.i) maxWrite))
      | _ => pieces (data.drop w.i)) ++ rest.flatMap pieces

/- In a transaction. -/
def Writer.busy (w : Writer) : Bool := w.place ≠ .outside

/- The pieces of writer j among those of all writers. -/
def byWriter (order : List (Nat × List Byte)) (j : Nat) : List (List Byte) :=
  (order.filter fun x => x.1 = j).map Prod.snd

/- All pieces, one behind the other. -/
def joined (order : List (Nat × List Byte)) : List Byte := (order.map Prod.snd).flatten

/- A writer that has written the pieces in done, and what its calls return if all goes well. -/
structure Progress (w₀ w : Writer) (done : List (List Byte)) : Prop where
  pieces : done ++ w.todo = w₀.todo
  returns : w.returned ++ w.calls.map (fun data => (data.length : Int)) =
    w₀.returned ++ w₀.calls.map fun data => (data.length : Int)
  inCall : w.place ≠ .outside → ∃ data rest, w.calls = data :: rest ∧ w.i < data.length
  wrote : ∀ data rest r, w.calls = data :: rest → w.place = .wrote r → r = min (data.length - w.i) maxWrite

/- The log has room for r blocks of one file, with its block of addresses, its inode and the
blocks of the free map that go with them. -/
def Room (fs : FileSys) (r : Nat) : Prop :=
  fs.log.lh.length + r + (Fs.freeMaps fs (r + 1)).card + 2 < min LOGSIZE (fs.log.size - 1)

/- When writer j is about to write a piece: the piece fits in the file, and its blocks in the log. -/
def Ready (f : Nat) (s : State) (j : Nat) : Prop :=
  ∀ w data rest, s.writers[j]? = some w → w.calls = data :: rest → w.place = .inside →
    (s.kernel.file f).off + min (data.length - w.i) maxWrite ≤ MAXFILE * BSIZE ∧
    Room s.kernel.fs (Fs.blocksOf (s.kernel.file f).off (min (data.length - w.i) maxWrite))

/- The file after the pieces in order, and each writer behind its own pieces. -/
structure Merged (k₀ : Kernel) (ws₀ : List Writer) (f : Nat) (order : List (Nat × List Byte)) (s : State) : Prop where
  volume : Fs.Volume s.kernel.fs
  fit : OpenFile s.kernel f
  target : s.kernel.target f = k₀.target f
  quiet : s.kernel.fs.log.committing = false
  opened : s.writers.countP Writer.busy ≤ s.kernel.fs.log.outstanding
  files : s.kernel.files = ⟨update k₀.files.bytes (k₀.target f)
      (overwrite (k₀.files.bytes (k₀.target f)) (k₀.files.off f) (joined order)),
    update k₀.files.off f (k₀.files.off f + (joined order).length)⟩
  writers : ∀ j, (s.writers[j]? = none ∧ ws₀[j]? = none ∧ byWriter order j = []) ∨
    ∃ w₀ w, ws₀[j]? = some w₀ ∧ s.writers[j]? = some w ∧ Progress w₀ w (byWriter order j)

section Step
variable {k₀ : Kernel} {ws₀ : List Writer} {f j : Nat} {order : List (Nat × List Byte)} {s : State} {w : Writer}

theorem byWriter_append (x : Nat × List Byte) : byWriter (order ++ [x]) j =
    byWriter order j ++ if x.1 = j then [x.2] else [] := by
  unfold byWriter
  rw [List.filter_append, List.map_append]
  congr 1
  by_cases here : x.1 = j
  · rw [if_pos here, List.filter_cons_of_pos (by simpa using here)]
    rfl
  · rw [if_neg here, List.filter_cons_of_neg (by simpa using here)]
    rfl

theorem joined_append (x : Nat × List Byte) : joined (order ++ [x]) = joined order ++ x.2 := by
  unfold joined
  rw [List.map_append, List.flatten_append, List.map_singleton, List.flatten_singleton]

variable {ws : List Writer} {w' : Writer}

/- Writer j moves on; the others stay. -/
theorem writers_set {order' : List (Nat × List Byte)} (here : ws[j]? = some w)
    (others : ∀ i, i ≠ j → byWriter order' i = byWriter order i)
    (moved : ∀ w₀, Progress w₀ w (byWriter order j) → Progress w₀ w' (byWriter order' j))
    (before : ∀ j, (ws[j]? = none ∧ ws₀[j]? = none ∧ byWriter order j = []) ∨
      ∃ w₀ w, ws₀[j]? = some w₀ ∧ ws[j]? = some w ∧ Progress w₀ w (byWriter order j)) (i : Nat) :
    ((ws.set j w')[i]? = none ∧ ws₀[i]? = none ∧ byWriter order' i = []) ∨
      ∃ w₀ w, ws₀[i]? = some w₀ ∧ (ws.set j w')[i]? = some w ∧ Progress w₀ w (byWriter order' i) := by
  by_cases same : i = j
  · subst same
    rcases before i with ⟨none, -⟩ | ⟨w₀, u, first, second, progress⟩
    · exact nomatch none.symm.trans here
    · cases second.symm.trans here
      have inside := (List.getElem?_eq_some_iff.mp here).1
      exact Or.inr ⟨w₀, w', first, List.getElem?_set_self inside, moved w₀ progress⟩
  · rw [List.getElem?_set_ne (Ne.symm same), others i same]
    exact before i

theorem countP_set_busy (here : ws[j]? = some w) :
    (ws.set j w').countP Writer.busy + w.busy.toNat = ws.countP Writer.busy + w'.busy.toNat := by
  induction ws generalizing j with
  | nil => exact nomatch here
  | cons u ws ih =>
    cases j with
    | zero =>
      cases here
      rw [List.set_cons_zero, List.countP_cons, List.countP_cons]
      cases w.busy <;> cases w'.busy <;> simp
    | succ j =>
      have tail := ih (show ws[j]? = some w from here)
      rw [List.set_cons_succ, List.countP_cons, List.countP_cons]
      omega

theorem busy_pos (here : ws[j]? = some w) (busy : w.busy = true) : 0 < ws.countP Writer.busy :=
  List.countP_pos_iff.mpr ⟨w, List.mem_of_getElem? here, busy⟩

variable {k' : Kernel}

/- A step that writes nothing. -/
theorem Merged.moves (merged : Merged k₀ ws₀ f order s) (here : s.writers[j]? = some w)
    (volume : Fs.Volume k'.fs) (fit : OpenFile k' f) (target : k'.target = s.kernel.target)
    (quiet : k'.fs.log.committing = false) (files : k'.files = s.kernel.files)
    (opened : s.kernel.fs.log.outstanding + w'.busy.toNat ≤ k'.fs.log.outstanding + w.busy.toNat)
    (moved : ∀ w₀ done, Progress w₀ w done → Progress w₀ w' done) :
    Merged k₀ ws₀ f order ⟨k', s.writers.set j w'⟩ := by
  refine ⟨volume, fit, (congrFun target f).trans merged.target, quiet, ?_, files.trans merged.files,
    writers_set here (fun _ _ => rfl) (fun w₀ => moved w₀ _) merged.writers⟩
  have count : (s.writers.set j w').countP Writer.busy + w.busy.toNat = s.writers.countP Writer.busy + w'.busy.toNat :=
    countP_set_busy here
  have before := merged.opened
  change (s.writers.set j w').countP Writer.busy ≤ k'.fs.log.outstanding
  omega

theorem Merged.fit_log {l : Log.LogStruct} (merged : Merged k₀ ws₀ f order s) (here : s.writers[j]? = some w)
    (after : k' = s.kernel.relog l) (quiet : l.committing = false)
    (opened : s.kernel.fs.log.outstanding + w'.busy.toNat ≤ l.outstanding + w.busy.toNat)
    (moved : ∀ w₀ done, Progress w₀ w done → Progress w₀ w' done) :
    Merged k₀ ws₀ f order ⟨k', s.writers.set j w'⟩ := by
  subst after
  exact merged.moves here (merged.volume.relog l) (merged.fit.relog l) rfl quiet rfl opened moved

theorem Merged.progress (merged : Merged k₀ ws₀ f order s) (here : s.writers[j]? = some w) :
    ∃ w₀, Progress w₀ w (byWriter order j) := by
  rcases merged.writers j with ⟨none, -⟩ | ⟨w₀, u, -, second, progress⟩
  · exact nomatch none.symm.trans here
  · cases second.symm.trans here
    exact ⟨w₀, progress⟩

variable {data : List Byte} {rest : List (List Byte)}

variable {w₀ : Writer} {done : List (List Byte)}

/- The end of a call. -/
theorem Progress.finish (h : Progress w₀ w done) (calls : w.calls = data :: rest) (outside : w.place = .outside)
    (all : ¬ w.i < data.length) : Progress w₀ { w with
      calls := rest
      i := 0
      returned := w.returned ++ [(data.length : Int)] } done := by
  refine ⟨?_, ?_, fun inside => absurd outside inside, fun _ _ r _ wrote => nomatch outside.symm.trans wrote⟩
  · rw [← h.pieces]
    congr 1
    unfold Writer.todo
    rw [calls, outside]
    dsimp only
    rw [List.drop_of_length_le (by omega), pieces_nil, List.nil_append]
    cases rest with
    | nil => rfl
    | cons data rest => rfl
  · rw [← h.returns, calls]
    simp

theorem Progress.enter (h : Progress w₀ w done) (calls : w.calls = data :: rest) (outside : w.place = .outside)
    (more : w.i < data.length) : Progress w₀ { w with place := .inside } done := by
  refine ⟨?_, h.returns, fun _ => ⟨data, rest, calls, more⟩, fun _ _ _ _ wrote => nomatch wrote⟩
  rw [← h.pieces]
  congr 1
  unfold Writer.todo
  rw [calls, outside]

theorem Progress.leave {r : Int} (h : Progress w₀ w done) (calls : w.calls = data :: rest)
    (wrote : w.place = .wrote r) : Progress w₀ { w with
      i := w.i + min (data.length - w.i) maxWrite
      place := .outside } done := by
  refine ⟨?_, h.returns, fun inside => absurd rfl inside, fun _ _ _ _ wrote => nomatch wrote⟩
  rw [← h.pieces]
  congr 1
  unfold Writer.todo
  rw [calls, wrote]

theorem Progress.write (h : Progress w₀ w done) (calls : w.calls = data :: rest) (inside : w.place = .inside)
    (more : w.i < data.length) :
    Progress w₀ { w with place := .wrote (min (data.length - w.i) maxWrite : Nat) }
      (done ++ [(data.drop w.i).take maxWrite]) := by
  have some : data.drop w.i ≠ [] := fun none => by
    have := List.drop_eq_nil_iff.mp none
    omega
  refine ⟨?_, h.returns, fun _ => ⟨data, rest, calls, more⟩, fun data' rest' r same wrote => ?_⟩
  · rw [← h.pieces, List.append_assoc]
    congr 1
    unfold Writer.todo
    rw [calls, inside]
    dsimp only
    rw [pieces_some some, drop_piece]
    rfl
  · cases calls.symm.trans same
    cases wrote
    rfl

/- The piece is in the file, at the offset, and the offset behind it. -/
theorem Merged.write {r : Int} {piece : List Byte} (merged : Merged k₀ ws₀ f order s)
    (start : k₀.files.off f ≤ (k₀.files.bytes (k₀.target f)).length) (here : s.writers[j]? = some w)
    (fits : (s.kernel.file f).off + piece.length ≤ MAXFILE * BSIZE) (wrote : Wrote s.kernel f piece r k')
    (busy : w'.busy = w.busy)
    (moved : r = piece.length → ∀ w₀ done, Progress w₀ w done → Progress w₀ w' (done ++ [piece])) :
    Merged k₀ ws₀ f (order ++ [(j, piece)]) ⟨k', s.writers.set j w'⟩ := by
  have off : (s.kernel.file f).off = k₀.files.off f + (joined order).length := by
    have offsets := congrFun (congrArg ByteFiles.off merged.files) f
    exact offsets.trans (update_self _ _ _)
  have bytes : s.kernel.files.bytes (s.kernel.target f) =
      overwrite (k₀.files.bytes (k₀.target f)) (k₀.files.off f) (joined order) := by
    have contents := congrFun (congrArg ByteFiles.bytes merged.files) (k₀.target f)
    rw [merged.target]
    exact contents.trans (update_self _ _ _)
  have written : Fs.writeAt (s.kernel.files.bytes (s.kernel.target f)) (s.kernel.files.off f) piece =
      some (overwrite (k₀.files.bytes (k₀.target f)) (k₀.files.off f) (joined (order ++ [(j, piece)]))) := by
    have length := length_overwrite (a := joined order) start
    have off' : s.kernel.files.off f = k₀.files.off f + (joined order).length := off
    have small : MAXFILE * BSIZE < 2 ^ 32 := by decide
    unfold Fs.writeAt
    rw [bytes, off', if_neg (by omega), overwrite_append start, joined_append]
  have files := wrote.files
  rw [written] at files
  obtain ⟨result, files⟩ := files
  refine ⟨wrote.volume, wrote.fit, (congrFun wrote.target f).trans merged.target, ?_, ?_, ?_, ?_⟩
  · change k'.fs.log.committing = false
    rw [wrote.log]
    exact merged.quiet
  · have count : (s.writers.set j w').countP Writer.busy + w.busy.toNat = s.writers.countP Writer.busy + w'.busy.toNat :=
      countP_set_busy here
    have before := merged.opened
    have log : k'.fs.log.outstanding = s.kernel.fs.log.outstanding := by rw [wrote.log]
    change (s.writers.set j w').countP Writer.busy ≤ k'.fs.log.outstanding
    rw [busy] at count
    omega
  · refine files.trans ?_
    have off' : s.kernel.files.off f = k₀.files.off f + (joined order).length := off
    rw [off', merged.files, merged.target, joined_append, List.length_append]
    dsimp only
    rw [Function.update_idem, Function.update_idem, Nat.add_assoc]
  · refine writers_set here (fun i other => ?_) (fun w₀ progress => ?_) merged.writers
    · rw [byWriter_append, if_neg (Ne.symm other), List.append_nil]
    · rw [byWriter_append, if_pos rfl]
      exact moved result w₀ _ progress

theorem wp_turn (start : k₀.files.off f ≤ (k₀.files.bytes (k₀.target f)).length) (merged : Merged k₀ ws₀ f order s)
    (ready : Ready f s j) :
    wp granting (turn f s.writers j) (fun ws k => ∃ order', Merged k₀ ws₀ f order' ⟨k, ws⟩) s.kernel := by
  unfold turn
  cases here : s.writers[j]? with
  | none => exact wp_pure ⟨order, merged⟩
  | some w =>
    obtain ⟨w₀, progress⟩ := merged.progress here
    -- a step that changes nothing
    have stays : Merged k₀ ws₀ f order ⟨s.kernel, s.writers.set j w⟩ :=
      merged.moves here merged.volume merged.fit rfl merged.quiet rfl le_rfl fun _ _ h => h
    dsimp only
    cases calls : w.calls with
    | nil =>
      rw [next_nil calls]
      exact wp_pure ⟨order, stays⟩
    | cons data rest =>
      cases place : w.place with
      | outside =>
        have idle : w.busy = false := by
          unfold Writer.busy
          rw [place]
          rfl
        rw [next_outside calls place]
        by_cases more : w.i < data.length
        · rw [if_pos more, bind_assoc]
          refine wp_get_bind ?_
          by_cases admits : Log.admits s.kernel.fs.log = true
          · rw [if_pos admits, bind_assoc]
            refine wp_seq (wp_beginOp admits) fun _ k' after => wp_pure ⟨order, ?_⟩
            refine merged.fit_log here after merged.quiet ?_ fun _ _ h => h.enter calls place more
            rw [idle]
            exact le_rfl
          · rw [if_neg admits]
            exact wp_pure ⟨order, stays⟩
        · rw [if_neg more]
          exact wp_pure ⟨order, merged.moves here merged.volume merged.fit rfl merged.quiet rfl le_rfl
            fun _ _ h => h.finish calls place more⟩
      | inside =>
        have busy : w.busy = true := by
          unfold Writer.busy
          rw [place]
          rfl
        obtain ⟨data', rest', calls', more⟩ := progress.inCall (by rw [place]; nofun)
        cases calls.symm.trans calls'
        obtain ⟨fits, room⟩ := ready w data rest here calls place
        have opened : 0 < s.kernel.fs.log.outstanding := (busy_pos here busy).trans_le merged.opened
        have short : min (data.length - w.i) maxWrite < 2 ^ 32 := by
          have step : maxWrite < 2 ^ 32 := by decide
          omega
        rw [next_inside calls place, bind_assoc]
        refine wp_seq (wp_chunkBody merged.volume merged.fit short (Or.inr ⟨opened, room⟩)) fun r k' wrote => ?_
        rw [next_piece] at wrote
        have length : ((data.drop w.i).take maxWrite).length = min (data.length - w.i) maxWrite := by
          rw [List.length_take, List.length_drop, Nat.min_comm]
        refine wp_pure ⟨_, merged.write start here (by rwa [length]) wrote (by rw [busy]; rfl) fun result w₀ done h => ?_⟩
        rw [result, length]
        exact h.write calls place more
      | wrote r =>
        have busy : w.busy = true := by
          unfold Writer.busy
          rw [place]
          rfl
        obtain rfl := progress.wrote data rest r calls place
        rw [next_wrote calls place, bind_assoc]
        refine wp_seq (wp_endOp merged.quiet) fun _ k' after => ?_
        rw [if_neg (by omega), if_neg (fun other => other rfl)]
        refine wp_pure ⟨order, merged.fit_log here after merged.quiet ?_ fun _ _ h => h.leave calls place⟩
        rw [busy]
        change s.kernel.fs.log.outstanding + 0 ≤ s.kernel.fs.log.outstanding - 1 + 1
        omega

theorem wp_turns {js : List Nat} (start : k₀.files.off f ≤ (k₀.files.bytes (k₀.target f)).length)
    (merged : Merged k₀ ws₀ f order s) (ready : Along (step f) (Ready f) s js) :
    wp granting (turns f js s.writers) (fun ws k => ∃ order', Merged k₀ ws₀ f order' ⟨k, ws⟩) s.kernel := by
  induction js generalizing s order with
  | nil => exact wp_pure ⟨order, merged⟩
  | cons j js ih =>
    refine wp_seq (wp_result (wp_turn start merged ready.1)) ?_
    rintro ws k ⟨⟨order', merged⟩, ended⟩
    have reached : step f s j = some ⟨k, ws⟩ := by
      unfold step
      rw [ended]
    exact ih merged (ready.2 _ reached)

end Step

section Run
variable {k : Kernel} {ws : List Writer} {f : Nat}

/- A writer before its first call. -/
def Fresh (w : Writer) : Prop := w.i = 0 ∧ w.place = .outside ∧ w.returned = []

/- The pieces of all calls of a writer. -/
def Writer.chunks (w : Writer) : List (List Byte) := w.calls.flatMap pieces

variable {w : Writer}

theorem Fresh.todo (fresh : Fresh w) : w.todo = w.chunks := by
  unfold Writer.todo Writer.chunks
  rw [fresh.1, fresh.2.1]
  cases w.calls with
  | nil => rfl
  | cons data rest => rfl

theorem Fresh.progress (fresh : Fresh w) : Progress w w [] :=
  ⟨rfl, rfl, fun busy => absurd fresh.2.1 busy, fun _ _ _ _ wrote => nomatch fresh.2.1.symm.trans wrote⟩

theorem merged_start (volume : Fs.Volume k.fs) (fit : OpenFile k f) (quiet : k.fs.log.committing = false)
    (fresh : ∀ w ∈ ws, Fresh w) : Merged k ws f [] ⟨k, ws⟩ := by
  refine ⟨volume, fit, rfl, quiet, ?_, ?_, fun j => ?_⟩
  · have none : ws.countP Writer.busy = 0 := by
      refine List.countP_eq_zero.mpr fun w inside => ?_
      unfold Writer.busy
      rw [(fresh w inside).2.1]
      decide
    change ws.countP Writer.busy ≤ _
    rw [none]
    exact Nat.zero_le _
  · change k.files = ⟨update _ _ (overwrite _ _ []), update _ _ (_ + 0)⟩
    rw [overwrite_nil, Function.update_eq_self, Nat.add_zero, Function.update_eq_self]
  · cases here : ws[j]? with
    | none => exact Or.inl ⟨rfl, rfl, rfl⟩
    | some w => exact Or.inr ⟨w, w, rfl, rfl, (fresh w (List.mem_of_getElem? here)).progress⟩

/- A short call is one piece. -/
theorem infix_of_short {order : List (Nat × List Byte)} {j : Nat} {data : List Byte}
    (all : byWriter order j = w.chunks) (call : data ∈ w.calls) (short : data.length ≤ maxWrite) :
    data <:+: joined order := by
  by_cases none : data = []
  · rw [none]
    exact List.nil_infix
  · have piece : data ∈ byWriter order j := by
      rw [all]
      exact List.mem_flatMap.mpr ⟨data, call, by rw [pieces_short none short]; exact List.mem_singleton_self data⟩
    have piece : data ∈ order.map Prod.snd := by
      obtain ⟨x, inside, same⟩ := List.mem_map.mp piece
      exact List.mem_map.mpr ⟨x, List.mem_of_mem_filter inside, same⟩
    exact List.infix_of_mem_flatten piece

/-- Writers that share an open file lose nothing. As long as balloc succeeds, the file is not
too large and each piece finds room in the log: after any interleaving of the writers' steps the
file holds, from the first offset on, the pieces of all writers in some order, each writer's
pieces in its own order, and the offset is behind them. A writer that has finished has written all
its pieces, and its calls have returned their lengths; a call of one piece is in one piece. -/
theorem writers_lose_nothing {js : List Nat} (volume : Fs.Volume k.fs) (fit : OpenFile k f)
    (start : (k.file f).off ≤ (k.fs.contents (k.target f)).length) (quiet : k.fs.log.committing = false)
    (fresh : ∀ w ∈ ws, Fresh w) (ready : Along (step f) (Ready f) ⟨k, ws⟩ js) :
    wp granting (turns f js ws) (fun ws' k' => ∃ order : List (Nat × List Byte),
      k'.fs.contents = update k.fs.contents (k.target f)
        (overwrite (k.fs.contents (k.target f)) (k.file f).off (joined order)) ∧
      (k'.file f).off = (k.file f).off + (joined order).length ∧
      (∀ x ∈ order, x.1 < ws.length) ∧
      ∀ j w, ws[j]? = some w → ∃ w', ws'[j]? = some w' ∧ byWriter order j <+: w.chunks ∧
        (w'.calls = [] → byWriter order j = w.chunks ∧ w'.returned = w.calls.map (fun data => (data.length : Int)) ∧
          ∀ data ∈ w.calls, data.length ≤ maxWrite → data <:+: joined order)) k := by
  refine wp_mono (wp_turns (s := ⟨k, ws⟩) start (merged_start volume fit quiet fresh) ready) ?_
  rintro ws' k' ⟨order, merged⟩
  have offsets := congrFun (congrArg ByteFiles.off merged.files) f
  refine ⟨order, congrArg ByteFiles.bytes merged.files, offsets.trans (update_self _ _ _), fun x inside => ?_,
    fun j w here => ?_⟩
  · rcases merged.writers x.1 with ⟨-, -, none⟩ | ⟨w₀, -, here, -⟩
    · have piece : x.2 ∈ byWriter order x.1 :=
        List.mem_map.mpr ⟨x, List.mem_filter.mpr ⟨inside, decide_eq_true rfl⟩, rfl⟩
      rw [none] at piece
      exact nomatch piece
    · exact (List.getElem?_eq_some_iff.mp here).1
  · rcases merged.writers j with ⟨-, none, -⟩ | ⟨w₀, w', first, second, progress⟩
    · exact nomatch none.symm.trans here
    · cases first.symm.trans here
      have fresh := fresh w (List.mem_of_getElem? here)
      have pieces := progress.pieces
      rw [fresh.todo] at pieces
      refine ⟨w', second, ⟨_, pieces⟩, fun finished => ?_⟩
      have all : byWriter order j = w.chunks := by
        have none : w'.todo = [] := by
          unfold Writer.todo
          rw [finished]
        rwa [none, List.append_nil] at pieces
      have returns := progress.returns
      rw [finished, fresh.2.2] at returns
      refine ⟨all, ?_, fun data call short => infix_of_short all call short⟩
      simpa using returns

end Run

/- The kernel over the image with the file of 30 blocks, which is open as file 0. -/
def sharedKernel : Kernel :=
  { Kernel.zero with
    fs := { Fs.smallFs with
      disk := Fs.wideDisk
      icache := fun ip =>
        if ip = 0 then ⟨ROOTINO, 2, false, true, Fs.smallRoot⟩
        else if ip = 1 then ⟨3, 1, false, true, Fs.wideInode⟩
        else Inode.zero }
    file := fun f => if f = 0 then ⟨.inode, 3, true, true, 0, 1, 0⟩ else Kernel.zero.file f
    cont := fun _ => { Cont.zero with
      state := .crunnable
      mdsk := MAX_CONT_DSK } }

theorem volume_shared : Fs.Volume sharedKernel.fs := by
  have slot (ip : Nat) (held : 0 < (sharedKernel.fs.icache ip).ref) :
      (ip = 0 ∧ (sharedKernel.fs.icache ip).inum = 1 ∧ (sharedKernel.fs.icache ip).d = Fs.wideInodes 1) ∨
      (ip = 1 ∧ (sharedKernel.fs.icache ip).inum = 3 ∧ (sharedKernel.fs.icache ip).d = Fs.wideInodes 3) := by
    match ip with
    | 0 => exact Or.inl ⟨rfl, rfl, rfl⟩
    | 1 => exact Or.inr ⟨rfl, rfl, rfl⟩
    | ip + 2 => exact absurd held (lt_irrefl (0 : Int))
  refine Fs.volume_wide rfl rfl ⟨fun ip jp _ _ held held' same => ?_, fun ip _ held => ?_⟩ fun ip _ held _ => ?_
  · have first := slot ip held
    have second := slot jp held'
    omega
  · change _ < 200
    have here := slot ip held
    omega
  · rcases slot ip held with ⟨-, number, copy⟩ | ⟨-, number, copy⟩ <;> rw [number, copy]

theorem sharedKernel_open : OpenFile sharedKernel 0 := by
  have loaded : Fs.Loaded sharedKernel.fs 1 3 := ⟨by decide, by decide, by decide⟩
  have inode : sharedKernel.fs.inodes 3 = Fs.wideInode := loaded.inodes volume_shared.cache
  refine ⟨rfl, rfl, by decide, by decide, by decide, rfl, ?_, ?_⟩
  · change (sharedKernel.fs.inodes 3).type ≠ 0
    rw [inode]
    decide
  · change (sharedKernel.fs.inodes 3).type ≠ Fs.T_DEV
    rw [inode]
    decide

/- Three writers of one piece of 13 blocks each, in their transactions at the same time: begin_op
lets them in, and the third piece does not fit in the log. -/
theorem three_writers_overflow : Fs.Volume sharedKernel.fs ∧ OpenFile sharedKernel 0 ∧
    sharedKernel.fs.log.lh = [] ∧ sharedKernel.fs.log.outstanding = 0 ∧
    (turns 0 [0, 1, 2, 0, 1, 2] ((List.range 3).map fun j =>
      ⟨⟨0, j⟩, [List.replicate 6656 7], 0, .outside, []⟩)).faultOf sharedKernel = some (.panic Log.tooBig) ∧
    ¬ wp granting (turns 0 [0, 1, 2, 0, 1, 2] ((List.range 3).map fun j =>
      ⟨⟨0, j⟩, [List.replicate 6656 7], 0, .outside, []⟩)) (fun _ _ => True) sharedKernel := by
  have run : (turns 0 [0, 1, 2, 0, 1, 2] ((List.range 3).map fun j =>
      ⟨⟨0, j⟩, [List.replicate 6656 7], 0, .outside, []⟩)).faultOf sharedKernel = some (.panic Log.tooBig) ∧
      ((turns 0 [0, 1, 2, 0, 1, 2] ((List.range 3).map fun j =>
        ⟨⟨0, j⟩, [List.replicate 6656 7], 0, .outside, []⟩)) sharedKernel).1.all Event.granted = true := by decide +kernel
  refine ⟨volume_shared, sharedKernel_open, rfl, rfl, run.1,
    not_wp_of_fault (List.all_eq_true.mp run.2) run.1 fun same => ?_⟩
  exact absurd (Fault.panic.inj same) (by decide)

/- A test for Ready that does not count the blocks of the free map. -/
def roomy (f : Nat) (s : State) (j : Nat) : Bool :=
  match s.writers[j]? with
  | none => true
  | some w =>
    match w.calls with
    | [] => true
    | data :: _ =>
      let n := min (data.length - w.i) maxWrite
      (s.kernel.file f).off + n ≤ MAXFILE * BSIZE ∧
        s.kernel.fs.log.lh.length + 2 * Fs.blocksOf (s.kernel.file f).off n + 3 <
          min LOGSIZE (s.kernel.fs.log.size - 1)

theorem ready_of_roomy {f : Nat} (s : State) (j : Nat) (room : roomy f s j = true) : Ready f s j := by
  intro w data rest here calls _
  unfold roomy at room
  rw [here] at room
  dsimp only at room
  rw [calls] at room
  obtain ⟨fits, room⟩ := of_decide_eq_true room
  refine ⟨fits, ?_⟩
  have maps := Fs.card_freeMaps s.kernel.fs
    (Fs.blocksOf (s.kernel.file f).off (min (data.length - w.i) maxWrite) + 1)
  unfold Room
  omega

theorem writers_lose_nothing_two : wp granting
    (turns 0 [0, 1, 0, 1, 0, 1, 0, 1] [⟨⟨0, 0⟩, [[7, 8]], 0, .outside, []⟩, ⟨⟨0, 1⟩, [[9]], 0, .outside, []⟩])
    (fun _ k' => ∃ order, k'.fs.contents 3 = overwrite (sharedKernel.fs.contents 3) 0 (joined order) ∧
      (k'.file 0).off = (joined order).length ∧ ∀ x ∈ order, x.1 < 2) sharedKernel := by
  have ready : Along (step 0) (Ready 0) ⟨sharedKernel,
      [⟨⟨0, 0⟩, [[7, 8]], 0, .outside, []⟩, ⟨⟨0, 1⟩, [[9]], 0, .outside, []⟩]⟩ [0, 1, 0, 1, 0, 1, 0, 1] := by
    refine along_mono (p := fun s j => roomy 0 s j = true) (fun s j => ready_of_roomy s j) (along_of_checks ?_)
    decide +kernel
  have start : (sharedKernel.file 0).off ≤ (sharedKernel.fs.contents (sharedKernel.target 0)).length := Nat.zero_le _
  have fresh : ∀ w ∈ ([⟨⟨0, 0⟩, [[7, 8]], 0, .outside, []⟩, ⟨⟨0, 1⟩, [[9]], 0, .outside, []⟩] : List Writer), Fresh w := by
    intro w inside
    rcases List.mem_pair.mp inside with rfl | rfl <;> exact ⟨rfl, rfl, rfl⟩
  refine wp_mono (writers_lose_nothing volume_shared sharedKernel_open start rfl fresh ready) ?_
  rintro ws' k' ⟨order, contents, off, members, -⟩
  refine ⟨order, ?_, off.trans (Nat.zero_add _), members⟩
  rw [contents]
  exact update_self _ _ _

end Xv6c.Sharing

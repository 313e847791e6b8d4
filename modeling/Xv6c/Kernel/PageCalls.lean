import Xv6c.Kernel.Pages

/-! The system calls keep the pages apart. First the calls that work on files and
pipes, then those that make, change and reap processes. -/
namespace Xv6c
open Lib Mem
open Function (update update_apply update_of_ne update_self)

variable {M : Mode Event Fault} {A B : Type} {g : Books} (km : KernelMode M g.sized)
variable {k : Kernel} {l : List Nat} {X : Multiset Nat} {S : Finset ProcId}

/- Between two system calls nothing is in hand and every slot is settled. -/
def Settled (g : Books) (k : Kernel) : Prop := ∃ l, Owned g k l 0 slots

/- Pages that were free or a pipe's still are one or the other. -/
def Conserved (k : Kernel) (l : List Nat) (k' : Kernel) (l' : List Nat) : Prop :=
  ∀ r, r ∈ l ∨ r ∈ pipePages k.file → r ∈ l' ∨ r ∈ pipePages k'.file

/- Settled again, where flags are followed without a page lost. -/
def Saved (g : Books) (k : Kernel) (l : List Nat) (k' : Kernel) : Prop :=
  ∃ l', Owned g k' l' 0 slots ∧ (g.flagged → Conserved k l k' l')

variable {k' : Kernel}

theorem Owned.saved (h : Owned g k' l 0 slots) (same : pipePages k'.file = pipePages k.file) : Saved g k l k' :=
  ⟨l, h, fun _ _ either => same ▸ either⟩

theorem Saved.after {k₁ : Kernel} (h : Saved g k₁ l k') (same : pipePages k₁.file = pipePages k.file) :
    Saved g k l k' := by
  obtain ⟨l', owned, conserved⟩ := h
  refine ⟨l', owned, fun follow r either => conserved follow r ?_⟩
  rwa [same]

theorem Saved.settled (h : Saved g k l k') : Settled g k' := by
  obtain ⟨l', owned, -⟩ := h
  exact ⟨l', owned⟩

def Keeps (M : Mode Event Fault) (g : Books) (x : KM A) : Prop :=
  ∀ k l, Owned g k l 0 slots → wp M x (fun _ k' => Saved g k l k') k

variable {x : KM A}

theorem Keeps.settled (keeps : Keeps M g x) (h : Settled g k) : wp M x (fun _ k' => Settled g k') k := by
  obtain ⟨l, h⟩ := h
  exact wp_mono (keeps k l h) fun _ _ saved => saved.settled

theorem Keeps.after (keeps : Keeps M g x) (h : Saved g k l k') :
    wp M x (fun _ k'' => Saved g k l k'') k' := by
  obtain ⟨l₁, owned, conserved⟩ := h
  refine wp_mono (keeps k' l₁ owned) fun _ k₂ ⟨l₂, owned₂, conserved₂⟩ => ⟨l₂, owned₂, ?_⟩
  exact fun follow r either => conserved₂ follow r (conserved follow r either)

theorem keeps_pure (a : A) : Keeps M g (pure a : KM A) := fun _ _ h => wp_pure (h.saved rfl)

theorem keeps_bind {f : A → KM B} (first : Keeps M g x) (rest : ∀ a, Keeps M g (f a)) :
    Keeps M g (x >>= f) := fun k l h => wp_seq (first k l h) fun a _ saved => (rest a).after saved

theorem keeps_get {f : Kernel → KM B} (rest : ∀ k, Keeps M g (f k)) :
    Keeps M g (Prog.get >>= f) := fun k l h => wp_get_bind (rest k k l h)

theorem keeps_ite {c : Prop} [Decidable c] {y : KM A} (left : Keeps M g x) (right : Keeps M g y) :
    Keeps M g (if c then x else y) := fun k l h => wp_ite (fun _ => left k l h) (fun _ => right k l h)

theorem keeps_fault (km : KernelMode M g.sized) {e : Fault} (other : e ∉ mapPanics) :
    Keeps M g (Prog.fault e : KM A) := fun _ _ _ => wp_fault (km.other other)

theorem keeps_onFs (km : KernelMode M g.sized) {p : ProcId} (x : Fs.FsM A) [Fs.Acts x] :
    Keeps M g (onFs p x) := by
  intro k l owned
  exact wp_last (wp_onFs km owned fun a k' _ file _ _ h => wp_pure (h.saved (by rw [file])))

section FileTable

theorem pipePages_congr {F G : Nat → File} (type : ∀ f, (G f).type = (F f).type)
    (pipe : ∀ f, (G f).pipe = (F f).pipe) : pipePages G = pipePages F := by
  simp only [pipePages, type, pipe]

variable {f : Nat} {Q : B → Kernel → Prop}

/- A file changes in its reference count and its offset only. -/
theorem wp_recount {c : File → File} {n : Unit → KM B} (h : Owned g k l X S)
    (type : (c (k.file f)).type = (k.file f).type) (pipe : (c (k.file f)).pipe = (k.file f).pipe)
    (writable : (c (k.file f)).writable = (k.file f).writable)
    (unused : (c (k.file f)).ref = 0 → (k.file f).type = .none) (outside : NFILE ≤ f → (c (k.file f)).ref = 0)
    (next : pipePages (update k.file f (c (k.file f))) = pipePages k.file →
      Owned g { k with file := update k.file f (c (k.file f)) } l X S →
      wp M (n ()) Q { k with file := update k.file f (c (k.file f)) }) :
    wp M (modifyFile f c >>= n) Q k := by
  have types := update_same type
  have pipes := update_same pipe
  have pages := pipePages_congr types pipes
  refine wp_modify_bind (next pages (h.refile ?_ ?_ ?_ ?_))
  · refine ⟨fun q zero => ?_, fun q large => ?_⟩
    · rw [types]
      rw [update_apply] at zero
      split at zero
      · rename_i here
        rw [here]
        exact unused zero
      · exact h.files.unused q zero
    · rw [update_apply]
      split
      · rename_i here
        exact outside (here ▸ large)
      · exact h.files.table q large
  · refine h.pipes.refile (fun q isPipe => ⟨?_, pipes q, update_same writable q⟩) fun q r _ other _ => ?_
    · rwa [types] at isPipe
    · rwa [types]
  · rw [pages]
    exact h.known
  · rw [pages]

theorem wp_filealloc {n : Option Nat → KM B} (h : Owned g k l X S) (full : wp M (n none) Q k)
    (found : ∀ f, f < NFILE → (k.file f).ref = 0 →
      pipePages (update k.file f { k.file f with ref := 1 }) = pipePages k.file →
      Owned g { k with file := update k.file f { k.file f with ref := 1 } } l X S →
      wp M (n (some f)) Q { k with file := update k.file f { k.file f with ref := 1 } }) :
    wp M (filealloc >>= n) Q k := by
  refine wp_bind ?_
  unfold filealloc
  refine wp_get_bind ?_
  split
  · rename_i f hit
    have index : f < NFILE := List.mem_range.mp (List.mem_of_find?_eq_some hit)
    have free : (k.file f).ref = 0 := by simpa using List.find?_some hit
    refine wp_recount h rfl rfl rfl (fun zero => absurd zero (show (1 : Int) ≠ 0 by decide))
      (fun large => ?_) ?_
    · omega
    · exact fun same owned => wp_pure (found f index free same owned)
  · exact wp_pure full

theorem wp_filedup (km : KernelMode M g.sized) {n : Unit → KM B} (h : Owned g k l X S)
    (next : ∀ k', k'.proc = k.proc → k'.kmem = k.kmem → pipePages k'.file = pipePages k.file →
      Owned g k' l X S → wp M (n ()) Q k') : wp M (filedup f >>= n) Q k := by
  refine wp_bind ?_
  unfold filedup
  refine wp_get_bind (wp_ite (fun _ => wp_fault (km.other (by decide))) (fun used => wp_last ?_))
  have nonzero : incr (k.file f).ref ≠ 0 := by
    unfold incr maxInt
    split <;> omega
  refine wp_recount h rfl rfl rfl (fun zero => absurd zero nonzero) (fun large => ?_) ?_
  · have := h.files.table f large
    omega
  · exact fun same owned => wp_pure (next _ rfl rfl same owned)

variable {w : Bool}

theorem endFlag_ne {v : Bool} (apart : v ≠ w) : endFlag v ≠ endFlag w := by
  revert apart
  cases v <;> cases w <;> simp [endFlag, pipeWriteopen, pipeReadopen]

variable {r : Nat}

/- pipeclose up to the test of the two flags. -/
theorem wp_clearEnd {p : ProcId} {Q : Unit → Kernel → Prop}
    (h : wp M (onMem p (setEntry r (endFlag w) 0) >>= fun _ =>
      wakeup (if w then .nread r else .nwrite r) >>= fun _ => Prog.get >>= fun k =>
      if word (k.kmem.mem r) pipeReadopen = 0 ∧ word (k.kmem.mem r) pipeWriteopen = 0 then
        onMem p (kfree r) else pure ()) Q k) : wp M (pipeclose p r w) Q k := by
  unfold pipeclose
  cases w
  · exact h
  · exact h

include km

/- The last end of a pipe is closed, with its page in hand. -/
theorem pipeclose_last (h : Owned g k l {r} slots) (shut : g.flagged → word (k.kmem.mem r) (endFlag (!w)) = 0) :
    wp M (pipeclose g.caller r w) (fun _ k' => k'.file = k.file ∧
      ∃ l', Owned g k' l' 0 slots ∧ (∀ q ∈ l, q ∈ l') ∧ (g.flagged → r ∈ l')) k := by
  rw [← add_zero ({r} : Multiset Nat)] at h
  have cleared := h.moves ((Moves.refl h.heap {r}).write
    (n := update k.kmem.mem r (setWord (k.kmem.mem r) (endFlag w) 0)) h.hand
    (fun q hq => update_of_ne (by simpa using hq) _ _) le_rfl)
  refine wp_clearEnd (wp_bind (wp_zoom (wp_modify ?_)))
  refine wp_wakeup cleared fun k₂ file mem _ _ owned => wp_get_bind (wp_ite (fun _ => ?_) (fun more => ?_))
  · have fresh : r ∉ l := fun h =>
      held_apart owned.hand (Multiset.mem_coe.mpr h)
        (by simp)
    refine wp_zoom (wp_mono (kfree_spec km.safeMode owned.heap fresh nofun) ?_)
    rintro _ t ⟨moves, -, -⟩
    refine ⟨file, r :: l, ?_, fun q hq => List.mem_cons_of_mem r hq, fun _ => List.mem_cons_self⟩
    simpa using owned.moves moves.toMoves
  · refine wp_pure ⟨file, l, owned.drop (by simp), fun _ hq => hq, fun follow => absurd ?_ more⟩
    have both (v : Bool) : word (k₂.kmem.mem r) (endFlag v) = 0 := by
      rw [mem]
      simp only [Kernel.memPut, update_self]
      by_cases same : v = w
      · rw [same, word_setWord_self]
      · rw [word_setWord_ne _ _ (endFlag_ne same), Bool.eq_not.mpr same]
        exact shut follow
    exact ⟨both false, both true⟩

omit km in
/- One end of a pipe is closed while the other is open; until then its flag is wrong. -/
theorem pipeclose_other {q : Nat} (h : Owned { g with flagged := False } k l 0 slots)
    (other : (k.file q).type = .pipe ∧ (k.file q).pipe = r)
    (closed : ∀ f, (k.file f).type = .pipe → (k.file f).pipe = r → (k.file f).writable ≠ w)
    (pipes : PipeEnds g.flagged
      (update k.kmem.mem r (setWord (k.kmem.mem r) (endFlag w) 0)) k.file) :
    wp M (pipeclose g.caller r w) (fun _ k' => k'.file = k.file ∧ Owned g k' l 0 slots) k := by
  obtain ⟨isPipe, rfl⟩ := other
  have apart := endFlag_ne (closed q isPipe rfl)
  have flag := h.pipes.ends q isPipe
  have stored : Owned g _ l 0 slots :=
    (h.pipeStore (mem_pipePages h.files isPipe) ⟨pipes.toPipes, False.elim⟩).reflag pipes
  refine wp_clearEnd (wp_bind (wp_zoom (wp_modify ?_)))
  refine wp_wakeup stored fun k₂ file mem _ _ owned => wp_get_bind (wp_ite (fun none => ?_) (fun _ => ?_))
  · rw [mem] at none
    have cleared : word (setWord (k.kmem.mem (k.file q).pipe) (endFlag w) 0)
        (endFlag (k.file q).writable) = 0 := by
      simp only [Kernel.memPut, update_self] at none
      cases (k.file q).writable
      · exact none.1
      · exact none.2
    rw [word_setWord_ne _ _ apart] at cleared
    exact absurd cleared flag
  · exact wp_pure ⟨file, owned⟩

/- The file table after the last reference to f is gone. -/
def released (file : Nat → File) (f : Nat) : Nat → File :=
  update file f { file f with ref := 0, type := .none }

variable {file : Nat → File}

omit km in
theorem released_pipe {q : Nat} (isPipe : (released file f q).type = .pipe) :
    q ≠ f ∧ released file f q = file q := by
  by_cases same : q = f
  · subst same
    simp [released] at isPipe
  · exact ⟨same, update_of_ne same _ _⟩

omit km in
theorem released_files (h : Files file) (f : Nat) : Files (released file f) := by
  constructor <;> intro q hq <;> by_cases same : q = f
  · simp [released, same]
  · rw [released, update_of_ne same] at hq ⊢
    exact h.unused q hq
  · simp [released, same]
  · rw [released, update_of_ne same]
    exact h.table q hq

omit km in
theorem released_pipes {m : Nat → Bytes} (h : Pipes m file) (f : Nat) : Pipes m (released file f) := by
  refine ⟨fun q isPipe => ?_, fun q r isPipe isPipe' => ?_⟩
  · obtain ⟨-, same⟩ := released_pipe isPipe
    rw [same] at isPipe ⊢
    exact h.ends q isPipe
  · obtain ⟨-, same⟩ := released_pipe isPipe
    obtain ⟨-, same'⟩ := released_pipe isPipe'
    rw [same] at isPipe ⊢
    rw [same'] at isPipe' ⊢
    exact h.alone q r isPipe isPipe'

omit km in
/- The flags once the end that f was is closed. -/
theorem PipeEnds.close {flagged : Prop} {m : Nat → Bytes} (h : PipeEnds flagged m file)
    (isPipe : (file f).type = .pipe) : PipeEnds flagged
      (update m (file f).pipe (setWord (m (file f).pipe) (endFlag (file f).writable) 0))
      (released file f) := by
  -- The flag of an open end is that of another file, so it is not the one cleared.
  have kept {q : Nat} {v : Bool} (side : (file q).pipe = (file f).pipe → v ≠ (file f).writable) :
      word (update m (file f).pipe
        (setWord (m (file f).pipe) (endFlag (file f).writable) 0) (file q).pipe) (endFlag v) =
      word (m (file q).pipe) (endFlag v) := by
    by_cases page : (file q).pipe = (file f).pipe
    · rw [page, update_self, word_setWord_ne _ _ (endFlag_ne (side page))]
    · rw [update_of_ne page]
  have other {q : Nat} (apart : q ≠ f) (pipe : (file q).type = .pipe)
      (page : (file q).pipe = (file f).pipe) : (file q).writable ≠ (file f).writable :=
    fun side => apart (h.alone q f pipe isPipe page side)
  refine ⟨⟨fun q pipe => ?_, (released_pipes h.toPipes f).alone⟩,
    fun follow => ⟨fun q pipe => ?_, fun q v pipe none => ?_⟩⟩
  · obtain ⟨apart, same⟩ := released_pipe pipe
    rw [same] at pipe ⊢
    change word _ (endFlag (file q).writable) ≠ 0
    rw [kept (other apart pipe)]
    exact h.ends q pipe
  · obtain ⟨apart, same⟩ := released_pipe pipe
    rw [same] at pipe ⊢
    rw [kept (other apart pipe)]
    exact (h.flags follow).opened q pipe
  · obtain ⟨-, same⟩ := released_pipe pipe
    rw [same] at pipe none ⊢
    by_cases here : (file q).pipe = (file f).pipe ∧ v = (file f).writable
    · rw [here.1, here.2, update_self, word_setWord_self]
    · rw [kept fun page side => here ⟨page, side⟩]
      refine (h.flags follow).closed q v pipe fun r pipe' page => ?_
      by_cases isf : r = f
      · rw [isf] at page ⊢
        exact fun side => here ⟨page.symm, side.symm⟩
      · have old : released file f r = file r := update_of_ne isf _ _
        rw [← old] at pipe' page ⊢
        exact none r pipe' page

omit km in
theorem pipePages_released (file : Nat → File) (f : Nat) :
    pipePages (released file f) ⊆ pipePages file := by
  intro r
  simp only [pipePages, Finset.mem_image, Finset.mem_filter]
  rintro ⟨q, ⟨index, isPipe⟩, rfl⟩
  obtain ⟨-, same⟩ := released_pipe isPipe
  rw [same] at isPipe ⊢
  exact ⟨q, ⟨index, isPipe⟩, rfl⟩

omit km in
theorem mem_pipePages_iff (h : Files file) :
    r ∈ pipePages file ↔ ∃ f, (file f).type = .pipe ∧ (file f).pipe = r := by
  constructor
  · simp only [pipePages, Finset.mem_image, Finset.mem_filter]
    rintro ⟨f, ⟨_, isPipe⟩, rfl⟩
    exact ⟨f, isPipe, rfl⟩
  · rintro ⟨f, isPipe, rfl⟩
    exact mem_pipePages h isPipe

omit km in
/- Which pages are left to pipes when file f is released. -/
theorem mem_pipePages_released (h : Files file) :
    r ∈ pipePages (released file f) ↔ ∃ q, q ≠ f ∧ (file q).type = .pipe ∧ (file q).pipe = r := by
  rw [mem_pipePages_iff (released_files h f)]
  constructor
  · rintro ⟨q, isPipe, rfl⟩
    obtain ⟨apart, same⟩ := released_pipe isPipe
    rw [same] at isPipe ⊢
    exact ⟨q, apart, isPipe, rfl⟩
  · rintro ⟨q, apart, isPipe, rfl⟩
    have same : released file f q = file q := update_of_ne apart _ _
    exact ⟨q, same ▸ isPipe, by rw [same]⟩

omit km in
/- A file that is no pipe goes without a trace in the pages. -/
theorem Owned.released (h : Owned g k l X S) (other : (k.file f).type ≠ .pipe) :
    pipePages (released k.file f) = pipePages k.file ∧
      Owned g { k with file := released k.file f } l X S := by
  have apart {q : Nat} (isPipe : (k.file q).type = .pipe) : q ≠ f := by
    rintro rfl
    exact other isPipe
  have same : pipePages (Xv6c.released k.file f) = pipePages k.file := by
    ext r
    rw [mem_pipePages_released h.files, mem_pipePages_iff h.files]
    exact ⟨fun ⟨q, _, hq⟩ => ⟨q, hq⟩, fun ⟨q, isPipe, page⟩ => ⟨q, apart isPipe, isPipe, page⟩⟩
  refine ⟨same, h.refile (released_files h.files f) ?_ (same ▸ h.known) (by rw [same])⟩
  refine h.pipes.refile (fun q isPipe => ?_) fun q r _ isPipe _ => ?_
  · obtain ⟨-, old⟩ := released_pipe isPipe
    rw [old] at isPipe ⊢
    exact ⟨isPipe, rfl, rfl⟩
  · rw [Xv6c.released, update_of_ne (apart isPipe)]
    exact isPipe

/- The last reference to a pipe's end goes. -/
theorem pipeclose_spec (h : Owned g k l 0 slots) (isPipe : (k.file f).type = .pipe) :
    wp M (pipeclose g.caller (k.file f).pipe (k.file f).writable) (fun _ k' => Saved g k l k')
      { k with file := released k.file f } := by
  have files := released_files h.files f
  have known := (pipePages_released k.file f).trans h.known
  have whole (r : Nat) : r ∈ pipePages k.file ↔
      r = (k.file f).pipe ∨ r ∈ pipePages (released k.file f) := by
    rw [mem_pipePages_released h.files, mem_pipePages_iff h.files]
    constructor
    · rintro ⟨q, isPipe', page⟩
      by_cases here : q = f
      · exact Or.inl (here ▸ page.symm)
      · exact Or.inr ⟨q, here, isPipe', page⟩
    · rintro (rfl | ⟨q, _, hq⟩)
      · exact ⟨f, isPipe, rfl⟩
      · exact ⟨q, hq⟩
  by_cases other : (k.file f).pipe ∈ pipePages (released k.file f)
  · have same : pipePages (released k.file f) = pipePages k.file := by
      ext r
      rw [whole]
      exact ⟨Or.inr, fun either => either.elim (fun here => here ▸ other) id⟩
    have owned := h.unflag.refile files ⟨released_pipes h.pipes.toPipes f, False.elim⟩ known (by rw [same])
    obtain ⟨q, isPipe', page⟩ := (mem_pipePages_iff files).mp other
    refine wp_mono (pipeclose_other (q := q) owned ⟨isPipe', page⟩ (fun r isPipe' page => ?_)
      (h.pipes.close isPipe)) ?_
    · obtain ⟨apart, old⟩ := released_pipe isPipe'
      dsimp only at isPipe' page ⊢
      rw [old] at isPipe' page ⊢
      exact fun side => apart (h.pipes.alone r f isPipe' isPipe page side)
    · rintro _ k' ⟨file, owned⟩
      refine owned.saved ?_
      rw [file, same]
  · have split : {(k.file f).pipe} + (pipePages (released k.file f)).val =
        0 + (pipePages k.file).val := by
      rw [zero_add, Multiset.singleton_add, ← Finset.insert_val_of_notMem other]
      congr 1
      ext r
      rw [Finset.mem_insert, whole]
    have pipes : PipeEnds g.flagged k.kmem.mem (released k.file f) := by
      refine h.pipes.refile (fun q isPipe' => ?_) fun q r isPipe' isPipe'' page => ?_
      · obtain ⟨-, old⟩ := released_pipe isPipe'
        rw [old] at isPipe' ⊢
        exact ⟨isPipe', rfl, rfl⟩
      · obtain ⟨-, old⟩ := released_pipe isPipe'
        have apart : r ≠ f := by
          rintro rfl
          refine other ((mem_pipePages_iff files).mpr ⟨q, isPipe', ?_⟩)
          rw [old, page]
        rw [released, update_of_ne apart]
        exact isPipe''
    refine wp_mono (pipeclose_last km (h.refile files pipes known split) fun follow => ?_) ?_
    · refine (h.pipes.flags follow).closed f _ isPipe fun q isPipe' page => ?_
      by_cases here : q = f
      · simp [here]
      · exact absurd ((mem_pipePages_released h.files).mpr ⟨q, here, isPipe', page⟩) other
    · rintro _ k' ⟨file, l', owned, free, gone⟩
      refine ⟨l', owned, fun follow r hr => ?_⟩
      rw [file]
      rcases hr with hr | hr
      · exact Or.inl (free r hr)
      · rcases (whole r).mp hr with rfl | left
        · exact Or.inl (gone follow)
        · exact Or.inr left

theorem keeps_fileclose (f : Nat) : Keeps M g (fileclose g.caller f) := by
  intro k l h
  unfold fileclose
  refine wp_get_bind (wp_ite (fun _ => wp_fault (km.other (by decide))) (fun used => wp_ite (fun more => ?_) ?_))
  · refine wp_last (wp_recount h rfl rfl rfl (fun zero => ?_) (fun large => ?_) fun same owned =>
      wp_pure (owned.saved same))
    · dsimp only at zero
      omega
    · have := h.files.table f large
      omega
  · intro last
    refine wp_modify_bind ?_
    change wp M _ _ { k with file := released k.file f }
    split
    · rename_i isPipe
      exact pipeclose_spec km h isPipe
    · rename_i isInode
      obtain ⟨same, owned⟩ := h.released (f := f) (by rw [isInode]; decide)
      refine wp_onFs km owned fun _ k₁ _ file₁ _ _ owned => ?_
      refine wp_onFs km owned fun _ k₂ _ file₂ _ _ owned => ?_
      refine wp_last (wp_onFs km owned fun _ k₃ _ file₃ _ _ owned => wp_pure (owned.saved ?_))
      rw [file₃, file₂, file₁, same]
    · rename_i isNone
      obtain ⟨same, owned⟩ := h.released (f := f) (by rw [isNone]; decide)
      exact wp_pure (owned.saved same)

theorem keeps_pipeBad (f0 f1 : Option Nat) : Keeps M g (pipeBad g.caller f0 f1) := by
  unfold pipeBad
  cases f0 <;> cases f1
  · exact keeps_pure _
  · exact keeps_bind (keeps_fileclose km _) fun _ => keeps_pure _
  · exact keeps_bind (keeps_fileclose km _) fun _ => keeps_pure _
  · exact keeps_bind (keeps_fileclose km _) fun _ => keeps_bind (keeps_fileclose km _) fun _ =>
      keeps_pure _

/- The words that pipealloc sets up in a fresh page. -/
def pipeInit (r : Nat) : MemM Unit := do
  setEntry r pipeReadopen 1
  setEntry r pipeWriteopen 1
  setEntry r pipeNwrite 0
  setEntry r pipeNread 0

omit km in
theorem pipeInit_spec {N : Mode Freed Fault} {s : MemState} (heap : Heap s.toKmem l)
    (once : ((l : Multiset Nat) + {r}).Nodup) :
    wp N (pipeInit r) (fun _ t => Moves s t l l {r} {r} ∧ ∀ w, word (t.mem r) (endFlag w) = 1) s := by
  unfold pipeInit
  refine wp_modify_bind (wp_modify_bind (wp_modify_bind (wp_modify ⟨?_, fun w => ?_⟩)))
  · refine (Moves.refl heap {r}).write once (fun q hq => ?_) le_rfl
    have apart : q ≠ r := by simpa using hq
    simp only [update_of_ne apart]
  · cases w <;>
      simp [endFlag, update_self, word_setWord, pipeReadopen, pipeWriteopen, pipeNread, pipeNwrite]

/- The file table once f0 and f1 are the ends of the pipe r. -/
def piped (file : Nat → File) (f0 f1 r : Nat) : Nat → File :=
  let F := update file f0
    { file f0 with type := .pipe, readable := true, writable := false, pipe := r }
  update F f1 { F f1 with type := .pipe, readable := false, writable := true, pipe := r }

omit km in
theorem piped_cases (file : Nat → File) (r : Nat) {f0 f1 : Nat} (apart : f0 ≠ f1) (q : Nat) :
    (q = f0 ∧ piped file f0 f1 r q =
      { file f0 with type := .pipe, readable := true, writable := false, pipe := r }) ∨
    (q = f1 ∧ piped file f0 f1 r q =
      { file f1 with type := .pipe, readable := false, writable := true, pipe := r }) ∨
    (q ≠ f0 ∧ q ≠ f1 ∧ piped file f0 f1 r q = file q) := by
  unfold piped
  by_cases first : q = f0
  · subst first
    exact Or.inl ⟨rfl, by rw [update_of_ne apart, update_self]⟩
  · by_cases second : q = f1
    · subst second
      refine Or.inr (Or.inl ⟨rfl, ?_⟩)
      simp only [update_self, update_of_ne first]
    · refine Or.inr (Or.inr ⟨first, second, ?_⟩)
      simp only [update_of_ne first, update_of_ne second]

omit km in
theorem Owned.piped {f0 f1 : Nat} (h : Owned g k l {r} slots) (apart : f0 ≠ f1) (used0 : 0 < (k.file f0).ref)
    (used1 : 0 < (k.file f1).ref) (free0 : (k.file f0).type = .none) (free1 : (k.file f1).type = .none)
    (flags : ∀ w, word (k.kmem.mem r) (endFlag w) = 1) :
    pipePages (piped k.file f0 f1 r) = insert r (pipePages k.file) ∧ Owned { g with pipes := insert r g.pipes } { k with file := Xv6c.piped k.file f0 f1 r } l 0 slots := by
  have fresh : r ∉ pipePages k.file := by
    intro inside
    have once := (Multiset.nodup_add.mp h.once).2.1
    exact held_apart once (Multiset.mem_singleton_self r)
      (mem_held_pipe inside)
  have other (q : Nat) (isPipe : (k.file q).type = .pipe) : (k.file q).pipe ≠ r := by
    rintro rfl
    exact fresh (mem_pipePages h.files isPipe)
  have refs (q : Nat) : (Xv6c.piped k.file f0 f1 r q).ref = (k.file q).ref := by
    rcases piped_cases k.file r apart q with
      ⟨rfl, same⟩ | ⟨rfl, same⟩ | ⟨_, _, same⟩ <;> rw [same]
  have files : Files (Xv6c.piped k.file f0 f1 r) := by
    refine ⟨fun q zero => ?_, fun q large => (refs q).trans (h.files.table q large)⟩
    rw [refs] at zero
    rcases piped_cases k.file r apart q with
      ⟨rfl, _⟩ | ⟨rfl, _⟩ | ⟨_, _, same⟩
    · exact absurd zero used0.ne'
    · exact absurd zero used1.ne'
    · rw [same]
      exact h.files.unused q zero
  have pages : pipePages (Xv6c.piped k.file f0 f1 r) = insert r (pipePages k.file) := by
    ext x
    rw [Finset.mem_insert, mem_pipePages_iff files, mem_pipePages_iff h.files]
    constructor
    · rintro ⟨q, isPipe, page⟩
      rcases piped_cases k.file r apart q with
        ⟨rfl, same⟩ | ⟨rfl, same⟩ | ⟨_, _, same⟩ <;> rw [same] at isPipe page
      · exact Or.inl page.symm
      · exact Or.inl page.symm
      · exact Or.inr ⟨q, isPipe, page⟩
    · rintro (rfl | ⟨q, isPipe, page⟩)
      · refine ⟨f1, ?_⟩
        simp [Xv6c.piped]
      · refine ⟨q, ?_⟩
        rcases piped_cases k.file r apart q with
          ⟨rfl, _⟩ | ⟨rfl, _⟩ | ⟨_, _, same⟩
        · exact nomatch isPipe.symm.trans free0
        · exact nomatch isPipe.symm.trans free1
        · rw [same]
          exact ⟨isPipe, page⟩
  refine ⟨pages, h.refile files ⟨⟨fun q isPipe => ?_, fun q q' isPipe isPipe' page side => ?_⟩,
    fun follow => ⟨fun q isPipe => ?_, fun q w isPipe none => ?_⟩⟩ ?_ ?_⟩
  · rcases piped_cases k.file r apart q with
      ⟨rfl, same⟩ | ⟨rfl, same⟩ | ⟨_, _, same⟩ <;> rw [same] at isPipe ⊢
    · exact (flags false).symm ▸ (by decide)
    · exact (flags true).symm ▸ (by decide)
    · exact h.pipes.ends q isPipe
  · rcases piped_cases k.file r apart q with
      ⟨rfl, same⟩ | ⟨rfl, same⟩ | ⟨_, _, same⟩ <;>
    rcases piped_cases k.file r apart q' with
      ⟨rfl, same'⟩ | ⟨rfl, same'⟩ | ⟨_, _, same'⟩ <;>
    rw [same] at isPipe page side <;> rw [same'] at isPipe' page side
    · exact nomatch side
    · exact absurd page.symm (other q' isPipe')
    · exact nomatch side
    · exact absurd page.symm (other q' isPipe')
    · exact absurd page (other q isPipe)
    · exact absurd page (other q isPipe)
    · exact h.pipes.alone q q' isPipe isPipe' page side
  · rcases piped_cases k.file r apart q with
      ⟨rfl, same⟩ | ⟨rfl, same⟩ | ⟨_, _, same⟩ <;> rw [same] at isPipe ⊢
    · exact flags false
    · exact flags true
    · exact (h.pipes.flags follow).opened q isPipe
  · have ends (v : Bool) : ∃ q', (Xv6c.piped k.file f0 f1 r q').type = .pipe ∧
        (Xv6c.piped k.file f0 f1 r q').pipe = r ∧ (Xv6c.piped k.file f0 f1 r q').writable = v := by
      cases v
      · exact ⟨f0, by simp [Xv6c.piped, apart]⟩
      · exact ⟨f1, by simp [Xv6c.piped]⟩
    obtain ⟨q', isPipe', page', side'⟩ := ends w
    have old : (k.file q).pipe ≠ r ∧ Xv6c.piped k.file f0 f1 r q = k.file q := by
      rcases piped_cases k.file r apart q with
        ⟨rfl, same⟩ | ⟨rfl, same⟩ | ⟨_, _, same⟩
      · exact absurd side' (none q' isPipe' (by rw [page', same]))
      · exact absurd side' (none q' isPipe' (by rw [page', same]))
      · exact ⟨other q (same ▸ isPipe), same⟩
    rw [old.2] at isPipe none ⊢
    refine (h.pipes.flags follow).closed q w isPipe fun q₁ isPipe₁ page₁ => ?_
    rcases piped_cases k.file r apart q₁ with ⟨rfl, _⟩ | ⟨rfl, _⟩ | ⟨_, _, same⟩
    · exact nomatch isPipe₁.symm.trans free0
    · exact nomatch isPipe₁.symm.trans free1
    · rw [← same] at isPipe₁ page₁ ⊢
      exact none q₁ isPipe₁ page₁
  · rw [pages]
    exact Finset.insert_subset_insert r h.known
  · rw [pages, Finset.insert_val_of_notMem fresh, zero_add, Multiset.singleton_add]

/- At most one page has been added to those of pipes. -/
def Piped (g : Books) (k : Kernel) (l : List Nat) (k' : Kernel) : Prop :=
  ∃ r, Saved { g with pipes := insert r g.pipes } k l k'

omit km in
theorem Saved.piped {k' : Kernel} (h : Saved g k l k') : Piped g k l k' := by
  obtain ⟨l', owned, conserved⟩ := h
  exact ⟨0, l', { owned with known := owned.known.trans (Finset.subset_insert _ _) }, conserved⟩

theorem pipealloc_spec (h : Owned g k l 0 slots) :
    wp M (pipealloc g.caller) (fun _ k' => Piped g k l k') k := by
  have bad (f0 f1 : Option Nat) (k' : Kernel) (owned : Owned g k' l 0 slots)
      (same : pipePages k'.file = pipePages k.file) :
      wp M (pipeBad g.caller f0 f1) (fun _ k' => Piped g k l k') k' :=
    wp_mono (keeps_pipeBad km f0 f1 k' l owned) fun _ _ saved => (saved.after same).piped
  unfold pipealloc
  refine wp_filealloc h (bad _ _ _ h rfl) fun f0 _ free0 same₀ owned => ?_
  refine wp_filealloc owned (bad _ _ _ owned same₀) fun f1 _ free1 same₁ owned => ?_
  have apart : f0 ≠ f1 := by
    rintro rfl
    simp at free1
  dsimp only at free1
  rw [update_of_ne (Ne.symm apart)] at free1
  have none0 := h.files.unused f0 free0
  have none1 := h.files.unused f1 free1
  rw [← add_zero (0 : Multiset Nat)] at owned
  refine wp_bind (wp_zoom (wp_mono (kalloc_spec owned.heap) ?_))
  rintro r t ⟨-, ⟨rfl, moves⟩ | ⟨nonzero, l₁, rfl, moves⟩⟩
  · rw [if_pos rfl]
    exact bad _ _ _ (owned.moves moves.toMoves) (same₁.trans same₀)
  · rw [if_neg nonzero]
    have owned := owned.moves moves.toMoves
    refine wp_bind (wp_zoom (wp_mono (pipeInit_spec owned.heap owned.hand) ?_))
    rintro _ u ⟨moves₂, flags⟩
    have owned := owned.moves moves₂
    rw [add_zero] at owned
    refine wp_modify_bind (wp_modify_bind (wp_pure ⟨r, l₁, ?_⟩))
    obtain ⟨pages, owned⟩ := owned.piped apart (by simp [Kernel.memPut, apart])
      (by simp [Kernel.memPut]) (by simp [Kernel.memPut, apart, none0])
      (by simp [Kernel.memPut, Ne.symm apart, none1]) flags
    have pages := pages.trans (congrArg (insert r) (same₁.trans same₀))
    refine ⟨owned, fun _ q either => ?_⟩
    rcases either with free | pipe
    · rcases List.mem_cons.mp free with rfl | free
      · exact Or.inr (pages.symm ▸ Finset.mem_insert_self q _)
      · exact Or.inl free
    · exact Or.inr (pages.symm ▸ Finset.mem_insert_of_mem pipe)

omit km in
theorem keeps_modifyProc {p : ProcId} {c : Proc → Proc} (same : ∀ q, SameImage q (c q)) :
    Keeps M g (modifyProc p c) := by
  intro k l h
  exact wp_last (wp_modifyProc h (same _) fun owned => wp_pure (owned.saved rfl))

omit km in
theorem keeps_fdalloc (p : ProcId) (f : Nat) : Keeps M g (fdalloc p f) := by
  unfold fdalloc
  refine keeps_get fun k => ?_
  split
  · exact keeps_bind (keeps_modifyProc fun q => ⟨Iff.rfl, rfl, rfl, rfl, rfl⟩) fun _ => keeps_pure _
  · exact keeps_pure _

theorem keeps_sysDup (p : ProcId) (fd : Int) : Keeps M g (sysDup p fd) := by
  unfold sysDup
  refine keeps_get fun k => ?_
  split
  · exact keeps_pure _
  · refine keeps_bind (keeps_fdalloc p _) fun r => ?_
    cases r with
    | none => exact keeps_pure _
    | some fd =>
      intro k l h
      exact wp_filedup km h fun k' _ _ same owned => wp_pure (owned.saved same)

theorem keeps_sysClose (fd : Int) : Keeps M g (sysClose g.caller fd) := by
  unfold sysClose
  refine keeps_get fun k => ?_
  split
  · exact keeps_pure _
  · exact keeps_bind (keeps_modifyProc fun q => ⟨Iff.rfl, rfl, rfl, rfl, rfl⟩) fun _ =>
      keeps_bind (keeps_fileclose km _) fun _ => keeps_pure _

theorem keeps_openBad (ip : Nat) (f : Option Nat) : Keeps M g (openBad g.caller ip f) := by
  have rest : Keeps M g (onFs g.caller (Fs.iunlockput ip) >>= fun _ =>
      onFs g.caller Fs.endOp >>= fun _ => (pure (-1) : KM Int)) :=
    keeps_bind (keeps_onFs km _) fun _ => keeps_bind (keeps_onFs km _) fun _ => keeps_pure _
  unfold openBad
  cases f with
  | none => exact rest
  | some f => exact keeps_bind (keeps_fileclose km f) fun _ => rest

omit km in
/- A file that is not a pipe becomes one of an inode. -/
theorem Owned.typed {x : File} (h : Owned g k l X S) (index : f < NFILE) (free : (k.file f).type ≠ .pipe)
    (type : x.type ≠ .pipe) (used : x.ref ≠ 0) : pipePages (update k.file f x) = pipePages k.file ∧
      Owned g { k with file := update k.file f x } l X S := by
  have pipe {q : Nat} (isPipe : (update k.file f x q).type = .pipe) :
      update k.file f x q = k.file q := by
    by_cases here : q = f
    · subst here
      rw [update_self] at isPipe
      exact absurd isPipe type
    · exact update_of_ne here _ _
  have files : Files (update k.file f x) := by
    constructor <;> intro q hq <;> by_cases here : q = f
    · subst here
      rw [update_self] at hq
      exact absurd hq used
    · rw [update_of_ne here] at hq ⊢
      exact h.files.unused q hq
    · omega
    · rw [update_of_ne here]
      exact h.files.table q hq
  have pages : pipePages (update k.file f x) = pipePages k.file := by
    ext r
    rw [mem_pipePages_iff files, mem_pipePages_iff h.files]
    constructor
    · rintro ⟨q, isPipe, page⟩
      have same := pipe isPipe
      rw [same] at isPipe page
      exact ⟨q, isPipe, page⟩
    · rintro ⟨q, isPipe, page⟩
      have other : q ≠ f := by
        rintro rfl
        exact free isPipe
      exact ⟨q, by rw [update_of_ne other]; exact ⟨isPipe, page⟩⟩
  refine ⟨pages, h.refile files (h.pipes.refile (fun q isPipe => ?_) fun q r _ isPipe _ => ?_)
    (pages ▸ h.known) (by rw [pages])⟩
  · have same := pipe isPipe
    rw [same] at isPipe ⊢
    exact ⟨isPipe, rfl, rfl⟩
  · rw [update_of_ne]
    · exact isPipe
    · rintro rfl
      exact free isPipe

theorem keeps_sysOpen (path : Fs.CStr) (omode : BitVec 32) : Keeps M g (sysOpen g.caller path omode) := by
  unfold sysOpen
  refine keeps_get fun k => keeps_bind (keeps_onFs km _) fun r => ?_
  cases r with
  | none => exact keeps_pure _
  | some ip =>
    intro k l h
    refine wp_filealloc h (keeps_openBad km ip none k l h) fun f index free same owned => ?_
    have type := h.files.unused f free
    refine wp_bind ?_
    unfold fdalloc
    refine wp_get_bind ?_
    split
    · refine wp_modifyProc owned ⟨Iff.rfl, rfl, rfl, rfl, rfl⟩ fun owned => wp_pure ?_
      refine wp_onFs km owned fun _ k₁ _ file₁ _ _ owned => ?_
      refine wp_onFs km owned fun _ k₂ _ file₂ _ _ owned => ?_
      have file : k₂.file f = { k.file f with ref := 1 } := by
        rw [file₂, file₁]
        exact update_self _ _ _
      have unchanged : pipePages k₂.file = pipePages k.file := by
        rw [file₂, file₁]
        exact same
      refine wp_modify_bind (wp_pure ((owned.typed index ?_ ?_ ?_).elim fun kept owned =>
        owned.saved (kept.trans unchanged)))
      · simp [file, type]
      · simp
      · simp [file]
    · exact wp_pure (wp_mono (keeps_openBad km ip (some f) _ l owned) fun _ _ saved => saved.after same)

theorem sysPipe_spec (h : Owned g k l 0 slots) :
    wp M (sysPipe g.caller) (fun _ k' => Piped g k l k') k := by
  unfold sysPipe
  refine wp_seq (pipealloc_spec km h) ?_
  rintro _ k₁ ⟨r, saved⟩
  have keeps {A : Type} {x : KM A} (kept : Keeps M { g with pipes := insert r g.pipes } x) :
      wp M x (fun _ k' => Piped g k l k') k₁ :=
    wp_mono (kept.after saved) fun _ _ saved => ⟨r, saved⟩
  refine keeps ?_
  have close (f : Nat) : Keeps M { g with pipes := insert r g.pipes } (fileclose g.caller f) :=
    keeps_fileclose (g := { g with pipes := insert r g.pipes }) km f
  split
  · exact keeps_pure _
  · refine keeps_bind (keeps_fdalloc _ _) fun r => ?_
    cases r with
    | none => exact keeps_bind (close _) fun _ => keeps_bind (close _) fun _ => keeps_pure _
    | some fd0 =>
      refine keeps_bind (keeps_fdalloc _ _) fun r => ?_
      cases r with
      | none =>
        exact keeps_bind (keeps_modifyProc fun q => ⟨Iff.rfl, rfl, rfl, rfl, rfl⟩) fun _ =>
          keeps_bind (close _) fun _ => keeps_bind (close _) fun _ => keeps_pure _
      | some fd1 => exact keeps_pure _

omit km in
theorem keeps_offset (f n : Nat) :
    Keeps M g (modifyFile f fun x => { x with off := (x.off + n) % 2 ^ 32 }) := by
  intro k l h
  exact wp_last (wp_recount h rfl rfl rfl (h.files.unused f) (h.files.table f) fun same owned =>
    wp_pure (owned.saved same))

omit km in
theorem keeps_wakeup (chan : Chan) : Keeps M g (wakeup chan) := by
  intro k l h
  exact wp_last (wp_wakeup h fun k' file _ _ _ owned => wp_pure (owned.saved (by rw [file])))

omit km in
theorem keeps_sleep (chan : Chan) : Keeps M g (sleep g.caller chan) := by
  intro k l h
  refine wp_last (wp_modifyProc h ⟨⟨fun _ => h.caller.2.1, fun _ => ?_⟩, rfl, rfl, rfl, rfl⟩
    fun owned => wp_pure (owned.saved rfl))
  simp [Live]

omit km in
/- A store to the page of a pipe that leaves its flags alone. -/
theorem Owned.pipeData {b : Bytes} (h : Owned g k l X S) (member : r ∈ pipePages k.file)
    (flags : ∀ w, word b (endFlag w) = word (k.kmem.mem r) (endFlag w)) :
    Owned g (k.memPut g.caller { k.memView g.caller with mem := update k.kmem.mem r b })
      l X S := by
  refine h.pipeStore member (h.pipes.congr fun f _ w => ?_)
  by_cases same : (k.file f).pipe = r
  · rw [same, update_self, flags]
  · rw [update_of_ne same]

omit km in
theorem pipewrite_spec (bs : List Byte) (n : Int) (h : Owned g k l 0 slots) (member : r ∈ pipePages k.file) :
    wp M (pipewrite g.caller r bs n) (fun _ k' => Saved g k l k') k := by
  induction bs generalizing k with
  | nil => exact keeps_bind (keeps_wakeup _) (fun _ => keeps_pure _) k l h
  | cons b bs ih =>
    unfold pipewrite
    refine wp_get_bind (wp_ite (fun _ => ?_) (fun _ => ?_))
    · refine wp_ite (fun _ => wp_pure (h.saved rfl)) (fun _ => ?_)
      exact keeps_bind (keeps_wakeup _) (fun _ => keeps_bind (keeps_sleep _) fun _ => keeps_pure _)
        k l h
    · refine wp_bind (wp_zoom (wp_modify (ih (h.pipeData member fun w => ?_) member)))
      have flag : endFlag w = 143 ∨ endFlag w = 144 := by cases w <;> decide
      rw [word_setWord_ne _ _ (by simp only [pipeNwrite]; omega)]
      refine word_congr fun j hj => update_of_ne ?_ _ _
      simp only [Xv6c.pipeData, PIPESIZE]
      omega

omit km in
theorem pipeTake_spec (n : Nat) (h : Owned g k l 0 slots) (member : r ∈ pipePages k.file) :
    wp M (pipeTake g.caller r n) (fun _ k' => Saved g k l k') k := by
  induction n generalizing k with
  | zero => exact wp_pure (h.saved rfl)
  | succ n ih =>
    unfold pipeTake
    refine wp_get_bind (wp_ite (fun _ => wp_pure (h.saved rfl)) (fun _ => ?_))
    refine wp_bind (wp_zoom (wp_modify ?_))
    refine wp_seq (ih (h.pipeData member fun w => ?_) member) fun _ _ settled => wp_pure settled
    have flag : endFlag w = 143 ∨ endFlag w = 144 := by cases w <;> decide
    exact word_setWord_ne _ _ (by simp only [pipeNread]; omega)

omit km in
theorem piperead_spec (n : Nat) (h : Owned g k l 0 slots) (member : r ∈ pipePages k.file) :
    wp M (piperead g.caller r n) (fun _ k' => Saved g k l k') k := by
  unfold piperead
  refine wp_get_bind (wp_ite (fun _ => wp_ite (fun _ => wp_pure (h.saved rfl)) (fun _ => ?_)) (fun _ => ?_))
  · exact keeps_bind (keeps_sleep _) (fun _ => keeps_pure _) k l h
  · exact wp_seq (pipeTake_spec n h member) fun _ k' saved =>
      (keeps_bind (keeps_wakeup _) fun _ => keeps_pure _).after saved

theorem keeps_fileread (f n : Nat) : Keeps M g (fileread g.caller f n) := by
  intro k l h
  unfold fileread
  refine wp_get_bind (wp_ite (fun _ => ?_) (fun _ => wp_pure (h.saved rfl)))
  split
  · rename_i isPipe
    exact piperead_spec n h (mem_pipePages h.files isPipe)
  · refine keeps_bind (keeps_onFs km _) (fun got => ?_) k l h
    obtain ⟨r, data⟩ := got
    dsimp only
    split
    · exact keeps_bind (keeps_offset f _) fun _ => keeps_pure _
    · exact keeps_pure _
  · exact wp_fault (km.other (by decide))

theorem keeps_filewriteLoop (f : Nat) (data : Bytes) (n fuel i : Nat) :
    Keeps M g (filewriteLoop g.caller f data n fuel i) := by
  induction fuel generalizing i with
  | zero => exact keeps_fault km (by decide)
  | succ fuel ih =>
    have rest (k : Kernel) (r : Int) (m : Nat) : Keeps M g (onFs g.caller (Fs.iunlock (k.file f).ip) >>=
        fun _ => onFs g.caller Fs.endOp >>= fun _ => if r < 0 then (pure (-1) : KM Int)
          else if r ≠ m then panic "short filewrite" else filewriteLoop g.caller f data n fuel (i + m)) :=
      keeps_bind (keeps_onFs km _) fun _ => keeps_bind (keeps_onFs km _) fun _ =>
        keeps_ite (keeps_pure _) (keeps_ite (keeps_fault km (by decide)) (ih _))
    unfold filewriteLoop
    refine keeps_ite (keeps_get fun k => ?_) (keeps_pure _)
    refine keeps_bind (keeps_onFs km _) fun _ => keeps_bind (keeps_onFs km _) fun _ =>
      keeps_bind (keeps_onFs km _) fun r => ?_
    dsimp only
    split
    · exact keeps_bind (keeps_offset f _) fun _ => rest _ _ _
    · exact rest _ _ _

theorem keeps_filewrite (f : Nat) (data : List Byte) : Keeps M g (filewrite g.caller f data) := by
  intro k l h
  unfold filewrite
  refine wp_get_bind (wp_ite (fun _ => ?_) (fun _ => wp_pure (h.saved rfl)))
  split
  · rename_i isPipe
    exact pipewrite_spec data _ h (mem_pipePages h.files isPipe)
  · exact keeps_bind (keeps_filewriteLoop km f _ _ _ _) (fun _ => keeps_pure _) k l h
  · exact wp_fault (km.other (by decide))

theorem keeps_filestat (f : Nat) : Keeps M g (filestat g.caller f) := by
  unfold filestat
  exact keeps_get fun k => keeps_ite (keeps_onFs km _) (keeps_pure _)

end FileTable

end Xv6c

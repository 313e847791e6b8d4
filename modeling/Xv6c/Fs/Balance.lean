import Xv6c.Fs.Effects

/-! The inode locks that are held and the transactions that are open: what the calls of fs.c
leave of them. -/
namespace Xv6c.Fs
open Lib
open Function (update update_self update_of_ne update_idem update_eq_self)

/- How a call of fs.c stops: with a panic of its own, at a lock that its caller holds, or
asleep. -/
def Stops (f : Fault) : Prop := (∃ msg ∈ panics, f = .panic msg) ∨ f = .deadlock ∨ f = .blocked

def Quiet (s t : FsState) : Prop :=
  t.log.outstanding = s.log.outstanding ∧ t.log.committing = s.log.committing ∧
    ∀ i, (t.icache i).locked = (s.icache i).locked

instance : Steps Stops Quiet where
  panic msg listed := Or.inl ⟨msg, listed, rfl⟩
  blocked := Or.inr (Or.inr rfl)
  write _ _ _ := ⟨rfl, rfl, fun _ => rfl⟩
  sb _ _ := ⟨rfl, rfl, fun _ => rfl⟩
  inode s ip i same := by
    refine ⟨rfl, rfl, fun k => ?_⟩
    by_cases here : k = ip
    · rw [here]
      exact (congrArg Inode.locked (update_self ..)).trans same
    · exact congrArg Inode.locked (update_of_ne here ..)
  input _ _ := ⟨rfl, rfl, fun _ => rfl⟩
  udsk _ _ := ⟨rfl, rfl, fun _ => rfl⟩
  kill _ := ⟨rfl, rfl, fun _ => rfl⟩

/- The locks of L are held and no others, and o transactions are open. -/
structure Held (L : Nat → Bool) (o : Nat) (fs : FileSys) : Prop where
  locks : ∀ i, (fs.icache i).locked = L i
  outstanding : fs.log.outstanding = o
  idle : fs.log.committing = false

section Calls
variable {M : Mode FsEvent Fault} {A : Type} {L : Nat → Bool} {o ip : Nat} {s : FsState} {w : Walker}
variable (owed : ∀ e, M.owes e) (admits : ∀ f, Stops f → M.fails f)
include owed admits

theorem held_quiet {x : FsM A} [quiet : Does Stops Quiet x] (h : Held L o s.toFileSys) :
    wp M x (fun _ t => Held L o t.toFileSys) s := by
  refine wp_mono (quiet.does owed admits s) fun _ t steps => ?_
  induction steps with
  | refl => exact h
  | tail _ last ih =>
    obtain ⟨outstanding, committing, locks⟩ := last
    exact ⟨fun i => (locks i).trans (ih.locks i), outstanding.trans ih.outstanding, committing.trans ih.idle⟩

omit owed admits in
theorem held_setLock (h : Held L o s.toFileSys) {f : Inode → Inode} {b : Bool} (sets : ∀ i, (f i).locked = b) :
    wp M (setInode ip f) (fun _ t => Held (update L ip b) o t.toFileSys) s := by
  refine wp_modify ⟨fun k => ?_, h.outstanding, h.idle⟩
  by_cases here : k = ip
  · rw [here, update_self]
    exact (congrArg Inode.locked (update_self ..)).trans (sets _)
  · rw [update_of_ne here]
    exact (congrArg Inode.locked (update_of_ne here ..)).trans (h.locks k)

omit owed in
theorem held_acquiresleep (h : Held L o s.toFileSys) :
    wp M (acquiresleep ip) (fun _ t => L ip = false ∧ Held (update L ip true) o t.toFileSys) s := by
  unfold acquiresleep
  refine wp_get_bind (wp_ite (fun _ => wp_fault (admits _ (Or.inr (Or.inl rfl)))) (fun unlocked => ?_))
  rw [h.locks ip] at unlocked
  exact wp_mono (held_setLock h fun _ => rfl) fun _ t after => ⟨Bool.not_eq_true _ ▸ unlocked, after⟩

omit owed admits in
/- The lock that was taken is given back. -/
theorem held_releasesleep (free : L ip = false) (h : Held (update L ip true) o s.toFileSys) :
    wp M (releasesleep ip) (fun _ t => Held L o t.toFileSys) s := by
  refine wp_mono (held_setLock (b := false) h fun _ => rfl) fun _ t after => ?_
  rwa [update_idem, ← free, update_eq_self] at after

theorem held_ilock (h : Held L o s.toFileSys) :
    wp M (ilock ip) (fun _ t => L ip = false ∧ Held (update L ip true) o t.toFileSys) s := by
  unfold ilock
  refine wp_get_bind (wp_ite (fun _ => wp_fault (admits _ (Or.inl ⟨_, by decide, rfl⟩))) (fun _ => ?_))
  refine wp_seq (held_acquiresleep admits h) ?_
  rintro _ t ⟨free, held⟩
  refine wp_ite (fun _ => wp_pure ⟨free, held⟩) (fun _ => ?_)
  have load (d : Dinode) : Does Stops Quiet (setInode ip fun i => { i with d := d, valid := true }) :=
    does_setInode ip fun _ => rfl
  exact wp_mono (held_quiet owed admits held) fun _ u after => ⟨free, after⟩

omit owed in
theorem held_iunlock (free : L ip = false) (h : Held (update L ip true) o s.toFileSys) :
    wp M (iunlock ip) (fun _ t => Held L o t.toFileSys) s := by
  unfold iunlock
  refine wp_get_bind (wp_ite (fun _ => wp_fault (admits _ (Or.inl ⟨_, by decide, rfl⟩))) (fun _ => ?_))
  exact held_releasesleep free h

theorem held_iput (h : Held L o s.toFileSys) : wp M (iput ip) (fun _ t => Held L o t.toFileSys) s := by
  have invalid : Does Stops Quiet (setInode ip fun i => { i with valid := false }) := does_setInode ip fun _ => rfl
  have drop : Does Stops Quiet (setInode ip fun i => { i with ref := i.ref - 1 }) := does_setInode ip fun _ => rfl
  unfold iput
  refine wp_seq (held_acquiresleep admits h) ?_
  rintro _ t ⟨free, held⟩
  refine wp_get_bind ?_
  dsimp only
  have leave {u : FsState} (held : Held (update L ip true) o u.toFileSys) :
      wp M (releasesleep ip >>= fun _ => setInode ip fun i => { i with ref := i.ref - 1 })
        (fun _ t => Held L o t.toFileSys) u :=
    wp_seq (held_releasesleep free held) fun _ v after => held_quiet owed admits after
  refine wp_ite (fun _ => ?_) (fun _ => leave held)
  refine wp_seq (held_quiet owed admits held) fun _ u held => wp_seq (held_quiet owed admits held) fun _ u held => ?_
  refine wp_seq (held_quiet owed admits held) fun _ u held => wp_seq (held_quiet owed admits held) fun _ u held => ?_
  exact leave held

theorem held_iunlockput (free : L ip = false) (h : Held (update L ip true) o s.toFileSys) :
    wp M (iunlockput ip) (fun _ t => Held L o t.toFileSys) s :=
  wp_seq (held_iunlock admits free h) fun _ _ after => held_iput owed admits after

omit owed admits in
theorem skipelem_shorter {path name rest : List Byte} (split : skipelem path = some (name, rest)) :
    rest.length < path.length := by
  have whole := (List.dropWhile_suffix (· == slash) (l := path)).length_le
  unfold skipelem at split
  split at split
  · cases split
  · rename_i c cs front
    have first : (c != slash) = true := by
      have := List.head?_dropWhile_not (· == slash) path
      rw [front] at this
      simpa using this
    have cut := (List.dropWhile_suffix (· == slash) (l := cs.dropWhile (· != slash))).length_le
    have short := (List.dropWhile_suffix (· != slash) (l := cs)).length_le
    simp only [Option.some.injEq, Prod.mk.injEq] at split
    rw [← split.2, List.dropWhile_cons_of_pos (p := (· != slash)) first]
    rw [front] at whole
    simp only [List.length_cons] at whole
    omega

/- Each element of the path takes the lock of its directory and gives it back. -/
theorem held_walk {iroot n : Nat} {parent : Bool} {path : List Byte} (root : w.rootdir ≠ none) (enough : path.length < n)
    (h : Held L o s.toFileSys) :
    wp M (walk w iroot parent n ip path) (fun _ t => Held L o t.toFileSys) s := by
  induction n generalizing ip path s with
  | zero => exact absurd enough (Nat.not_lt_zero _)
  | succ n ih =>
    unfold walk
    split
    · refine wp_ite (fun _ => ?_) (fun _ => wp_pure h)
      exact wp_seq (held_iput owed admits h) fun _ t after => wp_pure after
    · rename_i name rest split
      have shorter : rest.length < n := by
        have := skipelem_shorter split
        omega
      refine wp_seq (held_ilock owed admits h) ?_
      rintro _ t ⟨free, held⟩
      have leave {B : Type} {u : FsState} {b : B} (held : Held (update L ip true) o u.toFileSys) :
          wp M (iunlockput ip >>= fun _ => pure b) (fun _ t => Held L o t.toFileSys) u :=
        wp_seq (held_iunlockput owed admits free held) fun _ v after => wp_pure after
      refine wp_get_bind (wp_ite (fun _ => leave held) (fun _ => wp_ite (fun _ => ?_) (fun _ => ?_)))
      · exact wp_seq (held_iunlock admits free held) fun _ u after => wp_pure after
      refine wp_seq (held_quiet owed admits held) fun found u held => ?_
      cases found with
      | none => exact leave held
      | some next =>
        refine wp_seq (held_iunlockput owed admits free held) fun _ v after => ?_
        obtain ⟨r, some⟩ := Option.ne_none_iff_exists'.mp root
        rw [some]
        refine wp_bind (wp_pure (wp_get_bind (wp_ite (fun _ => ih shorter after) (fun _ => ?_))))
        exact wp_emit_bind fun _ => ⟨owed _, ih shorter after⟩

theorem held_namei {path : CStr} (cwd : w.cwd ≠ none) (root : w.rootdir ≠ none) (h : Held L o s.toFileSys) :
    wp M (namei w path) (fun _ t => Held L o t.toFileSys) s := by
  have start : (if path.bytes.head? = some slash then w.rootdir else w.cwd) ≠ none := by
    split
    · exact root
    · exact cwd
  obtain ⟨i, some⟩ := Option.ne_none_iff_exists'.mp start
  refine wp_seq (wp_seq (held_quiet owed admits h) fun iroot t h => ?_) fun _ t after => wp_pure after
  rw [some]
  refine wp_bind (wp_pure (wp_seq (held_quiet owed admits h) fun ip u h => ?_))
  exact held_walk owed admits root (Nat.lt_succ_self _) h

omit owed in
theorem held_beginOp (locks : ∀ i, (s.icache i).locked = L i) (outstanding : s.log.outstanding = o) :
    wp M beginOp (fun _ t => Held L (o + 1) t.toFileSys) s := by
  unfold beginOp
  refine wp_get_bind (wp_ite (fun admitted => wp_modify ?_) (fun _ => wp_fault (admits _ (Or.inr (Or.inr rfl)))))
  simp only [Log.admits, Bool.and_eq_true, Bool.not_eq_true'] at admitted
  exact ⟨locks, congrArg (· + 1) outstanding, admitted.1⟩

omit owed admits in
theorem held_endOp (h : Held L (o + 1) s.toFileSys) :
    wp M endOp (fun _ t => Held L o t.toFileSys) s := by
  unfold endOp
  refine wp_get_bind (wp_ite (fun busy => ?_) (fun _ => wp_modify ?_))
  · exact absurd (h.idle.symm.trans busy) (by decide)
  · exact ⟨h.locks, by rw [h.outstanding, Nat.add_sub_cancel], h.idle⟩

end Calls

end Xv6c.Fs

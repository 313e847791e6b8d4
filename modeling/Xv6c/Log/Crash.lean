import Xv6c.Log.Phases

/-! Crash atomicity: the log, the cache and the disk together simulate the disk
with atomic groups, as long as no log_write passes its test on a slot of the log
that another call has passed it on already. -/
namespace Xv6c.Log
open Lib GroupCommit
open Function (update update_of_ne update_self)

/- What the specification sees of a step. -/
def observe : Label → GroupCommit.Label Block
  | .beginOp p => .event (.enter p)
  | .record p b v => .event (.write p b v)
  | .endOp p => .event (.leave p)
  | .finish => .returned
  | .crash => .crash
  | _ => .silent

def SpecNext (a : Spec Block) (l : Label) (b : Spec Block) : Prop := Next a (observe l) b

/- Operations log home blocks only, and leave the super block's fields alone. -/
def HomeOp (sb : Superblock) : Label → Prop
  | .logWrite _ b => Home sb b
  | .record _ b v => b = 1 → decodeSb v = sb
  | _ => True

/- Room for one more block beside those logged and those about to be. -/
def Room (m : Machine) : Prop :=
  m.log.lh.length + m.calls.length < LOGSIZE ∧ m.log.lh.length + m.calls.length < m.log.size - 1

/- A log_write call whose test passes counts the calls in progress as well. -/
def Reserved (m : Machine) : Label → Prop
  | .logWrite _ _ => full m.log = false → Room m
  | _ => True

def Sound (sb : Superblock) (m : Machine) (l : Label) : Prop := HomeOp sb l ∧ Reserved m l

section Steps
variable {sb : Superblock} {d : Nat → Block} {m n : Machine} {a : Spec Block}

theorem super_silent (super : SuperKept sb d a) (phase : Phase sb d n a) :
    ∃ b, Next a .silent b ∧ Rel sb d n b := ⟨a, .silent a, super, phase⟩

theorem phase_idle (pc : n.pc = .idle) : Phase sb d n a ↔ Idle sb d n a := by
  simp only [Phase, pc]

variable {p : Nat}

theorem mem_sections : insideSection m p = true ↔ p ∈ m.sections.map Section.pid := by
  simp [insideSection]

theorem mem_calls : calling m p = true ↔ ∃ c ∈ m.calls, c.pid = p := by
  simp [calling]

theorem latest_append (e : GroupCommit.Event Block) :
    latest d { a with current := a.current ++ [e] } = e.apply (latest d a) :=
  replayGroup_append _ _ _

theorem answers_beginOp (rel : Rel sb d m a) (ok : step m (.beginOp p) = some n) :
    ∃ b, Next a (.event (.enter p)) b ∧ Rel sb d n b := by
  obtain ⟨⟨pc, out, _⟩, rfl⟩ := guarded ok
  have idle := (phase_idle pc).mp rel.phase
  have fresh : p ∉ m.sections.map Section.pid := by
    intro h
    simp [mem_sections.mpr h] at out
  have entered : inside (a.current ++ [.enter p]) = some (p :: m.sections.map Section.pid) := by
    rw [inside_append, idle.inside]
    simp only [Option.bind_some, track, if_neg fresh]
  refine ⟨_, .event entered (by simp), ?_, ?_⟩
  · refine { rel.super with latest := ?_ }
    rw [latest_append]
    exact rel.super.latest
  · refine (phase_idle (n := beginOp m p) pc).mpr { idle with
      steady := { idle.steady with }, cached := ?_, inside := entered, nodup := ?_, count := ?_, callers := ?_ }
    · rw [latest_append]; exact idle.cached
    · exact List.nodup_cons.mpr ⟨fresh, idle.nodup⟩
    · simp [beginOp, idle.count]
    · intro c hc
      exact List.mem_cons_of_mem _ (idle.callers c hc)

variable {b : Nat}

theorem answers_logWrite (rel : Rel sb d m a) (home : Home sb b) (reserved : full m.log = false → Room m)
    (ok : step m (.logWrite p b) = some n) : ∃ b, Next a .silent b ∧ Rel sb d n b := by
  obtain ⟨⟨pc, into, _, bound⟩, rfl⟩ := guarded ok
  have idle := (phase_idle pc).mp rel.phase
  have stopped (msg : String) : Phase sb d (panicWith m msg) a :=
    ⟨idle.pending, recoverable_of_empty idle.empty idle.disk idle.steady.super⟩
  apply super_silent rel.super
  unfold logWrite
  split
  · exact stopped _
  · rename_i space
    split
    · exact stopped _
    · have room := reserved (by simpa using space)
      have pids : (m.sections.map (fun s => if s.pid = p then { s with blocks := b :: s.blocks }
          else s)).map Section.pid = m.sections.map Section.pid := by
        rw [List.map_map]
        apply List.map_congr_left
        intro s _
        simp only [Function.comp_apply]
        split <;> rfl
      have size := idle.steady.size
      simp only [Phase, pc]
      refine { idle with
        steady := { idle.steady with room := ?_, calls := ?_ },
        inside := ?_, nodup := ?_, count := ?_, callers := ?_ }
      · simp only [Room, Fits, size, List.length_cons] at *
        omega
      · intro c hc
        rcases List.mem_cons.mp hc with rfl | hc
        · exact ⟨home, bound⟩
        · exact idle.steady.calls c hc
      · rw [pids]; exact idle.inside
      · rw [pids]; exact idle.nodup
      · simp [idle.count]
      · intro c hc
        rw [pids]
        rcases List.mem_cons.mp hc with rfl | hc
        · exact mem_sections.mp into
        · exact idle.callers c hc

variable {v : Block}

theorem answers_record (rel : Rel sb d m a) (keeps : b = 1 → decodeSb v = sb)
    (ok : step m (.record p b v) = some n) : ∃ s, Next a (.event (.write p b v)) s ∧ Rel sb d n s := by
  obtain ⟨⟨pc, call⟩, rfl⟩ := guarded ok
  have idle := (phase_idle pc).mp rel.phase
  have member := idle.callers _ call
  have written : inside (a.current ++ [.write p b v]) = some (m.sections.map Section.pid) := by
    rw [inside_append, idle.inside]
    simp only [Option.bind_some, track, if_pos member]
  refine ⟨_, .event written (List.ne_nil_of_mem member), ?_, ?_⟩
  · refine { rel.super with latest := ?_ }
    rw [latest_append]
    simp only [GroupCommit.Event.apply]
    obtain rfl | e := eq_or_ne b 1
    · simpa using keeps rfl
    · rw [update_of_ne e.symm]; exact rel.super.latest
  · have shape := idle.steady.calls _ call
    have fewer : (m.calls.erase ⟨p, b⟩).length + 1 = m.calls.length := by
      have positive : 0 < m.calls.length := List.length_pos_of_mem call
      rw [List.length_erase_of_mem call]
      omega
    have bound := length_absorb_le m.log.lh b
    have room := idle.steady.room
    have steady : Steady sb (record m p b v) := by
      refine { idle.steady with room := ?_, homes := ?_, calls := ?_, clean := ?_, pinned := ?_ }
      · simp only [Fits, record] at *
        omega
      · intro c hc
        rcases mem_absorb.mp hc with hc | rfl
        · exact idle.steady.homes c hc
        · exact shape
      · intro c hc
        exact idle.steady.calls c (List.mem_of_mem_erase hc)
      · intro c hc
        rw [dirty_record] at hc
        rw [view_record]
        obtain rfl | e := eq_or_ne c b
        · simp at hc
        · rw [update_of_ne e] at hc ⊢
          exact idle.steady.clean c hc
      · intro c hc
        rw [dirty_record] at hc
        by_cases e : c = b
        · exact mem_absorb.mpr (Or.inr e)
        · rw [update_of_ne e] at hc
          exact mem_absorb.mpr (Or.inl (idle.steady.pinned c hc))
    refine (phase_idle (n := record m p b v) pc).mpr { idle with
      steady := steady, cached := ?_, inside := written,
      callers := fun c hc => idle.callers c (List.mem_of_mem_erase hc) }
    intro c hc
    rw [latest_append, view_record]
    simp only [GroupCommit.Event.apply]
    obtain rfl | e := eq_or_ne c b
    · simp
    · rw [update_of_ne e, update_of_ne e]; exact idle.cached c hc

theorem erase_pid (ss : List Section) (nodup : (ss.map Section.pid).Nodup) :
    (ss.filter (fun s => s.pid != p)).map Section.pid = (ss.map Section.pid).erase p := by
  rw [nodup.erase_eq_filter, List.filter_map]
  rfl

theorem length_filter_pid {ss : List Section} (nodup : (ss.map Section.pid).Nodup)
    (member : p ∈ ss.map Section.pid) : (ss.filter (fun s => s.pid != p)).length + 1 = ss.length := by
  have same := congrArg List.length (erase_pid (p := p) ss nodup)
  have pos := List.length_pos_of_mem member
  simp only [List.length_map, List.length_erase_of_mem member] at same pos
  omega

theorem answers_endOp (rel : Rel sb d m a) (ok : step m (.endOp p) = some n) :
    ∃ s, Next a (.event (.leave p)) s ∧ Rel sb d n s := by
  obtain ⟨⟨pc, into, out⟩, rfl⟩ := guarded ok
  have idle := (phase_idle pc).mp rel.phase
  have member := mem_sections.mp into
  have pids := erase_pid (p := p) m.sections idle.nodup
  have fewer : m.log.outstanding - 1 = (m.sections.filter (fun s => s.pid != p)).length := by
    have := length_filter_pid idle.nodup member
    have := idle.count
    omega
  have left : inside (a.current ++ [.leave p]) =
      some ((m.sections.filter (fun s => s.pid != p)).map Section.pid) := by
    rw [inside_append, idle.inside, pids]
    simp only [Option.bind_some, track, if_pos member]
  have others : ∀ c ∈ m.calls, c.pid ∈ (m.sections.filter (fun s => s.pid != p)).map Section.pid := by
    intro c hc
    have apart : c.pid ≠ p := by
      intro e
      simp [mem_calls.mpr ⟨c, hc, e⟩] at out
    rw [pids]
    exact (List.mem_erase_of_ne apart).mpr (idle.callers c hc)
  unfold endOp
  simp only [idle.calm, Bool.false_eq_true, if_false]
  by_cases last : m.log.outstanding - 1 = 0
  · rw [if_pos last]
    have alone : m.sections.filter (fun s => s.pid != p) = [] := by
      rw [last] at fewer
      exact List.length_eq_zero_iff.mp fewer.symm
    have noCalls : m.calls = [] := by
      apply List.eq_nil_iff_forall_not_mem.mpr
      intro c hc
      simpa [alone] using others c hc
    have whole : Whole (a.current ++ [.leave p]) := by
      rw [Whole, left, alone]
      rfl
    refine ⟨_, .close idle.pending whole, ?_, ?_⟩
    · obtain ⟨h1, _, h3⟩ := rel.super
      have sealed : decodeSb (replayGroup (settled d a) (a.current ++ [.leave p]) 1) = sb := by
        rw [replayGroup_append]
        simpa only [latest, closed_none idle.pending, GroupCommit.Event.apply] using h3
      exact ⟨h1, sealed, sealed⟩
    · have cached : HomeIs sb (view m)
          (replayGroup (settled d a) (a.current ++ [.leave p])) := by
        rw [replayGroup_append]
        simpa only [latest, closed_none idle.pending, GroupCommit.Event.apply] using idle.cached
      have steady : Steady sb { m with
          log := { m.log with outstanding := m.log.outstanding - 1, committing := true },
          sections := m.sections.filter (fun s => s.pid != p), pc := commitStart m.log.lh } :=
        { idle.steady with }
      simp only [Phase, commitStart]
      by_cases nothing : m.log.lh = []
      · -- nothing was logged, so the cache holds no dirty block and commit() writes nothing
        simp only [commitStart, if_pos nothing] at steady ⊢
        refine ⟨steady, ⟨alone, noCalls, last, rfl⟩, rfl, nothing, idle.empty, ?_⟩
        intro b hb
        exact (idle.steady.shown (by simp [nothing])).symm.trans (cached b hb)
      · simp only [commitStart, if_neg nothing] at steady ⊢
        exact ⟨List.length_pos_iff.mpr nothing, steady, ⟨alone, noCalls, last, rfl⟩, rfl, rfl,
          idle.empty, idle.disk, cached, fun i b hi => absurd hi (by omega)⟩
  · rw [if_neg last]
    have remain : (m.sections.filter (fun s => s.pid != p)).map Section.pid ≠ [] := by
      intro e
      rw [fewer, ← List.length_map (f := Section.pid), e] at last
      exact last rfl
    refine ⟨_, .event left remain, ?_, ?_⟩
    · refine { rel.super with latest := ?_ }
      rw [latest_append]
      exact rel.super.latest
    · simp only [Phase, pc]
      refine { idle with
        steady := { idle.steady with }, calm := rfl, cached := ?_, inside := left, nodup := ?_,
        count := fewer, callers := others }
      · rw [latest_append]; exact idle.cached
      · rw [pids]; exact idle.nodup.erase p

/-- A bwrite keeps the cache in step with the disk and pins nothing new. -/
theorem steady_bwrite (steady : Steady sb m) (keeps : b = 1 → decodeSb v = sb) (q : Pc) :
    Steady sb { bwrite m b v with pc := q } := by
  refine { steady with clean := ?_, pinned := ?_, super := ?_ }
  · intro c hc
    change dirty (bwrite _ _ _) c = false at hc
    change view (bwrite _ _ _) c = update m.disk b v c
    simp only [view_bwrite, dirty_bwrite] at hc ⊢
    obtain rfl | e := eq_or_ne c b
    · simp
    · rw [update_of_ne e] at hc
      rw [update_of_ne e, update_of_ne e]
      exact steady.clean c hc
  · intro c hc
    change dirty (bwrite _ _ _) c = true at hc
    simp only [dirty_bwrite] at hc
    obtain rfl | e := eq_or_ne c b
    · simp at hc
    · rw [update_of_ne e] at hc
      exact steady.pinned c hc
  · change decodeSb (update m.disk b v 1) = sb
    obtain rfl | e := eq_or_ne b 1
    · simpa using keeps rfl
    · rw [update_of_ne e.symm]
      exact steady.super

theorem update_log {c : Nat} {f : Nat → Block} (log : InLog sb b) (home : Home sb c) :
    update f b v c = f c :=
  update_of_ne (by rintro rfl; exact home log) _ _

theorem update_home {c : Nat} {f : Nat → Block} (home : Home sb b) (log : InLog sb c) :
    update f b v c = f c :=
  update_of_ne (by rintro rfl; exact home log) _ _

theorem head_inLog (layout : Layout sb) : InLog sb sb.logstart := by
  have := layout.head
  simp only [InLog]
  omega

theorem lh_short (steady : Steady sb m) : m.log.lh.length ≤ sb.nlog - 1 := by
  have := steady.room.2
  omega

variable {t : Nat}

theorem answers_writeLog (layout : Layout sb) (rel : Rel sb d m a) (pc : m.pc = .writeLog t)
    (ok : writeStep m = some n) : ∃ s, Next a .silent s ∧ Rel sb d n s := by
  have phase := rel.phase
  simp only [Phase, pc] at phase
  obtain ⟨bound, copy⟩ := phase
  have hb : m.log.lh[t]? = some m.log.lh[t] := List.getElem?_eq_getElem bound
  have home := (copy.steady.homes _ (List.getElem_mem bound)).1
  have target : InLog sb (sb.logstart + t + 1) := copy_inLog (lh_short copy.steady) bound
  simp only [writeStep, pc, hb, Option.map_some, Option.some.injEq, copy.steady.start] at ok
  subst ok
  apply super_silent rel.super
  have next : ∀ q : Pc, Copying sb d (t + 1) { bwrite (bread m m.log.lh[t]) (sb.logstart + t + 1)
      (view m m.log.lh[t]) with pc := q } a := by
    intro q
    refine ⟨steady_bwrite (steady_same (sameFor_bread m _) copy.steady)
      (fun e => absurd (e ▸ target) layout.super) q,
      { copy.quiet with },
      copy.pending, copy.committing, ?_, ?_, ?_, ?_⟩
    · change getHead (update m.disk _ _ _) = []
      rw [update_of_ne (by omega)]
      exact copy.empty
    · intro c hc
      exact (update_log target hc).trans (copy.disk c hc)
    · intro c hc
      change view (bwrite _ _ _) c = _
      rw [view_bwrite, view_bread]
      exact (update_log target hc).trans (copy.cached c hc)
    · intro i b hi hib
      change update m.disk _ _ _ = _
      by_cases e : i = t
      · subst e
        have same : m.log.lh[i] = b := by simpa [hb] using hib
        rw [update_self, ← same]
        exact copy.cached _ home
      · rw [update_of_ne (by omega)]
        exact copy.copies i b (by omega) hib
  unfold Phase
  by_cases more : t + 1 < m.log.lh.length
  · simp only [if_pos more]
    exact ⟨more, next _⟩
  · have done : m.log.lh.length = t + 1 := by omega
    simp only [if_neg more]
    have nonempty : m.log.lh ≠ [] := List.length_pos_iff.mp (Nat.zero_lt_of_lt bound)
    exact ⟨nonempty, done ▸ next .writeHead⟩

/- The commit point: from here on recovery finds the whole group in the log. -/
theorem answers_writeHead (layout : Layout sb) (rel : Rel sb d m a) (pc : m.pc = .writeHead)
    (ok : writeStep m = some n) : ∃ s, Next a .silent s ∧ Rel sb d n s := by
  have phase := rel.phase
  simp only [Phase, pc] at phase
  obtain ⟨nonempty, copy⟩ := phase
  have head := head_inLog layout
  have stored : getHead (putHead (view m sb.logstart) m.log.lh) = m.log.lh := by
    apply getHead_putHead
    · have := copy.steady.room.1
      simp only [LOGSIZE, MAXOPBLOCKS] at this
      omega
    · intro x hx
      have := (copy.steady.homes x hx).2
      simp only [FSSIZE] at this
      omega
  simp only [writeStep, pc, Option.some.injEq, copy.steady.start] at ok
  subst ok
  apply super_silent rel.super
  simp only [Phase]
  refine ⟨List.length_pos_iff.mpr nonempty,
    steady_bwrite copy.steady (fun e => absurd (e ▸ head) layout.super) _,
    { copy.quiet with }, ?_, ?_, ?_, ?_, ?_⟩
  · exact copy.committing.trans copy.pending.symm
  · change getHead (update m.disk _ _ _) = m.log.lh
    rw [update_self]
    exact stored
  · intro i b hib
    change update m.disk _ _ _ = _
    rw [update_of_ne (by omega)]
    exact copy.copies i b (List.getElem?_eq_some_iff.mp hib).1 hib
  · intro b hb hn
    -- a block that was not logged is clean, so its home copy is already the closed one
    refine (update_log head hb).trans ?_
    exact (copy.steady.shown hn).symm.trans (copy.cached b hb)
  · intro b hb
    change dirty (bwrite _ _ _) b = true at hb
    rw [dirty_bwrite] at hb
    by_cases e : b = sb.logstart
    · subst e; simp at hb
    · rw [update_of_ne e] at hb
      exact copy.steady.pinned b hb

theorem answers_install (layout : Layout sb) (rel : Rel sb d m a) (pc : m.pc = .install t)
    (ok : writeStep m = some n) : ∃ s, Next a .silent s ∧ Rel sb d n s := by
  have phase := rel.phase
  simp only [Phase, pc] at phase
  obtain ⟨bound, inst⟩ := phase
  have hb : m.log.lh[t]? = some m.log.lh[t] := List.getElem?_eq_getElem bound
  have home := (inst.steady.homes _ (List.getElem_mem bound)).1
  have short := lh_short inst.steady
  have source : InLog sb (sb.logstart + t + 1) := copy_inLog short bound
  have tail : m.log.lh.drop t = m.log.lh[t] :: m.log.lh.drop (t + 1) := List.drop_eq_getElem_cons bound
  have value : view m (sb.logstart + t + 1) = closed d a m.log.lh[t] := by
    rw [inst.steady.shown fun logged => (inst.steady.homes _ logged).1 source]
    exact inst.copies t _ hb
  simp only [writeStep, pc, hb, Option.map_some, Option.some.injEq, inst.steady.start, value] at ok
  have steady : ∀ q : Pc, Steady sb { bwrite (bread m (sb.logstart + t + 1)) m.log.lh[t]
      (closed d a m.log.lh[t]) with pc := q } :=
    steady_bwrite (steady_same (sameFor_bread m _) inst.steady) (fun e => e ▸ rel.super.closed)
  have next : ∀ q : Pc, Installing sb d (t + 1) { bwrite (bread m (sb.logstart + t + 1)) m.log.lh[t]
      (closed d a m.log.lh[t]) with pc := q } a := by
    intro q
    refine ⟨steady q,
      { inst.quiet with },
      inst.committing, ?_, ?_, ?_, ?_⟩
    · exact (congrArg getHead (update_home home (head_inLog layout))).trans inst.head
    · intro i b hib
      have hi := (List.getElem?_eq_some_iff.mp hib).1
      exact (update_home home (copy_inLog short hi)).trans (inst.copies i b hib)
    · intro b hbh hn
      change update m.disk _ _ b = _
      by_cases e : b = m.log.lh[t]
      · rw [e, update_self]
      · rw [update_of_ne e]
        apply inst.rest b hbh
        rw [tail]
        exact fun hm => (List.mem_cons.mp hm).elim e hn
    · intro b hd
      change dirty (bwrite _ _ _) b = true at hd
      rw [dirty_bwrite, dirty_bread] at hd
      by_cases e : b = m.log.lh[t]
      · subst e; simp at hd
      · rw [update_of_ne e] at hd
        have := inst.left b hd
        rw [tail] at this
        exact (List.mem_cons.mp this).resolve_left e
  apply super_silent rel.super
  by_cases more : t + 1 < m.log.lh.length
  · rw [if_pos more] at ok
    subst ok
    simp only [Phase]
    exact ⟨more, next _⟩
  · rw [if_neg more] at ok
    subst ok
    have final := next .clearHead
    have announced := recoverable_installing final
    have spent : m.log.lh.drop (t + 1) = [] := List.drop_eq_nil_of_le (by omega)
    simp only [Phase]
    refine ⟨{ final.steady with room := ?_, homes := by simp, calls := ?_, pinned := ?_ },
      { inst.quiet with },
      inst.committing, rfl, ?_, announced⟩
    · simp [Fits, bwrite, bread, inst.quiet.calls]
    · simp [bwrite, bread, inst.quiet.calls]
    · intro b hd
      have gone := final.left b hd
      change b ∈ m.log.lh.drop (t + 1) at gone
      rw [spent] at gone
      exact absurd gone List.not_mem_nil
    · intro b hbh
      apply final.rest b hbh
      change b ∉ m.log.lh.drop (t + 1)
      rw [spent]
      exact List.not_mem_nil

theorem answers_clearHead (layout : Layout sb) (rel : Rel sb d m a) (pc : m.pc = .clearHead)
    (ok : writeStep m = some n) : ∃ s, Next a .silent s ∧ Rel sb d n s := by
  have clear := rel.phase
  simp only [Phase, pc] at clear
  have head := head_inLog layout
  simp only [writeStep, pc, Option.some.injEq, clear.steady.start, clear.lh] at ok
  subst ok
  apply super_silent rel.super
  have steady := steady_bwrite (v := putHead (view m sb.logstart) []) clear.steady
    (fun e => absurd (e ▸ head) layout.super)
  have empty : getHead (update m.disk sb.logstart (putHead (view m sb.logstart) [])
      sb.logstart) = [] := by
    rw [update_self]
    exact getHead_putHead _ _ (by simp) (by simp)
  have homes : HomeIs sb (update m.disk sb.logstart (putHead (view m sb.logstart) []))
      (closed d a) := fun b hb => (update_log head hb).trans (clear.disk b hb)
  by_cases commit : m.log.committing = true
  · simp only [Phase, if_pos commit]
    refine ⟨steady _, { clear.quiet with }, ?_, clear.lh, empty, homes⟩
    exact clear.committing.symm.trans commit
  · simp only [Phase, if_neg commit]
    have none : a.pending = none := by
      rw [clear.committing] at commit
      simpa using commit
    have same := closed_none (d := d) none
    refine ⟨steady _, none, by simpa using commit, empty, same ▸ homes, ?_, ?_, ?_, ?_, ?_⟩
    · -- nothing is dirty any more, so the cache shows the disk
      intro b hb
      rw [latest_current clear.quiet.current]
      exact ((steady .idle).shown (by simp [bwrite, clear.lh])).trans (homes b hb)
    · rw [clear.quiet.current]
      simp [bwrite, clear.quiet.sections]
    · simp [bwrite, clear.quiet.sections]
    · simp [bwrite, clear.quiet.sections, clear.quiet.count]
    · simp [bwrite, clear.quiet.calls]

/- A group that is closed becomes durable. -/
theorem settled_append {g e : GroupCommit.Group Block} (pending : a.pending = some g) :
    settled d ⟨a.durable ++ [g], none, e⟩ = closed d a := by
  simp [settled, closed, pending]

theorem answers_finish (rel : Rel sb d m a) (ok : step m .finish = some n) :
    ∃ s, Next a .returned s ∧ Rel sb d n s := by
  obtain ⟨pc, rfl⟩ := guarded ok
  have com := rel.phase
  simp only [Phase, pc] at com
  obtain ⟨g, hg⟩ := Option.isSome_iff_exists.mp com.pending
  have landed := settled_append (d := d) (e := a.current) hg
  have unchanged := latest_current (d := d) (a := ⟨a.durable ++ [g], none, a.current⟩) com.quiet.current
  refine ⟨_, .returned hg, ?_, ?_⟩
  · have super := landed ▸ rel.super.closed
    exact ⟨super, super, unchanged ▸ super⟩
  · simp only [Phase]
    have steady := com.steady
    refine ⟨{ steady with }, rfl, rfl, com.empty, ?_, ?_, ?_, ?_, ?_, ?_⟩
    · rw [landed]; exact com.disk
    · intro b hb
      rw [unchanged, closed_none rfl, landed, ← com.disk b hb]
      exact steady.shown (by simp [com.lh])
    · simp [com.quiet.current, com.quiet.sections]
    · simp [com.quiet.sections]
    · simp [com.quiet.sections, com.quiet.count]
    · simp [com.quiet.calls]

theorem off_after (super : SuperKept sb d a) (pending : a.pending = none) (current : a.current = [])
    (safe : Recoverable sb m.disk (settled d a)) : Rel sb d (powerOff m.disk) a :=
  ⟨super, ⟨rfl, pending, current, safe⟩⟩

/-- A crash before the commit point loses the open and the closed group. -/
theorem crash_lost (super : SuperKept sb d a) (safe : Recoverable sb m.disk (settled d a)) :
    ∃ s, Next a .crash s ∧ Rel sb d (powerOff m.disk) s := by
  refine ⟨_, .lost a, off_after ?_ rfl rfl safe⟩
  exact ⟨super.settled, super.settled, super.settled⟩

/-- After the commit point the closed group survives, if there is one. -/
theorem crash_kept (super : SuperKept sb d a) (safe : Recoverable sb m.disk (closed d a)) :
    ∃ s, Next a .crash s ∧ Rel sb d (powerOff m.disk) s := by
  cases hp : a.pending with
  | none => exact crash_lost super (closed_none hp ▸ safe)
  | some g =>
    have landed := settled_append (d := d) (e := []) hp
    have kept := landed ▸ super.closed
    exact ⟨_, .kept hp, off_after ⟨kept, kept, kept⟩ rfl rfl (landed ▸ safe)⟩

theorem answers_crash (rel : Rel sb d m a) :
    ∃ s, Next a .crash s ∧ Rel sb d (powerOff m.disk) s := by
  have phase := rel.phase
  unfold Phase at phase
  split at phase
  · exact crash_lost rel.super phase.recoverable
  · exact crash_lost rel.super phase.2
  · exact crash_lost rel.super (recoverable_of_empty phase.empty phase.disk phase.steady.super)
  · exact crash_lost rel.super (recoverable_copying phase.2)
  · exact crash_lost rel.super (recoverable_copying phase.2)
  · exact crash_kept rel.super (recoverable_installing phase.2)
  · exact crash_kept rel.super phase.recoverable
  · exact crash_kept rel.super (recoverable_of_empty phase.empty phase.disk phase.steady.super)

@[simp] theorem view_powerOff (disk : Nat → Block) : view (powerOff disk) = disk := rfl
@[simp] theorem dirty_powerOff (disk : Nat → Block) (b : Nat) : dirty (powerOff disk) b = false := rfl

theorem answers_boot (rel : Rel sb d m a) (ok : step m .boot = some n) :
    ∃ s, Next a .silent s ∧ Rel sb d n s := by
  obtain ⟨pc, rfl⟩ := guarded ok
  have off := rel.phase
  simp only [Phase, pc] at off
  apply super_silent rel.super
  have safe := off.recoverable
  rw [off.fresh]
  have same := closed_none (d := d) off.pending
  have shown : ∀ b, view (bread (bread (powerOff m.disk) 1) sb.logstart) b = m.disk b := by simp
  have still : ∀ b, dirty (bread (bread (powerOff m.disk) 1) sb.logstart) b = false := by simp
  have unfolded : initlog (powerOff m.disk) =
      { bread (bread (powerOff m.disk) 1) sb.logstart with
        log := ⟨sb.logstart, sb.nlog, 0, false, getHead (m.disk sb.logstart)⟩,
        pc := if getHead (m.disk sb.logstart) = [] then .clearHead else .install 0 } := by
    have hv : view (powerOff m.disk) 1 = m.disk 1 := rfl
    have hw : view { bread (powerOff m.disk) 1 with
        log := { LogStruct.empty with start := sb.logstart, size := sb.nlog } } sb.logstart =
        m.disk sb.logstart := by
      change view (bread (powerOff m.disk) 1) sb.logstart = _
      simp
    simp only [initlog, hv, safe.super, hw]
    congr 1
  rw [unfolded]
  have steady : ∀ q : Pc, Steady sb { bread (bread (powerOff m.disk) 1) sb.logstart with
      log := ⟨sb.logstart, sb.nlog, 0, false, getHead (m.disk sb.logstart)⟩, pc := q } := by
    intro q
    refine ⟨rfl, rfl, safe.room, safe.homes, nofun, fun b _ => shown b, ?_, safe.super⟩
    intro b hb
    exact absurd ((still b).symm.trans hb) Bool.false_ne_true
  by_cases nothing : getHead (m.disk sb.logstart) = []
  · simp only [Phase, if_pos nothing]
    refine ⟨steady _, ⟨rfl, rfl, rfl, off.current⟩, by simp [off.pending], nothing, ?_, same ▸ safe⟩
    intro b hb
    rw [same]
    exact safe.rest b hb (by simp [nothing])
  · simp only [Phase, if_neg nothing]
    refine ⟨List.length_pos_iff.mpr nothing, steady _, ⟨rfl, rfl, rfl, off.current⟩, by simp [off.pending],
      rfl, ?_, ?_, ?_⟩
    · rw [same]; exact safe.copies
    · rw [same]; exact safe.rest
    · intro b hb
      exact (steady .idle).pinned b hb

theorem answers_cache (rel : Rel sb d m a) (same : SameFor m n) (on : powered m = true) :
    ∃ s, Next a .silent s ∧ Rel sb d n s := by
  apply super_silent rel.super
  apply phase_same same _ rel.phase
  intro pc
  simp [powered, pc] at on

/-- Outside a crash the cache never disagrees with the disk about a clean block. -/
theorem clean_of_phase (phase : Phase sb d m a) (on : powered m = true) :
    ∀ b, dirty m b = false → view m b = m.disk b := by
  unfold Phase at phase
  unfold powered at on
  split at phase <;> simp_all
  · exact phase.steady.clean
  · exact phase.2.steady.clean
  · exact phase.2.steady.clean
  · exact phase.2.steady.clean
  · exact phase.steady.clean
  · exact phase.steady.clean

theorem answers_write (layout : Layout sb) (rel : Rel sb d m a) (ok : writeStep m = some n) :
    ∃ s, Next a .silent s ∧ Rel sb d n s := by
  cases pc : m.pc with
  | writeLog t => exact answers_writeLog layout rel pc ok
  | writeHead => exact answers_writeHead layout rel pc ok
  | install t => exact answers_install layout rel pc ok
  | clearHead => exact answers_clearHead layout rel pc ok
  | _ => simp [writeStep, pc] at ok

/-- Every step of the machine is a step of the disk with atomic groups. -/
theorem step_answers (layout : Layout sb) (l : Label) (rel : Rel sb d m a) (sound : Sound sb m l)
    (ok : step m l = some n) : ∃ s, SpecNext a l s ∧ Rel sb d n s := by
  cases l with
  | beginOp p => exact answers_beginOp rel ok
  | logWrite p b => exact answers_logWrite rel sound.1 sound.2 ok
  | record p b v => exact answers_record rel sound.1 ok
  | endOp p => exact answers_endOp rel ok
  | write => exact answers_write layout rel ok
  | finish => exact answers_finish rel ok
  | fill b =>
    obtain ⟨⟨on, _⟩, rfl⟩ := guarded ok
    exact answers_cache rel (sameFor_bread m b) on
  | evict b =>
    obtain ⟨⟨on, tidy⟩, rfl⟩ := guarded ok
    have clean : dirty m b = false := by simpa using tidy
    exact answers_cache rel (sameFor_evict clean (clean_of_phase rel.phase on b clean)) on
  | crash =>
    cases Option.some.inj ok
    exact answers_crash rel
  | boot => exact answers_boot rel ok

theorem clear_completes (pc : m.pc = .clearHead) (calm : m.log.committing = false) :
    ∃ n, exec step m [.write] = some n ∧ n.pc = .idle := by
  simp only [exec, step, writeStep, pc, Option.bind_some]
  exact ⟨_, rfl, by simp [calm]⟩

/- Recovery has as many writes as the header has entries, and one more. -/
theorem install_completes (k : Nat) (pc : m.pc = .install t) (left : m.log.lh.length = t + 1 + k)
    (calm : m.log.committing = false) :
    ∃ n, exec step m (List.replicate (k + 2) .write) = some n ∧ n.pc = .idle := by
  have bound : t < m.log.lh.length := by omega
  have hb : m.log.lh[t]? = some m.log.lh[t] := List.getElem?_eq_getElem bound
  induction k generalizing m t with
  | zero =>
    have last : ¬ t + 1 < m.log.lh.length := by omega
    simp only [Nat.zero_add, List.replicate_succ, exec, step, writeStep, pc, hb, Option.map_some,
      if_neg last, Option.bind_some, List.replicate_zero]
    exact ⟨_, rfl, by simp [bwrite, bread, calm]⟩
  | succ k ih =>
    have more : t + 1 < m.log.lh.length := by omega
    rw [List.replicate_succ]
    simp only [exec, step, writeStep, pc, hb, Option.map_some, if_pos more, Option.bind_some]
    exact ih rfl (by simp only [log_bwrite, log_bread]; omega) calm more
      (List.getElem?_eq_getElem more)

theorem recovery_completes (pc : m.pc = .off) :
    ∃ k n, exec step m (.boot :: List.replicate k .write) = some n ∧ n.pc = .idle := by
  simp only [exec, step, pc, if_true, Option.bind_some]
  by_cases nothing : (initlog m).log.lh = []
  · have stage : (initlog m).pc = .clearHead := by
      simp only [initlog] at nothing ⊢
      rw [if_pos nothing]
    obtain ⟨n, hn, hi⟩ := clear_completes stage rfl
    exact ⟨1, n, hn, hi⟩
  · have stage : (initlog m).pc = .install 0 := by
      simp only [initlog] at nothing ⊢
      rw [if_neg nothing]
    have positive := List.length_pos_iff.mpr nothing
    obtain ⟨n, hn, hi⟩ := install_completes ((initlog m).log.lh.length - 1) stage (by omega) rfl
    exact ⟨_, n, hn, hi⟩

end Steps

instance (sb : Superblock) (b : Nat) : Decidable (Home sb b) :=
  inferInstanceAs (Decidable (¬ (sb.logstart ≤ b ∧ b < sb.logstart + sb.nlog)))

instance (sb : Superblock) (l : Label) : Decidable (HomeOp sb l) :=
  match l with
  | .logWrite _ b => inferInstanceAs (Decidable (Home sb b))
  | .record _ b v => inferInstanceAs (Decidable (b = 1 → decodeSb v = sb))
  | .beginOp _ | .endOp _ | .write | .finish | .fill _ | .evict _ | .crash | .boot =>
    inferInstanceAs (Decidable True)

instance (m : Machine) : Decidable (Room m) := inferInstanceAs (Decidable (_ ∧ _))

instance (m : Machine) (l : Label) : Decidable (Reserved m l) :=
  match l with
  | .logWrite _ _ => inferInstanceAs (Decidable (full m.log = false → Room m))
  | .record _ _ _ | .beginOp _ | .endOp _ | .write | .finish | .fill _ | .evict _ | .crash | .boot =>
    inferInstanceAs (Decidable True)

instance (sb : Superblock) (m : Machine) (l : Label) : Decidable (Sound sb m l) :=
  inferInstanceAs (Decidable (_ ∧ _))

/- An image as mkfs leaves it, as far as the log is concerned. -/
def freshImage : Nat → Block := fun b => if b = 1 then encodeSb mkfsSb else zeros

/- A block that can be told from every other one. -/
def stamp (b : Nat) : Block := fun _ => BitVec.ofNat 8 b

/- One log_write call, undisturbed by other processes. -/
def logged (p b : Nat) : List Label := [.logWrite p b, .record p b (stamp b)]

/- Two overlapping operations that share a block; the power fails after the commit
point and again during recovery. -/
def sharedRun : List Label :=
  [.boot, .write, .beginOp 0, .beginOp 1] ++ logged 0 100 ++ logged 1 101 ++ logged 1 100 ++
    [.endOp 0, .endOp 1, .write, .write, .write, .crash, .boot, .write, .crash]

/- Three operations fill their reservations of ten blocks. With 28 blocks logged the
calls for the last two both pass the test, and the log gets 30 entries where it
has room for 29: write_log goes on into the first inode block. -/
def racingRun : List Label :=
  [.boot, .write, .beginOp 0, .beginOp 1, .beginOp 2] ++
    (List.range 10).flatMap (fun i => logged 0 (100 + i)) ++
    (List.range 9).flatMap (fun i => logged 1 (110 + i)) ++
    (List.range 9).flatMap (fun i => logged 2 (120 + i)) ++
    [.logWrite 1 119, .logWrite 2 129, .record 1 119 (stamp 119), .record 2 129 (stamp 129),
      .endOp 0, .endOp 1, .endOp 2] ++ List.replicate 30 .write ++ [.crash, .boot, .write]

def stores (b : Nat) : Label → Bool
  | .record _ c _ => c == b
  | _ => false

theorem stores_of_observe {l : Label} {p b : Nat} {v : Block}
    (event : observe l = .event (.write p b v)) : stores b l = true := by
  cases l <;> simp_all [observe, stores]

end Xv6c.Log

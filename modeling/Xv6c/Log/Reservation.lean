import Mathlib.Data.Finset.Card
import Mathlib.Algebra.Order.BigOperators.Group.List
import Mathlib.Algebra.Order.Ring.Nat
import Xv6c.Log.Crash

/-! Log space. begin_op admits an operation while LOGSIZE slots suffice for ten
blocks of every operation in progress; log_write refuses from log.size - 1 blocks
on, and mkfs makes log.size equal to LOGSIZE. The header takes one of these
blocks, so the two tests disagree by one. -/
namespace Xv6c.Log
open Lib

/- The log after initlog on an image made by mkfs, with nothing in progress. -/
structure Fresh (m : Machine) : Prop where
  pc : m.pc = .idle
  size : m.log.size = LOGSIZE
  count : m.log.outstanding = 0
  calm : m.log.committing = false
  lh : m.log.lh = []
  sections : m.sections = []
  calls : m.calls = []

/- No section logs more than k distinct blocks, and the power does not fail. -/
def Within (k : Nat) (m : Machine) : Label → Prop
  | .logWrite p b => ∀ s ∈ m.sections, s.pid = p → (b :: s.blocks).toFinset.card ≤ k
  | .crash | .boot => False
  | _ => True

/- The distinct blocks recorded since the last commit returned. -/
def groupStep (g : List Nat) : Label → List Nat
  | .record _ b _ => if b ∈ g then g else g ++ [b]
  | .finish => []
  | _ => g

def groupBlocks (ls : List Label) : List Nat := ls.foldl groupStep []

@[simp] theorem groupBlocks_append (ls : List Label) (l : Label) :
    groupBlocks (ls ++ [l]) = groupStep (groupBlocks ls) l := by
  simp [groupBlocks]

/- The last label is a log_write call of a group that has logged all blocks but
the last of the reservation. -/
def Overruns (ls : List Label) : Prop :=
  ∃ ks p b, ls = ks ++ [.logWrite p b] ∧ LOGSIZE - 1 ≤ (groupBlocks ks).length

variable {ls : List Label} {l : Label}

theorem overruns_append : Overruns (ls ++ [l]) ↔
    (∃ p b, l = .logWrite p b) ∧ LOGSIZE - 1 ≤ (groupBlocks ls).length := by
  constructor
  · rintro ⟨ks, p, b, e, h⟩
    obtain ⟨rfl, last⟩ := List.append_inj e (by simpa using congrArg List.length e)
    exact ⟨⟨p, b, List.singleton_inj.mp last⟩, h⟩
  · rintro ⟨⟨p, b, rfl⟩, h⟩
    exact ⟨ls, p, b, rfl, h⟩

/- What the labels so far determine of the log. -/
structure Tracks (ls : List Label) (m : Machine) : Prop where
  panics : m.pc = .panic tooBig ↔ Overruns ls
  size : m.log.size = LOGSIZE
  on : m.pc ≠ .off
  idle : m.pc = .idle → m.log.lh = groupBlocks ls ∧ m.log.committing = false
  commit : m.pc ≠ .idle → (∀ msg, m.pc ≠ .panic msg) → m.log.committing = true
  cleared : m.pc = .clearHead ∨ m.pc = .commitDone → m.log.lh = []

theorem full_iff {l : LogStruct} (size : l.size = LOGSIZE) :
    full l = true ↔ LOGSIZE - 1 ≤ l.lh.length := by
  simp only [full, size, decide_eq_true_eq, ge_iff_le, LOGSIZE, MAXOPBLOCKS]
  omega

variable {m n : Machine} {p b : Nat}

theorem tracks_logWrite (tracks : Tracks ls m) (ok : step m (.logWrite p b) = some n) :
    Tracks (ls ++ [.logWrite p b]) n := by
  obtain ⟨⟨pc, _⟩, rfl⟩ := guarded ok
  obtain ⟨lh, calm⟩ := tracks.idle pc
  have test := full_iff tracks.size
  rw [lh] at test
  unfold logWrite
  by_cases excess : full m.log = true
  · rw [if_pos excess]
    refine ⟨?_, tracks.size, by simp [panicWith], by simp [panicWith],
      fun _ h => absurd rfl (h tooBig), by simp [panicWith]⟩
    simp only [panicWith, true_iff, overruns_append]
    exact ⟨⟨p, b, rfl⟩, test.mp excess⟩
  · have fits : ¬ Overruns (ls ++ [.logWrite p b]) := fun h => excess (test.mpr (overruns_append.mp h).2)
    rw [if_neg excess]
    split
    · exact ⟨⟨fun e => absurd e (by simp [panicWith, tooBig]), fun h => absurd h fits⟩, tracks.size, by simp [panicWith],
        by simp [panicWith], fun _ h => absurd rfl (h _), by simp [panicWith]⟩
    · refine ⟨⟨fun e => ?_, fun h => absurd h fits⟩, tracks.size, tracks.on, ?_, tracks.commit,
        tracks.cleared⟩
      · simp [pc] at e
      · intro _
        simpa [groupStep] using ⟨lh, calm⟩

theorem tracks_write (tracks : Tracks ls m) (ok : step m .write = some n) : Tracks (ls ++ [.write]) n := by
  have quiet : ¬ Overruns (ls ++ [.write]) := by
    rw [overruns_append]
    rintro ⟨⟨p, b, e⟩, _⟩
    cases e
  simp only [step] at ok
  unfold writeStep at ok
  split at ok
  · rename_i t pc
    obtain ⟨b, _, rfl⟩ := Option.map_eq_some_iff.mp ok
    have busy := tracks.commit (by simp [pc]) (by simp [pc])
    refine ⟨?_, tracks.size, ?_, ?_, fun _ _ => busy, ?_⟩ <;> dsimp only <;> split <;> simp [quiet]
  · rename_i pc
    cases Option.some.inj ok
    have busy := tracks.commit (by simp [pc]) (by simp [pc])
    exact ⟨by simp [quiet], tracks.size, by simp, by simp, fun _ _ => busy, by simp⟩
  · rename_i t pc
    obtain ⟨b, _, rfl⟩ := Option.map_eq_some_iff.mp ok
    have busy := tracks.commit (by simp [pc]) (by simp [pc])
    dsimp only
    split
    · exact ⟨by simp [quiet], tracks.size, by simp, by simp, fun _ _ => busy, by simp⟩
    · exact ⟨by simp [quiet], tracks.size, by simp, by simp, fun _ _ => busy, by simp⟩
  · rename_i pc
    cases Option.some.inj ok
    have busy := tracks.commit (by simp [pc]) (by simp [pc])
    have empty := tracks.cleared (Or.inl pc)
    simp only [busy, if_true]
    exact ⟨by simp [quiet], tracks.size, by simp, by simp, fun _ _ => busy, fun _ => empty⟩
  · cases ok

theorem tracks_step {k : Nat} (tracks : Tracks ls m) (within : Within k m l) (ok : step m l = some n) :
    Tracks (ls ++ [l]) n := by
  have quiet (plain : ∀ p b, l ≠ .logWrite p b) : ¬ Overruns (ls ++ [l]) := by
    rw [overruns_append]
    rintro ⟨⟨p, b, e⟩, _⟩
    exact plain p b e
  cases l with
  | logWrite p b => exact tracks_logWrite tracks ok
  | write => exact tracks_write tracks ok
  | crash => exact within.elim
  | boot => exact within.elim
  | beginOp p =>
    obtain ⟨⟨pc, _⟩, rfl⟩ := guarded ok
    have h := tracks.idle pc
    exact ⟨by simp [beginOp, pc, quiet], tracks.size, tracks.on,
      fun _ => by simpa [groupStep, beginOp] using h, tracks.commit, tracks.cleared⟩
  | record p b v =>
    obtain ⟨⟨pc, _⟩, rfl⟩ := guarded ok
    obtain ⟨lh, calm⟩ := tracks.idle pc
    refine ⟨by simp [record, pc, quiet], tracks.size, tracks.on, fun _ => ⟨?_, calm⟩, tracks.commit,
      fun h => absurd h (by simp [record, pc])⟩
    rw [groupBlocks_append, ← lh]
    exact absorb_eq _ _
  | endOp p =>
    obtain ⟨⟨pc, _⟩, rfl⟩ := guarded ok
    obtain ⟨lh, calm⟩ := tracks.idle pc
    unfold endOp
    simp only [calm, Bool.false_eq_true, if_false]
    split
    · by_cases nothing : m.log.lh = []
      · simp only [commitStart, if_pos nothing]
        exact ⟨by simp [quiet], tracks.size, by simp, by simp, by simp, by simp [nothing]⟩
      · simp only [commitStart, if_neg nothing]
        exact ⟨by simp [quiet], tracks.size, by simp, by simp, by simp, by simp⟩
    · refine ⟨by simp [pc, quiet], tracks.size, tracks.on, ?_, by simp [pc], by simp [pc]⟩
      intro _
      simpa [groupStep] using lh
  | finish =>
    obtain ⟨pc, rfl⟩ := guarded ok
    have empty := tracks.cleared (Or.inr pc)
    exact ⟨by simp [quiet], tracks.size, by simp, by simp [groupStep, empty], by simp, by simp⟩
  | fill b =>
    obtain ⟨⟨on, _⟩, rfl⟩ := guarded ok
    refine ⟨⟨fun e => ?_, fun h => absurd h (quiet (by simp))⟩, tracks.size, tracks.on, ?_, tracks.commit,
      tracks.cleared⟩
    · simp only [pc_bread] at e
      simp [powered, e] at on
    · simpa [groupStep] using tracks.idle
  | evict b =>
    obtain ⟨⟨on, _⟩, rfl⟩ := guarded ok
    refine ⟨⟨fun e => ?_, fun h => absurd h (quiet (by simp))⟩, tracks.size, tracks.on, ?_, tracks.commit,
      tracks.cleared⟩
    · simp only at e
      simp [powered, e] at on
    · simpa [groupStep] using tracks.idle

theorem tracks_fresh (fresh : Fresh m) : Tracks [] m := by
  refine ⟨?_, fresh.size, by simp [fresh.pc], fun _ => ⟨fresh.lh, fresh.calm⟩,
    fun h => absurd fresh.pc h, fun _ => fresh.lh⟩
  simp [fresh.pc, Overruns]

theorem tracks_run {k : Nat} (fresh : Fresh m) (within : Along step (Within k) m ls)
    (reached : exec step m ls = some n) : Tracks ls n :=
  run_history (fun _ _ _ _ tracks ok stepped => tracks_step tracks ok stepped)
    (tracks_fresh fresh) within reached

/- A call of p that will append its block. -/
def appends (m : Machine) (p : Nat) : Bool :=
  m.calls.any (fun c => c.pid == p && decide (c.blockno ∉ m.log.lh))

/- The log slots that a section may still take when it keeps to k blocks. -/
def claim (k : Nat) (m : Machine) (s : Section) : Nat :=
  (k - s.blocks.toFinset.card) + (appends m s.pid).toNat

def claims (k : Nat) (m : Machine) : Nat := (m.sections.map (claim k m)).sum

/- Between two operations on the log, with k = MAXOPBLOCKS - 1: what is logged and
what may still be claimed fits into the log. -/
structure Budget (m : Machine) : Prop where
  size : m.log.size = LOGSIZE
  calm : m.log.committing = false
  pids : (m.sections.map Section.pid).Nodup
  callers : (m.calls.map Call.pid).Nodup
  count : m.log.outstanding = m.sections.length
  kept : ∀ s ∈ m.sections, s.blocks.toFinset.card ≤ MAXOPBLOCKS - 1
  known : ∀ s ∈ m.sections, ∀ b ∈ s.blocks, b ∈ m.log.lh ∨ ⟨s.pid, b⟩ ∈ m.calls
  owned : ∀ c ∈ m.calls, ∃ s ∈ m.sections, s.pid = c.pid ∧ c.blockno ∈ s.blocks
  empty : m.sections = [] → m.log.lh = []
  fits : m.log.lh.length + claims (MAXOPBLOCKS - 1) m ≤ LOGSIZE - 2

/- The commit of a group runs with nothing else in progress. -/
structure Draining (m : Machine) : Prop where
  size : m.log.size = LOGSIZE
  busy : m.log.committing = true
  count : m.log.outstanding = 0
  sections : m.sections = []
  calls : m.calls = []
  cleared : m.pc = .clearHead ∨ m.pc = .commitDone → m.log.lh = []

def Budgeted (m : Machine) : Prop :=
  match m.pc with
  | .idle => Budget m
  | .off | .panic _ => False
  | _ => Draining m

theorem appends_iff : appends m p = true ↔ ∃ c ∈ m.calls, c.pid = p ∧ c.blockno ∉ m.log.lh := by
  simp [appends]

theorem appends_call (m : Machine) (ss : List Section) (p b q : Nat) :
    appends { m with calls := ⟨p, b⟩ :: m.calls, sections := ss } q =
      ((p == q && decide (b ∉ m.log.lh)) || appends m q) := rfl

theorem not_appends (silent : calling m p = false) : appends m p = false := by
  rw [Bool.eq_false_iff, ne_eq, appends_iff]
  rintro ⟨c, member, rfl, _⟩
  simp only [calling, List.any_eq_false, beq_iff_eq] at silent
  exact silent c member rfl

theorem section_unique (budget : Budget m) {s t : Section} (hs : s ∈ m.sections) (ht : t ∈ m.sections)
    (same : s.pid = t.pid) : s = t :=
  List.inj_on_of_nodup_map budget.pids hs ht same

theorem claim_le (budget : Budget m) {s : Section} (member : s ∈ m.sections) :
    claim (MAXOPBLOCKS - 1) m s ≤ MAXOPBLOCKS - 1 := by
  have kept := budget.kept s member
  unfold claim
  cases pending : appends m s.pid with
  | false => simp
  | true =>
    -- a pending call has put its block among the section's blocks
    obtain ⟨c, hc, pid, _⟩ := appends_iff.mp pending
    obtain ⟨t, ht, owner, block⟩ := budget.owned c hc
    cases section_unique budget ht member (owner.trans pid)
    have : 0 < s.blocks.toFinset.card := Finset.card_pos.mpr ⟨c.blockno, by simpa using block⟩
    simp only [Bool.toNat_true]
    omega

theorem claims_le (budget : Budget m) :
    claims (MAXOPBLOCKS - 1) m ≤ m.sections.length * (MAXOPBLOCKS - 1) := by
  have bound := List.sum_le_card_nsmul (m.sections.map (claim (MAXOPBLOCKS - 1) m))
    (MAXOPBLOCKS - 1) (by simpa using fun s member => claim_le budget member)
  simpa [claims] using bound

theorem budget_beginOp (budget : Budget m) (outside : insideSection m p = false)
    (admitted : admits m.log = true) : Budget (beginOp m p) := by
  simp only [insideSection, List.any_eq_false, beq_iff_eq] at outside
  have silent : calling m p = false := by
    simp only [calling, List.any_eq_false, beq_iff_eq]
    intro c hc e
    obtain ⟨s, hs, owner, _⟩ := budget.owned c hc
    exact outside s hs (owner.trans e)
  refine ⟨budget.size, budget.calm, ?_, budget.callers, ?_, ?_, ?_, ?_, by simp [beginOp], ?_⟩
  · simp only [beginOp, List.map_cons, List.nodup_cons, List.mem_map, not_exists, not_and]
    exact ⟨outside, budget.pids⟩
  · simp [beginOp, budget.count]
  · simpa [beginOp] using budget.kept
  · simpa [beginOp] using budget.known
  · intro c hc
    obtain ⟨s, hs, own⟩ := budget.owned c hc
    exact ⟨s, List.mem_cons_of_mem _ hs, own⟩
  · have sum : claims (MAXOPBLOCKS - 1) (beginOp m p) =
        MAXOPBLOCKS - 1 + claims (MAXOPBLOCKS - 1) m := by
      simp only [claims, beginOp, List.map_cons, List.sum_cons]
      congr 1
      change claim _ m ⟨p, []⟩ = _
      simp [claim, not_appends silent]
    have most := claims_le budget
    simp only [admits, budget.calm, Bool.not_false, Bool.true_and, decide_eq_true_eq, budget.count]
      at admitted
    rw [sum]
    change m.log.lh.length + _ ≤ _
    rcases List.eq_nil_or_concat' m.sections with none | ⟨ss, s, some⟩
    · simp [budget.empty none, claims, none, LOGSIZE, MAXOPBLOCKS]
    · have : 0 < m.sections.length := by simp [some]
      simp only [LOGSIZE, MAXOPBLOCKS] at *
      omega

theorem budget_logWrite (budget : Budget m) (member : insideSection m p = true) (silent : calling m p = false)
    (within : Within (MAXOPBLOCKS - 1) m (.logWrite p b)) :
    (logWrite m p b).pc = m.pc ∧ Budget (logWrite m p b) := by
  have room : full m.log ≠ true := by
    have fits := budget.fits
    rw [ne_eq, full_iff budget.size]
    simp only [LOGSIZE, MAXOPBLOCKS] at *
    omega
  have inProgress : ¬ m.log.outstanding < 1 := by
    simp only [insideSection, List.any_eq_true] at member
    obtain ⟨s, hs, _⟩ := member
    have := List.length_pos_of_mem hs
    rw [budget.count]
    omega
  have others : ∀ c ∈ m.calls, c.pid ≠ p := by
    simpa [calling] using silent
  have pids : (m.sections.map fun s => if s.pid = p then { s with blocks := b :: s.blocks } else s).map
      Section.pid = m.sections.map Section.pid := by
    simp only [List.map_map]
    refine List.map_congr_left fun s _ => ?_
    simp only [Function.comp]
    split <;> rfl
  simp only [logWrite, if_neg room, if_neg inProgress, true_and]
  refine ⟨budget.size, budget.calm, by simpa only [pids] using budget.pids, ?_, ?_, ?_, ?_, ?_, ?_, ?_⟩
  · simpa using ⟨others, budget.callers⟩
  · simpa using budget.count
  · intro s hs
    obtain ⟨t, ht, rfl⟩ := List.mem_map.mp hs
    split
    · rename_i e
      exact within t ht e
    · exact budget.kept t ht
  · intro s hs c hc
    obtain ⟨t, ht, rfl⟩ := List.mem_map.mp hs
    split at hc
    · rename_i e
      rcases List.mem_cons.mp hc with rfl | old
      · simp [e]
      · simpa [e] using (budget.known t ht c old).imp id Or.inr
    · rename_i e
      simpa [e] using budget.known t ht c hc
  · intro c hc
    rcases List.mem_cons.mp hc with rfl | old
    · simp only [insideSection, List.any_eq_true, beq_iff_eq] at member
      obtain ⟨s, hs, e⟩ := member
      exact ⟨_, List.mem_map_of_mem hs, by simp [e]⟩
    · obtain ⟨s, hs, own⟩ := budget.owned c old
      have : s.pid ≠ p := own.1 ▸ others c old
      exact ⟨_, List.mem_map_of_mem hs, by simpa [this] using own⟩
  · simpa using budget.empty
  · refine le_trans ?_ budget.fits
    simp only [Nat.add_le_add_iff_left, claims, List.map_map]
    refine List.sum_le_sum fun s hs => ?_
    by_cases e : s.pid = p
    · have idle : appends m s.pid = false := e ▸ not_appends silent
      simp only [Function.comp, claim, if_pos e, appends_call, idle, Bool.or_false, Bool.toNat_false]
      by_cases old : b ∈ s.blocks
      · -- a block of the section is in the log already, since p has no call pending
        have logged : b ∈ m.log.lh :=
          (budget.known s hs b old).resolve_right fun h => others _ h e
        simp [logged, old]
      · have grows := within s hs e
        have pending := Bool.toNat_le (p == s.pid && decide (b ∉ m.log.lh))
        simp only [List.toFinset_cons] at grows ⊢
        rw [Finset.card_insert_of_notMem (by simpa using old)] at grows ⊢
        omega
    · have other : (p == s.pid) = false := by simpa using Ne.symm e
      simp only [Function.comp, claim, if_neg e, appends_call, other, Bool.false_and, Bool.false_or]
      exact le_rfl

variable {v : Block}

/- A record step changes which calls will append only by settling its own. -/
theorem appends_record {q : Nat} (pending : appends (record m p b v) q = true) : appends m q = true := by
  obtain ⟨c, hc, pid, new⟩ := appends_iff.mp pending
  exact appends_iff.mpr ⟨c, List.mem_of_mem_erase hc, pid, fun h => new (mem_absorb.mpr (Or.inl h))⟩

theorem appends_settled (budget : Budget m) (call : ⟨p, b⟩ ∈ m.calls) : appends (record m p b v) p = false := by
  rw [Bool.eq_false_iff, ne_eq, appends_iff]
  rintro ⟨c, hc, pid, _⟩
  have calls : m.calls.Nodup := List.Nodup.of_map Call.pid budget.callers
  obtain ⟨ne, old⟩ := (calls.mem_erase_iff).mp hc
  exact ne (List.inj_on_of_nodup_map budget.callers old call pid)

theorem claim_record (k : Nat) (m : Machine) (p b : Nat) (v : Block) (s : Section) :
    claim k (record m p b v) s ≤ claim k m s := by
  refine Nat.add_le_add_left (Bool.toNat_le_toNat ?_) _
  exact appends_record

theorem budget_record (budget : Budget m) (call : ⟨p, b⟩ ∈ m.calls) : Budget (record m p b v) := by
  have calls : m.calls.Nodup := List.Nodup.of_map Call.pid budget.callers
  refine { budget with callers := ?_, known := ?_, owned := ?_, empty := ?_, fits := ?_ }
  · exact budget.callers.sublist (List.erase_sublist.map _)
  · intro s hs c hc
    rcases budget.known s hs c hc with logged | pending
    · exact Or.inl (mem_absorb.mpr (Or.inl logged))
    · by_cases e : (⟨s.pid, c⟩ : Call) = ⟨p, b⟩
      · cases e
        exact Or.inl (mem_absorb.mpr (Or.inr rfl))
      · exact Or.inr ((calls.mem_erase_iff).mpr ⟨e, pending⟩)
  · intro c hc
    exact budget.owned c (List.mem_of_mem_erase hc)
  · intro none
    obtain ⟨s, hs, _⟩ := budget.owned _ call
    rw [show m.sections = [] from none] at hs
    cases hs
  · refine le_trans ?_ budget.fits
    change (absorb m.log.lh b).length + ((m.sections.map (claim _ (record m p b v))).sum) ≤ _
    by_cases old : b ∈ m.log.lh
    · rw [absorb_eq, if_pos old]
      exact Nat.add_le_add_left (List.sum_le_sum fun s _ => claim_record _ m p b v s) _
    · -- the call's own claim pays for the slot
      obtain ⟨s, hs, pid, _⟩ := budget.owned _ call
      have pays : claim (MAXOPBLOCKS - 1) (record m p b v) s < claim (MAXOPBLOCKS - 1) m s := by
        have pending : appends m s.pid = true := appends_iff.mpr ⟨_, call, pid.symm, old⟩
        have settled : appends (record m p b v) s.pid = false := pid ▸ appends_settled budget call
        simp [claim, pending, settled]
      have less := List.sum_lt_sum (claim (MAXOPBLOCKS - 1) (record m p b v)) (claim (MAXOPBLOCKS - 1) m)
        (fun t _ => claim_record _ m p b v t) ⟨s, hs, pays⟩
      rw [absorb_eq, if_neg old]
      simp only [claims, List.length_append, List.length_singleton]
      omega

theorem budgeted_endOp (pc : m.pc = .idle) (budget : Budget m) (member : insideSection m p = true)
    (silent : calling m p = false) : Budgeted (endOp m p) := by
  have others : ∀ c ∈ m.calls, c.pid ≠ p := by simpa [calling] using silent
  have left := length_filter_pid budget.pids (mem_sections.mp member)
  unfold endOp
  simp only [budget.calm, Bool.false_eq_true, if_false, budget.count]
  by_cases last : m.sections.length - 1 = 0
  · rw [if_pos last]
    have sections : m.sections.filter (fun s => s.pid != p) = [] :=
      List.eq_nil_of_length_eq_zero (by omega)
    have calls : m.calls = [] := by
      refine List.eq_nil_iff_forall_not_mem.mpr fun c hc => ?_
      obtain ⟨s, hs, owner, _⟩ := budget.owned c hc
      have stays : s ∈ m.sections.filter (fun s => s.pid != p) :=
        List.mem_filter.mpr ⟨hs, by simpa [owner] using others c hc⟩
      simp [sections] at stays
    have drained (w : Pc) (cleared : w = .clearHead ∨ w = .commitDone → m.log.lh = []) :
        Draining { m with
          log := { m.log with outstanding := m.sections.length - 1, committing := true }
          sections := m.sections.filter (fun s => s.pid != p), pc := w } :=
      ⟨budget.size, rfl, last, sections, calls, cleared⟩
    by_cases nothing : m.log.lh = []
    · simpa only [Budgeted, commitStart, if_pos nothing] using drained .commitDone fun _ => nothing
    · simpa only [Budgeted, commitStart, if_neg nothing] using drained (.writeLog 0) (by simp)
  · rw [if_neg last]
    simp only [Budgeted, pc]
    refine ⟨budget.size, rfl, budget.pids.sublist (List.filter_sublist.map _),
      budget.callers, ?_, ?_, ?_, ?_, ?_, ?_⟩
    · simp only
      omega
    · exact fun s hs => budget.kept s (List.mem_filter.mp hs).1
    · exact fun s hs => budget.known s (List.mem_filter.mp hs).1
    · intro c hc
      obtain ⟨s, hs, owner, block⟩ := budget.owned c hc
      exact ⟨s, List.mem_filter.mpr ⟨hs, by simpa [owner] using others c hc⟩, owner, block⟩
    · intro none
      simp only at none
      rw [none] at left
      simp only [List.length_nil] at left
      omega
    · refine le_trans (Nat.add_le_add_left ?_ _) budget.fits
      exact List.Sublist.sum_le_sum (List.filter_sublist.map _) (by simp)

theorem budgeted_write (budget : Budgeted m) (ok : step m .write = some n) : Budgeted n := by
  simp only [step] at ok
  unfold writeStep at ok
  split at ok
  · rename_i t pc
    obtain ⟨b, _, rfl⟩ := Option.map_eq_some_iff.mp ok
    simp only [Budgeted, pc] at budget
    dsimp only
    split
    · exact { budget with cleared := by simp }
    · exact { budget with cleared := by simp }
  · rename_i pc
    cases Option.some.inj ok
    simp only [Budgeted, pc] at budget
    exact { budget with cleared := by simp }
  · rename_i t pc
    obtain ⟨b, _, rfl⟩ := Option.map_eq_some_iff.mp ok
    simp only [Budgeted, pc] at budget
    dsimp only
    split
    · exact { budget with cleared := by simp }
    · exact { budget with cleared := by simp }
  · rename_i pc
    cases Option.some.inj ok
    simp only [Budgeted, pc] at budget
    simp only [budget.busy, if_true]
    exact { budget with cleared := fun _ => budget.cleared (Or.inl pc) }
  · cases ok

theorem budgeted_cache (c : Nat → Option Buf) (budget : Budgeted m) : Budgeted { m with cache := c } := by
  have budget_same (h : Budget m) : Budget { m with cache := c } := { h with }
  have draining_same (h : Draining m) : Draining { m with cache := c } := { h with }
  unfold Budgeted at *
  split <;> simp_all only

theorem budgeted_step (budget : Budgeted m) (within : Within (MAXOPBLOCKS - 1) m l) (ok : step m l = some n) :
    Budgeted n := by
  have idle (pc : m.pc = .idle) : Budget m := by simpa only [Budgeted, pc] using budget
  cases l with
  | beginOp p =>
    obtain ⟨⟨pc, outside, admitted⟩, rfl⟩ := guarded ok
    have still : (beginOp m p).pc = .idle := pc
    simpa only [Budgeted, still] using budget_beginOp (idle pc) (by simpa using outside) admitted
  | logWrite p b =>
    obtain ⟨⟨pc, member, silent, _⟩, rfl⟩ := guarded ok
    obtain ⟨still, after⟩ := budget_logWrite (idle pc) member (by simpa using silent) within
    simpa only [Budgeted, still, pc] using after
  | record p b v =>
    obtain ⟨⟨pc, call⟩, rfl⟩ := guarded ok
    have still : (record m p b v).pc = .idle := pc
    simpa only [Budgeted, still] using budget_record (idle pc) call
  | endOp p =>
    obtain ⟨⟨pc, member, silent⟩, rfl⟩ := guarded ok
    exact budgeted_endOp pc (idle pc) member (by simpa using silent)
  | write => exact budgeted_write budget ok
  | finish =>
    obtain ⟨pc, rfl⟩ := guarded ok
    simp only [Budgeted, pc] at budget
    have empty := budget.cleared (Or.inr pc)
    refine ⟨budget.size, rfl, ?_, ?_, ?_, ?_, ?_, ?_, fun _ => empty, ?_⟩ <;>
      simp [budget.sections, budget.calls, budget.count, empty, claims]
  | fill b =>
    obtain ⟨_, rfl⟩ := guarded ok
    exact budgeted_cache _ budget
  | evict b =>
    obtain ⟨_, rfl⟩ := guarded ok
    exact budgeted_cache _ budget
  | crash => exact within.elim
  | boot => exact within.elim

theorem budgeted_fresh (fresh : Fresh m) : Budgeted m := by
  simp only [Budgeted, fresh.pc]
  refine ⟨fresh.size, fresh.calm, ?_, ?_, ?_, ?_, ?_, ?_, fun _ => fresh.lh, ?_⟩ <;>
    simp [fresh.sections, fresh.calls, fresh.count, fresh.lh, claims]

/-- Among operations of at most MAXOPBLOCKS blocks each, log_write panics exactly
when it is called in a group that has logged LOGSIZE - 1 blocks already. With one
block less for every operation begin_op's reservation suffices. -/
theorem reservation_suffices {m n : Machine} {ls : List Label} (fresh : Fresh m)
    (within : Along step (Within MAXOPBLOCKS) m ls) (reached : exec step m ls = some n) :
    (n.pc ≠ .panic tooBig ↔ ¬ Overruns ls) ∧
      (Along step (Within (MAXOPBLOCKS - 1)) m ls → n.pc ≠ .panic tooBig) := by
  refine ⟨(tracks_run fresh within reached).panics.not, fun smaller => ?_⟩
  have budget : Budgeted n := run_invariant (fun s l t => budgeted_step) (budgeted_fresh fresh)
    smaller reached
  intro panicked
  simp only [Budgeted, panicked] at budget

instance (k : Nat) (m : Machine) (l : Label) : Decidable (Within k m l) :=
  match l with
  | .logWrite _ _ => inferInstanceAs (Decidable (∀ _ ∈ _, _))
  | .crash | .boot => inferInstanceAs (Decidable False)
  | .beginOp _ | .record _ _ _ | .endOp _ | .write | .finish | .fill _ | .evict _ =>
    inferInstanceAs (Decidable True)

/- The machine after initlog on an image made by mkfs. -/
def booted : Machine := (exec step (powerOff freshImage) [.boot, .write]).getD (powerOff freshImage)

theorem booted_fresh : Fresh booted := by
  constructor <;> decide +kernel

theorem reservation_suffices_shared : ∃ n,
    exec step booted ([.beginOp 0, .beginOp 1] ++ logged 0 100 ++ logged 1 100 ++ [.endOp 0]) = some n ∧
      n.pc ≠ .panic tooBig := by
  have reaches : (exec step booted ([.beginOp 0, .beginOp 1] ++ logged 0 100 ++ logged 1 100 ++
      [.endOp 0])).isSome = true := by decide +kernel
  obtain ⟨n, hn⟩ := Option.isSome_iff_exists.mp reaches
  exact ⟨n, hn, (reservation_suffices booted_fresh (along_of_checks (by decide +kernel)) hn).2
    (along_of_checks (by decide +kernel))⟩

/- Three operations are admitted; the first two log ten blocks each and the third
is refused its tenth. -/
def fillingRun : List Label :=
  [.beginOp 0, .beginOp 1, .beginOp 2] ++
    (List.range 10).flatMap (fun i => logged 0 (100 + i)) ++
    (List.range 10).flatMap (fun i => logged 1 (110 + i)) ++
    (List.range 9).flatMap (fun i => logged 2 (120 + i)) ++ [.logWrite 2 129]

theorem fillingRun_panics :
    Fresh booted ∧ Along step (Within MAXOPBLOCKS) booted fillingRun ∧
      ∃ n, exec step booted fillingRun = some n ∧ n.pc = .panic tooBig := by
  have reaches : (exec step booted fillingRun).map (fun n => n.pc) = some (.panic tooBig) := by
    decide +kernel
  obtain ⟨n, hn, pc⟩ := Option.map_eq_some_iff.mp reaches
  exact ⟨booted_fresh, along_of_checks (by decide +kernel), n, hn, pc⟩

end Xv6c.Log

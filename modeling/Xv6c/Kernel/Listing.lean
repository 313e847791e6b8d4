import Xv6c.Lib.Records
import Xv6c.Kernel.Disclosure

/-! ps.c: what its loop finds in the buffer that cinfo has filled. -/
namespace Xv6c
open Lib

/- What ps reads of a struct pinfo and of a struct cinfo, with the entries of procs that are
in use. -/
structure PsProc where
  pid : BitVec 32
  state : BitVec 32
  ticks : BitVec 32
  name : List Byte
  deriving DecidableEq

structure PsCont where
  msz : BitVec 32
  mdsk : BitVec 32
  mproc : BitVec 32
  usz : BitVec 32
  udsk : BitVec 32
  cid : BitVec 32
  state : BitVec 32
  name : List Byte
  procs : List PsProc
  deriving DecidableEq

def getInt (f : Bytes) (off : Nat) : BitVec 32 := word f (off / 4)

/- The string in a field of 16 bytes. -/
def getName (f : Bytes) (off : Nat) : List Byte := ((List.range 16).map fun j => f (off + j)).takeWhile (· != 0)

def getPinfo (f : Bytes) (off : Nat) : PsProc :=
  ⟨getInt f (off + 4), getInt f off, getInt f (off + 24), getName f (off + 8)⟩

/- PIUNUSED is 0. Behind procs[NPROC - 1] the loop would leave the structure. -/
def getCinfo (f : Bytes) (off : Nat) : PsCont where
  msz := getInt f off
  mdsk := getInt f (off + 4)
  mproc := getInt f (off + 8)
  usz := getInt f (off + 12)
  udsk := getInt f (off + 16)
  cid := getInt f (off + 20)
  state := getInt f (off + 24)
  name := getName f (off + 28)
  procs := ((List.range (min (getInt f (off + 8)).toInt.toNat NPROC)).map fun l =>
    getPinfo f (off + 44 + l * sizePinfo)).filter (·.state != 0)

/- The containers and processes that ps lists; CIUNUSED is 0. -/
def ps (ci : Bytes) : List PsCont :=
  ((List.range NCONT).map fun i => getCinfo ci (i * sizeCinfo)).filter (·.state != 0)

/- The name of a process or container, as it arrives. -/
def shownName (t : List Byte) : List Byte := (t.takeWhile (· ≠ 0)).take 15

def PInfo.shown (q : PInfo) : PsProc :=
  ⟨BitVec.ofInt 32 q.pid, BitVec.ofInt 32 q.state.ctorIdx, BitVec.ofInt 32 q.ticks, shownName q.name⟩

def CInfo.shown (c : CInfo) : PsCont :=
  ⟨BitVec.ofInt 32 c.msz, BitVec.ofInt 32 c.mdsk, BitVec.ofInt 32 c.mproc, BitVec.ofInt 32 c.usz,
    BitVec.ofInt 32 c.udsk, BitVec.ofInt 32 c.cid, BitVec.ofInt 32 c.state.ctorIdx, shownName c.name,
    c.procs.map PInfo.shown⟩

section Fields
variable {f g : Bytes} {off off' n i : Nat} {v : Int} {t : List Byte}

theorem setInt_outside (word : 4 ∣ off) (beside : i < off ∨ off + 4 ≤ i) : setInt f off v i = f i := by
  unfold setInt setWord
  exact if_neg (by omega)

theorem safestrcpy_outside (beside : i < off ∨ off + 16 ≤ i) : safestrcpy f off t 16 i = f i := by
  unfold safestrcpy copyIn
  refine if_neg ?_
  simp only [List.length_append, List.length_take, List.length_cons, List.length_nil]
  omega

theorem getInt_congr (word : 4 ∣ off) (same : ∀ i, off ≤ i → i < off + 4 → f i = g i) : getInt f off = getInt g off :=
  word_congr fun j here => same j (by omega) (by omega)

theorem getInt_setInt (word : 4 ∣ off) (word' : 4 ∣ off') :
    getInt (setInt f off' v) off = if off = off' then BitVec.ofInt 32 v else getInt f off := by
  unfold getInt setInt
  rw [word_setWord]
  exact if_congr (by omega) rfl rfl

theorem getInt_safestrcpy (word : 4 ∣ off) (beside : off + 4 ≤ off' ∨ off' + 16 ≤ off) :
    getInt (safestrcpy f off' t 16) off = getInt f off :=
  getInt_congr word fun _ _ _ => safestrcpy_outside (by omega)

theorem getInt_blank (word : 4 ∣ off) (clear : Blank f off 4) : getInt f off = 0 :=
  (getInt_congr (g := zeros) word clear).trans (word_zeros _)

theorem getName_congr (same : ∀ i, off ≤ i → i < off + 16 → f i = g i) : getName f off = getName g off := by
  unfold getName
  rw [List.map_congr_left fun j listed => same (off + j) (by omega) (by have := List.mem_range.mp listed; omega)]

theorem getName_blank (clear : Blank f off 16) : getName f off = [] :=
  getName_congr (g := zeros) clear

/- The NUL ends the string, whatever the field held behind it. -/
theorem getName_safestrcpy : getName (safestrcpy f off t 16) off = shownName t := by
  have short : (shownName t).length ≤ 15 := List.length_take_le _ _
  have bytes (j : Nat) : safestrcpy f off t 16 (off + j) =
      if j < (shownName t).length + 1 then (shownName t ++ [0]).getD j 0 else f (off + j) := by
    change (if off ≤ off + j ∧ off + j < off + (shownName t ++ [0]).length then _ else _) = _
    rw [List.length_append, List.length_singleton, Nat.add_sub_cancel_left]
    exact if_congr (by omega) rfl rfl
  have split : List.range 16 = List.range ((shownName t).length + 1) ++
      (List.range (15 - (shownName t).length)).map ((shownName t).length + 1 + ·) := by
    rw [← List.range_add]
    congr 1
    omega
  have front : (List.range ((shownName t).length + 1)).map (fun j => safestrcpy f off t 16 (off + j)) =
      shownName t ++ [0] := by
    refine List.ext_getElem (by simp) fun j first second => ?_
    simp only [List.length_map, List.length_range] at first
    rw [List.getElem_map, List.getElem_range, bytes, if_pos first, List.getD_eq_getElem?_getD,
      List.getElem?_eq_getElem second, Option.getD_some]
  have whole : ∀ c ∈ shownName t, (c != 0) = true := fun c member => by
    have := List.mem_takeWhile_imp (List.mem_of_mem_take member)
    simpa using this
  unfold getName
  rw [split, List.map_append, front, List.append_assoc, List.takeWhile_append_of_pos whole, List.singleton_append,
    List.takeWhile_cons_of_neg (by decide), List.append_nil]

end Fields

section Records
variable {f g : Bytes} {off : Nat}

def pinfoRecord : Record PInfo PsProc where
  size := sizePinfo
  put := putPinfo
  get := getPinfo
  view := PInfo.shown
  empty := ⟨0, 0, 0, []⟩
  fits _ := True
  words := by decide
  outside f off q i _ word beside := by
    simp only [sizePinfo] at beside
    unfold putPinfo
    simp (disch := omega) only [safestrcpy_outside, setInt_outside]
  within f g off word same := by
    simp only [sizePinfo] at same
    unfold getPinfo
    rw [getInt_congr (f := f) (by omega) fun i low high => same i (by omega) (by omega),
      getInt_congr (f := f) word fun i low high => same i (by omega) (by omega),
      getInt_congr (f := f) (by omega) fun i low high => same i (by omega) (by omega),
      getName_congr (f := f) fun i low high => same i (by omega) (by omega)]
  reads f off q _ word _ := by
    unfold getPinfo putPinfo PInfo.shown
    simp (disch := omega) [getInt_safestrcpy, getInt_setInt, getName_safestrcpy]
  blank f off word clear := by
    simp only [sizePinfo] at clear
    unfold getPinfo
    rw [getInt_blank (by omega) fun i low high => clear i (by omega) (by omega),
      getInt_blank word fun i low high => clear i (by omega) (by omega),
      getInt_blank (by omega) fun i low high => clear i (by omega) (by omega),
      getName_blank fun i low high => clear i (by omega) (by omega)]

/- The fields of a struct cinfo before procs. -/
def putLimits (f : Bytes) (off : Nat) (c : CInfo) : Bytes :=
  let f := setInt f off c.msz
  let f := setInt f (off + 4) c.mdsk
  let f := setInt f (off + 8) c.mproc
  let f := setInt f (off + 12) c.usz
  let f := setInt f (off + 16) c.udsk
  let f := setInt f (off + 20) c.cid
  let f := setInt f (off + 24) c.state.ctorIdx
  safestrcpy f (off + 28) c.name 16

def putCinfoAt (f : Bytes) (off : Nat) (c : CInfo) : Bytes :=
  pinfoRecord.putAll (putLimits f off c) (off + 44) c.procs

theorem putCinfo_eq (f : Bytes) (j : Nat) (c : CInfo) : putCinfo f j c = putCinfoAt f (j * sizeCinfo) c := by
  have looped : putCinfo f j c = pinfoRecord.putAll (putLimits f (j * sizeCinfo) c)
      (j * sizeCinfo + 44 + 0 * pinfoRecord.size) c.procs := pinfoRecord.foldl_zipIdx _ _
  rw [looped, Nat.zero_mul, Nat.add_zero]
  rfl

theorem putLimits_outside {c : CInfo} {i : Nat} (word : 4 ∣ off) (beside : i < off ∨ off + 44 ≤ i) :
    putLimits f off c i = f i := by
  unfold putLimits
  simp (disch := omega) only [safestrcpy_outside, setInt_outside]

/- What a container tells of itself fits into a struct cinfo: its processes have room in procs
and ps looks at all of them. -/
structure CInfo.Fits (c : CInfo) : Prop where
  low : -2 ^ 31 ≤ c.mproc
  high : c.mproc ≤ NPROC
  few : c.procs.length ≤ c.mproc.toNat
  used : ∀ q ∈ c.procs, q.state ≠ .unused

theorem ctorIdx_unused {q : ProcState} (used : q ≠ .unused) : (BitVec.ofInt 32 q.ctorIdx != 0) = true := by
  cases q
  · exact absurd rfl used
  all_goals decide

theorem CInfo.Fits.length {c : CInfo} (h : c.Fits) : c.procs.length ≤ NPROC := by
  have few := h.few
  have high := h.high
  omega

def cinfoRecord : Record CInfo PsCont where
  size := sizeCinfo
  put := putCinfoAt
  get := getCinfo
  view := CInfo.shown
  empty := ⟨0, 0, 0, 0, 0, 0, 0, [], []⟩
  fits := CInfo.Fits
  words := by decide
  outside f off c i fits word beside := by
    have few := fits.length
    have size : pinfoRecord.size = 28 := rfl
    simp only [sizeCinfo, sizePinfo, NPROC] at beside few
    unfold putCinfoAt
    rw [pinfoRecord.putAll_outside (fun _ _ => trivial) (by omega) (by rw [size]; omega),
      putLimits_outside word (by omega)]
  within f g off word same := by
    simp only [sizeCinfo, sizePinfo, NPROC] at same
    have int (d : Nat) (aligned : 4 ∣ d) (inside : d < 44) : getInt f (off + d) = getInt g (off + d) :=
      getInt_congr (by omega) fun i low high => same i (by omega) (by omega)
    have name : getName f (off + 28) = getName g (off + 28) :=
      getName_congr fun i low high => same i (by omega) (by omega)
    unfold getCinfo
    rw [int 4 (by decide) (by decide), int 8 (by decide) (by decide), int 12 (by decide) (by decide),
      int 16 (by decide) (by decide), int 20 (by decide) (by decide), int 24 (by decide) (by decide), name,
      show getInt f off = getInt g off from int 0 (by decide) (by decide)]
    congr 2
    refine List.map_congr_left fun l listed => pinfoRecord.within f g _ ?_ fun i low high => same i (by omega) ?_
    · simp only [sizePinfo]
      omega
    · have below := List.mem_range.mp listed
      change i < off + 44 + l * sizePinfo + 28 at high
      simp only [NPROC, sizePinfo] at below high
      omega
  reads f off c fits word clear := by
    simp only [sizeCinfo, sizePinfo, NPROC] at clear
    have int (d : Nat) (aligned : 4 ∣ d) (inside : d < 44) :
        getInt (putCinfoAt f off c) (off + d) = getInt (putLimits f off c) (off + d) :=
      getInt_congr (by omega) fun i low high =>
        pinfoRecord.putAll_outside (fun _ _ => trivial) (by omega) (Or.inl (by omega))
    have name : getName (putCinfoAt f off c) (off + 28) = getName (putLimits f off c) (off + 28) :=
      getName_congr fun i low high => pinfoRecord.putAll_outside (fun _ _ => trivial) (by omega) (Or.inl (by omega))
    have mproc : getInt (putLimits f off c) (off + 8) = BitVec.ofInt 32 c.mproc := by
      unfold putLimits
      simp (disch := omega) [getInt_safestrcpy, getInt_setInt]
    have count : min (BitVec.ofInt 32 c.mproc).toInt.toNat NPROC = c.mproc.toNat := by
      have high := fits.high
      rw [BitVec.toInt_ofInt_eq_self (by decide) fits.low (by simp only [NPROC] at high; omega)]
      omega
    have procs : (pinfoRecord.getAll (putCinfoAt f off c) (off + 44) c.mproc.toNat).filter (·.state != 0) =
        c.procs.map PInfo.shown := by
      refine pinfoRecord.filter_getAll (fun _ _ => trivial) fits.few (by omega) (fun i low high => ?_)
        (fun q listed => ctorIdx_unused (fits.used q listed)) rfl
      have most := fits.high
      change i < off + 44 + c.mproc.toNat * 28 at high
      rw [putLimits_outside word (by omega)]
      simp only [NPROC] at most
      exact clear i (by omega) (by omega)
    unfold getCinfo CInfo.shown
    rw [int 4 (by decide) (by decide), int 8 (by decide) (by decide), int 12 (by decide) (by decide),
      int 16 (by decide) (by decide), int 20 (by decide) (by decide), int 24 (by decide) (by decide), name,
      show getInt (putCinfoAt f off c) off = getInt (putLimits f off c) off from int 0 (by decide) (by decide),
      mproc, count]
    change PsCont.mk _ _ _ _ _ _ _ _ ((pinfoRecord.getAll (putCinfoAt f off c) (off + 44) c.mproc.toNat).filter _) = _
    rw [procs]
    unfold putLimits
    simp (disch := omega) [getInt_safestrcpy, getInt_setInt, getName_safestrcpy]
  blank f off word clear := by
    simp only [sizeCinfo, sizePinfo, NPROC] at clear
    have int (d : Nat) (aligned : 4 ∣ d) (inside : d < 44) : getInt f (off + d) = 0 :=
      getInt_blank (by omega) fun i low high => clear i (by omega) (by omega)
    unfold getCinfo
    rw [int 4 (by decide) (by decide), int 8 (by decide) (by decide), int 12 (by decide) (by decide),
      int 16 (by decide) (by decide), int 20 (by decide) (by decide), int 24 (by decide) (by decide),
      getName_blank fun i low high => clear i (by omega) (by omega),
      show getInt f off = 0 from int 0 (by decide) (by decide)]
    rfl

theorem fillContinfo_eq (root : Bool) (conts : List CInfo) : fillContinfo f root conts =
    cinfoRecord.putAll (setInt f (NCONT * sizeCinfo) root.toNat) 0 conts := by
  have each (g : Bytes) (c : CInfo) (j : Nat) : putCinfo g j c = cinfoRecord.put g (0 + j * cinfoRecord.size) c := by
    rw [Nat.zero_add]
    exact putCinfo_eq g j c
  unfold fillContinfo
  simp only [each]
  rw [cinfoRecord.foldl_zipIdx, Nat.zero_mul]

theorem ctorIdx_cunused {q : ContState} (used : q ≠ .cunused) : (BitVec.ofInt 32 q.ctorIdx != 0) = true := by
  cases q
  · exact absurd rfl used
  all_goals decide

/- ps finds the containers that cinfo has filled in, and their processes. -/
theorem ps_fillContinfo {root : Bool} {conts : List CInfo} (few : conts.length ≤ NCONT)
    (fits : ∀ c ∈ conts, c.Fits) (used : ∀ c ∈ conts, c.state ≠ .cunused) :
    ps (fillContinfo zeros root conts) = conts.map CInfo.shown := by
  have read (f : Bytes) : ps f = (cinfoRecord.getAll f 0 NCONT).filter (·.state != 0) := by
    unfold Record.getAll ps
    simp only [Nat.zero_add]
    rfl
  rw [read, fillContinfo_eq]
  refine cinfoRecord.filter_getAll fits few (Nat.dvd_zero 4) (fun i _ high => ?_)
    (fun c listed => ctorIdx_cunused (used c listed)) rfl
  rw [Nat.zero_add] at high
  exact setInt_outside (Nat.dvd_mul_left_of_dvd (by decide) NCONT) (Or.inl high)

end Records

section Listing
variable {k : Kernel} {p : ProcId} {i : Nat}

/- What a listing should say of container i, in words of the machine: its limits and usage,
and the processes in the slots below mproc that are in use. -/
def report (k : Kernel) (i : Nat) : PsCont where
  msz := BitVec.ofNat 32 (k.cont i).msz
  mdsk := BitVec.ofNat 32 (k.cont i).mdsk
  mproc := BitVec.ofInt 32 (k.cont i).mproc
  usz := BitVec.ofNat 32 ((k.cont i).upg * PGSIZE)
  udsk := BitVec.ofNat 32 (k.cont i).udsk
  cid := BitVec.ofInt 32 (k.cont i).cid
  state := BitVec.ofNat 32 (k.cont i).state.ctorIdx
  name := shownName (k.cont i).name
  procs := ((List.range (k.cont i).mproc.toNat).filter fun j => (k.proc i j).state != .unused).map fun j =>
    ⟨BitVec.ofInt 32 (k.proc i j).pid, BitVec.ofNat 32 (k.proc i j).state.ctorIdx,
      BitVec.ofNat 32 (k.proc i j).ticks, shownName (k.proc i j).name⟩

theorem shown_contInfo (k : Kernel) (i : Nat) : (contInfo k i).shown = report k i := by
  unfold CInfo.shown contInfo report
  simp only [List.filter_map, List.map_map, BitVec.ofInt_natCast]
  rfl

/- mproc is an int, and a process table has NPROC slots. -/
def TableSized (k : Kernel) : Prop := ∀ i < NCONT, -2 ^ 31 ≤ (k.cont i).mproc ∧ (k.cont i).mproc ≤ NPROC

theorem TableSized.fits (sized : TableSized k) (inside : i < NCONT) : (contInfo k i).Fits where
  low := (sized i inside).1
  high := (sized i inside).2
  few := by
    refine (List.length_map _).trans_le ((List.length_filter_le _ _).trans ?_)
    rw [List.length_map, List.length_range]
    rfl
  used q listed := by
    obtain ⟨r, member, rfl⟩ := List.mem_map.mp listed
    simpa using (List.mem_filter.mp member).2

/- The listing is that of the containers shown to p, in the order of their slots. -/
theorem ps_cinfo (sized : TableSized k) : ∃ buffer, cinfoBuffer p k zeros = some buffer ∧
    ps buffer = ((List.range NCONT).filter fun i => Shown k p i).map (report k) := by
  refine ⟨_, cinfoBuffer_eq k p zeros, ?_⟩
  rw [ps_fillContinfo]
  · rw [List.map_map]
    exact List.map_congr_left fun i _ => shown_contInfo k i
  · rw [List.length_map]
    exact (List.length_filter_le _ _).trans (List.length_range).le
  · intro c listed
    obtain ⟨i, member, rfl⟩ := List.mem_map.mp listed
    exact sized.fits (List.mem_range.mp (List.mem_filter.mp member).1)
  · intro c listed
    obtain ⟨i, member, rfl⟩ := List.mem_map.mp listed
    exact (of_decide_eq_true (List.mem_filter.mp member).2).2

/- The container of p is in use, and no other one in use has its cid. -/
def Sole (k : Kernel) (p : ProcId) : Prop :=
  (k.cont (k.contOf p)).state ≠ .cunused ∧
    ∀ i < NCONT, (k.cont i).state ≠ .cunused → (k.cont i).cid = (k.cont (k.contOf p)).cid → i = k.contOf p

theorem report_inUse {j : Nat} (same : report k i = report k j) (used : (k.cont i).state ≠ .cunused) :
    (k.cont j).state ≠ .cunused := by
  intro unused
  have states := congrArg PsCont.state same
  simp only [report, unused] at states
  cases state : (k.cont i).state with
  | cunused => exact used state
  | _ =>
    rw [state] at states
    exact absurd states (by decide)

theorem filter_range_singleton {n j : Nat} {q : Nat → Bool} (inside : j < n) (only : ∀ i < n, q i = true ↔ i = j) :
    (List.range n).filter q = [j] := by
  have found : j ∈ (List.range n).filter q :=
    List.mem_filter.mpr ⟨List.mem_range.mpr inside, (only j inside).mpr rfl⟩
  have all : ∀ i ∈ (List.range n).filter q, i = j := fun i listed =>
    (only i (List.mem_range.mp (List.mem_filter.mp listed).1)).mp (List.mem_filter.mp listed).2
  refine List.perm_singleton.mp ((List.perm_ext_iff_of_nodup ?_ (List.nodup_singleton j)).mpr fun i => ?_)
  · exact List.nodup_range.filter _
  · rw [List.mem_singleton]
    exact ⟨all i, fun here => here ▸ found⟩

/-- What ps reads back after cinfo into a zeroed buffer. In the root container it is every
container in use, in the order of the slots; elsewhere it is the own container, just when that
is in use and its cid is that of no other container in use. -/
theorem cinfo_read_back (sized : TableSized k) (inside : k.contOf p < NCONT) : ∃ buffer, cinfoBuffer p k zeros = some buffer ∧
    ((k.cont (k.contOf p)).cid = ROOTCONT →
      ps buffer = ((List.range NCONT).filter fun i => (k.cont i).state ≠ .cunused).map (report k)) ∧
    ((k.cont (k.contOf p)).cid ≠ ROOTCONT → (ps buffer = [report k (k.contOf p)] ↔ Sole k p)) := by
  obtain ⟨buffer, filled, listing⟩ : ∃ buffer, cinfoBuffer p k zeros = some buffer ∧
      ps buffer = ((List.range NCONT).filter fun i => Shown k p i).map (report k) := ps_cinfo sized
  refine ⟨buffer, filled, fun root => ?_, fun guest => ?_⟩
  · rw [listing]
    congr 1
    refine List.filter_congr fun i _ => decide_eq_decide.mpr ?_
    exact ⟨And.right, fun used => ⟨Or.inl root, used⟩⟩
  · rw [listing]
    constructor
    · intro one
      obtain ⟨j, rest, only, same, none⟩ := List.map_eq_cons_iff.mp one
      rw [List.map_eq_nil_iff.mp none] at only
      have shown (i : Nat) : (i < NCONT ∧ Shown k p i) ↔ i = j := by
        rw [← List.mem_singleton, ← only, List.mem_filter, List.mem_range, decide_eq_true_iff]
      obtain ⟨-, -, live⟩ := (shown j).mpr rfl
      have used := report_inUse same live
      have own : k.contOf p = j := (shown _).mp ⟨inside, Or.inr rfl, used⟩
      exact ⟨used, fun i here live cid => own ▸ (shown i).mp ⟨here, Or.inr cid.symm, live⟩⟩
    · rintro ⟨used, sole⟩
      rw [filter_range_singleton inside]
      · rfl
      · intro i inside
        rw [decide_eq_true_iff]
        constructor
        · rintro ⟨root | same, live⟩
          · exact absurd root guest
          · exact sole i inside live same.symm
        · rintro rfl
          exact ⟨Or.inr rfl, used⟩

/- The machine of tenantKernel with a second tenant, which got the cid of the first one after
nextcid has come round. -/
def twinKernel : Kernel :=
  { tenantKernel .crunnable .running with
    cont := Function.update (tenantKernel .crunnable .running).cont 2
      { (tenantKernel .crunnable .running).cont 1 with
        name := [121]
        uproc := 0 } }

theorem sized_tenants {k : Kernel} (low : ∀ i < 3, -2 ^ 31 ≤ (k.cont i).mproc ∧ (k.cont i).mproc ≤ NPROC)
    (others : ∀ i, 3 ≤ i → k.cont i = Cont.zero) : TableSized k := by
  intro i _
  by_cases first : i < 3
  · exact low i first
  · rw [others i (by omega)]
    decide

theorem sized_twin : TableSized twinKernel := by
  refine sized_tenants (by decide) fun i high => ?_
  refine (Function.update_of_ne (by omega) _ _).trans ((Function.update_of_ne (by omega) _ _).trans ?_)
  exact if_neg (by omega)

/- The process in container 1 is shown the other container too. -/
theorem twin_cids_listed : ∃ buffer, cinfoBuffer ⟨1, 0⟩ twinKernel zeros = some buffer ∧
    (twinKernel.cont (twinKernel.contOf ⟨1, 0⟩)).cid ≠ ROOTCONT ∧
    ps buffer = [report twinKernel 1, report twinKernel 2] ∧ ps buffer ≠ [report twinKernel 1] := by
  obtain ⟨buffer, filled, listing⟩ := ps_cinfo (p := ⟨1, 0⟩) sized_twin
  have shown : ((List.range NCONT).filter fun i => Shown twinKernel ⟨1, 0⟩ i) = [1, 2] := by decide
  rw [shown] at listing
  refine ⟨buffer, filled, by decide, listing, ?_⟩
  rw [listing]
  exact fun same => nomatch congrArg List.length same

theorem sized_tenant : TableSized (tenantKernel .crunnable .running) := by
  refine sized_tenants (by decide) fun i high => ?_
  exact (Function.update_of_ne (by omega) _ _).trans (if_neg (by omega))

theorem cinfo_read_back_tenant : ∃ buffer, cinfoBuffer ⟨1, 0⟩ (tenantKernel .crunnable .running) zeros = some buffer ∧
    ps buffer = [report (tenantKernel .crunnable .running) 1] := by
  obtain ⟨buffer, filled, -, guest⟩ := cinfo_read_back (p := ⟨1, 0⟩) sized_tenant (by decide)
  refine ⟨buffer, filled, (guest (by decide)).mpr ⟨by decide, fun i inside used same => ?_⟩⟩
  by_contra other
  have free : (tenantKernel .crunnable .running).cont i = bootKernel.cont i := Function.update_of_ne other _ _
  rw [free] at used same
  by_cases first : i = 0
  · rw [first] at same
    exact absurd same (by decide)
  · exact used (congrArg Cont.state (if_neg first))

end Listing

end Xv6c

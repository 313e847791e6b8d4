import Xv6c.Fs.Lookup
import Xv6c.Kernel.Names

/-! The cids of the containers, which ccreate takes from a counter. -/
namespace Xv6c
open Lib
open Function (update update_of_ne update_self)

/- How many cids alloccont has given out since initcontainer when nextcid is n, as long as
the counter has not come round. -/
def issued (n : Int) : Int := (n - ROOTCONT - 1) % 2 ^ 32

/- The cids in use have been given out, and are different. -/
structure Numbered (k : Kernel) : Prop where
  int : -(2 ^ 31) ≤ k.nextcid ∧ k.nextcid ≤ maxInt
  given : ∀ c, InUse k c → (k.cont c).cid = ROOTCONT ∨ issued (k.cont c).cid < issued k.nextcid
  distinct : ∀ c d, InUse k c → InUse k d → (k.cont c).cid = (k.cont d).cid → c = d

/- The cids as initcontainer leaves them. -/
def FirstCid (k : Kernel) : Prop :=
  k.nextcid = ROOTCONT + 1 ∧ ∀ c, (k.cont c).cid = if c = 0 then ROOTCONT else 0

/- The counter has not come round to ROOTCONT when ccreate is called. -/
def Counts (s : Smp) : Turn → Prop
  | .call _ (.ccreate _ _ _ _) => s.kernel.nextcid ≠ ROOTCONT
  | _ => True

section Steps
variable {k k' : Kernel}

theorem issued_incr {n : Int} (int : -(2 ^ 31) ≤ n ∧ n ≤ maxInt) (before : n ≠ ROOTCONT) :
    issued (incr n) = issued n + 1 ∧ -(2 ^ 31) ≤ incr n ∧ incr n ≤ maxInt := by
  unfold issued incr maxInt ROOTCONT at *
  split <;> omega

theorem SameTitles.numbered (same : SameTitles k k') (numbered : Numbered k) : Numbered k' := by
  have cid (c : Nat) : (k'.cont c).cid = (k.cont c).cid := (same.2 c).2.2
  refine ⟨same.1 ▸ numbered.int, fun c inUse => ?_, fun c d here there => ?_⟩
  · rw [cid, same.1]
    exact numbered.given c (same.inUse.mp inUse)
  · rw [cid, cid]
    exact numbered.distinct c d (same.inUse.mp here) (same.inUse.mp there)

/- alloccont gives out a cid that no container in use has. -/
theorem Founds.numbered {c : Nat} {name : Fs.CStr} (founds : Founds k k' c name) (before : k.nextcid ≠ ROOTCONT)
    (numbered : Numbered k) : Numbered k' := by
  obtain ⟨next, int⟩ := issued_incr numbered.int before
  have others (d : Nat) (other : d ≠ c) (inUse : InUse k' d) : InUse k d ∧ (k'.cont d).cid = (k.cont d).cid :=
    ⟨(founds.others d other).1.mp inUse, (founds.others d other).2.2⟩
  have fresh (d : Nat) (other : d ≠ c) (inUse : InUse k' d) : (k'.cont d).cid ≠ k.nextcid := by
    obtain ⟨was, cid⟩ := others d other inUse
    rw [cid]
    intro same
    rcases numbered.given d was with root | earlier
    · exact before (same.symm.trans root)
    · rw [same] at earlier
      exact lt_irrefl _ earlier
  refine ⟨founds.next ▸ int, fun d inUse => ?_, fun d e first second same => ?_⟩
  · rw [founds.next, next]
    by_cases here : d = c
    · rw [here, founds.cid]
      exact Or.inr (by omega)
    · obtain ⟨was, cid⟩ := others d here inUse
      rw [cid]
      exact (numbered.given d was).imp_right (by omega)
  · by_cases here : d = c <;> by_cases there : e = c
    · exact here.trans there.symm
    · rw [here, founds.cid] at same
      exact absurd same.symm (fresh e there second)
    · rw [there, founds.cid] at same
      exact absurd same (fresh d here first)
    · obtain ⟨was, cid⟩ := others d here first
      obtain ⟨was', cid'⟩ := others e there second
      rw [cid, cid'] at same
      exact numbered.distinct d e was was' same

theorem Retires.numbered (retires : Retires k k') (numbered : Numbered k) : Numbered k' := by
  have others (c : Nat) (inUse : InUse k' c) : InUse k c ∧ (k'.cont c).cid = (k.cont c).cid := by
    rcases retires.2 c with same | ⟨gone, -⟩
    · unfold InUse at *
      rw [same] at inUse ⊢
      exact ⟨inUse, rfl⟩
    · exact absurd inUse gone
  refine ⟨retires.1 ▸ numbered.int, fun c inUse => ?_, fun c d first second same => ?_⟩
  · rw [(others c inUse).2, retires.1]
    exact numbered.given c (others c inUse).1
  · rw [(others c first).2, (others d second).2] at same
    exact numbered.distinct c d (others c first).1 (others d second).1 same

end Steps

section Runs
variable {s t : Smp} {ls : List Turn}

theorem turn_numbered {l : Turn} (sound : Census.Sound (census s.kernel)) (numbered : Numbered s.kernel)
    (counts : Counts s l) (taken : turn s l = some t) : Numbered t.kernel := by
  obtain ⟨k, titles, retires⟩ := turn_titles sound taken
  refine retires.numbered ?_
  rcases titles with same | ⟨c, name, cpu, mproc, msz, mdsk, founds, rfl⟩
  · exact same.numbered numbered
  · exact founds.numbered counts numbered

/- A container with the cid ROOTCONT had it before the turn, and stays in use. -/
theorem turn_root {l : Turn} (sound : Census.Sound (census s.kernel)) (counts : Counts s l)
    (taken : turn s l = some t) {c : Nat} (root : (t.kernel.cont c).cid = ROOTCONT) :
    (s.kernel.cont c).cid = ROOTCONT ∧ (InUse s.kernel c → InUse t.kernel c) := by
  obtain ⟨k, titles, retires⟩ := turn_titles sound taken
  rcases retires.2 c with after | ⟨-, gone⟩
  · have stays (title : SameTitle s.kernel k c) :
        (s.kernel.cont c).cid = ROOTCONT ∧ (InUse s.kernel c → InUse t.kernel c) := by
      unfold InUse
      rw [after] at root ⊢
      exact ⟨title.2.2.symm.trans root, title.1.mpr⟩
    rcases titles with same | ⟨d, name, cpu, mproc, msz, mdsk, founds, rfl⟩
    · exact stays (same.2 c)
    · by_cases here : c = d
      · subst here
        rw [after, founds.cid] at root
        exact absurd root counts
      · exact stays (founds.others c here)
  · exact absurd (root.symm.trans gone) (by decide)

theorem firstCid_numbered (booted : Booted s) (first : FirstCid s.kernel) : Numbered s.kernel := by
  obtain ⟨next, cid⟩ := first
  refine ⟨by rw [next]; decide, fun c inUse => ?_, fun c d here there _ => ?_⟩
  · rw [cid, if_pos (booted.inUse.mp inUse)]
    exact Or.inl rfl
  · exact (booted.inUse.mp here).trans (booted.inUse.mp there).symm

/- The first container has been in use in all states of the run, up to the last one. -/
def Endures (s : Smp) (ls : List Turn) (t : Smp) : Prop :=
  Along turn (fun u _ => InUse u.kernel 0) s ls ∧ InUse t.kernel 0

/-- In every run in which nextcid does not come round to ROOTCONT before a ccreate, the
containers in use have different cids, and a slot whose cid is ROOTCONT is that of the first
container, which has been in use since boot. -/
theorem cids_identify (booted : Booted s) (first : FirstCid s.kernel) (counts : Along turn Counts s ls)
    (reached : Lib.exec turn s ls = some t) :
    (∀ c d, InUse t.kernel c → InUse t.kernel d → (t.kernel.cont c).cid = (t.kernel.cont d).cid → c = d) ∧
    ∀ c, (t.kernel.cont c).cid = ROOTCONT → c = 0 ∧ Endures s ls t := by
  let inv (ks : List Turn) (u : Smp) : Prop := Lib.exec turn s ks = some u ∧ Census.Sound (census u.kernel) ∧
    Numbered u.kernel ∧ ∀ c, (u.kernel.cont c).cid = ROOTCONT → c = 0 ∧ Endures s ks u
  have preserves (ks : List Turn) (u : Smp) (l : Turn) (v : Smp) (h : inv ks u) (counts : Counts u l)
      (taken : turn u l = some v) : inv (ks ++ [l]) v := by
    obtain ⟨before, sound, numbered, root⟩ := h
    refine ⟨?_, turn_sound sound taken, turn_numbered sound numbered counts taken, fun c now => ?_⟩
    · rw [exec_append, before]
      simp [Lib.exec, taken]
    · obtain ⟨was, stays⟩ := turn_root sound counts taken now
      obtain ⟨rfl, endured, inUse⟩ := root c was
      exact ⟨rfl, along_append endured before ⟨inUse, fun _ _ => trivial⟩, stays inUse⟩
  have initial : inv [] s := by
    refine ⟨rfl, (booted_titled booted).1, firstCid_numbered booted first, fun c now => ?_⟩
    by_cases root : c = 0
    · exact ⟨root, trivial, booted.inUse.mpr rfl⟩
    · rw [first.2, if_neg root] at now
      cases now
  obtain ⟨-, -, numbered, root⟩ := run_history preserves initial counts reached
  exact ⟨numbered.distinct, root⟩

end Runs

theorem firstCid_boot : FirstCid bootSmp.kernel := by
  refine ⟨rfl, fun c => ?_⟩
  unfold bootSmp bootKernel
  dsimp only
  split <;> rfl

theorem cids_identify_created : ∃ t, Lib.exec turn bootSmp [.visit 0 0, .call 0 (.ccreate strX 1 0 100)] = some t ∧
    InUse t.kernel 0 ∧ InUse t.kernel 1 ∧ (t.kernel.cont 0).cid ≠ (t.kernel.cont 1).cid := by
  obtain ⟨t, reached, first, second⟩ : ∃ t, Lib.exec turn bootSmp [.visit 0 0, .call 0 (.ccreate strX 1 0 100)] =
      some t ∧ InUse t.kernel 0 ∧ InUse t.kernel 1 := by decide +kernel
  have counts : Along turn Counts bootSmp [.visit 0 0, .call 0 (.ccreate strX 1 0 100)] := by
    refine ⟨trivial, fun u visited => ⟨?_, fun _ _ => trivial⟩⟩
    obtain ⟨k, titles, retires⟩ := turn_titles (booted_titled (booted_of rfl rfl rfl)).1 visited
    rcases titles with same | ⟨c, name, cpu, mproc, msz, mdsk, -, never⟩
    · change u.kernel.nextcid ≠ ROOTCONT
      rw [retires.1, same.1]
      decide
    · cases never
  have cids := (cids_identify (booted_of rfl rfl rfl) firstCid_boot counts reached).1
  exact ⟨t, reached, first, second, fun same => absurd (cids 0 1 first second same) (by decide)⟩

/- The string y. -/
def strY : Fs.CStr := ⟨[121], by decide⟩

/- nextcid after n more calls of alloccont. -/
def cidAfter (n : Nat) : Int := (2 + n + 2 ^ 31) % 2 ^ 32 - 2 ^ 31

theorem incr_cidAfter (n : Nat) : incr (cidAfter n) = cidAfter (n + 1) := by
  unfold incr cidAfter maxInt
  push_cast
  split <;> omega

/- The first process has changed to the directory x and has called ccreate n times with a
name that x does not have. The inode cache has room for the references to the root directory
that the lookups keep. -/
structure Sits (k : Kernel) (n : Nat) : Prop where
  cwd : ∃ d, k.fs.icache 1 = ⟨2, 1, false, true, d⟩
  dir : Fs.OneBlock (k.fsView ⟨0, 0⟩) 1 101 3
  bytes : ∀ j < 48, k.fs.disk 101 j = Fs.smallDisk 101 j
  bounded : ∀ ip < NINODE, (k.fs.icache ip).ref ≤ maxInt
  alone : ∀ ip < NINODE, 0 < (k.fs.icache ip).ref → (k.fs.icache ip).inum = 2 → ip = 1
  room : 2 ^ 33 ≤ Fs.capacity ROOTINO k.fs.icache + n
  proc : (k.procAt ⟨0, 0⟩).state = .running ∧ k.contOf ⟨0, 0⟩ = 0 ∧ (k.procAt ⟨0, 0⟩).cwd = some 1
  root : (k.cont 0).state = .crunnable ∧ (k.cont 0).cid = ROOTCONT ∧
    (k.cont 0).name = strncpy rootTitle 16 ∧ (k.cont 0).rootdir = some 0
  free : ∀ c < NCONT, c ≠ 0 → (k.cont c).state = .cunused
  next : k.nextcid = cidAfter n

section Wrap
variable {k : Kernel} {n : Nat}

theorem Sits.name2cont_none (sits : Sits k n) {name : Fs.CStr}
    (other : ¬ strncmp name.bytes (strncpy rootTitle 16) name.bytes.length = 0) : name2cont k name = none := by
  refine List.find?_eq_none.mpr fun c member found => ?_
  obtain ⟨fits, inUse⟩ := of_decide_eq_true found
  by_cases root : c = 0
  · subst root
    unfold nameMatches at fits
    rw [sits.root.2.2.1] at fits
    exact other fits
  · exact inUse (sits.free c (List.mem_range.mp member) root)

/- The kernel when alloccont is done. -/
def allotted (k : Kernel) (n : Nat) : Kernel := { k with
  cont := update k.cont 1 { k.cont 1 with state := .cembryo, cid := cidAfter n }
  nextcid := cidAfter (n + 1) }

theorem allotted_root : (allotted k n).cont 0 = k.cont 0 := by simp [allotted]

/- alloccont takes slot 1. -/
theorem Sits.ends_alloccont (sits : Sits k n) : Ends alloccont k [] (some 1) (allotted k n) := by
  have found : findCont (fun i => (k.cont i).state = .cunused) = some 1 := by
    refine findCont_eq_some.mpr ⟨by decide, decide_eq_true (sits.free 1 (by decide) (by decide)), ?_⟩
    intro e before holds
    have state := of_decide_eq_true holds
    rw [Nat.lt_one_iff.mp before, sits.root.1] at state
    cases state
  unfold alloccont
  unfold allotted
  rw [ends_get_bind, found, ← incr_cidAfter, ← sits.next]
  rfl

/- What the rest of the call leaves alone. -/
theorem Sits.after (sits : Sits k n) {ip : Nat} {i : Inode} {x : Cont} {k' : Kernel} (apart : 1 ≠ ip)
    (inside : ip < NINODE) (bounded : i.ref ≤ maxInt) (inum : i.inum = ROOTINO)
    (less : Fs.slack ROOTINO (k.fs.icache ip) = Fs.slack ROOTINO i + 1)
    (icache : k'.fs.icache = update k.fs.icache ip i) (disk : k'.fs.disk = k.fs.disk)
    (procs : k'.proc = k.proc) (conts : k'.cont = update k.cont 1 x) (state : x.state = .cunused)
    (next : k'.nextcid = cidAfter (n + 1)) : Sits k' (n + 1) := by
  have there (j : Nat) (other : j ≠ ip) : k'.fs.icache j = k.fs.icache j := by
    rw [icache, update_of_ne other]
  have here : k'.fs.icache ip = i := by rw [icache, update_self]
  refine ⟨?_, ?_, ?_, fun j below => ?_, fun j below held => ?_, ?_, ?_, ?_, fun c below other => ?_, next⟩
  · rw [there 1 apart]
    exact sits.cwd
  · exact sits.dir.congr (there 1 apart)
  · rw [disk]
    exact sits.bytes
  · by_cases same : j = ip
    · rw [same, here]
      exact bounded
    · rw [there j same]
      exact sits.bounded j below
  · by_cases same : j = ip
    · rw [same, here, inum]
      exact fun never => absurd never (by decide)
    · rw [there j same] at held ⊢
      exact sits.alone j below held
  · have fewer := Fs.capacity_put (s := k.fsView ⟨0, 0⟩) inside less
    have room := sits.room
    change Fs.capacity ROOTINO k.fs.icache = Fs.capacity ROOTINO (update k.fs.icache ip i) + 1 at fewer
    rw [icache]
    omega
  · unfold Kernel.contOf Kernel.procAt
    rw [procs]
    exact sits.proc
  · rw [conts, update_of_ne (by decide)]
    exact sits.root
  · rw [conts]
    by_cases slot : c = 1
    · rw [slot, update_self]
      exact state
    · rw [update_of_ne slot]
      exact sits.free c below other

/- The entry j of the directory x. -/
def entryOfX (j : Nat) : Bytes := copyIn zeros 0 Fs.direntSize fun i => Fs.smallDisk 101 (j * Fs.direntSize + i)

theorem Sits.entry (sits : Sits k n) {s : Fs.FsState} (disk : s.disk = k.fs.disk) {j : Nat} (inside : j < 3) :
    Fs.entryAt s 101 (j * Fs.direntSize) = entryOfX j := by
  refine Fs.entryAt_congr fun i small => ?_
  rw [disk]
  refine sits.bytes _ ?_
  unfold Fs.direntSize at *
  omega

/- The reference to the root directory goes to another slot than that of x. -/
theorem Sits.ends_iget (sits : Sits k n) (few : n < 2 ^ 33) {s : Fs.FsState} (icache : s.icache = k.fs.icache) :
    ∃ es ip i, Ends (Fs.iget ROOTINO) s es ip (s.put ip i) ∧ 1 ≠ ip ∧ ip < NINODE ∧ i.ref ≤ maxInt ∧
      i.inum = ROOTINO ∧ Fs.slack ROOTINO (k.fs.icache ip) = Fs.slack ROOTINO i + 1 := by
  have room := sits.room
  have some : 0 < Fs.capacity ROOTINO s.icache := by
    rw [icache]
    omega
  obtain ⟨es, ip, i, ends, inside, inum, bounded, less⟩ := Fs.ends_iget (icache ▸ sits.bounded) some
  rw [icache] at less
  refine ⟨es, ip, i, ends, ?_, inside, bounded, inum, less⟩
  rintro rfl
  obtain ⟨d, cwd⟩ := sits.cwd
  rw [cwd] at less
  exact absurd less (by simp [Fs.slack, ROOTINO])

theorem Sits.walker (sits : Sits k n) : (allotted k n).walker ⟨0, 0⟩ = ⟨some 1, some 0⟩ := by
  have home : (allotted k n).contOf ⟨0, 0⟩ = 0 := sits.proc.2.1
  unfold Kernel.walker
  rw [home, allotted_root, sits.root.2.2.2]
  exact congrArg (fun cwd => Fs.Walker.mk cwd (some 0)) sits.proc.2.2

/- A run of the file system that changes the inode cache only. -/
theorem onFs_icache {A : Type} {p : ProcId} {x : Fs.FsM A} {es : List FsEvent} {a : A} {icache : Nat → Inode}
    (ends : Ends x (k.fsView p) es a { k.fsView p with icache := icache }) :
    Ends (onFs p x) k (es.map Event.fs) a { k with fs := { k.fs with icache := icache } } := by
  have same : update k.cont (k.contOf p) (k.cont (k.contOf p)) = k.cont := Function.update_eq_self _ _
  refine ends_zoom.mpr ⟨es, _, ends, rfl, ?_⟩
  unfold Kernel.fsPut Kernel.fsView
  dsimp only
  rw [same]

/- A call that does not find its name uses up a cid. -/
theorem Sits.ccreate_fails (sits : Sits k n) (few : n < 2 ^ 33) :
    ∃ es k', Ends (ccreate ⟨0, 0⟩ strY 1 0 100) k es (-1) k' ∧ Sits k' (n + 1) := by
  obtain ⟨es, ip, i, got, apart, inside, bounded, inum, less⟩ :=
    sits.ends_iget few (s := (allotted k n).fsView ⟨0, 0⟩) rfl
  obtain ⟨d, cwd⟩ := sits.cwd
  have absent (j : Nat) (below : j < 3) :
      ¬(Fs.deInum (Fs.entryAt ((allotted k n).fsView ⟨0, 0⟩) 101 (j * Fs.direntSize)) ≠ 0 ∧
        Fs.namecmp [121] (Fs.deName (Fs.entryAt ((allotted k n).fsView ⟨0, 0⟩) 101 (j * Fs.direntSize))) = 0) := by
    rw [sits.entry rfl below]
    have all : ∀ j < 3, ¬(Fs.deInum (entryOfX j) ≠ 0 ∧ Fs.namecmp [121] (Fs.deName (entryOfX j)) = 0) := by
      decide +kernel
    exact all j below
  have looked : Ends (Fs.namei ((allotted k n).walker ⟨0, 0⟩) strY) ((allotted k n).fsView ⟨0, 0⟩) es none
      (((allotted k n).fsView ⟨0, 0⟩).put ip i) := by
    rw [sits.walker]
    exact Fs.ends_namei_absent (by decide) rfl rfl got apart cwd (by decide) (by decide)
      (sits.dir.congr rfl) absent
  have fresh : name2cont k strY = none := sits.name2cont_none (by decide)
  refine ⟨es.map Event.fs, { allotted k n with
    fs := { k.fs with icache := update k.fs.icache ip i }
    cont := update (allotted k n).cont 1 { (allotted k n).cont 1 with state := .cunused } }, ?_, ?_⟩
  · unfold ccreate
    rw [ends_get_bind, fresh, if_neg (by decide), if_neg (by decide)]
    refine sits.ends_alloccont.seq ?_
    dsimp only
    rw [ends_get_bind]
    exact ends_bind.mpr ⟨_, none, _, [], onFs_icache looked, rfl, (List.append_nil _).symm⟩
  · exact sits.after apart inside bounded inum less rfl rfl rfl (Function.update_idem _ _ _) rfl rfl

/- A call with the name . makes a container. -/
theorem Sits.ccreate_succeeds (sits : Sits k n) (few : n < 2 ^ 33) :
    ∃ es k', Ends (ccreate ⟨0, 0⟩ strDot 1 0 100) k es 1 k' ∧ (k'.procAt ⟨0, 0⟩).state = .running ∧
      InUse k' 0 ∧ InUse k' 1 ∧ (k'.cont 0).cid = ROOTCONT ∧ (k'.cont 1).cid = cidAfter n := by
  obtain ⟨es, ip, i, got, apart, inside, bounded, inum, less⟩ :=
    sits.ends_iget few (s := (allotted k n).fsView ⟨0, 0⟩) rfl
  obtain ⟨d, cwd⟩ := sits.cwd
  have own := sits.entry (s := (allotted k n).fsView ⟨0, 0⟩) rfl (show 0 < 3 by decide)
  rw [Nat.zero_mul] at own
  have looked : Ends (Fs.namei ((allotted k n).walker ⟨0, 0⟩) strDot) ((allotted k n).fsView ⟨0, 0⟩) es (some 1)
      ((((allotted k n).fsView ⟨0, 0⟩).put ip i).put 1 ⟨2, 1 + 1, false, true, d⟩) := by
    rw [sits.walker]
    refine Fs.ends_namei_self (by decide) rfl rfl rfl got inum (by decide) (by decide) apart cwd (by decide)
      (by decide) sits.alone (sits.dir.congr rfl) ?_ (by decide) ?_
    · rw [own]
      decide +kernel
    · rw [own]
      decide +kernel
  have fresh : name2cont k strDot = none := sits.name2cont_none (by decide)
  -- the kernel between namei and idup
  let k₂ : Kernel := { allotted k n with fs := { k.fs with
    icache := update (update k.fs.icache ip i) 1 ⟨2, 1 + 1, false, true, d⟩ } }
  have held : k₂.fs.icache 1 = ⟨2, 1 + 1, false, true, d⟩ := by simp [k₂]
  have dup : Ends (onFs ⟨0, 0⟩ (Fs.idup 1)) k₂ [] 1 { k₂ with fs := { k₂.fs with
      icache := update k₂.fs.icache 1 ⟨2, 1 + 1 + 1, false, true, d⟩ } } :=
    onFs_icache (Fs.ends_idup (s := k₂.fsView ⟨0, 0⟩) held (by decide))
  refine ⟨es.map Event.fs, { k₂ with
    fs := { k₂.fs with icache := update k₂.fs.icache 1 ⟨2, 1 + 1 + 1, false, true, d⟩ }
    cont := update k₂.cont 1 { k₂.cont 1 with
      mproc := 1, msz := 0, mdsk := 100, rootdir := some 1
      name := strncpy strDot.bytes 16, state := .cready } }, ?_, sits.proc.1, ?_, ?_, ?_, ?_⟩
  · unfold ccreate
    rw [ends_get_bind, fresh, if_neg (by decide), if_neg (by decide)]
    refine sits.ends_alloccont.seq ?_
    dsimp only
    rw [ends_get_bind]
    refine ends_bind.mpr ⟨_, some 1, k₂, [], onFs_icache looked, ?_, (List.append_nil _).symm⟩
    exact dup.seq rfl
  · unfold InUse
    dsimp only
    rw [update_of_ne (by decide), allotted_root, sits.root.1]
    exact nofun
  · unfold InUse
    dsimp only
    rw [update_self]
    exact nofun
  · dsimp only
    rw [update_of_ne (by decide), allotted_root]
    exact sits.root.2.1
  · dsimp only
    rw [update_self]
    simp [k₂, allotted]

/- A system call of the first process, which goes on. -/
theorem turn_call {s : Smp} {c : Syscall} {es : List Event} {r : Option Int} {k' : Kernel}
    (cpu : s.cpu 0 = some (0, ⟨0, 0⟩)) (running : (s.kernel.procAt ⟨0, 0⟩).state = .running)
    (ends : Ends (syscall ⟨0, 0⟩ c) s.kernel es r k') (goes : (k'.procAt ⟨0, 0⟩).state = .running) :
    turn s (.call 0 c) = some { s with kernel := k' } := by
  have done : Ends (perform (.call ⟨0, 0⟩ c)) s.kernel es () k' :=
    ends_bind.mpr ⟨es, r, k', [], ends, rfl, (List.append_nil es).symm⟩
  have made : step s.kernel (.call ⟨0, 0⟩ c) = some k' := by
    unfold step
    rw [if_pos (show Enabled s.kernel (.call ⟨0, 0⟩ c) from ⟨by decide, by decide, Or.inr running⟩), done]
  dsimp only [turn, runs]
  rw [cpu]
  dsimp only
  rw [if_pos (show Running s.kernel ⟨0, 0⟩ from ⟨by decide, by decide, running⟩), made, Option.bind_some,
    switchBack, if_pos goes]

/- Any number of calls that do not find their name, one after another. -/
theorem Sits.run {s : Smp} (sits : Sits s.kernel n) (cpu : s.cpu 0 = some (0, ⟨0, 0⟩)) (m : Nat)
    (few : n + m ≤ 2 ^ 33) : ∃ t, Lib.exec turn s (List.replicate m (.call 0 (.ccreate strY 1 0 100))) = some t ∧
      Sits t.kernel (n + m) ∧ t.cpu 0 = some (0, ⟨0, 0⟩) := by
  induction m generalizing s n with
  | zero => exact ⟨s, rfl, sits, cpu⟩
  | succ m ih =>
    obtain ⟨es, k', ends, after⟩ := sits.ccreate_fails (by omega)
    have taken := turn_call (c := .ccreate strY 1 0 100) cpu sits.proc.1
      (ends_bind.mpr ⟨es, _, k', [], ends, rfl, rfl⟩) after.proc.1
    obtain ⟨t, reached, last, same⟩ := ih (s := { s with kernel := k' }) after cpu (by omega)
    refine ⟨t, ?_, by rwa [Nat.add_assoc, Nat.add_comm 1 m] at last, same⟩
    rw [List.replicate_succ, Lib.exec, taken]
    exact reached

end Wrap

/- What is to be seen of a machine whose first process has just changed to the directory x. -/
def AtX (s : Smp) : Prop :=
  let k := s.kernel
  let i := k.fs.icache 1
  s.cpu 0 = some (0, ⟨0, 0⟩) ∧
    (i.inum = 2 ∧ i.ref = 1 ∧ i.locked = false ∧ i.valid = true) ∧
    (i.d.type = Fs.T_DIR ∧ i.d.size.toNat = 3 * Fs.direntSize ∧ (i.d.addrs 0).toNat = 101) ∧
    (∀ j < 48, k.fs.disk 101 j = Fs.smallDisk 101 j) ∧
    (∀ ip < NINODE, (k.fs.icache ip).ref ≤ maxInt ∧
      (0 < (k.fs.icache ip).ref → (k.fs.icache ip).inum = 2 → ip = 1)) ∧
    2 ^ 33 ≤ Fs.capacity ROOTINO k.fs.icache ∧
    ((k.procAt ⟨0, 0⟩).state = .running ∧ k.contOf ⟨0, 0⟩ = 0 ∧ (k.procAt ⟨0, 0⟩).cwd = some 1) ∧
    ((k.cont 0).state = .crunnable ∧ (k.cont 0).cid = ROOTCONT ∧
      (k.cont 0).name = strncpy rootTitle 16 ∧ (k.cont 0).rootdir = some 0) ∧
    (∀ c < NCONT, c ≠ 0 → (k.cont c).state = .cunused) ∧ k.nextcid = 2

instance (s : Smp) : Decidable (AtX s) := by
  unfold AtX
  infer_instance

theorem AtX.sits {s : Smp} (settled : AtX s) : Sits s.kernel 0 := by
  obtain ⟨-, ⟨inum, ref, locked, valid⟩, ⟨type, size, mapped⟩, bytes, slots, room, proc, root, free, next⟩ := settled
  refine ⟨⟨(s.kernel.fs.icache 1).d, ?_⟩, ⟨type, size, by decide, mapped, by decide, by decide⟩, bytes,
    fun ip below => (slots ip below).1, fun ip below => (slots ip below).2, ?_, proc, root, free, ?_⟩
  · rw [← inum, ← ref, ← locked, ← valid]
  · rw [Nat.add_zero]
    exact room
  · rw [next]
    decide

/- 2 ^ 32 - 1 calls later the counter has come round, and a second container gets the cid of
the root container. -/
theorem wrapped_cid_is_root : Booted bootSmp ∧ FirstCid bootSmp.kernel ∧
    ∃ t, Lib.exec turn bootSmp ([.visit 0 0, .call 0 (.chdir strX)] ++
        (List.replicate (2 ^ 32 - 1) (.call 0 (.ccreate strY 1 0 100)) ++
          [.call 0 (.ccreate strDot 1 0 100)])) = some t ∧
      InUse t.kernel 0 ∧ InUse t.kernel 1 ∧ (t.kernel.cont 0).cid = ROOTCONT ∧
      (t.kernel.cont 1).cid = ROOTCONT := by
  refine ⟨booted_of rfl rfl rfl, firstCid_boot, ?_⟩
  obtain ⟨s, before, settled⟩ : ∃ s, Lib.exec turn bootSmp [.visit 0 0, .call 0 (.chdir strX)] = some s ∧ AtX s := by
    decide +kernel
  obtain ⟨u, calls, sits, cpu⟩ := settled.sits.run settled.1 (2 ^ 32 - 1) (by omega)
  obtain ⟨es, k', ends, goes, first, second, root, cid⟩ := sits.ccreate_succeeds (by omega)
  have last := turn_call (c := .ccreate strDot 1 0 100) cpu sits.proc.1
    (ends_bind.mpr ⟨es, _, k', [], ends, rfl, rfl⟩) goes
  refine ⟨{ u with kernel := k' }, ?_, first, second, root, cid.trans (by decide)⟩
  rw [exec_append, before, Option.bind_some, exec_append, calls, Option.bind_some, Lib.exec, last]
  rfl

end Xv6c

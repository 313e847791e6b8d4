import Xv6c.Bio.Refine

/-! commit as a user of the cache. Its reads and writes are steps like any others;
run without a wait it leaves what every block outside the log stands for as it
was and has written the logged blocks to their home locations. -/
namespace Xv6c.Bio
open Lib
open Function (update update_self update_of_ne)

/- Some steps led from w to t; none of them was a log_write or a clear. -/
structure Steps (w t : World) : Prop where
  coherent : Coherent t
  run : ∃ ls, exec act w ls = some t
  lh : t.state.lh = w.state.lh
  logged : ∀ b, t.store.logged b = true → w.store.logged b = true

variable {w t u : World}

theorem Steps.trans (first : Steps w t) (second : Steps t u) : Steps w u := by
  obtain ⟨ls, before⟩ := first.run
  obtain ⟨ks, behind⟩ := second.run
  refine ⟨second.coherent, ⟨ls ++ ks, ?_⟩, second.lh.trans first.lh,
    fun b log => first.logged b (second.logged b log)⟩
  rw [exec_append, before]
  exact behind

theorem Steps.unlogged {b : Nat} (steps : Steps w t) (clean : w.store.logged b = false) :
    t.store.logged b = false :=
  Bool.eq_false_iff.mpr fun log => Bool.eq_false_iff.mp clean (steps.logged b log)

theorem steps_refl (coherent : Coherent w) : Steps w w :=
  ⟨coherent, ⟨[], rfl⟩, rfl, fun _ log => log⟩

theorem steps_act {l : Label} (coherent : Coherent w) (acted : act w l = some t) (lh : t.state.lh = w.state.lh)
    (logged : ∀ b, t.store.logged b = true → w.store.logged b = true) : Steps w t := by
  refine ⟨act_coherent coherent acted, ⟨[l], ?_⟩, lh, logged⟩
  rw [exec, acted]
  rfl

/- pid holds buffer i, which carries block b with what the store has of it. -/
structure Holds (w : World) (pid b i : Nat) : Prop where
  lock : (w.state.cache.buf i).lock = some pid
  blockno : (w.state.cache.buf i).blockno = b
  changed : w.state.changed i = false

variable {pid b i : Nat}

theorem Holds.data (holds : Holds w pid b i) (coherent : Coherent w) :
    (w.state.cache.buf i).data = w.store.contents b := by
  obtain ⟨root, valid, -⟩ := (coherent.sound i).locked_of holds.lock
  rw [← holds.blockno]
  exact (coherent.sound i).cached root valid holds.changed

theorem Holds.congr (holds : Holds w pid b i) (buf : t.state.cache.buf i = w.state.cache.buf i)
    (changed : t.state.changed i = w.state.changed i) : Holds t pid b i :=
  ⟨by rw [buf, holds.lock], by rw [buf, holds.blockno], by rw [changed, holds.changed]⟩

/- Behind bread the caller holds the buffer; the others are as they were. -/
theorem lock_holds {r : Request} (coherent : Coherent w) (locked : act w (.lock r i) = some t) :
    (w.state.cache.buf i).lock = none ∧ Holds t r.pid r.blockno i ∧ t.store = w.store ∧
      t.state.lh = w.state.lh ∧ t.state.changed = w.state.changed ∧
      ∀ j, j ≠ i → t.state.cache.buf j = w.state.cache.buf j := by
  obtain ⟨s, v⟩ := t
  obtain ⟨(stepped : step w.state _ = some s), store⟩ := act_some locked
  obtain ⟨waits, stepped⟩ := Option.ite_none_right_eq_some.mp stepped
  obtain ⟨c, read, rfl⟩ := Option.map_eq_some_iff.mp stepped
  obtain ⟨free, filled⟩ := breadLocked_spec read (coherent.sound i).invalid_clean
  have block := ((coherent.sound i).asked r waits).2
  refine ⟨free, ⟨?_, ?_, (coherent.sound i).settled free⟩, store, rfl, rfl, ?_⟩
  · rcases filled with ⟨-, rfl⟩ | ⟨-, rfl⟩ <;> simp only [Bcache.set, update_self]
  · rcases filled with ⟨-, rfl⟩ | ⟨-, rfl⟩ <;> simpa only [Bcache.set, update_self] using block
  · intro j other
    rcases filled with ⟨-, rfl⟩ | ⟨-, rfl⟩ <;> exact update_of_ne other _ _

theorem bread_spec (coherent : Coherent w) (read : bread pid b w = some (i, t)) :
    Steps w t ∧ Holds t pid b i ∧ t.store = w.store ∧
      (∀ j c, Holds w pid c j → Holds t pid c j) := by
  obtain ⟨⟨k, c⟩, got, read⟩ := Option.bind_eq_some_iff.mp read
  obtain ⟨u, first, read⟩ := Option.bind_eq_some_iff.mp read
  obtain ⟨x, second, same⟩ := Option.map_eq_some_iff.mp read
  obtain ⟨rfl, rfl⟩ := Prod.mk.inj same
  obtain ⟨stepped, storeU⟩ := act_some first
  simp only [step, got, Option.map_some, Option.some.injEq] at stepped
  have coherentU := act_coherent coherent first
  have stepsU : Steps w u := steps_act coherent first (by rw [← stepped])
    (fun n log => by rwa [storeU] at log)
  obtain ⟨free, holds, storeX, lh, changed, others⟩ := lock_holds coherentU second
  have stepsX : Steps u x := steps_act coherentU second lh (fun n log => by rwa [storeX] at log)
  refine ⟨stepsU.trans stepsX, holds, storeX.trans storeU, ?_⟩
  intro j n held
  -- The buffer as bget left it was free, so j is another one.
  have other : j ≠ k := by
    rintro rfl
    have lockW : (w.state.cache.buf j).lock = none := by
      obtain ⟨-, ⟨-, rfl⟩ | ⟨-, -, rfl⟩⟩ := bget_spec coherent.order got <;>
        simpa only [← stepped, Bcache.set, update_self] using free
    cases lockW.symm.trans held.lock
  have bufU : u.state.cache.buf j = w.state.cache.buf j := by
    obtain ⟨-, ⟨-, rfl⟩ | ⟨-, -, rfl⟩⟩ := bget_spec coherent.order got <;>
      rw [← stepped] <;> exact update_of_ne other _ _
  exact held.congr ((others j other).trans bufU) (by rw [changed, ← stepped])

/- A change and the bwrite of it, in a buffer that pid holds. -/
theorem write_spec {v : Block} (coherent : Coherent w) (holds : Holds w pid b i)
    (modified : act w (.modify pid i v) = some t) (written : act t (.bwrite pid i) = some u) :
    Steps w u ∧ u.store = w.store.write b v false := by
  obtain ⟨stepT, storeT⟩ := act_some modified
  obtain ⟨stepU, storeU⟩ := act_some written
  have coherentT := act_coherent coherent modified
  obtain ⟨-, stepT⟩ := guarded stepT
  obtain ⟨c, done, stepU⟩ := Option.map_eq_some_iff.mp stepU
  obtain ⟨-, rfl⟩ := bwrite_spec done
  have bufT : t.state.cache.buf i = { w.state.cache.buf i with data := v } := by
    rw [← stepT]
    exact update_self i _ _
  have store : u.store = w.store.write b v false := by
    rw [storeU, storeT]
    simp only [observe, bufT, holds.blockno]
  have stepsT : Steps w t := steps_act coherent modified (by rw [← stepT])
    (fun n log => by rwa [storeT] at log)
  have stepsU : Steps t u := by
    refine steps_act coherentT written (by rw [← stepU]) ?_
    intro n log
    rw [storeU] at log
    simp only [observe, Store.write] at log
    by_cases here : n = (t.state.cache.buf i).blockno
    · rw [here, update_self] at log
      cases log
    · rwa [update_of_ne here] at log
  exact ⟨stepsT.trans stepsU, store⟩

theorem release_spec (coherent : Coherent w) (released : release pid i w = some t) :
    Steps w t ∧ t.store.contents = w.store.contents ∧ t.store.logged = w.store.logged := by
  obtain ⟨stepT, storeT⟩ := act_some released
  obtain ⟨-, stepT⟩ := Option.ite_none_left_eq_some.mp stepT
  obtain ⟨c, done, stepT⟩ := Option.map_eq_some_iff.mp stepT
  obtain ⟨-, rfl⟩ := brelse_spec done
  have logged : t.store.logged = w.store.logged := by rw [storeT]; rfl
  refine ⟨?_, by rw [storeT]; rfl, logged⟩
  exact steps_act coherent released (by rw [← stepT]) (fun n log => by rwa [logged] at log)

/- One round of write_log or install_trans, behind its two breads. -/
theorem transfer_spec {x : World} {a j : Nat} (coherent : Coherent w) (source : Holds w pid a i)
    (target : Holds w pid b j) (copied : storeCopy pid i j w = some t) (first : release pid i t = some u)
    (second : release pid j u = some x) :
    Steps w x ∧ x.store.contents = update w.store.contents b (w.store.contents a) ∧
      x.store.logged b = false := by
  obtain ⟨y, modified, written⟩ := Option.bind_eq_some_iff.mp copied
  rw [source.data coherent] at modified
  obtain ⟨stepsT, storeT⟩ := write_spec coherent target modified written
  obtain ⟨stepsU, contentsU, loggedU⟩ := release_spec stepsT.coherent first
  obtain ⟨stepsX, contentsX, loggedX⟩ := release_spec stepsU.coherent second
  refine ⟨(stepsT.trans stepsU).trans stepsX, ?_, ?_⟩
  · rw [contentsX, contentsU, storeT]
    rfl
  · rw [loggedX, loggedU, storeT]
    exact update_self b _ _

variable {start : Nat}

/- write_log copies each logged block to its place in the log. -/
theorem writeLog_spec {tail : Nat} {bs : List Nat} (coherent : Coherent w)
    (outside : ∀ b ∈ bs, b ≤ start + tail ∨ start + tail + bs.length < b)
    (written : writeLog pid start tail bs w = some t) : Steps w t ∧
      (∀ n, n ≤ start + tail ∨ start + tail + bs.length < n →
        t.store.contents n = w.store.contents n) ∧
      (∀ k b, bs[k]? = some b → t.store.contents (start + tail + 1 + k) = w.store.contents b) := by
  induction bs generalizing w tail with
  | nil =>
    cases Option.some.inj written
    exact ⟨steps_refl coherent, fun _ _ => rfl, nofun⟩
  | cons b bs ih =>
    rw [List.length_cons] at outside
    simp only [writeLog, Option.bind_eq_bind, Option.bind_eq_some_iff] at written
    obtain ⟨⟨i, w₁⟩, readLog, ⟨j, w₂⟩, readHome, w₃, copied, w₄, first, w₅, second, rest⟩ := written
    obtain ⟨steps₁, holds₁, store₁, -⟩ := bread_spec coherent readLog
    obtain ⟨steps₂, holds₂, store₂, kept⟩ := bread_spec steps₁.coherent readHome
    obtain ⟨steps₅, contents₅, -⟩ :=
      transfer_spec steps₂.coherent holds₂ (kept i _ holds₁) copied first second
    rw [store₂, store₁] at contents₅
    have notLog : b ≠ start + tail + 1 := by
      have away := outside b List.mem_cons_self
      omega
    have keptAt : ∀ n, n ≠ start + tail + 1 → w₅.store.contents n = w.store.contents n := by
      intro n other
      rw [contents₅, update_of_ne other]
    have outside' : ∀ c ∈ bs, c ≤ start + (tail + 1) ∨ start + (tail + 1) + bs.length < c := by
      intro c hc
      have away := outside c (List.mem_cons_of_mem b hc)
      omega
    obtain ⟨steps, elsewhere, inLog⟩ := ih steps₅.coherent outside' rest
    refine ⟨((steps₁.trans steps₂).trans steps₅).trans steps, ?_, ?_⟩
    · intro n away
      rw [List.length_cons] at away
      rw [elsewhere n (by omega), keptAt n (by omega)]
    · intro k c at_k
      cases k with
      | zero =>
        cases Option.some.inj at_k
        rw [elsewhere _ (by omega), contents₅]
        exact update_self _ _ _
      | succ k =>
        have member : c ∈ bs := List.mem_of_getElem? at_k
        have away := outside c (List.mem_cons_of_mem b member)
        have place : start + tail + 1 + (k + 1) = start + (tail + 1) + 1 + k := by omega
        rw [place, inLog k c at_k, keptAt c (by omega)]

/- install_trans copies the log's blocks to where v says they come from. -/
theorem installTrans_spec {tail : Nat} {bs : List Nat} (v : Nat → Block) (coherent : Coherent w)
    (outside : ∀ b ∈ bs, b ≤ start + tail ∨ start + tail + bs.length < b)
    (inLog : ∀ k b, bs[k]? = some b → w.store.contents (start + tail + 1 + k) = v b)
    (installed : installTrans pid start tail bs w = some t) :
    Steps w t ∧ (∀ n, n ∉ bs → t.store.contents n = w.store.contents n) ∧
      (∀ b ∈ bs, t.store.contents b = v b ∧ t.store.logged b = false) := by
  induction bs generalizing w tail with
  | nil =>
    cases Option.some.inj installed
    exact ⟨steps_refl coherent, fun _ _ => rfl, nofun⟩
  | cons b bs ih =>
    rw [List.length_cons] at outside
    simp only [installTrans, Option.bind_eq_bind, Option.bind_eq_some_iff] at installed
    obtain ⟨⟨i, w₁⟩, readLog, ⟨j, w₂⟩, readHome, w₃, copied, w₄, first, w₅, second, rest⟩ := installed
    obtain ⟨steps₁, holds₁, store₁, -⟩ := bread_spec coherent readLog
    obtain ⟨steps₂, holds₂, store₂, kept⟩ := bread_spec steps₁.coherent readHome
    obtain ⟨steps₅, contents₅, logged₅⟩ :=
      transfer_spec steps₂.coherent (kept i _ holds₁) holds₂ copied first second
    rw [store₂, store₁] at contents₅
    have copiedHere : w₅.store.contents b = v b := by
      rw [contents₅, update_self]
      exact inLog 0 b rfl
    have outside' : ∀ c ∈ bs, c ≤ start + (tail + 1) ∨ start + (tail + 1) + bs.length < c := by
      intro c hc
      have away := outside c (List.mem_cons_of_mem b hc)
      omega
    have inLog' : ∀ k c, bs[k]? = some c →
        w₅.store.contents (start + (tail + 1) + 1 + k) = v c := by
      intro k c at_k
      have place : start + (tail + 1) + 1 + k = start + tail + 1 + (k + 1) := by omega
      have short : k < bs.length := (List.getElem?_eq_some_iff.mp at_k).1
      have away := outside b List.mem_cons_self
      rw [place, contents₅, update_of_ne (by omega)]
      exact inLog (k + 1) c at_k
    obtain ⟨steps, elsewhere, home⟩ := ih steps₅.coherent outside' inLog' rest
    refine ⟨((steps₁.trans steps₂).trans steps₅).trans steps, ?_, ?_⟩
    · intro n away
      rw [List.mem_cons, not_or] at away
      rw [elsewhere n away.2, contents₅, update_of_ne away.1]
    · intro c member
      by_cases later : c ∈ bs
      · exact home c later
      · have here : c = b := (List.mem_cons.mp member).resolve_right later
        rw [here] at later ⊢
        exact ⟨(elsewhere b later).trans copiedHere, steps.unlogged logged₅⟩

theorem writeHead_spec (coherent : Coherent w) (written : writeHead pid start w = some t) :
    Steps w t ∧ ∀ n, n ≠ start → t.store.contents n = w.store.contents n := by
  simp only [writeHead, Option.bind_eq_bind, Option.bind_eq_some_iff] at written
  obtain ⟨⟨i, w₁⟩, read, w₂, modified, w₃, stored, released⟩ := written
  obtain ⟨steps₁, holds₁, store₁, -⟩ := bread_spec coherent read
  obtain ⟨steps₃, store₃⟩ := write_spec steps₁.coherent holds₁ modified stored
  obtain ⟨steps, contents, -⟩ := release_spec steps₃.coherent released
  refine ⟨(steps₁.trans steps₃).trans steps, ?_⟩
  intro n other
  rw [contents, store₃, store₁]
  exact update_of_ne other _ _

/- Block n is not in the part of the log that a commit of lh writes. -/
def OutsideLog (start : Nat) (lh : List Nat) (n : Nat) : Prop := n < start ∨ start + lh.length < n

theorem commit_spec (coherent : Coherent w) (outside : ∀ b ∈ w.state.lh, OutsideLog start w.state.lh b)
    (committed : commit pid start w = some t) : Coherent t ∧ (∃ ls, exec act w ls = some t) ∧
      (∀ n, OutsideLog start w.state.lh n → t.store.contents n = w.store.contents n) ∧
      (∀ b ∈ w.state.lh, t.store.logged b = false) := by
  rw [commit] at committed
  cases header : w.state.lh with
  | nil =>
    rw [header] at committed
    cases Option.some.inj committed
    exact ⟨coherent, ⟨[], rfl⟩, fun _ _ => rfl, nofun⟩
  | cons c cs =>
    rw [header] at committed outside
    simp only [Option.bind_eq_bind, Option.bind_eq_some_iff] at committed
    obtain ⟨w₁, wrote, w₂, head₁, w₃, installed, w₄, cleared, head₂⟩ := committed
    have beyond : ∀ b ∈ c :: cs, b ≤ start + 0 ∨ start + 0 + (c :: cs).length < b := by
      intro b member
      rcases outside b member with below | above
      · exact .inl (Nat.le_of_lt below)
      · exact .inr above
    obtain ⟨steps₁, kept₁, inLog₁⟩ := writeLog_spec coherent beyond wrote
    obtain ⟨steps₂, kept₂⟩ := writeHead_spec steps₁.coherent head₁
    have inLog₂ : ∀ k b, (c :: cs)[k]? = some b →
        w₂.store.contents (start + 0 + 1 + k) = w.store.contents b := by
      intro k b at_k
      rw [kept₂ _ (by omega), inLog₁ k b at_k]
    obtain ⟨steps₃, kept₃, home₃⟩ :=
      installTrans_spec w.store.contents steps₂.coherent beyond inLog₂ installed
    have steps := (steps₁.trans steps₂).trans steps₃
    have store₄ : w₄.store = w₃.store := (act_some cleared).2
    have coherent₄ := act_coherent steps.coherent cleared
    obtain ⟨steps₅, kept₅⟩ := writeHead_spec coherent₄ head₂
    refine ⟨steps₅.coherent, ?_, ?_, ?_⟩
    · obtain ⟨ls, before⟩ := steps.run
      obtain ⟨ks, behind⟩ := steps₅.run
      refine ⟨ls ++ .clear :: ks, ?_⟩
      rw [exec_append, before, Option.bind_some, exec, cleared]
      exact behind
    · intro n away
      have notHead : n ≠ start := by
        rcases away with below | above <;> omega
      rw [kept₅ n notHead, store₄]
      by_cases member : n ∈ c :: cs
      · exact (home₃ n member).1
      · rw [kept₃ n member, kept₂ n notHead, kept₁ n (away.imp Nat.le_of_lt id)]
    · intro b member
      exact steps₅.unlogged (store₄ ▸ (home₃ b member).2)

/- What the cache keeps of the plain block store, in a reached state and for
whatever happens next in it. -/
structure Refines (w : World) : Prop where
  unique : ∀ b i j, i < NBUF → j < NBUF → carries w.state.cache ROOTDEV b i = true →
    carries w.state.cache ROOTDEV b j = true → i = j
  ring : Ordered w.state.cache.link w.store.freed
  recycles : ∀ l t i, act w l = some t →
    ((t.state.cache.buf i).dev, (t.state.cache.buf i).blockno) ≠
      ((w.state.cache.buf i).dev, (w.state.cache.buf i).blockno) →
    (w.state.cache.buf i).refcnt = 0 ∧ (w.state.cache.buf i).dirty = false
  finds : ∀ r, (∃ i < NBUF, carries w.state.cache ROOTDEV r.blockno i = true ∨
    recyclable w.state.cache i = true) → ∃ t, act w (.bget r) = some t
  locks : ∀ r i, r ∈ w.state.waiting i → (w.state.cache.buf i).lock = none →
    r.blockno < w.state.cache.disksize → ∃ t, act w (.lock r i) = some t
  reads : ∀ r i t, act w (.lock r i) = some t →
    (t.state.cache.buf i).data = w.store.contents r.blockno
  pinned : ∀ b, w.store.logged b = true → ∃ i < NBUF, carries w.state.cache ROOTDEV b i = true ∧
    (w.state.cache.buf i).valid = true ∧ (w.state.cache.buf i).dirty = true ∧
    (w.state.changed i = false → (w.state.cache.buf i).data = w.store.contents b)
  commits : ∀ pid start t, (∀ b ∈ w.state.lh, OutsideLog start w.state.lh b) →
    commit pid start w = some t →
    (∃ ls, exec act w ls = some t) ∧
      (∀ n, OutsideLog start w.state.lh n → t.store.contents n = w.store.contents n) ∧
      (∀ b ∈ w.state.lh, t.store.logged b = false ∧
        t.state.cache.memdisk b = w.store.contents b)

theorem Coherent.recycles {l : Label} (coherent : Coherent w) (acted : act w l = some t)
    (moved : ((t.state.cache.buf i).dev, (t.state.cache.buf i).blockno) ≠
      ((w.state.cache.buf i).dev, (w.state.cache.buf i).blockno)) :
    (w.state.cache.buf i).refcnt = 0 ∧ (w.state.cache.buf i).dirty = false := by
  rcases step_put coherent (act_some acted).1 with ⟨-, same⟩ | ⟨j, -, put⟩
  · rw [same] at moved
    exact absurd rfl moved
  · by_cases here : i = j
    · subst here
      generalize t.state = s at put moved
      cases put with
      | recycled r absent free => exact recyclable_iff.mp free
      | found | hit | fill | modify | logWrite | bwrite | brelse =>
        simp only [State.put, update_self, ne_eq, not_true_eq_false] at moved
    · refine absurd ?_ moved
      generalize t.state = s at put
      cases put <;> simp only [State.put, update_of_ne here]

theorem Coherent.finds (coherent : Coherent w) (r : Request)
    (room : ∃ i < NBUF, carries w.state.cache ROOTDEV r.blockno i = true ∨
      recyclable w.state.cache i = true) : ∃ t, act w (.bget r) = some t := by
  obtain ⟨l, ring, perm, -⟩ := coherent.order
  obtain ⟨i, inside, usable⟩ := room
  have member : i ∈ l := perm.mem_iff.mpr (List.mem_range.mpr inside)
  have enough : l.length < NBUF + 1 := by
    rw [perm.length_eq, List.length_range]
    exact Nat.lt_succ_self NBUF
  have got : ∃ x, bget w.state.cache ROOTDEV r.blockno = some x := by
    rw [bget, scan_forward ring _ enough, scan_backward ring _ enough]
    cases found : l.find? (carries w.state.cache ROOTDEV r.blockno) with
    | some j => exact ⟨_, rfl⟩
    | none =>
      have absent := List.find?_eq_none.mp found i member
      have free := usable.resolve_left absent
      cases last : l.reverse.find? (recyclable w.state.cache) with
      | some j => exact ⟨_, rfl⟩
      | none => exact absurd free (List.find?_eq_none.mp last i (List.mem_reverse.mpr member))
  obtain ⟨⟨j, c⟩, got⟩ := got
  exact ⟨_, by rw [act, step, got]; rfl⟩

theorem Coherent.locks (coherent : Coherent w) {r : Request} (waits : r ∈ w.state.waiting i)
    (free : (w.state.cache.buf i).lock = none) (onDisk : r.blockno < w.state.cache.disksize) :
    ∃ t, act w (.lock r i) = some t := by
  obtain ⟨root, block⟩ := (coherent.sound i).asked r waits
  have read : ∃ c, breadLocked w.state.cache r.pid i = some c := by
    rw [breadLocked, acquiresleep, if_pos free, Option.bind_some]
    cases valid : (w.state.cache.buf i).valid with
    | true =>
      simp only [Bcache.set, update_self, valid, if_true]
      exact ⟨_, rfl⟩
    | false =>
      have clean := (coherent.sound i).invalid_clean valid
      have range : ¬ w.state.cache.disksize ≤ r.blockno := Nat.not_le.mpr onDisk
      simp only [Bcache.set, iderw, holdingsleep, update_self, valid, clean, beq_self_eq_true,
        Bool.not_true, Bool.false_eq_true, if_false, Bool.false_and, root, ne_eq,
        not_true_eq_false, block, ge_iff_le, range]
      exact ⟨_, rfl⟩
  obtain ⟨c, read⟩ := read
  exact ⟨_, by rw [act, step, if_pos waits, read]; rfl⟩

theorem Coherent.reads (coherent : Coherent w) {r : Request} (locked : act w (.lock r i) = some t) :
    (t.state.cache.buf i).data = w.store.contents r.blockno := by
  obtain ⟨-, holds, store, -⟩ := lock_holds coherent locked
  rw [holds.data (act_coherent coherent locked), store]

theorem Coherent.refines (coherent : Coherent w) : Refines w := by
  refine ⟨?_, coherent.order, fun l t i acted moved => coherent.recycles acted moved,
    coherent.finds, fun r i waits free onDisk => coherent.locks waits free onDisk,
    fun r i t locked => coherent.reads locked, ?_, ?_⟩
  · intro b i j _ _ atI atJ
    obtain ⟨rootI, blockI⟩ := carries_iff.mp atI
    obtain ⟨rootJ, blockJ⟩ := carries_iff.mp atJ
    exact coherent.unique i j rootI rootJ (blockI.trans blockJ.symm)
  · intro b log
    obtain ⟨i, root, block, dirty⟩ := coherent.pinned b log
    have valid := ((coherent.sound i).dirty dirty).2.1
    refine ⟨i, coherent.inside i root, carries_iff.mpr ⟨root, block⟩, valid, dirty, ?_⟩
    intro settled
    rw [← block]
    exact (coherent.sound i).cached root valid settled
  · intro pid start t outside committed
    obtain ⟨after, run, contents, logged⟩ := commit_spec coherent outside committed
    refine ⟨run, contents, fun b member => ⟨logged b member, ?_⟩⟩
    rw [after.stored b (logged b member), contents b (outside b member)]

/- No bread call waits for the buffer that is released. -/
def Unawaited (w : World) : Label → Prop
  | .brelse _ i => w.state.waiting i = []
  | _ => True

theorem released_eq_freed {ls : List Label} (coherent : Coherent w) (same : w.store.released = w.store.freed)
    (all : Along act Unawaited w ls) (reached : exec act w ls = some t) : t.store.released = t.store.freed := by
  have kept : ∀ s l u, (Coherent s ∧ s.store.released = s.store.freed) → Unawaited s l →
      act s l = some u → Coherent u ∧ u.store.released = u.store.freed := by
    intro s l u inv alone acted
    refine ⟨act_coherent inv.1 acted, ?_⟩
    obtain ⟨stepped, store⟩ := act_some acted
    rw [store]
    cases l with
    | brelse pid i =>
      obtain ⟨c, done, -⟩ := Option.map_eq_some_iff.mp (Option.ite_none_left_eq_some.mp stepped).2
      obtain ⟨-, -, refs⟩ := (inv.1.sound i).locked_of (brelse_spec done).1
      have one : (s.state.cache.buf i).refcnt = 1 := by
        rw [refs, show s.state.waiting i = [] from alone]
        rfl
      simp only [observe, one, if_true, inv.2]
    | bget | lock | modify | logWrite | bwrite | clear => exact inv.2
  exact (run_invariant kept ⟨coherent, same⟩ all reached).2

/-- Every run of the cache from boot, by any processes, refines the plain block
store. A buffer moves in the list when its last reference is released; where no
call waits for a buffer that is released, that is at every brelse. -/
theorem cache_refines_store (disksize : Nat) (memdisk : Nat → Block) (ls : List Label) (w : World)
    (reached : exec act (boot disksize memdisk) ls = some w) :
    Refines w ∧
      (Along act Unawaited (boot disksize memdisk) ls →
        Ordered w.state.cache.link w.store.released) := by
  have coherent := run_coherent (boot_coherent disksize memdisk) reached
  refine ⟨coherent.refines, ?_⟩
  intro all
  rw [released_eq_freed (boot_coherent disksize memdisk) rfl all reached]
  exact coherent.order

/- Process 1 reads, changes and logs block 5; process 2 waits for it meanwhile. -/
def loggedRun : List Label :=
  [.bget ⟨1, 5⟩, .lock ⟨1, 5⟩ 0, .modify 1 0 (fun _ => 7), .bget ⟨2, 5⟩, .logWrite 1 0, .brelse 1 0,
    .lock ⟨2, 5⟩ 0]

theorem cache_refines_store_logged : ∃ w, exec act (boot 1000 (fun _ => zeros)) loggedRun = some w ∧
    w.store.logged 5 = true ∧ (w.state.cache.buf 0).data 0 = 7 ∧ Refines w := by
  obtain ⟨w, reached, logged, data⟩ : ∃ w, exec act (boot 1000 (fun _ => zeros)) loggedRun = some w ∧
      w.store.logged 5 = true ∧ (w.state.cache.buf 0).data 0 = 7 := by decide +kernel
  exact ⟨w, reached, logged, data, (cache_refines_store 1000 _ loggedRun w reached).1⟩

end Xv6c.Bio

import Xv6c.Fs.Contents
import Xv6c.Kernel.File

/-! ByteFiles are byte arrays: readi, writei, itrunc and filewrite, called in any order on any
inodes, against one list of bytes for each inode. -/
namespace Xv6c
open Lib
open Function (update update_self update_of_ne update_eq_self update_idem)

/- A call by process p: on the inode in slot ip, or on the open file f. -/
inductive ByteCall where
  | beginOp (p : ProcId)
  | endOp (p : ProcId)
  | readi (p : ProcId) (ip off n : Nat)
  | writei (p : ProcId) (ip off : Nat) (src : List Byte)
  | itrunc (p : ProcId) (ip : Nat)
  | filewrite (p : ProcId) (f : Nat) (data : List Byte)

namespace ByteCall

/- The return value, and the bytes that a read delivers. -/
def run : ByteCall → KM (Int × List Byte)
  | beginOp p => do
    onFs p Fs.beginOp
    pure (0, [])
  | endOp p => do
    onFs p Fs.endOp
    pure (0, [])
  | readi p ip off n => do
    let r ← onFs p (Fs.readi ip off n)
    pure (r.1, (List.range r.1.toNat).map r.2)
  | writei p ip off src => do
    let r ← onFs p (Fs.writei ip (fun i => src.getD i 0) off src.length)
    pure (r, [])
  | itrunc p ip => do
    onFs p (Fs.itrunc ip)
    pure (0, [])
  | filewrite p f data => do
    let r ← Xv6c.filewrite p f data
    pure (r.getD 0, [])

def runAll : List ByteCall → KM (List (Int × List Byte))
  | [] => pure []
  | c :: cs => do
    let r ← c.run
    let rs ← runAll cs
    pure (r :: rs)

def step (k : Kernel) (c : ByteCall) : Option Kernel :=
  match (c.run k).2 with
  | .ok (_, k') => some k'
  | .error _ => none

end ByteCall

/- The bytes of each inode, and the offset of each open file. -/
structure ByteFiles where
  bytes : Nat → List Byte
  off : Nat → Nat

def Kernel.files (k : Kernel) : ByteFiles := ⟨k.fs.contents, fun f => (k.file f).off⟩

/- The inode in a slot, and the inode of an open file. -/
def Kernel.node (k : Kernel) (ip : Nat) : Nat := (k.fs.icache ip).inum
def Kernel.target (k : Kernel) (f : Nat) : Nat := k.node (k.file f).ip

/- A write of more than fits, piece by piece up to the first that does not: what it leaves. -/
def writeSome : Nat → List Byte → Nat → List Byte → List Byte × Nat
  | 0, l, off, _ => (l, off)
  | n + 1, l, off, data =>
    match Fs.writeAt l off (data.take maxWrite) with
    | none => (l, off)
    | some l' => writeSome n l' (off + (data.take maxWrite).length) (data.drop maxWrite)

/- One write at the offset of open file f, whose inode is i; and whether it succeeds. -/
def ByteFiles.write (a : ByteFiles) (i f : Nat) (data : List Byte) : Bool × ByteFiles :=
  match Fs.writeAt (a.bytes i) (a.off f) data with
  | some l => (true, ⟨update a.bytes i l, update a.off f (a.off f + data.length)⟩)
  | none =>
    let (l, off) := writeSome (data.length + 1) (a.bytes i) (a.off f) data
    (data.isEmpty, ⟨update a.bytes i l, update a.off f off⟩)

/- What the call does to files as byte arrays. -/
def ByteCall.spec (node target : Nat → Nat) : ByteCall → ByteFiles → (Int × List Byte) × ByteFiles
  | beginOp _, a => ((0, []), a)
  | endOp _, a => ((0, []), a)
  | readi _ ip off n, a => (Fs.delivered (Fs.readAt (a.bytes (node ip)) off n), a)
  | writei _ ip off src, a =>
    match Fs.writeAt (a.bytes (node ip)) off src with
    | none => ((-1, []), a)
    | some l => ((src.length, []), { a with bytes := update a.bytes (node ip) l })
  | itrunc _ ip, a => ((0, []), { a with bytes := update a.bytes (node ip) [] })
  | filewrite _ f data, a =>
    let (ok, b) := a.write (target f) f data
    ((if ok then data.length else -1, []), b)

def ByteCall.specAll (node target : Nat → Nat) : List ByteCall → ByteFiles → List (Int × List Byte) × ByteFiles
  | [], a => ([], a)
  | c :: cs, a =>
    let (r, b) := c.spec node target a
    let (rs, b) := specAll node target cs b
    (r :: rs, b)

/- Any 15 free blocks in a row lie in at most 12 blocks of the free map. -/
def Compact (fs : FileSys) : Prop :=
  ∀ l, l <:+ Fs.freeBlocks fs.disk fs.sb → ((l.take 15).map fun b => Fs.BBLOCK b fs.sb).toFinset.card ≤ 12

/- An open file that filewrite can write: no transaction is open and the log has room for one. -/
structure Writable (k : Kernel) (f : Nat) : Prop where
  type : (k.file f).type = .inode
  writable : (k.file f).writable = true
  offset : (k.file f).off < 2 ^ 32
  slot : (k.file f).ip < NINODE
  held : 0 < (k.fs.icache (k.file f).ip).ref
  unlocked : (k.fs.icache (k.file f).ip).locked = false
  used : (k.fs.inodes (k.target f)).type ≠ 0
  plain : (k.fs.inodes (k.target f)).type ≠ Fs.T_DEV
  idle : k.fs.log.outstanding = 0 ∧ k.fs.log.committing = false ∧ k.fs.log.lh = []
  size : LOGSIZE ≤ k.fs.log.size
  compact : Compact k.fs

/- The call is made as its comments ask, on an inode that is no device, with its arguments in
the range of their types; and the log has room for it. -/
def ByteCall.Ready (k : Kernel) : ByteCall → Prop
  | beginOp _ => Log.admits k.fs.log = true
  | endOp _ => k.fs.log.committing = false
  | readi _ ip off n => Fs.Loaded k.fs ip (k.node ip) ∧ (k.fs.icache ip).d.type ≠ Fs.T_DEV ∧ off < 2 ^ 32 ∧ n < 2 ^ 32 ∧
    (Fs.NoGap k.fs (k.node ip) off n ∨ Fs.LogRoom k.fs (Fs.blocksOf off n))
  | writei _ ip off src => Fs.Loaded k.fs ip (k.node ip) ∧ (k.fs.icache ip).d.type ≠ Fs.T_DEV ∧ off < 2 ^ 32 ∧
    src.length < 2 ^ 32 ∧ (src.length = 0 ∨ Fs.LogRoom k.fs (Fs.blocksOf off src.length))
  | itrunc _ ip => Fs.Loaded k.fs ip (k.node ip) ∧ Fs.FreeRoom k.fs (k.node ip)
  | filewrite _ f data => Writable k f ∧ data.length < 2 ^ 31

def Event.granted : Event → Bool
  | .fs .refused => false
  | _ => true

/- As long as balloc succeeds: nothing is said of runs in which it refuses or finds no block. -/
def granting : Mode Event Fault := ⟨fun e => e.granted = true, fun _ => True, fun f => f = .panic "balloc: out of blocks"⟩

theorem grants_granting : Fs.Grants (granting.comap Event.fs) := ⟨Bool.false_ne_true, rfl, fun _ => trivial⟩

section Calls
variable {A B : Type} {M : Mode Event Fault} {k : Kernel} {p : ProcId} {s t : Fs.FsState}

variable {P : A → Fs.FsState → Prop} {Q : B → Kernel → Prop}

theorem wp_fs_bind {x : Fs.FsM A} {f : A → KM B} (first : wp (M.comap Event.fs) x P (k.fsView p))
    (rest : ∀ a t, P a t → wp M (f a) Q (k.fsPut p t)) :
    wp M (onFs p x >>= f) Q k := wp_bind (wp_zoom (wp_mono first rest))

theorem fsView_fsPut (limit : s.mdsk = (k.fsView p).mdsk) : (k.fsPut p s).fsView p = s := by
  have cont : (k.fsPut p s).cont (k.contOf p) =
      { k.cont (k.contOf p) with
        udsk := s.udsk
        state := s.cstate } := update_self _ _ _
  change { s.toFileSys with
    udsk := ((k.fsPut p s).cont (k.contOf p)).udsk
    mdsk := ((k.fsPut p s).cont (k.contOf p)).mdsk
    cstate := ((k.fsPut p s).cont (k.contOf p)).state } = s
  rw [cont]
  dsimp only
  rw [show (k.cont (k.contOf p)).mdsk = s.mdsk from limit.symm]

theorem fsPut_fsPut : (k.fsPut p s).fsPut p t = k.fsPut p t := by
  have cont : (k.fsPut p s).cont (k.contOf p) =
      { k.cont (k.contOf p) with
        udsk := s.udsk
        state := s.cstate } := update_self _ _ _
  change { k with
    fs := t.toFileSys
    cont := update (k.fsPut p s).cont (k.contOf p) { (k.fsPut p s).cont (k.contOf p) with
      udsk := t.udsk
      state := t.cstate } } = _
  rw [cont]
  unfold Kernel.fsPut
  dsimp only
  rw [update_idem]

theorem wp_fs_next {x : Fs.FsM A} {f : A → KM B} (limit : s.mdsk = (k.fsView p).mdsk)
    (first : wp (M.comap Event.fs) x P s) (rest : ∀ a t, P a t → wp M (f a) Q (k.fsPut p t)) :
    wp M (onFs p x >>= f) Q (k.fsPut p s) := by
  refine wp_fs_bind (P := P) (by rwa [fsView_fsPut limit]) fun a t h => ?_
  rw [fsPut_fsPut]
  exact rest a t h

/- The call has the effect of its specification, and slots and open files stay with their inodes. -/
structure Meets (c : ByteCall) (k : Kernel) (r : Int × List Byte) (k' : Kernel) : Prop where
  volume : Fs.Volume k'.fs
  spec : (r, k'.files) = c.spec k.node k.target k.files
  node : k'.node = k.node
  target : k'.target = k.target

variable {ip : Nat}

theorem Fs.Frame.node (h : Fs.Frame ip (k.fsView p) t) : (k.fsPut p t).node = k.node := by
  funext jp
  change (t.icache jp).inum = (k.fs.icache jp).inum
  by_cases same : jp = ip
  · rw [same, h.slot]
    rfl
  · rw [h.slots jp same]
    rfl

theorem target_fsPut (node : (k.fsPut p t).node = k.node) : (k.fsPut p t).target = k.target :=
  funext fun f => congrFun node (k.file f).ip

theorem files_fsPut {bytes : Nat → List Byte} (contents : t.contents = bytes) :
    (k.fsPut p t).files = { k.files with bytes := bytes } := by
  rw [← contents]
  rfl

theorem map_getD (l : List Byte) : (List.range l.length).map (fun i => l.getD i 0) = l := by
  refine List.ext_getElem (by rw [List.length_map, List.length_range]) fun j inside _ => ?_
  rw [List.length_map, List.length_range] at inside
  rw [List.getElem_map, List.getElem_range, List.getD_eq_getElem?_getD, List.getElem?_eq_getElem inside,
    Option.getD_some]

theorem wp_readi_call {off n : Nat} (volume : Fs.Volume k.fs) (ready : (ByteCall.readi p ip off n).Ready k) :
    wp granting (ByteCall.readi p ip off n).run (Meets (.readi p ip off n) k) k := by
  obtain ⟨loaded, plain, offset, length, room⟩ := ready
  refine wp_fs_bind (Fs.wp_readi_list grants_granting volume loaded plain offset length room) ?_
  rintro v t ⟨frame, volume, contents, result⟩
  refine wp_pure ⟨volume, Prod.ext result (files_fsPut contents), frame.node, target_fsPut frame.node⟩

theorem wp_writei_call {off : Nat} {src : List Byte} (volume : Fs.Volume k.fs)
    (ready : (ByteCall.writei p ip off src).Ready k) :
    wp granting (ByteCall.writei p ip off src).run (Meets (.writei p ip off src) k) k := by
  obtain ⟨loaded, plain, offset, length, room⟩ := ready
  refine wp_fs_bind (Fs.wp_writei_list grants_granting volume loaded plain offset length room) ?_
  rintro v t ⟨frame, volume, -, -, -, result⟩
  refine wp_pure ⟨volume, ?_, frame.node, target_fsPut frame.node⟩
  rw [map_getD] at result
  change _ = match Fs.writeAt (k.fs.contents (k.node ip)) off src with
    | none => _
    | some _ => _
  change match Fs.writeAt (k.fs.contents (k.node ip)) off src with
    | none => _
    | some _ => _ at result
  revert result
  cases Fs.writeAt (k.fs.contents (k.node ip)) off src with
  | none =>
    rintro ⟨rfl, contents⟩
    exact Prod.ext rfl (files_fsPut contents)
  | some l =>
    rintro ⟨rfl, contents⟩
    exact Prod.ext rfl (files_fsPut contents)

theorem wp_itrunc_call (volume : Fs.Volume k.fs) (ready : (ByteCall.itrunc p ip).Ready k) :
    wp granting (ByteCall.itrunc p ip).run (Meets (.itrunc p ip) k) k := by
  obtain ⟨loaded, room⟩ := ready
  obtain ⟨maps, room⟩ := Fs.FreeRoom.maps (M := granting.comap Event.fs) (s := k.fsView p) room
  refine wp_fs_bind (Fs.wp_itrunc grants_granting volume loaded maps (Finset.mem_insert_self _ _) room) ?_
  rintro _ t ⟨emptied, -⟩
  exact wp_pure ⟨emptied.volume, Prod.ext rfl (files_fsPut emptied.contents), emptied.toFrame.node,
    target_fsPut emptied.toFrame.node⟩

end Calls

section Pieces
variable {l l' a b data : List Byte} {off : Nat}

theorem writeAt_append (first : Fs.writeAt l off a = some l') :
    Fs.writeAt l' (off + a.length) b = Fs.writeAt l off (a ++ b) := by
  unfold Fs.writeAt at first ⊢
  split at first
  · exact nomatch first
  · rename_i fits
    obtain rfl := Option.some.inj first
    have start : off ≤ l.length := by omega
    rw [overwrite_append start, length_overwrite start, List.length_append, ← Nat.add_assoc]
    refine if_congr ?_ rfl rfl
    omega

theorem writeAt_append_none (first : Fs.writeAt l off a = none) : Fs.writeAt l off (a ++ b) = none := by
  unfold Fs.writeAt at first ⊢
  split at first
  · rename_i bad
    rw [if_pos]
    rw [List.length_append]
    omega
  · exact nomatch first

theorem writeAt_small (written : Fs.writeAt l off a = some l') : off + a.length < 2 ^ 32 := by
  unfold Fs.writeAt at written
  split at written
  · exact nomatch written
  · omega

theorem writeAt_nil (same : Fs.writeAt l off [] = some l') : l' = l := by
  unfold Fs.writeAt at same
  split at same
  · exact nomatch same
  · rw [← Option.some.inj same, overwrite_nil]

theorem writeSome_nil (n : Nat) : writeSome n l off [] = (l, off) := by
  induction n with
  | zero => rfl
  | succ n ih =>
    unfold writeSome
    rw [List.take_nil, List.drop_nil]
    split
    · rfl
    · rename_i l' same
      rw [writeAt_nil same]
      exact ih

theorem drop_shorter (some : data ≠ []) : (data.drop maxWrite).length < data.length := by
  have length := List.length_pos_of_ne_nil some
  have step : 0 < maxWrite := by decide
  rw [List.length_drop]
  omega

theorem writeSome_fuel {n m : Nat} (enough : data.length ≤ n) (enough' : data.length ≤ m) :
    writeSome n l off data = writeSome m l off data := by
  induction n generalizing m l off data with
  | zero =>
    obtain rfl := List.length_eq_zero_iff.mp (Nat.le_zero.mp enough)
    rw [writeSome_nil, writeSome_nil]
  | succ n ih =>
    by_cases none : data = []
    · rw [none, writeSome_nil, writeSome_nil]
    · have shorter := drop_shorter none
      cases m with
      | zero => exact absurd (List.length_eq_zero_iff.mp (Nat.le_zero.mp enough')) none
      | succ m =>
        unfold writeSome
        split
        · rfl
        · exact ih (by omega) (by omega)

end Pieces

section Writes
variable {a : ByteFiles} {i f : Nat} {data l : List Byte}

theorem ByteFiles.write_nil : a.write i f [] = (true, a) := by
  unfold ByteFiles.write
  cases result : Fs.writeAt (a.bytes i) (a.off f) [] with
  | some l =>
    dsimp only
    rw [writeAt_nil result, List.length_nil, Nat.add_zero, update_eq_self, update_eq_self]
  | none =>
    dsimp only
    rw [writeSome_nil, update_eq_self, update_eq_self, List.isEmpty_nil]

/- A write is its first piece and then the rest. -/
theorem ByteFiles.write_first_fails (some : data ≠ []) (first : Fs.writeAt (a.bytes i) (a.off f) (data.take maxWrite) = none) :
    a.write i f data = (false, a) := by
  have whole : Fs.writeAt (a.bytes i) (a.off f) data = none := by
    have split := writeAt_append_none (b := data.drop maxWrite) first
    rwa [List.take_append_drop] at split
  have pieces : writeSome (data.length + 1) (a.bytes i) (a.off f) data = (a.bytes i, a.off f) := by
    unfold writeSome
    rw [first]
  unfold ByteFiles.write
  rw [whole, pieces]
  dsimp only
  rw [update_eq_self, update_eq_self, List.isEmpty_eq_false_iff.mpr some]

theorem ByteFiles.write_rest (some : data ≠ [])
    (first : Fs.writeAt (a.bytes i) (a.off f) (data.take maxWrite) = Option.some l) :
    a.write i f data = ByteFiles.write ⟨update a.bytes i l, update a.off f (a.off f + (data.take maxWrite).length)⟩ i f
      (data.drop maxWrite) := by
  have whole : Fs.writeAt l (a.off f + (data.take maxWrite).length) (data.drop maxWrite) =
      Fs.writeAt (a.bytes i) (a.off f) data := by rw [writeAt_append first, List.take_append_drop]
  have length : (data.take maxWrite).length + (data.drop maxWrite).length = data.length := by
    rw [← List.length_append, List.take_append_drop]
  unfold ByteFiles.write
  dsimp only
  rw [update_self, update_self, whole]
  cases result : Fs.writeAt (a.bytes i) (a.off f) data with
  | some l' =>
    dsimp only
    rw [Nat.add_assoc, length, update_idem, update_idem]
  | none =>
    have more : data.drop maxWrite ≠ [] := by
      intro last
      have all : data.take maxWrite = data := by
        have split := List.take_append_drop maxWrite data
        rwa [last, List.append_nil] at split
      rw [all, result] at first
      exact nomatch first
    have shorter := drop_shorter some
    have pieces : writeSome (data.length + 1) (a.bytes i) (a.off f) data =
        writeSome ((data.drop maxWrite).length + 1) l (a.off f + (data.take maxWrite).length) (data.drop maxWrite) := by
      conv_lhs => unfold writeSome
      rw [first]
      exact writeSome_fuel (by omega) (by omega)
    dsimp only
    rw [pieces, List.isEmpty_eq_false_iff.mpr some, List.isEmpty_eq_false_iff.mpr more, update_idem,
      update_idem]

end Writes

section Body
variable {B : Type} {k : Kernel} {p : ProcId} {f n : Nat} {src : Bytes}

/- What filewrite does in one transaction. -/
def chunkBody (p : ProcId) (f : Nat) (src : Bytes) (n : Nat) : KM Int := do
  let k ← Prog.get
  let g := k.file f
  onFs p (Fs.ilock g.ip)
  let r ← onFs p (Fs.writei g.ip src g.off n)
  if 0 < r then modifyFile f fun g => { g with off := (g.off + r.toNat) % 2 ^ 32 }
  onFs p (Fs.iunlock g.ip)
  pure r

/- A call of the file system changes nothing that rest uses. -/
theorem get_onFs {A : Type} {x : Fs.FsM A} {rest : Kernel → A → KM B} (same : ∀ k t a, rest (k.fsPut p t) a = rest k a) :
    (do let k ← Prog.get; let a ← onFs p x; rest k a : KM B) = (do let a ← onFs p x; let k ← Prog.get; rest k a) := by
  funext k
  change Prog.bind (onFs p x) (rest k) k = Prog.bind (onFs p x) (fun a => Prog.bind Prog.get fun k' => rest k' a) k
  unfold Prog.bind onFs Prog.zoom
  rcases x (k.fsView p) with ⟨es, _ | ⟨a, t⟩⟩
  · rfl
  · change (_ ++ (rest k a (k.fsPut p t)).1, (rest k a (k.fsPut p t)).2) =
      (_ ++ (rest (k.fsPut p t) a (k.fsPut p t)).1, (rest (k.fsPut p t) a (k.fsPut p t)).2)
    rw [same]

theorem filewriteLoop_succ (data : Bytes) (fuel i : Nat) : filewriteLoop p f data n (fuel + 1) i =
    if i < n then (do
      onFs p Fs.beginOp
      let r ← chunkBody p f (fun j => data (i + j)) (min (n - i) maxWrite)
      onFs p Fs.endOp
      if r < 0 then pure (-1)
      else if r ≠ min (n - i) maxWrite then panic "short filewrite"
      else filewriteLoop p f data n fuel (i + min (n - i) maxWrite) : KM Int)
    else pure (n : Int) := by
  conv_lhs => unfold filewriteLoop
  refine if_congr Iff.rfl ?_ rfl
  dsimp only
  rw [get_onFs fun _ _ _ => rfl]
  unfold chunkBody
  simp only [bind_assoc]
  refine bind_congr fun _ => bind_congr fun k => bind_congr fun _ => bind_congr fun r => ?_
  split <;> simp only [bind_assoc, pure_bind]

/- An open file that filewrite can write, in a transaction. -/
structure OpenFile (k : Kernel) (f : Nat) : Prop where
  type : (k.file f).type = .inode
  writable : (k.file f).writable = true
  offset : (k.file f).off < 2 ^ 32
  slot : (k.file f).ip < NINODE
  held : 0 < (k.fs.icache (k.file f).ip).ref
  unlocked : (k.fs.icache (k.file f).ip).locked = false
  used : (k.fs.inodes (k.target f)).type ≠ 0
  plain : (k.fs.inodes (k.target f)).type ≠ Fs.T_DEV

/- The kernel with another offset of the file. -/
def Kernel.advance (k : Kernel) (f off : Nat) : Kernel :=
  { k with file := update k.file f { k.file f with off := off } }

theorem file_advance (off : Nat) : (k.advance f off).file f = { k.file f with off := off } := update_self _ _ _

/- A piece written: at the offset of the file, if it fits. -/
structure Wrote (k : Kernel) (f : Nat) (piece : List Byte) (r : Int) (k' : Kernel) : Prop where
  volume : Fs.Volume k'.fs
  fit : OpenFile k' f
  node : k'.node = k.node
  target : k'.target = k.target
  log : k'.fs.log = { k.fs.log with lh := k'.fs.log.lh }
  sb : k'.fs.sb = k.fs.sb
  free : Fs.freeBlocks k'.fs.disk k'.fs.sb <:+ Fs.freeBlocks k.fs.disk k.fs.sb
  files : match Fs.writeAt (k.files.bytes (k.target f)) (k.files.off f) piece with
    | none => r = -1 ∧ k'.files = k.files
    | some l => r = piece.length ∧ k'.files =
        ⟨update k.files.bytes (k.target f) l, update k.files.off f (k.files.off f + piece.length)⟩

/- What the body leaves of the file system, with the inode in slot ip. -/
structure Visited (fs : FileSys) (ip : Nat) (v : Fs.FsState) : Prop where
  volume : Fs.Volume v.toFileSys
  numbers : ∀ jp, (v.icache jp).inum = (fs.icache jp).inum
  held : 0 < (v.icache ip).ref
  unlocked : (v.icache ip).locked = false
  type : (v.inodes (fs.icache ip).inum).type = (fs.inodes (fs.icache ip).inum).type
  log : v.log = { fs.log with lh := v.log.lh }
  sb : v.sb = fs.sb
  free : Fs.freeBlocks v.disk v.sb <:+ Fs.freeBlocks fs.disk fs.sb

variable {v : Fs.FsState} {off : Nat}

theorem target_advance (numbers : ∀ jp, (v.icache jp).inum = (k.fs.icache jp).inum) :
    ((k.advance f off).fsPut p v).target = k.target := by
  funext g
  change (v.icache ((k.advance f off).file g).ip).inum = (k.fs.icache (k.file g).ip).inum
  by_cases same : g = f
  · rw [same, file_advance]
    exact numbers _
  · have other : (k.advance f off).file g = k.file g := update_of_ne same _ _
    rw [other]
    exact numbers _

theorem Visited.fit (fit : OpenFile k f) (visited : Visited k.fs (k.file f).ip v) (small : off < 2 ^ 32) :
    OpenFile ((k.advance f off).fsPut p v) f := by
  have file : ((k.advance f off).fsPut p v).file f = { k.file f with off := off } := file_advance off
  have target : ((k.advance f off).fsPut p v).target = k.target := target_advance visited.numbers
  have type : (((k.advance f off).fsPut p v).fs.inodes (k.target f)).type = (k.fs.inodes (k.target f)).type := visited.type
  refine ⟨?_, ?_, ?_, ?_, ?_, ?_, ?_, ?_⟩
  · rw [file]
    exact fit.type
  · rw [file]
    exact fit.writable
  · rw [file]
    exact small
  · rw [file]
    exact fit.slot
  · rw [file]
    exact visited.held
  · rw [file]
    exact visited.unlocked
  · rw [target, type]
    exact fit.used
  · rw [target, type]
    exact fit.plain

theorem Visited.wrote {r : Int} {piece : List Byte} (fit : OpenFile k f)
    (visited : Visited k.fs (k.file f).ip v) (small : off < 2 ^ 32)
    (files : match Fs.writeAt (k.files.bytes (k.target f)) (k.files.off f) piece with
      | none => r = -1 ∧ v.contents = k.fs.contents ∧ off = (k.file f).off
      | some l => r = piece.length ∧ v.contents = update k.fs.contents (k.target f) l ∧
          off = (k.file f).off + piece.length) : Wrote k f piece r ((k.advance f off).fsPut p v) := by
  have after : ((k.advance f off).fsPut p v).files = ⟨v.contents, update k.files.off f off⟩ := by
    refine congrArg (ByteFiles.mk _) (funext fun g => ?_)
    change (update k.file f { k.file f with off := off } g).off = update k.files.off f off g
    by_cases same : g = f
    · rw [same, update_self, update_self]
    · rw [update_of_ne same, update_of_ne same]
      rfl
  refine ⟨visited.volume, visited.fit fit small, funext visited.numbers, target_advance visited.numbers, visited.log,
    visited.sb, visited.free, ?_⟩
  rw [after]
  revert files
  cases Fs.writeAt (k.files.bytes (k.target f)) (k.files.off f) piece with
  | none =>
    rintro ⟨rfl, contents, rfl⟩
    refine ⟨rfl, ?_⟩
    rw [contents]
    exact congrArg (ByteFiles.mk _) (update_eq_self f k.files.off)
  | some l =>
    rintro ⟨rfl, contents, rfl⟩
    refine ⟨rfl, ?_⟩
    rw [contents]
    rfl

theorem wp_chunkBody (volume : Fs.Volume k.fs) (fit : OpenFile k f) (length : n < 2 ^ 32)
    (room : n = 0 ∨ Fs.LogRoom k.fs (Fs.blocksOf (k.file f).off n)) :
    wp granting (chunkBody p f src n) (Wrote k f ((List.range n).map src)) k := by
  unfold chunkBody
  refine wp_get_bind ?_
  dsimp only
  refine wp_fs_bind (Fs.wp_ilock volume fit.slot fit.held fit.unlocked fit.used) ?_
  rintro _ s ⟨state, same, volume, loaded⟩
  have plain : (s.icache (k.file f).ip).d.type ≠ Fs.T_DEV := by
    rw [state, Fs.icache_put]
    exact fit.plain
  have room : n = 0 ∨ Fs.LogRoom s.toFileSys (Fs.blocksOf (k.file f).off n) := by
    rw [state]
    exact room
  have limit : s.mdsk = (k.fsView p).mdsk := by rw [state]; rfl
  refine wp_fs_next limit (Fs.wp_writei_list grants_granting volume loaded plain fit.offset length room) ?_
  rintro r t ⟨frame, volume, loaded, type, free, result⟩
  have before : s.contents = k.fs.contents := by
    rw [state]
    exact congrArg (Fs.contents k.fs.disk) (state ▸ same)
  rw [before] at result
  -- the offset is set; what is left is to unlock the inode
  have tail (off : Nat) (small : off < 2 ^ 32) (files : match Fs.writeAt (k.files.bytes (k.target f)) (k.files.off f)
      ((List.range n).map src) with
      | none => r = -1 ∧ t.contents = k.fs.contents ∧ off = (k.file f).off
      | some l => r = n ∧ t.contents = update k.fs.contents (k.target f) l ∧ off = (k.file f).off + n) :
      wp granting (do
        onFs p (Fs.iunlock (k.file f).ip)
        pure r) (Wrote k f ((List.range n).map src)) ((k.advance f off).fsPut p t) := by
    have slot : t.icache (k.file f).ip = { k.fs.icache (k.file f).ip with
        locked := true
        valid := true
        d := (t.icache (k.file f).ip).d } := by
      rw [frame.slot, state, Fs.icache_put]
      rfl
    have held : 0 < (t.icache (k.file f).ip).ref := by
      rw [slot]
      exact fit.held
    refine wp_fs_next (frame.mdsk.trans limit) (Fs.wp_iunlock volume held (by rw [slot])) ?_
    rintro _ u ⟨final, same', volume'⟩
    have inode : t.inodes (k.target f) = (t.icache (k.file f).ip).d := loaded.inodes volume.cache
    refine wp_pure (Visited.wrote fit ⟨volume', fun jp => ?_, ?_, ?_, ?_, ?_, ?_, ?_⟩ small ?_)
    · rw [final]
      by_cases here : jp = (k.file f).ip
      · rw [here, Fs.icache_put, slot]
      · rw [Fs.icache_put_ne here, frame.slots jp here, state, Fs.icache_put_ne here]
        rfl
    · rw [final, Fs.icache_put]
      exact held
    · rw [final, Fs.icache_put]
    · change (u.inodes (k.target f)).type = _
      rw [same', inode, type, state, Fs.icache_put]
      rfl
    · rw [final]
      change t.log = { k.fs.log with lh := t.log.lh }
      rw [frame.log, state]
      rfl
    · rw [final]
      exact frame.sb.trans (by rw [state]; rfl)
    · rw [final]
      rw [state] at free
      exact free
    · have contents : u.contents = t.contents := by
        rw [final]
        exact congrArg (Fs.contents t.disk) (final ▸ same')
      rw [contents, List.length_map, List.length_range]
      exact files
  refine wp_ite (fun positive => ?_) fun negative => ?_
  · refine wp_modify_bind (tail _ (Nat.mod_lt _ (by decide)) ?_)
    change match Fs.writeAt (k.files.bytes (k.target f)) (k.files.off f) ((List.range n).map src) with
      | none => _
      | some _ => _ at result
    revert result
    cases written : Fs.writeAt (k.files.bytes (k.target f)) (k.files.off f) ((List.range n).map src) with
    | none =>
      rintro ⟨rfl, -⟩
      exact absurd positive (by decide)
    | some l =>
      rintro ⟨rfl, contents⟩
      have fits := writeAt_small written
      rw [List.length_map, List.length_range] at fits
      exact ⟨rfl, contents, Nat.mod_eq_of_lt fits⟩
  · have kept := tail (k.file f).off fit.offset ?_
    · rwa [Kernel.advance, update_eq_self] at kept
    · change match Fs.writeAt (k.files.bytes (k.target f)) (k.files.off f) ((List.range n).map src) with
        | none => _
        | some _ => _ at result
      revert result
      cases Fs.writeAt (k.files.bytes (k.target f)) (k.files.off f) ((List.range n).map src) with
      | none =>
        rintro ⟨rfl, contents⟩
        exact ⟨rfl, contents, rfl⟩
      | some l =>
        rintro ⟨rfl, contents⟩
        exact ⟨rfl, contents, by omega⟩

end Body

section Chunk
variable {B : Type} {k k' : Kernel} {p : ProcId} {f n : Nat} {src : Bytes} {M : Mode Event Fault}

def Kernel.relog (k : Kernel) (l : Log.LogStruct) : Kernel := { k with fs := { k.fs with log := l } }

theorem fsPut_log (l : Log.LogStruct) : k.fsPut p { k.fsView p with log := l } = k.relog l := by
  have same : update k.cont (k.contOf p) { k.cont (k.contOf p) with
      udsk := (k.fsView p).udsk
      state := (k.fsView p).cstate } = k.cont := update_eq_self (k.contOf p) k.cont
  exact congrArg (fun c => { k.relog l with cont := c }) same

theorem wp_beginOp (admits : Log.admits k.fs.log = true) : wp M (onFs p Fs.beginOp)
    (fun _ k' => k' = k.relog { k.fs.log with outstanding := k.fs.log.outstanding + 1 }) k := by
  have admits : Log.admits (k.fsView p).log = true := admits
  refine wp_zoom ?_
  unfold Fs.beginOp
  refine wp_get_bind ?_
  rw [if_pos admits]
  exact wp_modify (fsPut_log _)

theorem wp_endOp (quiet : k.fs.log.committing = false) : wp M (onFs p Fs.endOp)
    (fun _ k' => k' = k.relog { k.fs.log with
      outstanding := k.fs.log.outstanding - 1
      lh := if k.fs.log.outstanding - 1 = 0 then [] else k.fs.log.lh }) k := by
  have quiet : (k.fsView p).log.committing = false := quiet
  refine wp_zoom ?_
  unfold Fs.endOp
  refine wp_get_bind ?_
  rw [if_neg (by rw [quiet]; exact Bool.false_ne_true)]
  exact wp_modify (fsPut_log _)

theorem OpenFile.relog (fit : OpenFile k f) (l : Log.LogStruct) : OpenFile (k.relog l) f :=
  { fit with }

/- One transaction of filewrite. -/
structure Chunk (k : Kernel) (f : Nat) (piece : List Byte) (r : Int) (k' : Kernel) : Prop where
  volume : Fs.Volume k'.fs
  writable : Writable k' f
  node : k'.node = k.node
  target : k'.target = k.target
  files : match Fs.writeAt (k.files.bytes (k.target f)) (k.files.off f) piece with
    | none => r = -1 ∧ k'.files = k.files
    | some l => r = piece.length ∧ k'.files =
        ⟨update k.files.bytes (k.target f) l, update k.files.off f (k.files.off f + piece.length)⟩

theorem blocksOf_chunk (off : Nat) (most : n ≤ maxWrite) : Fs.blocksOf off n ≤ 14 := by
  unfold Fs.blocksOf
  change (off + n + 512 - 1) / 512 - off / 512 ≤ 14
  change n ≤ 6656 at most
  omega

theorem Compact.room {fs : FileSys} (compact : Compact fs) (size : LOGSIZE ≤ fs.log.size) (empty : fs.log.lh = [])
    (opened : 0 < fs.log.outstanding) (off : Nat) (most : n ≤ maxWrite) : Fs.LogRoom fs (Fs.blocksOf off n) := by
  have blocks := blocksOf_chunk off most
  have maps : (Fs.freeMaps fs (Fs.blocksOf off n + 1)).card ≤ 12 := by
    refine (Finset.card_le_card ?_).trans (compact _ (List.suffix_refl _))
    intro b inside
    obtain ⟨c, next, rfl⟩ := List.mem_map.mp (List.mem_toFinset.mp inside)
    exact List.mem_toFinset.mpr (List.mem_map_of_mem (List.take_subset_take_left _ (by omega) next))
  refine ⟨opened, ?_⟩
  rw [empty, List.length_nil]
  change 30 ≤ fs.log.size at size
  change _ < min 30 (fs.log.size - 1)
  omega

theorem Writable.fit (w : Writable k f) : OpenFile k f :=
  { w with }

theorem wp_chunk {g : Int → KM B} {Q : B → Kernel → Prop} (volume : Fs.Volume k.fs) (w : Writable k f)
    (most : n ≤ maxWrite) (rest : ∀ r k', Chunk k f ((List.range n).map src) r k' → wp granting (g r) Q k') :
    wp granting (do
      onFs p Fs.beginOp
      let r ← chunkBody p f src n
      onFs p Fs.endOp
      g r) Q k := by
  obtain ⟨closed, quiet, empty⟩ := w.idle
  have admits : Log.admits k.fs.log = true := by
    unfold Log.admits
    rw [closed, quiet, empty]
    rfl
  refine wp_seq (wp_beginOp admits) ?_
  rintro _ k₁ rfl
  generalize opened : k.fs.log.outstanding + 1 = o
  have compact : Compact (k.relog { k.fs.log with outstanding := o }).fs := w.compact
  have room := compact.room w.size empty (by change 0 < o; omega) (k.file f).off most
  have length : n < 2 ^ 32 := by
    change n ≤ 6656 at most
    omega
  refine wp_seq (wp_chunkBody (volume.relog _) (w.fit.relog _) length (Or.inr room)) ?_
  intro r k₂ wrote
  have log : k₂.fs.log = { k.fs.log with
      outstanding := 1
      lh := k₂.fs.log.lh } := by
    refine wrote.log.trans ?_
    rw [← opened, closed]
    rfl
  refine wp_seq (wp_endOp (by rw [log]; exact quiet)) ?_
  rintro _ k₃ rfl
  generalize ended : k₂.fs.log.outstanding - 1 = o'
  obtain rfl : o' = 0 := by
    rw [← ended, log]
    rfl
  rw [if_pos rfl, log]
  have fit := wrote.fit
  refine rest r _ ⟨wrote.volume.relog _, ⟨fit.type, fit.writable, fit.offset, fit.slot, fit.held, fit.unlocked, fit.used,
    fit.plain, ⟨rfl, quiet, rfl⟩, w.size, fun l suffix => ?_⟩, wrote.node, wrote.target, wrote.files⟩
  have few := w.compact l (suffix.trans wrote.free)
  have sb : k₂.fs.sb = k.fs.sb := wrote.sb
  rwa [← sb] at few

end Chunk

section Run
variable {k : Kernel} {p : ProcId} {f : Nat}

/- The loop, from byte i on: by induction on its fuel, with what is left of the data as the
data of one write. -/
theorem wp_filewriteLoop {data : Bytes} {n fuel i : Nat} (enough : n < i + fuel) (below : i ≤ n)
    (volume : Fs.Volume k.fs) (w : Writable k f) :
    wp granting (filewriteLoop p f data n fuel i) (fun r k' => ∃ ok,
      (ok, k'.files) = k.files.write (k.target f) f ((List.range (n - i)).map fun j => data (i + j)) ∧
      r = (if ok then (n : Int) else -1) ∧ Fs.Volume k'.fs ∧ k'.node = k.node ∧ k'.target = k.target) k := by
  induction fuel generalizing k i with
  | zero => omega
  | succ fuel ih =>
    rw [filewriteLoop_succ]
    refine wp_ite (fun more => ?_) fun done => ?_
    · have step : 0 < maxWrite := by decide
      generalize size : min (n - i) maxWrite = m
      have first : ((List.range (n - i)).map fun j => data (i + j)).take maxWrite =
          (List.range m).map fun j => data (i + j) := by
        rw [← List.map_take, List.take_range, Nat.min_comm, size]
      have later : ((List.range (n - i)).map fun j => data (i + j)).drop maxWrite =
          (List.range (n - (i + m))).map fun j => data (i + m + j) := by
        refine List.ext_getElem? fun j => ?_
        rw [List.getElem?_drop, List.getElem?_map, List.getElem?_map]
        by_cases inside : j < n - (i + m)
        · have all : m = maxWrite := by omega
          rw [List.getElem?_range inside, List.getElem?_range (by omega), ← all]
          exact congrArg some (congrArg data (Nat.add_assoc i m j).symm)
        · rw [List.getElem?_eq_none (by rw [List.length_range]; omega), List.getElem?_eq_none (by rw [List.length_range]; omega)]
          rfl
      have some : ((List.range (n - i)).map fun j => data (i + j)) ≠ [] := by
        rw [← List.length_pos_iff, List.length_map, List.length_range]
        omega
      have length : ((List.range m).map fun j => data (i + j)).length = m := by rw [List.length_map, List.length_range]
      refine wp_chunk volume w (by omega) fun r k' chunk => ?_
      have files := chunk.files
      revert files
      cases written : Fs.writeAt (k.files.bytes (k.target f)) (k.files.off f) ((List.range m).map fun j => data (i + j)) with
      | none =>
        rintro ⟨rfl, files⟩
        rw [if_pos (by decide)]
        refine wp_pure ⟨false, ?_, rfl, chunk.volume, chunk.node, chunk.target⟩
        rw [ByteFiles.write_first_fails some (by rw [first, written]), files]
      | some l =>
        rintro ⟨rfl, files⟩
        rw [length, if_neg (by omega), if_neg (by omega)]
        refine wp_mono (ih (by omega) (by omega) chunk.volume chunk.writable) ?_
        rintro r k'' ⟨ok, files', result, volume, node, target⟩
        refine ⟨ok, ?_, result, volume, node.trans chunk.node, target.trans chunk.target⟩
        rw [files', ByteFiles.write_rest some (by rw [first, written]), first, later, files, chunk.target]
    · obtain rfl : i = n := by omega
      refine wp_pure ⟨true, ?_, rfl, volume, rfl, rfl⟩
      rw [Nat.sub_self, List.range_zero, List.map_nil, ByteFiles.write_nil]

theorem wp_filewrite_call {data : List Byte} (volume : Fs.Volume k.fs) (ready : (ByteCall.filewrite p f data).Ready k) :
    wp granting (ByteCall.filewrite p f data).run (Meets (.filewrite p f data) k) k := by
  obtain ⟨w, -⟩ := ready
  have loop : wp granting (filewriteLoop p f (fun i => data.getD i 0) data.length (data.length + 1) 0) _ k :=
    wp_filewriteLoop (by omega) (by omega) volume w
  simp only [Nat.zero_add, Nat.sub_zero, map_getD] at loop
  change wp granting (filewrite p f data >>= fun r => pure (r.getD 0, [])) _ k
  unfold filewrite
  rw [bind_assoc]
  refine wp_get_bind ?_
  dsimp only
  rw [if_pos w.writable, w.type]
  dsimp only
  rw [bind_assoc]
  refine wp_seq loop ?_
  rintro r k' ⟨ok, files, rfl, volume, node, target⟩
  refine wp_pure ⟨volume, ?_, node, target⟩
  change _ = (((if (k.files.write (k.target f) f data).1 then (data.length : Int) else -1), []),
    (k.files.write (k.target f) f data).2)
  rw [← files]
  rfl

theorem wp_begin_call (volume : Fs.Volume k.fs) (ready : (ByteCall.beginOp p).Ready k) :
    wp granting (ByteCall.beginOp p).run (Meets (.beginOp p) k) k := by
  refine wp_seq (wp_beginOp ready) ?_
  rintro _ k' rfl
  exact wp_pure ⟨volume.relog _, rfl, rfl, rfl⟩

theorem wp_end_call (volume : Fs.Volume k.fs) (ready : (ByteCall.endOp p).Ready k) :
    wp granting (ByteCall.endOp p).run (Meets (.endOp p) k) k := by
  refine wp_seq (wp_endOp ready) ?_
  rintro _ k' rfl
  exact wp_pure ⟨volume.relog _, rfl, rfl, rfl⟩

theorem wp_call {c : ByteCall} (volume : Fs.Volume k.fs) (ready : c.Ready k) : wp granting c.run (Meets c k) k := by
  cases c with
  | beginOp p => exact wp_begin_call volume ready
  | endOp p => exact wp_end_call volume ready
  | readi p ip off n => exact wp_readi_call volume ready
  | writei p ip off src => exact wp_writei_call volume ready
  | itrunc p ip => exact wp_itrunc_call volume ready
  | filewrite p f data => exact wp_filewrite_call volume ready

end Run

/- The kernel over the small image in a transaction that has logged the blocks in lh, with
the file in slot 1. -/
def fileKernel (lh : List Nat) : Kernel :=
  { Kernel.zero with
    fs := { Fs.smallFs with
      log := { Fs.smallFs.log with
        outstanding := 1
        lh := lh }
      icache := fun ip => if ip = 1 then ⟨3, 1, true, true, Fs.smallInode Fs.T_FILE 5 102⟩ else Fs.smallFs.icache ip }
    cont := fun _ => { Cont.zero with
      state := .crunnable
      mdsk := MAX_CONT_DSK } }

theorem volume_fileKernel (lh : List Nat) : Fs.Volume (fileKernel lh).fs := by
  have slot (ip : Nat) (held : 0 < ((fileKernel lh).fs.icache ip).ref) :
      (ip = 0 ∧ (fileKernel lh).fs.icache ip = ⟨ROOTINO, 2, false, true, Fs.smallRoot⟩) ∨
      (ip = 1 ∧ (fileKernel lh).fs.icache ip = ⟨3, 1, true, true, Fs.smallInode Fs.T_FILE 5 102⟩) := by
    match ip with
    | 0 => exact Or.inl ⟨rfl, rfl⟩
    | 1 => exact Or.inr ⟨rfl, rfl⟩
    | ip + 2 => exact absurd held (lt_irrefl (0 : Int))
  refine Fs.volume_small rfl rfl ⟨fun ip jp _ _ held held' same => ?_, fun ip _ held => ?_⟩ fun ip _ held _ => ?_
  · rcases slot ip held with ⟨rfl, first⟩ | ⟨rfl, first⟩ <;> rcases slot jp held' with ⟨rfl, second⟩ | ⟨rfl, second⟩
    · rfl
    · rw [first, second] at same
      exact nomatch same
    · rw [first, second] at same
      exact nomatch same
    · rfl
  · change _ < 200
    rcases slot ip held with ⟨-, here⟩ | ⟨-, here⟩ <;> rw [here] <;> decide
  · rcases slot ip held with ⟨-, here⟩ | ⟨-, here⟩ <;> rw [here] <;> rfl

end Xv6c

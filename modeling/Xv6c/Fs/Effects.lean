import Xv6c.Fs.Calls

/-! What a function of fs.c can do to its state, said once for every function: each is
a sequence of a few kinds of changes. The proof for a
program is found from those for the programs that it calls. -/
namespace Xv6c.Fs
open Lib

-- The proof for a program is as large as the program.
set_option synthInstance.maxSize 600

inductive Effect : FsState → FsState → Prop where
  | write (s : FsState) (b : Nat) (v : Block) : Effect s { s with
      disk := Function.update s.disk b v, log := { s.log with lh := Log.absorb s.log.lh b } }
  | log (s : FsState) (l : Log.LogStruct) : Effect s { s with log := l }
  | sb (s : FsState) (sb : Superblock) : Effect s { s with sb := sb }
  | inode (s : FsState) (ip : Nat) (i : Inode) : Effect s { s with
      icache := Function.update s.icache ip i }
  | input (s : FsState) (input : List Byte) : Effect s { s with input := input }
  | udsk (s : FsState) (n : Nat) : Effect s { s with udsk := n }
  | kill (s : FsState) : Effect s { s with cstate := .cstopping }

abbrev Effects : FsState → FsState → Prop := Relation.ReflTransGen Effect

/- The container goes on as it was, or it was killed. -/
theorem Effects.cstate {s t : FsState} (h : Effects s t) :
    t.cstate = s.cstate ∨ t.cstate = .cstopping := by
  induction h with
  | refl => exact Or.inl rfl
  | tail _ last ih =>
    cases last with
    | kill => exact Or.inr rfl
    | _ => exact ih

/- What the functions of fs.c and the file system calls panic with. -/
def panics : List String := [
  "log.committing", Log.tooBig, "log_write outside of trans", "incorrect blockno", "balloc: out of blocks",
  "freeing free block", "ialloc: no inodes", "iget: no inodes", "ilock", "ilock: no type",
  "iunlock", "bmap: out of range", "dirlookup not DIR", "dirlookup read", "dirlink read",
  "dirlink", "dirsize read", "isdirempty: readi", "unlink: nlink < 1", "unlink: writei",
  "create dots", "create: dirlink"]

instance : Fact ("log.committing" ∈ panics) := ⟨by decide⟩
instance : Fact (Log.tooBig ∈ panics) := ⟨by decide⟩
instance : Fact ("log_write outside of trans" ∈ panics) := ⟨by decide⟩
instance : Fact ("incorrect blockno" ∈ panics) := ⟨by decide⟩
instance : Fact ("balloc: out of blocks" ∈ panics) := ⟨by decide⟩
instance : Fact ("freeing free block" ∈ panics) := ⟨by decide⟩
instance : Fact ("ialloc: no inodes" ∈ panics) := ⟨by decide⟩
instance : Fact ("iget: no inodes" ∈ panics) := ⟨by decide⟩
instance : Fact ("ilock" ∈ panics) := ⟨by decide⟩
instance : Fact ("ilock: no type" ∈ panics) := ⟨by decide⟩
instance : Fact ("iunlock" ∈ panics) := ⟨by decide⟩
instance : Fact ("bmap: out of range" ∈ panics) := ⟨by decide⟩
instance : Fact ("dirlookup not DIR" ∈ panics) := ⟨by decide⟩
instance : Fact ("dirlookup read" ∈ panics) := ⟨by decide⟩
instance : Fact ("dirlink read" ∈ panics) := ⟨by decide⟩
instance : Fact ("dirlink" ∈ panics) := ⟨by decide⟩
instance : Fact ("dirsize read" ∈ panics) := ⟨by decide⟩
instance : Fact ("isdirempty: readi" ∈ panics) := ⟨by decide⟩
instance : Fact ("unlink: nlink < 1" ∈ panics) := ⟨by decide⟩
instance : Fact ("unlink: writei" ∈ panics) := ⟨by decide⟩
instance : Fact ("create dots" ∈ panics) := ⟨by decide⟩
instance : Fact ("create: dirlink" ∈ panics) := ⟨by decide⟩

def Faults (f : Fault) : Prop := ∀ msg, f = .panic msg → msg ∈ panics

/- Whatever admits the panics and the sleeps of the file system, and every change by which it
works on blocks and inodes without taking a lock, holds of all that it does without one. -/
class Steps (P : Fault → Prop) (r : FsState → FsState → Prop) : Prop where
  panic : ∀ msg ∈ panics, P (.panic msg)
  blocked : P .blocked
  write : ∀ s b v, r s { s with
    disk := Function.update s.disk b v, log := { s.log with lh := Log.absorb s.log.lh b } }
  sb : ∀ s sb, r s { s with sb := sb }
  inode : ∀ s ip i, i.locked = (s.icache ip).locked →
    r s { s with icache := Function.update s.icache ip i }
  input : ∀ s input, r s { s with input := input }
  udsk : ∀ s n, r s { s with udsk := n }
  kill : ∀ s, r s { s with cstate := .cstopping }

section Unlocked
variable {P : Fault → Prop} {r : FsState → FsState → Prop} [steps : Steps P r]

instance does_panic {A : Type} (msg : String) [listed : Fact (msg ∈ panics)] :
    Does P r (panic msg : FsM A) := does_fault (steps.panic msg listed.out)

instance does_blocked {A : Type} : Does P r (Prog.fault .blocked : FsM A) := does_fault steps.blocked

instance (b : Nat) : Does P r (bread b) := by
  unfold bread
  infer_instance

instance (b : Nat) (v : Block) : Does P r (logWrite b v) := by
  have write : Does P r (Prog.modify _ : FsM Unit) := does_modify fun s => steps.write s b v
  unfold logWrite
  infer_instance

instance : Does P r readsb := by
  have sb (b : Block) : Does P r (Prog.modify _ : FsM Unit) :=
    does_modify fun s => steps.sb s (decodeSb b)
  unfold readsb
  infer_instance

instance (b : Nat) : Does P r (bzero b) := by
  unfold bzero
  infer_instance

instance does_ballocFrom (n b : Nat) : Does P r (ballocFrom n b) := by
  have charge : Does P r (Prog.modify _ : FsM Unit) :=
    does_modify fun s => steps.udsk s ((s.udsk + BSIZE) % 2 ^ 32)
  induction n generalizing b with
  | zero => exact does_panic _
  | succ n ih =>
    unfold ballocFrom
    infer_instance

instance : Does P r ckill := does_modify steps.kill

instance : Does P r balloc := by
  unfold balloc
  infer_instance

instance (b : Nat) : Does P r (bfree b) := by
  have credit : Does P r (Prog.modify (fun s : FsState =>
      if BSIZE < s.udsk then { s with udsk := s.udsk - BSIZE } else s) : FsM Unit) := by
    refine ⟨fun s => wp_modify ?_⟩
    split
    · exact .single (steps.udsk s _)
    · exact .refl
  unfold bfree
  infer_instance

theorem does_setInode (ip : Nat) {f : Inode → Inode} (keeps : ∀ i, (f i).locked = i.locked) :
    Does P r (setInode ip f) := does_modify fun s => steps.inode s ip (f (s.icache ip)) (keeps _)

instance (ip : Nat) (f : Dinode → Dinode) : Does P r (setDinode ip f) := does_setInode ip fun _ => rfl

instance (ip : Nat) : Does P r (addRef ip) := by
  have ref : Does P r (setInode ip fun i => { i with ref := incr i.ref }) := does_setInode ip fun _ => rfl
  unfold addRef
  infer_instance

instance (inum : Nat) : Does P r (iget inum) := by
  have new (ip : Nat) : Does P r (setInode ip fun i => { i with inum := inum, ref := 1, valid := false }) :=
    does_setInode ip fun _ => rfl
  unfold iget
  refine .seq fun s => ?_
  split
  · infer_instance
  · split <;> infer_instance

instance (ip : Nat) : Does P r (idup ip) := by
  unfold idup
  infer_instance

instance does_iallocFrom (type : BitVec 16) (n inum : Nat) : Does P r (iallocFrom type n inum) := by
  induction n generalizing inum with
  | zero => exact does_panic _
  | succ n ih =>
    unfold iallocFrom
    infer_instance

instance (type : BitVec 16) : Does P r (ialloc type) := by
  unfold ialloc
  infer_instance

instance (ip : Nat) : Does P r (iupdate ip) := by
  unfold iupdate
  infer_instance

instance does_freeDirect (ip n i : Nat) : Does P r (freeDirect ip n i) := by
  induction n generalizing i with
  | zero => exact does_pure _
  | succ n ih =>
    unfold freeDirect
    infer_instance

instance does_freeIndirect (a : Block) (n j : Nat) : Does P r (freeIndirect a n j) := by
  induction n generalizing j with
  | zero => exact does_pure _
  | succ n ih =>
    unfold freeIndirect
    infer_instance

instance (ip : Nat) : Does P r (itrunc ip) := by
  unfold itrunc
  infer_instance

instance (ip bn : Nat) : Does P r (bmap ip bn) := by
  unfold bmap
  infer_instance

instance (major : BitVec 16) (n : Nat) : Does P r (devRead major n) := by
  have input (rest : List Byte) : Does P r (Prog.modify _ : FsM Unit) :=
    does_modify fun s => steps.input s rest
  have take : Does P r (Prog.get >>= fun s : FsState => match consoleTake n true s.input with
      | some (got, rest) => do
        Prog.modify fun s => { s with input := rest }
        pure (got.length, fun i => got.getD i 0)
      | none => Prog.fault .blocked : FsM (Int × Bytes)) := by
    refine .seq fun s => ?_
    split <;> infer_instance
  unfold devRead
  infer_instance

instance does_readLoop (ip n off left tot : Nat) (dst : Bytes) :
    Does P r (readLoop ip n off left tot dst) := by
  induction n generalizing off left tot dst with
  | zero => exact does_pure _
  | succ n ih =>
    unfold readLoop
    infer_instance

instance (ip off n : Nat) : Does P r (readi ip off n) := by
  unfold readi
  infer_instance

instance does_writeLoop (ip : Nat) (src : Bytes) (n off left tot : Nat) :
    Does P r (writeLoop ip src n off left tot) := by
  induction n generalizing off left tot with
  | zero => exact does_pure _
  | succ n ih =>
    unfold writeLoop
    infer_instance

instance (ip : Nat) (src : Bytes) (off n : Nat) : Does P r (writei ip src off n) := by
  unfold writei
  infer_instance

instance does_lookupFrom (dp : Nat) (name : List Byte) (n off : Nat) :
    Does P r (lookupFrom dp name n off) := by
  induction n generalizing off with
  | zero => exact does_pure _
  | succ n ih =>
    unfold lookupFrom
    infer_instance

instance (dp : Nat) (name : List Byte) : Does P r (dirlookup dp name) := by
  unfold dirlookup
  infer_instance

instance does_emptyFrom (dp n off : Nat) : Does P r (emptyFrom dp n off) := by
  induction n generalizing off with
  | zero => exact does_pure _
  | succ n ih =>
    unfold emptyFrom
    infer_instance

end Unlocked

abbrev Acts {A : Type} (x : FsM A) : Prop := Does Faults Effect x

instance : Steps Faults Effect where
  panic msg listed other same := by
    cases same
    exact listed
  blocked := nofun
  write := .write
  sb := .sb
  inode s ip i _ := .inode s ip i
  input := .input
  udsk := .udsk
  kill := .kill

instance acts_deadlock {A : Type} : Acts (Prog.fault .deadlock : FsM A) := does_fault nofun

instance acts_trap {A : Type} : Acts (Prog.fault .trap : FsM A) := does_fault nofun

instance acts_hang {A : Type} : Acts (Prog.fault .hang : FsM A) := does_fault nofun

theorem acts_modify {f : FsState → FsState} (each : ∀ s, Effect s (f s)) :
    Acts (Prog.modify f : FsM Unit) := does_modify each

instance : Acts beginOp := by
  have log := acts_modify fun s => Effect.log s
    { s.log with outstanding := s.log.outstanding + 1 }
  unfold beginOp
  infer_instance

instance : Acts endOp := by
  have log := acts_modify fun s => Effect.log s { s.log with
    outstanding := s.log.outstanding - 1
    lh := if s.log.outstanding - 1 = 0 then [] else s.log.lh }
  unfold endOp
  infer_instance

section Inodes

instance (ip : Nat) (f : Inode → Inode) : Acts (setInode ip f) :=
  acts_modify fun s => Effect.inode s ip (f (s.icache ip))

instance (ip : Nat) : Acts (acquiresleep ip) := by
  unfold acquiresleep
  infer_instance

instance (ip : Nat) : Acts (releasesleep ip) := by
  unfold releasesleep
  infer_instance

instance (ip : Nat) : Acts (ilock ip) := by
  unfold ilock
  infer_instance

instance (ip : Nat) : Acts (iunlock ip) := by
  unfold iunlock
  infer_instance

instance (ip : Nat) : Acts (iput ip) := by
  unfold iput
  infer_instance

instance (ip : Nat) : Acts (iunlockput ip) := by
  unfold iunlockput
  infer_instance

end Inodes

section Directories

instance (dp : Nat) (name : List Byte) (inum : Nat) : Acts (dirlink dp name inum) := by
  unfold dirlink
  refine .seq fun found => ?_
  cases found <;> infer_instance

instance (p : Option Nat) : Acts (deref p) := by
  unfold deref
  cases p <;> infer_instance

instance acts_walk (w : Walker) (iroot : Nat) (parent : Bool) (n ip : Nat) (path : List Byte) :
    Acts (walk w iroot parent n ip path) := by
  induction n generalizing ip path with
  | zero => exact acts_hang
  | succ n ih =>
    have next (name rest : List Byte) : Acts (dirlookup ip name >>= fun found => match found with
        | none => do
          iunlockput ip
          pure none
        | some (next, _) => do
          iunlockput ip
          let rootdir ← deref w.rootdir
          let s ← Prog.get
          if (s.icache rootdir).inum = (s.icache iroot).inum ∨
              (s.icache next).inum ≠ (s.icache iroot).inum then
            walk w iroot parent n next rest
          else
            Prog.emit .turnedBack
            walk w iroot parent n ip rest : FsM (Option (Nat × List Byte))) := by
      refine .seq fun found => ?_
      cases found <;> infer_instance
    unfold walk
    split <;> infer_instance

instance (w : Walker) (path : CStr) (parent : Bool) : Acts (namex w path parent) := by
  unfold namex
  infer_instance

instance (w : Walker) (path : CStr) : Acts (namei w path) := by
  unfold namei
  infer_instance

instance (w : Walker) (path : CStr) : Acts (nameiparent w path) := by
  unfold nameiparent
  infer_instance

instance acts_sizeFrom (w : Walker) (dp : Nat) (name : CStr) (n off size : Nat) :
    Acts (sizeFrom w dp name n off size) := by
  induction n generalizing off size with
  | zero => exact does_pure _
  | succ n ih =>
    unfold sizeFrom
    refine .seq fun r => .branch inferInstance (.seq fun found => ?_)
    cases found <;> infer_instance

instance (w : Walker) (dp : Nat) (name : CStr) : Acts (dirsize w dp name) := by
  unfold dirsize
  refine .seq fun found => ?_
  cases found <;> infer_instance

end Directories

section Calls

instance (ip : Nat) : Acts (linkBad ip) := by
  unfold linkBad
  infer_instance

instance (w : Walker) (old new : CStr) : Acts (link w old new) := by
  unfold link
  refine .seq fun _ => .seq fun found => ?_
  cases found with
  | none => infer_instance
  | some ip =>
    have into : Acts (nameiparent w new >>= fun found => match found with
        | none => linkBad ip
        | some (dp, name) => do
          ilock dp
          let s ← Prog.get
          let r ← dirlink dp name (s.icache ip).inum
          if r < 0 then
            iunlockput dp
            linkBad ip
          else
            iunlockput dp
            iput ip
            endOp
            pure 0 : FsM Int) := by
      refine .seq fun found => ?_
      cases found <;> dsimp only <;> infer_instance
    dsimp only
    infer_instance

instance acts_emptyLoop (dp n off : Nat) : Acts (emptyLoop dp n off) := by
  induction n generalizing off with
  | zero => exact does_pure _
  | succ n ih =>
    unfold emptyLoop
    infer_instance

instance (dp : Nat) : Acts (isdirempty dp) := by
  unfold isdirempty
  infer_instance

instance (dp : Nat) : Acts (unlinkBad dp) := by
  unfold unlinkBad
  infer_instance

instance (w : Walker) (path : CStr) : Acts (unlink w path) := by
  unfold unlink
  refine .seq fun _ => .seq fun found => ?_
  cases found with
  | none => infer_instance
  | some found =>
    refine .seq fun _ => .branch inferInstance (.seq fun found => ?_)
    cases found with
    | none => infer_instance
    | some found =>
      refine .seq fun _ => .seq fun s => .branch inferInstance ?_
      exact .branch (.seq fun _ => inferInstance) (.seq fun _ => inferInstance)

instance (w : Walker) (path : CStr) (type major minor : BitVec 16) :
    Acts (create w path type major minor) := by
  unfold create
  refine .seq fun found => ?_
  cases found with
  | none => infer_instance
  | some found =>
    refine .seq fun _ => .seq fun found => ?_
    cases found with
    | some _ => infer_instance
    | none =>
      refine .seq fun _ => .seq fun _ => .seq fun _ => .seq fun _ => .branch ?_ inferInstance
      exact .seq fun _ => .seq fun _ => .seq fun _ => .seq fun _ => .branch inferInstance inferInstance

instance (w : Walker) (path : CStr) (type major minor : BitVec 16) :
    Acts (makeNode w path type major minor) := by
  unfold makeNode
  refine .seq fun _ => .seq fun found => ?_
  cases found <;> dsimp only <;> infer_instance

instance (w : Walker) (path : CStr) : Acts (mkdir w path) := by
  unfold mkdir
  infer_instance

instance (w : Walker) (path : CStr) (major minor : BitVec 16) : Acts (mknod w path major minor) := by
  unfold mknod
  infer_instance

instance (w : Walker) (path : CStr) : Acts (chdir w path) := by
  unfold chdir
  refine .seq fun _ => .seq fun found => ?_
  cases found <;> dsimp only <;> infer_instance

end Calls

end Xv6c.Fs

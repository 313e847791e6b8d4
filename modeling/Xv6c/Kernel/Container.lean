import Xv6c.Kernel.Proc

/-! container.c, but for the scheduler. -/
namespace Xv6c
open Lib

def findCont (p : Nat → Bool) : Option Nat := (List.range NCONT).find? p

def cid2cont (k : Kernel) (cid : Int) : Option Nat :=
  findCont fun i => (k.cont i).cid = cid ∧ (k.cont i).state ≠ .cunused

def nameMatches (name : Fs.CStr) (c : Cont) : Prop := strncmp name.bytes c.name name.bytes.length = 0

instance (name : Fs.CStr) (c : Cont) : Decidable (nameMatches name c) :=
  inferInstanceAs (Decidable (_ = _))

def name2cont (k : Kernel) (name : Fs.CStr) : Option Nat :=
  findCont fun i => nameMatches name (k.cont i) ∧ (k.cont i).state ≠ .cunused

def alloccont : KM (Option Nat) := do
  let k ← Prog.get
  match findCont (fun i => (k.cont i).state = .cunused) with
  | some i =>
    modifyCont i fun c => { c with state := .cembryo, cid := k.nextcid }
    Prog.modify fun k => { k with nextcid := incr k.nextcid }
    pure (some i)
  | none => pure none

/- strncpy(dst, name, n). -/
def strncpy (name : List Byte) (n : Nat) : List Byte :=
  name.take n ++ List.replicate (n - name.length) 0

def ccreate (p : ProcId) (name : Fs.CStr) (mproc : Int) (msz mdsk : Nat) : KM Int := do
  let k ← Prog.get
  if (name2cont k name).isSome then pure (-1)
  else if mproc > NPROC ∨ msz > MAX_CONT_MEM ∨ mdsk > MAX_CONT_DSK then pure (-1)
  else
    match ← alloccont with
    | none => pure (-1)
    | some nc =>
      let k ← Prog.get
      match ← onFs p (Fs.namei (k.walker p) name) with
      | none =>
        modifyCont nc fun c => { c with state := .cunused }
        pure (-1)
      | some ip =>
        let rootdir ← onFs p (Fs.idup ip)
        modifyCont nc fun c => { c with
          mproc := mproc, msz := msz, mdsk := mdsk, rootdir := some rootdir
          name := strncpy name.bytes 16, state := .cready }
        pure 1

def cstart (p : ProcId) (name : Fs.CStr) : KM Int := do
  let k ← Prog.get
  match findCont (fun i => nameMatches name (k.cont i) ∧ (k.cont i).state = .cready) with
  | none => pure (-1)
  | some nc =>
    let mdsk := (k.cont nc).mdsk
    let udsk ← onFs p (do
      let rootdir ← Fs.deref (k.cont nc).rootdir
      Fs.dirsize (k.walker p) rootdir name)
    if udsk < 1 ∨ mdsk < udsk then pure (-1)
    else
      modifyCont nc fun c => { c with udsk := udsk, state := .crunnable }
      let k ← Prog.get
      pure (k.cont nc).cid

def cfork (p : ProcId) (cid : Int) : KM Int := do
  let k ← Prog.get
  match cid2cont k cid with
  | none => pure (-1)
  | some c => fork p (some c)

/- cstop, cpause and cresume: a container that the name finds goes from one of the
states from to the state to. -/
def changeState (p : ProcId) (name : Fs.CStr) (source : List ContState) (target : ContState) :
    KM Int := do
  let k ← Prog.get
  if (k.cont (k.contOf p)).cid ≠ ROOTCONT then pure (-1)
  else
    match name2cont k name with
    | none => pure (-1)
    | some c =>
      if (k.cont c).state ∈ source then
        modifyCont c fun c => { c with state := target }
        pure 1
      else pure (-1)

def cstop (p : ProcId) (name : Fs.CStr) : KM Int :=
  changeState p name [.crunnable, .cpaused] .cstopping

def cpause (p : ProcId) (name : Fs.CStr) : KM Int := changeState p name [.crunnable] .cpaused

def cresume (p : ProcId) (name : Fs.CStr) : KM Int := changeState p name [.cpaused] .crunnable

/- cexit, which the scheduler calls when the container has no process left. -/
def cexit (c : Nat) : KM Unit :=
  modifyCont c fun c => { c with
    name := [], msz := 0, mdsk := 0, mproc := 0, upg := 0, udsk := 0, rootdir := none
    nextproc := 0, cid := 0, state := .cunused }

structure PInfo where
  state : ProcState
  pid : Int
  name : List Byte
  ticks : Nat
  deriving DecidableEq, Repr

structure CInfo where
  msz : Nat
  mdsk : Nat
  mproc : Int
  usz : Nat
  udsk : Nat
  cid : Int
  state : ContState
  name : List Byte
  procs : List PInfo
  deriving DecidableEq, Repr

/- What cinfo fills in for container i. -/
def contInfo (k : Kernel) (i : Nat) : CInfo :=
  let c := k.cont i
  let procs := ((List.range c.mproc.toNat).map (k.proc i)).filter (fun q => q.state != .unused)
  ⟨c.msz, c.mdsk, c.mproc, c.upg * PGSIZE, c.udsk, c.cid, c.state, c.name,
    procs.map fun q => ⟨q.state, q.pid, q.name, q.ticks⟩⟩

/- ci->root and the filled entries of ci->conts. -/
def cinfo (p : ProcId) : KM (Bool × List CInfo) := do
  let k ← Prog.get
  let me := (k.cont (k.contOf p)).cid
  let shown := (List.range NCONT).filter fun i =>
    (me = ROOTCONT ∨ me = (k.cont i).cid) ∧ (k.cont i).state ≠ .cunused
  pure (decide (me = ROOTCONT), shown.map (contInfo k))

end Xv6c

import Xv6c.Kernel.PageProcs
import Xv6c.Kernel.ExecStack

/-! exec keeps the pages apart: it builds an address space in hand, and exchanges it
for that of the process or gives it up. -/
namespace Xv6c
open Lib Mem

variable {M : Mode Event Fault} {g : Books} (km : KernelMode M g.sized)
variable {k : Kernel} {d sz : Nat}

/- An address space in hand, of size sz. -/
structure Image (g : Books) (k : Kernel) (d sz : Nat) : Prop where
  owned : ∃ l, Owned g k l (space k.kmem.mem d) slots
  guarded : Guarded k.kmem.mem d
  fits : Fits k.kmem.mem d sz
  small : sz ≤ KERNBASE

/- The pages that a process builds with are in hand. -/
theorem Building.owned {F : FileSys → Prop} {k₀ : Kernel} {l₀ l : List Nat} {H : Multiset Nat}
    (h : Building g.caller F k₀ k l₀ l H) (owned : Owned g k₀ l₀ 0 slots) : Owned g k l H slots := by
  obtain ⟨aside, saves, -⟩ := h
  have here : k₀.contOf g.caller = g.cont := owned.caller.2.2
  have same : k.contOf g.caller = g.cont := by
    rw [Kernel.contOf, aside.procAt]
    exact here
  rw [← add_zero (0 : Multiset Nat)] at owned
  have moved := owned.moves saves.toMoves
  rw [add_zero] at moved
  have msz : (k.cont g.cont).msz = (k₀.cont g.cont).msz := by rw [aside.cont]
  refine moved.alike ⟨rfl, aside.file, fun q _ => ?_, ⟨?_, ?_⟩, fun i => ?_, ?_, fun m _ => ?_⟩
  · rw [aside.procAt]
    exact .refl _
  · rw [aside.procAt]
    exact owned.caller.2.1
  · exact same.trans here.symm
  · rw [aside.cont i]
    exact owned.mproc i
  · simp only [Kernel.memPut, here, Function.update_self, Kernel.memView, same]
  · simp only [Kernel.memPut, here, Function.update_self, msz]

theorem Stacked.image {F : FileSys → Prop} {k₀ : Kernel} {l₀ : List Nat} (h : Stacked g.caller F k₀ l₀ d sz k)
    (owned : Owned g k₀ l₀ 0 slots) : Image g k d sz := by
  obtain ⟨l, building, stack⟩ := h
  exact ⟨⟨l, building.owned owned⟩, stack.guarded, stack.fits, stack.small.le⟩

include km

/- exec from the exchange of the address spaces on. -/
theorem execCommit_spec {path : Fs.CStr} {entry sp : Nat} (h : Image g k d sz) (small : sz < KERNBASE) :
    wp M (execCommit g.caller path entry d sz sp) (fun _ k' => Resettled g g.caller k') k := by
  unfold execCommit
  obtain ⟨l, owned⟩ := h.owned
  obtain ⟨inside, live, _⟩ := owned.caller
  have home := (owned.tidy _ inside live).home
  have opened := owned.openLive inside live
  refine wp_get_bind ?_
  refine wp_modifyOpen opened (Finset.notMem_erase _ _) (fun _ => ⟨live, rfl⟩) fun owned => ?_
  refine wp_switchuvm km ?_
  generalize changed : k.setProc g.caller _ = k₁ at owned ⊢
  have image : SameImage { k.procAt g.caller with pgdir := d, sz := sz } (k₁.procAt g.caller) := by
    rw [← changed, procAt_setProc, if_pos rfl]
    exact ⟨Iff.rfl, rfl, rfl, rfl, rfl⟩
  have mem : k₁.kmem = k.kmem := by rw [← changed]; rfl
  have closed := Owned.closeLive (q := g.caller) (S := slots) (g := g) (k := k₁) (l := l)
    (X := space k₁.kmem.mem (k.procAt g.caller).pgdir + 0) (image.live.mpr live) ?_ inside ?_
  · refine wp_onMem (g := g.settle g.caller _) (R := fun _ _ H => H = 0) closed ?_ ?_
    · refine wp_mono (freevm_spec km.safeMode closed.holds) ?_
      rintro _ t ⟨l', moves⟩
      exact ⟨l', 0, moves.toMoves, rfl⟩
    · rintro _ k' l' _ - - rfl owned
      exact wp_pure ⟨_, l', owned⟩
  · rw [image.kstack, image.pgdir, mem]
    convert owned using 1
    rw [add_zero]
    dsimp only
    ac_rfl
  · refine ⟨⟨?_, ?_, image.cont.trans home⟩, fun _ => ?_⟩
    · rw [image.pgdir, mem]
      exact h.guarded
    · rw [image.sz]
      exact small
    · rw [image.pgdir, image.sz, mem]
      exact h.fits

/- Whatever the calls of the file system do. -/
theorem fsUse_any (w : Fs.Walker) (path : Fs.CStr) : FsUse (M.comap Event.fs) w path fun _ _ => True := by
  have any {A : Type} {x : Fs.FsM A} [acts : Fs.Acts x] (s : Fs.FsState) :
      wp (M.comap Event.fs) x (fun _ _ => True) s :=
    wp_mono (acts.does km.fs (fun _ => km.fsFault) s) fun _ _ _ => trivial
  exact ⟨fun s _ => any s, fun s _ => any s, fun _ s _ => any s, fun _ =>
    ⟨fun _ _ s _ => any s, fun s _ => any s, fun s _ => any s⟩⟩

theorem exec_spec {path : Fs.CStr} {argv : List Fs.CStr} (h : Settled g k) :
    wp M (exec g.caller path argv) (fun _ k' => Resettled g g.caller k') k := by
  obtain ⟨l, owned⟩ := h
  have once : l.Nodup := Multiset.coe_nodup.mp (Multiset.nodup_add.mp owned.once).1
  refine wp_exec (I := fun _ _ => True) km.safeMode owned.heap once nofun nofun ?_ ?_ (fsUse_any km _ path) trivial
  · intro k' l' building
    exact resettled_of_settled ⟨l', building.owned owned⟩
  · intro k' d entry sz sp args _ stacked _
    have small : sz < KERNBASE := stacked.elim fun _ both => both.2.small
    exact execCommit_spec km (stacked.image owned) small

end Xv6c

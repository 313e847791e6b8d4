import Mathlib.Data.List.Chain
import Mathlib.Data.List.Nodup
import Mathlib.Logic.Function.Basic

/-! Circular doubly linked lists with a sentinel. The links are two functions on
nodes; a ring reads them as the list of nodes met on the way from the sentinel
back to it. Unlinking a node, inserting one behind the sentinel and scanning in
either direction are described by what they do to that list. -/
namespace Xv6c.Lib
open Function (update update_self update_of_ne)

structure Links (α : Type) where
  next : α → α
  prev : α → α

def Linked {α : Type} (r : Links α) (a b : α) : Prop := r.next a = b ∧ r.prev b = a

structure Circular {α : Type} (r : Links α) (head : α) (l : List α) : Prop where
  chain : List.IsChain (Linked r) (head :: (l ++ [head]))
  nodup : (head :: l).Nodup

variable {α : Type}

theorem chain_congr {r s : Links α} {l : List α} (chain : l.IsChain (Linked r))
    (next : ∀ a ∈ l.dropLast, s.next a = r.next a) (prev : ∀ a ∈ l.tail, s.prev a = r.prev a) :
    l.IsChain (Linked s) := by
  induction l with
  | nil => exact .nil
  | cons a l ih =>
    cases l with
    | nil => exact .singleton a
    | cons b l =>
      obtain ⟨link, rest⟩ := List.isChain_cons_cons.mp chain
      refine List.isChain_cons_cons.mpr ⟨⟨?_, ?_⟩, ih rest ?_ ?_⟩
      · rw [next a (by simp), link.1]
      · rw [prev b (by simp), link.2]
      · intro c hc
        exact next c (by simp [hc])
      · intro c hc
        exact prev c (List.mem_cons_of_mem b hc)

/- The first node behind the sentinel, and the rest of the way. -/
theorem exists_front (l : List α) (head : α) : ∃ n ns, l ++ [head] = n :: ns := by
  cases l with
  | nil => exact ⟨head, [], rfl⟩
  | cons n l => exact ⟨n, l ++ [head], rfl⟩

/- The same ring walked the other way. -/
theorem circular_reverse {r : Links α} {head : α} {l : List α} (ring : Circular r head l) :
    Circular ⟨r.prev, r.next⟩ head l.reverse := by
  refine ⟨?_, ?_⟩
  · have same : head :: (l.reverse ++ [head]) = (head :: (l ++ [head])).reverse := by simp
    rw [same, List.isChain_reverse]
    exact ring.chain.imp (fun a b link => ⟨link.2, link.1⟩)
  · exact ((List.reverse_perm l).cons head).nodup_iff.mpr ring.nodup

section
variable {α : Type} [DecidableEq α]

def Links.setNext (r : Links α) (a b : α) : Links α := { r with next := update r.next a b }
def Links.setPrev (r : Links α) (a b : α) : Links α := { r with prev := update r.prev a b }

/- b->next->prev = b->prev; b->prev->next = b->next; -/
def Links.unlink (r : Links α) (b : α) : Links α :=
  let r := r.setPrev (r.next b) (r.prev b)
  r.setNext (r.prev b) (r.next b)

/- b->next = head->next; b->prev = head; head->next->prev = b; head->next = b; -/
def Links.insertFront (r : Links α) (head b : α) : Links α :=
  let r := r.setNext b (r.next head)
  let r := r.setPrev b head
  let r := r.setPrev (r.next head) b
  r.setNext head b

/- Follow the links from a until stop; fuel bounds the number of nodes met. -/
def scan (follow : α → α) (p : α → Bool) (stop : α) : Nat → α → Option α
  | 0, _ => none
  | fuel + 1, a => if a = stop then none else if p a then some a else scan follow p stop fuel (follow a)

variable {r : Links α} {b : α}

theorem unlink_eq (other : r.next b ≠ b) :
    r.unlink b = ⟨update r.next (r.prev b) (r.next b), update r.prev (r.next b) (r.prev b)⟩ := by
  simp only [Links.unlink, Links.setNext, Links.setPrev, update_of_ne other.symm]

variable {head : α}

theorem insertFront_eq (other : b ≠ head) :
    r.insertFront head b = ⟨update (update r.next b (r.next head)) head b,
      update (update r.prev b head) (r.next head) b⟩ := by
  simp only [Links.insertFront, Links.setNext, Links.setPrev, update_of_ne other.symm]

theorem circular_unlink {xs ys : List α} (ring : Circular r head (xs ++ b :: ys)) :
    Circular (r.unlink b) head (xs ++ ys) := by
  obtain ⟨n, ns, front⟩ := exists_front ys head
  obtain ⟨ps, p, back⟩ : ∃ ps p, head :: xs = ps ++ [p] :=
    ⟨_, _, (List.dropLast_append_getLast (List.cons_ne_nil head xs)).symm⟩
  have chain : ((ps ++ [p]) ++ b :: n :: ns).IsChain (Linked r) := by
    have whole := ring.chain
    rwa [List.append_assoc, List.cons_append, front, ← List.cons_append, back] at whole
  rw [List.append_assoc, List.singleton_append, List.isChain_append_cons_cons,
    List.isChain_cons_cons] at chain
  obtain ⟨before, intoB, outOfB, behind⟩ := chain
  have nodup := ring.nodup
  have distinct : (ps ++ [p] ++ b :: ys).Nodup := by rwa [← back]
  have apart : (b :: (xs ++ n :: ns)).Nodup := by
    rw [← front]
    refine (List.Perm.nodup_iff ?_).mp nodup
    simp only [← List.append_assoc, List.perm_iff_count]
    intro c
    simp only [List.count_cons, List.count_append, List.count_nil]
    omega
  have other : r.next b ≠ b := by
    rw [outOfB.1]
    rintro rfl
    exact (List.nodup_cons.mp apart).1 (List.mem_append_right xs List.mem_cons_self)
  rw [unlink_eq other]
  refine ⟨?_, ?_⟩
  · -- The two halves keep their links; the new one joins them.
    rw [List.append_assoc, ← List.cons_append, back, front, List.append_assoc,
      List.singleton_append, List.isChain_append_cons_cons]
    refine ⟨chain_congr before ?_ ?_, ⟨?_, ?_⟩, chain_congr behind ?_ ?_⟩
    · intro a ha
      rw [List.dropLast_concat] at ha
      refine update_of_ne ?_ _ _
      rintro rfl
      rw [intoB.2] at ha
      exact (List.nodup_append.mp (List.nodup_append.mp distinct).1).2.2 p ha p
        (List.mem_singleton_self p) rfl
    · intro a ha
      rw [← back, List.tail_cons] at ha
      refine update_of_ne ?_ _ _
      rintro rfl
      rw [outOfB.1] at ha
      exact (List.nodup_append.mp (List.nodup_cons.mp apart).2).2.2 n ha n List.mem_cons_self rfl
    · rw [intoB.2, outOfB.1]
      exact update_self p n r.next
    · rw [intoB.2, outOfB.1]
      exact update_self n p r.prev
    · intro a ha
      rw [← front, List.dropLast_concat] at ha
      refine update_of_ne ?_ _ _
      rintro rfl
      rw [intoB.2] at ha
      exact (List.nodup_append.mp distinct).2.2 p (by simp) p (List.mem_cons_of_mem b ha) rfl
    · intro a ha
      refine update_of_ne ?_ _ _
      rintro rfl
      rw [outOfB.1] at ha
      have late := (List.nodup_append.mp (List.nodup_cons.mp apart).2).2.1
      exact (List.nodup_cons.mp late).1 ha
  · refine List.Nodup.sublist ?_ nodup
    exact (List.Sublist.append_left (List.sublist_cons_self b ys) xs).cons_cons head

variable {l : List α}

theorem circular_insertFront (ring : Circular r head l) (fresh : b ∉ head :: l) :
    Circular (r.insertFront head b) head (b :: l) := by
  obtain ⟨n, ns, front⟩ := exists_front l head
  have chain := ring.chain
  rw [front, List.isChain_cons_cons] at chain
  obtain ⟨first, rest⟩ := chain
  have neHead : b ≠ head := fun same => fresh (same ▸ List.mem_cons_self)
  have distinct : (n :: ns).Nodup := by
    rw [← front]
    exact (List.perm_append_singleton head l).symm.nodup ring.nodup
  have outside : b ∉ n :: ns := by
    rw [← front]
    intro inside
    rcases List.mem_append.mp inside with h | h
    · exact fresh (List.mem_cons_of_mem head h)
    · exact neHead (List.mem_singleton.mp h)
  rw [insertFront_eq neHead]
  refine ⟨?_, ?_⟩
  · rw [List.cons_append, front, List.isChain_cons_cons, List.isChain_cons_cons]
    refine ⟨⟨?_, ?_⟩, ⟨?_, ?_⟩, chain_congr rest ?_ ?_⟩
    · exact update_self head b (update r.next b (r.next head))
    · rw [first.1]
      dsimp only
      rw [update_of_ne (fun same : b = n => outside (same ▸ List.mem_cons_self)), update_self]
    · rw [first.1]
      dsimp only
      rw [update_of_ne neHead, update_self]
    · rw [first.1]
      exact update_self n b (update r.prev b head)
    · intro a ha
      rw [← front, List.dropLast_concat] at ha
      dsimp only
      rw [update_of_ne, update_of_ne]
      · rintro rfl
        exact fresh (List.mem_cons_of_mem head ha)
      · rintro rfl
        exact (List.nodup_cons.mp ring.nodup).1 ha
    · intro a ha
      rw [first.1]
      dsimp only
      rw [update_of_ne, update_of_ne]
      · rintro rfl
        exact outside (List.mem_cons_of_mem n ha)
      · rintro rfl
        exact (List.nodup_cons.mp distinct).1 ha
  · refine List.nodup_cons.mpr ⟨?_, List.nodup_cons.mpr ⟨?_, (List.nodup_cons.mp ring.nodup).2⟩⟩
    · rw [List.mem_cons]
      rintro (same | inside)
      · exact neHead same.symm
      · exact (List.nodup_cons.mp ring.nodup).1 inside
    · exact fun inside => fresh (List.mem_cons_of_mem head inside)

theorem circular_empty (head : α) : Circular ⟨fun _ => head, fun _ => head⟩ head ([] : List α) :=
  ⟨List.isChain_cons_cons.mpr ⟨⟨rfl, rfl⟩, .singleton head⟩, List.nodup_singleton head⟩

/- Nodes inserted one after the other stand in the opposite order. -/
theorem circular_insertFront_all {bs : List α} (ring : Circular r head l) (fresh : (bs ++ head :: l).Nodup) :
    Circular (bs.foldl (fun r b => r.insertFront head b) r) head (bs.reverse ++ l) := by
  induction bs generalizing r l with
  | nil => exact ring
  | cons b bs ih =>
    obtain ⟨new, rest⟩ := List.nodup_cons.mp fresh
    have outside : b ∉ head :: l := fun inside => new (List.mem_append_right bs inside)
    have next := ih (circular_insertFront ring outside) ?_
    · rwa [List.reverse_cons, List.append_assoc]
    · refine (List.Perm.nodup_iff ?_).mp fresh
      rw [List.cons_append]
      refine List.perm_middle.symm.trans (List.Perm.append_left bs ?_)
      exact List.Perm.swap head b l

variable {fuel : Nat}

theorem scan_chain {a : α} (p : α → Bool) (enough : l.length < fuel) (outside : head ∉ l)
    (chain : List.IsChain (Linked r) (a :: (l ++ [head]))) :
    scan r.next p head fuel (r.next a) = l.find? p := by
  induction l generalizing a fuel with
  | nil =>
    obtain ⟨link, -⟩ := List.isChain_cons_cons.mp chain
    cases fuel with
    | zero => omega
    | succ fuel => rw [scan, link.1, if_pos rfl, List.find?_nil]
  | cons b l ih =>
    obtain ⟨link, rest⟩ := List.isChain_cons_cons.mp chain
    cases fuel with
    | zero => omega
    | succ fuel =>
      have other : b ≠ head := fun same => outside (same ▸ List.mem_cons_self)
      rw [scan, link.1, if_neg other, List.find?_cons]
      cases p b with
      | true => rfl
      | false =>
        exact ih (Nat.lt_of_succ_lt_succ enough)
          (fun inside => outside (List.mem_cons_of_mem b inside)) rest

/-- A scan from the sentinel along next finds the first node of the list that
meets p, and a scan along prev the last one. -/
theorem scan_forward (ring : Circular r head l) (p : α → Bool) (enough : l.length < fuel) :
    scan r.next p head fuel (r.next head) = l.find? p :=
  scan_chain p enough (List.nodup_cons.mp ring.nodup).1 ring.chain

theorem scan_backward (ring : Circular r head l) (p : α → Bool) (enough : l.length < fuel) :
    scan r.prev p head fuel (r.prev head) = l.reverse.find? p :=
  scan_forward (circular_reverse ring) p (by rwa [List.length_reverse])

end

end Xv6c.Lib

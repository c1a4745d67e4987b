/-
Assignment of iterators (`iterators.hpp`).

`operator=` swaps with a copy, and `swap` exchanges not what the iterators refer to, but the
containers that they refer to.  So the contents of both change places, and iterators that are not
told, like the right side of an assignment, are left in a buffer that is no longer the one of their
container (`assign_swap_iff`).
-/
import ICDump.Iterators.Positions

namespace ICDump

variable {α : Type} {h : Heap α}

/-! ### Swapped vectors -/

namespace Heap

lemma swap_comm (h : Heap α) (c d : Loc) : h.swap c d = h.swap d c := by
  rw [swap, swap, Equiv.swap_comm]

/-- Two vectors with one buffer, which are the same unless they own none. -/
lemma swap_eq_self (h : Heap α) {c d : Loc} (hbuffer : h.buffer c = h.buffer d) :
    h.swap c d = h := by
  have hcomp : h.buffer ∘ Equiv.swap c d = h.buffer := by
    funext x
    by_cases hc : x = c
    · rw [hc, Function.comp, Equiv.swap_apply_left, hbuffer]
    · by_cases hd : x = d
      · rw [hd, Function.comp, Equiv.swap_apply_right, hbuffer]
      · rw [Function.comp, Equiv.swap_apply_of_ne_of_ne hc hd]
  rw [swap, hcomp]

lemma contents_swap_left (h : Heap α) (c d : Loc) : (h.swap c d).contents c = h.contents d := by
  show h.elements (h.buffer (Equiv.swap c d c)) = _
  rw [Equiv.swap_apply_left]
  rfl

lemma contents_swap_right (h : Heap α) (c d : Loc) : (h.swap c d).contents d = h.contents c := by
  show h.elements (h.buffer (Equiv.swap c d d)) = _
  rw [Equiv.swap_apply_right]
  rfl

end Heap

namespace RefIterator

/-! ### What an iterator goes through -/

/-- The elements that loops with the iterator go through, in C++ and in Python. -/
structure Enumerates (h : Heap α) (i : RefIterator) (l : List α) : Prop where
  loop : YieldsList (round h) i (l.map some)
  python : YieldsList (next h) i (l.map some)

variable {i a b : RefIterator} {l : List α}

/-- The loops go through what is left of the container. -/
lemma Valid.enumerates (hi : Valid h i) :
    Enumerates h i ((h.contents i.container).drop i.distance.toNat) where
  loop := by
    have hreads : ReadsList (round h) (fun j => j.container = i.container ∧ Valid h j)
        (fun j => j.distance.toNat) ((h.contents i.container).map some) := by
      refine reads_loop ?_ ?_ ?_ ?_
      · rintro j ⟨hj, -⟩
        exact congrArg h.size hj
      · rintro j ⟨hj, hvalid⟩
        exact ⟨hvalid.nonneg, hj ▸ hvalid.le_size⟩
      · rintro j ⟨hj, hvalid⟩
        rw [deref, hvalid.it_eq, h.deref_advance j.container hvalid.nonneg, hj]
      · rintro j ⟨hj, hvalid⟩ hlt
        exact ⟨hj, (agrees_self hvalid).increment.valid (Int.le_add_one hvalid.nonneg)
          (show j.distance + 1 ≤ h.size j.container from hj ▸ hlt)⟩
    rw [List.map_drop]
    exact yields_drop hreads ⟨rfl, hi⟩
  python := by
    rw [List.map_drop]
    exact yields_next hi.nonneg hi.le_size

lemma Enumerates.iff_eq {l' : List α} (hi : Enumerates h i l) :
    Enumerates h i l' ↔ l' = l := by
  constructor
  · intro hi'
    exact List.map_injective_iff.2 (Option.some_injective α) (hi'.loop.unique hi.loop)
  · rintro rfl
    exact hi

/-! ### Assignment and swap -/

/-- After `a = b`, the containers are as before, `a` goes through the elements of the container of
`b` from the position of `b`, and `b` is as before: it is still in its container, and where it
was. -/
structure Assigned (h : Heap α) (a b : RefIterator) : Prop where
  contents_left : (assign h a b).1.contents a.container = h.contents a.container
  contents_right : (assign h a b).1.contents b.container = h.contents b.container
  enumerates : Enumerates (assign h a b).1 (assign h a b).2
    ((h.contents b.container).drop (position h b).toNat)
  kept : Valid (assign h a b).1 b
  position_eq : position (assign h a b).1 b = position h b

/-- After `a.swap(b)`, the containers are as before, and each iterator is in its container and goes
through what the other did. -/
structure Swapped (h : Heap α) (a b : RefIterator) : Prop where
  contents_left : (swap h a b).1.contents a.container = h.contents a.container
  contents_right : (swap h a b).1.contents b.container = h.contents b.container
  valid_left : Valid (swap h a b).1 (swap h a b).2.1
  valid_right : Valid (swap h a b).1 (swap h a b).2.2
  left : ∀ l, Enumerates (swap h a b).1 (swap h a b).2.1 l ↔ Enumerates h b l
  right : ∀ l, Enumerates (swap h a b).1 (swap h a b).2.2 l ↔ Enumerates h a l

/-- In the swapped memory, an iterator over `c` that takes the place of a valid one over `d` is
valid. -/
lemma valid_swap_left (hb : Valid h b) (c : Loc) :
    Valid (h.swap c b.container) ⟨c, b.it, b.distance⟩ where
  it_eq := by
    rw [hb.it_eq]
    simp [Heap.begin, Heap.swap]
  nonneg := hb.nonneg
  le_size := by
    show b.distance ≤ ((h.swap c b.container).contents c).length
    rw [h.contents_swap_left]
    exact hb.le_size

lemma valid_swap_right (ha : Valid h a) (d : Loc) :
    Valid (h.swap a.container d) ⟨d, a.it, a.distance⟩ := by
  rw [h.swap_comm]
  exact valid_swap_left ha d

/-- It goes through what this one did. -/
lemma enumerates_swap_left (hb : Valid h b) (c : Loc) :
    Enumerates (h.swap c b.container) ⟨c, b.it, b.distance⟩
      ((h.contents b.container).drop b.distance.toNat) := by
  rw [← h.contents_swap_left c b.container]
  exact (valid_swap_left hb c).enumerates

lemma enumerates_swap_right (ha : Valid h a) (d : Loc) :
    Enumerates (h.swap a.container d) ⟨d, a.it, a.distance⟩
      ((h.contents a.container).drop a.distance.toNat) := by
  rw [h.swap_comm]
  exact enumerates_swap_left ha d

/-- What `a = b` comes to: a swap of the containers, and the position of `b` for `a`. -/
lemma assign_eq (hb : Valid h b) :
    assign h a b = (h.swap a.container b.container, ⟨a.container, b.it, b.distance⟩) := by
  rw [assign, copy_eq hb.it_eq]
  rfl

/-- An iterator that is left behind by a swap still points into its old buffer. -/
lemma Valid.buffer_eq {h' : Heap α} (hi : Valid h i) (hi' : Valid h' i) :
    h'.buffer i.container = h.buffer i.container :=
  congrArg VecIter.buf (hi'.it_eq.symm.trans hi.it_eq)

lemma assigned_iff (hb : Valid h b) :
    Assigned h a b ↔ h.buffer a.container = h.buffer b.container := by
  constructor
  · intro hab
    have hkept := hab.kept
    rw [assign_eq hb] at hkept
    rw [← hb.buffer_eq hkept]
    exact (congrArg h.buffer (Equiv.swap_apply_right a.container b.container)).symm
  · intro hbuffer
    -- swapping a buffer with itself changes nothing
    have hswap : h.swap a.container b.container = h := h.swap_eq_self hbuffer
    have hcontents : h.contents a.container = h.contents b.container := congrArg h.elements hbuffer
    have henum := enumerates_swap_left hb a.container
    have hassign : assign h a b = (h, ⟨a.container, b.it, b.distance⟩) := by
      rw [assign_eq hb, hswap]
    rw [hswap] at henum
    refine ⟨?_, ?_, ?_, ?_, ?_⟩ <;> rw [hassign]
    · rw [hb.position_eq]
      exact henum
    · exact hb

lemma swapped_iff (ha : Valid h a) (hb : Valid h b) :
    Swapped h a b ↔ h.contents a.container = h.contents b.container := by
  constructor
  · intro hab
    exact hab.contents_left.symm.trans (h.contents_swap_left a.container b.container)
  · intro hsame
    refine ⟨?_, ?_, ?_, ?_, fun l => ?_, fun l => ?_⟩
    · exact (h.contents_swap_left a.container b.container).trans hsame.symm
    · exact (h.contents_swap_right a.container b.container).trans hsame
    · exact valid_swap_left hb a.container
    · exact valid_swap_right ha b.container
    · rw [hb.enumerates.iff_eq]
      exact (enumerates_swap_left hb a.container).iff_eq
    · rw [ha.enumerates.iff_eq]
      exact (enumerates_swap_right ha b.container).iff_eq

/-- **Assigning an iterator leaves everything else alone** exactly when the two are over the same
buffer, that is, over one vector, or over two vectors that own no buffer.  **Swapping iterators**
leaves their containers alone exactly when these have the same contents. -/
theorem assign_swap_iff (ha : Valid h a) (hb : Valid h b) :
    (Assigned h a b ↔ h.buffer a.container = h.buffer b.container) ∧
      (Swapped h a b ↔ h.contents a.container = h.contents b.container) :=
  ⟨assigned_iff hb, swapped_iff ha hb⟩

/-- Two vectors with one element each. -/
def twoHeap : Heap ℕ := ⟨id, fun c => [c]⟩

/-- Two iterators over one vector may be assigned and swapped. -/
theorem assign_swap_same :
    Assigned twoHeap (construct twoHeap 0) (end_ twoHeap (construct twoHeap 0)) ∧
      Swapped twoHeap (construct twoHeap 0) (end_ twoHeap (construct twoHeap 0)) := by
  have hend : Valid twoHeap (end_ twoHeap (construct twoHeap 0)) := ⟨rfl, by decide, by decide⟩
  have hboth := assign_swap_iff (valid_construct twoHeap 0) hend
  exact ⟨hboth.1.2 rfl, hboth.2.2 rfl⟩

/-- The assignment of the beginning of one vector to that of another changes both vectors. -/
theorem assign_changes :
    ¬ ∀ (α : Type) (h : Heap α) (a b : RefIterator), Valid h a → Valid h b →
      Assigned h a b ∧ Swapped h a b := by
  intro hall
  have hassigned := (hall ℕ twoHeap (construct twoHeap 0) (construct twoHeap 1)
    (valid_construct twoHeap 0) (valid_construct twoHeap 1)).1
  exact absurd hassigned.contents_left (by decide)

end RefIterator

end ICDump

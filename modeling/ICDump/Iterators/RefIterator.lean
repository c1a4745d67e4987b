/-
Iterators over a container that they refer to (`iterators.hpp`, `bindings/python/src/iterator.hpp`).

All instances of `ref_iterator` in the repository refer to a `std::vector`.  A vector is a place in
memory that owns a buffer, and its iterators point into the buffer, so that they stay with the
buffer when two vectors are swapped.  A `ref_iterator` keeps its position twice, as such an
iterator and as a distance.
-/
import Mathlib.Data.Int.Notation
import Mathlib.Logic.Equiv.Basic
import Mathlib.Tactic.Lemma

namespace ICDump

/-! ### Vectors -/

/-- The address of a vector. -/
abbrev Loc : Type := ℕ

/-- The address of a buffer. -/
abbrev Buf : Type := ℕ

/-- The vectors in memory.  A vector owns its buffer, but those that never had an element share the
null pointer.  An element stands for what `operator*` of a `ref_iterator` makes of it, that is, for
the object that it points to if it is a pointer. -/
structure Heap (α : Type) where
  buffer : Loc → Buf
  elements : Buf → List α

/-- `std::vector::iterator`: a pointer into a buffer. -/
structure VecIter where
  buf : Buf
  offset : ℤ
deriving DecidableEq, Repr

/-- `std::advance`, and `std::next` and `std::prev` for `1` and `-1`. -/
def VecIter.advance (it : VecIter) (n : ℤ) : VecIter := { it with offset := it.offset + n }

/-- `std::distance` of two iterators into one buffer; it is not defined for others. -/
def VecIter.distance (first last : VecIter) : ℤ := last.offset - first.offset

namespace VecIter

variable (it : VecIter) (m n : ℤ)

lemma advance_advance : (it.advance m).advance n = it.advance (m + n) := by
  simp [advance, Int.add_assoc]

lemma distance_advance : it.distance (it.advance n) = n := by
  show it.offset + n - it.offset = n
  omega

lemma advance_zero : it.advance 0 = it := by
  simp [advance]

end VecIter

namespace Heap

variable {α : Type}

/-- The elements of a vector. -/
def contents (h : Heap α) (c : Loc) : List α := h.elements (h.buffer c)

/-- `size()`. -/
def size (h : Heap α) (c : Loc) : ℕ := (h.contents c).length

/-- `std::begin`. -/
def begin (h : Heap α) (c : Loc) : VecIter := ⟨h.buffer c, 0⟩

/-- The element that an iterator points to; none outside of the buffer. -/
def deref (h : Heap α) (it : VecIter) : Option α :=
  if 0 ≤ it.offset then (h.elements it.buf)[it.offset.toNat]? else none

/-- From the beginning of a vector one gets to its elements. -/
lemma deref_advance (h : Heap α) (c : Loc) {n : ℤ} (hn : 0 ≤ n) :
    h.deref ((h.begin c).advance n) = (h.contents c)[n.toNat]? := by
  have hoffset : ((h.begin c).advance n).offset = n := Int.zero_add n
  rw [deref, hoffset, if_pos hn]
  rfl

/-- `std::swap` of two vectors: they exchange their buffers. -/
def swap (h : Heap α) (c d : Loc) : Heap α := { h with buffer := h.buffer ∘ Equiv.swap c d }

end Heap

/-! ### The iterator -/

/-- `ref_iterator` of a reference to a vector. -/
structure RefIterator where
  container : Loc
  it : VecIter
  distance : ℤ
deriving DecidableEq, Repr

namespace RefIterator

variable {α : Type} (h : Heap α)

/-- The constructor from a container. -/
def construct (c : Loc) : RefIterator := ⟨c, h.begin c, 0⟩

/-- The copy constructor. -/
def copy (i : RefIterator) : RefIterator :=
  ⟨i.container, (h.begin i.container).advance i.distance, i.distance⟩

/-- `swap`: the containers themselves are swapped, not the references to them. -/
def swap (a b : RefIterator) : Heap α × RefIterator × RefIterator :=
  (h.swap a.container b.container, { a with it := b.it, distance := b.distance },
    { b with it := a.it, distance := a.distance })

/-- `operator=`: swap with a copy, which is then destroyed. -/
def assign (a b : RefIterator) : Heap α × RefIterator :=
  ((swap h a (copy h b)).1, (swap h a (copy h b)).2.1)

/-- `operator++()`. -/
def increment (i : RefIterator) : RefIterator :=
  { i with it := i.it.advance 1, distance := i.distance + 1 }

/-- `operator++(int)`: what it returns, and the iterator afterwards. -/
def postIncrement (i : RefIterator) : RefIterator × RefIterator := (copy h i, increment i)

/-- `operator--()`, which does nothing at the beginning. -/
def decrement (i : RefIterator) : RefIterator :=
  if i.it ≠ h.begin i.container then
    { i with it := i.it.advance (-1), distance := i.distance - 1 }
  else i

/-- `operator--(int)`. -/
def postDecrement (i : RefIterator) : RefIterator × RefIterator := (copy h i, decrement h i)

/-- `operator+=`. -/
def addAssign (i : RefIterator) (movement : ℤ) : RefIterator :=
  { i with it := i.it.advance movement, distance := i.distance + movement }

/-- `operator-=`. -/
def subAssign (i : RefIterator) (movement : ℤ) : RefIterator := addAssign i (-movement)

/-- `operator[]`, which moves the iterator to the element and back. -/
def subscript (i : RefIterator) (n : ℕ) : Option α × RefIterator :=
  let savedDist := (h.begin i.container).distance i.it
  let there := { i with it := (h.begin i.container).advance n }
  (h.deref there.it, { there with it := (h.begin there.container).advance savedDist })

/-- `operator+` of a number.  What is returned is a copy of the local variable. -/
def add (i : RefIterator) (n : ℤ) : RefIterator := copy h (addAssign (copy h i) n)

/-- `operator-` of a number. -/
def sub (i : RefIterator) (n : ℤ) : RefIterator := copy h (subAssign (copy h i) n)

/-- `operator-` of an iterator. -/
def difference (i j : RefIterator) : ℤ := i.distance - j.distance

/-- `operator<`. -/
def less (i j : RefIterator) : Bool := 0 < difference j i

/-- `operator>`. -/
def greater (i j : RefIterator) : Bool := less j i

/-- `operator>=`. -/
def greaterEq (i j : RefIterator) : Bool := !less i j

/-- `operator<=`. -/
def lessEq (i j : RefIterator) : Bool := !greater i j

/-- `begin`. -/
def begin (i : RefIterator) : RefIterator := construct h i.container

/-- `end`. -/
def end_ (i : RefIterator) : RefIterator :=
  { construct h i.container with
    it := (h.begin i.container).advance (h.size i.container)
    distance := h.size i.container }

/-- `operator==`. -/
def equal (i j : RefIterator) : Bool :=
  h.size i.container = h.size j.container ∧ i.distance = j.distance

/-- `operator*`. -/
def deref (i : RefIterator) : Option α := h.deref i.it

/-! ### Python -/

/-- `__getitem__`; none if it raises `index_error`. -/
def getItem (i : RefIterator) (n : ℕ) : Option (Option α) :=
  if h.size i.container ≤ n then none else some (subscript h i n).1

/-- `__iter__`. -/
def iter (i : RefIterator) : RefIterator := begin h i

/-- `__next__`: the element and the iterator afterwards; none if it raises `stop_iteration`. -/
def next (i : RefIterator) : Option (Option α × RefIterator) :=
  if equal h i (end_ h i) then none
  else some (deref h (postIncrement h i).1, (postIncrement h i).2)

/-- One round of a loop of C++ that runs until the iterator is at the end. -/
def round (i : RefIterator) : Option (Option α × RefIterator) :=
  if equal h i (end_ h i) then none else some (deref h i, increment i)

/-! ### Positions -/

/-- The position: how far the iterator is from the beginning of its container. -/
def position (i : RefIterator) : ℤ := (h.begin i.container).distance i.it

/-- The two positions are the same, and in the container. -/
structure Valid (i : RefIterator) : Prop where
  it_eq : i.it = (h.begin i.container).advance i.distance
  nonneg : 0 ≤ i.distance
  le_size : i.distance ≤ h.size i.container

end RefIterator

end ICDump

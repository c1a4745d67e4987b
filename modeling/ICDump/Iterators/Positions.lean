/-
The positions of iterators over a container that does not change (`iterators.hpp`).

Iterators are constructed, copied and moved, and others are made of them.  As long as all of them
stay in the container, the two positions of each agree (`Valid`), whatever the order of the
operations: each operation keeps this (`Op.act_valid`), and so does every run (`run_valid`).  What
subscripts, differences, comparisons and enumerations return is read off from it.
-/
import ICDump.Iterators.RefIterator
import ICDump.Library.Enumeration
import ICDump.Library.System

namespace ICDump

namespace RefIterator

/-! ### Operations -/

/-- The operations on an iterator. -/
inductive Op
  | copy
  | increment
  | postIncrement
  | decrement
  | postDecrement
  | addAssign (movement : ℤ)
  | subAssign (movement : ℤ)
  | add (n : ℤ)
  | sub (n : ℤ)
  | subscript (n : ℕ)
  | begin
  | end_

variable {α : Type} (h : Heap α)

/-- What an operation does to its operand, and the iterators that it returns. -/
def Op.act (i : RefIterator) : Op → RefIterator × List RefIterator
  | .copy => (i, [RefIterator.copy h i])
  | .increment => (RefIterator.increment i, [])
  | .postIncrement => ((RefIterator.postIncrement h i).2, [(RefIterator.postIncrement h i).1])
  | .decrement => (RefIterator.decrement h i, [])
  | .postDecrement => ((RefIterator.postDecrement h i).2, [(RefIterator.postDecrement h i).1])
  | .addAssign movement => (RefIterator.addAssign i movement, [])
  | .subAssign movement => (RefIterator.subAssign i movement, [])
  | .add n => (i, [RefIterator.add h i n])
  | .sub n => (i, [RefIterator.sub h i n])
  | .subscript n => ((RefIterator.subscript h i n).2, [])
  | .begin => (i, [RefIterator.begin h i])
  | .end_ => (i, [RefIterator.end_ h i])

/-- The iterators after an operation, the operand among them. -/
def Op.results (i : RefIterator) (op : Op) : List RefIterator :=
  (op.act h i).1 :: (op.act h i).2

/-- The positions after the operation are in the container, and so is an index. -/
structure Op.InRange (i : RefIterator) (op : Op) : Prop where
  index : ∀ n, op = .subscript n → n < h.size i.container
  nonneg : ∀ j ∈ op.results h i, 0 ≤ j.distance
  le_size : ∀ j ∈ op.results h i, j.distance ≤ h.size j.container

/-- What happens to the iterators that there are. -/
inductive Action
  /-- One more is constructed from the container. -/
  | construct
  /-- An operation on one of them. -/
  | operate (a : ℕ) (op : Op)

/-- The iterators over the container `c`: those that an operation returns are added to the ones
that there are. -/
def iteratorSystem (c : Loc) : System (List RefIterator) Action where
  apply is
    | .construct => is ++ [RefIterator.construct h c]
    | .operate a op =>
        match is[a]? with
        | none => is
        | some i => is.set a (op.act h i).1 ++ (op.act h i).2
  enabled is
    | .construct => True
    | .operate a op => ∃ i, is[a]? = some i ∧ op.InRange h i

variable {h : Heap α} {c : Loc} {i j : RefIterator}

/-! ### What operations keep -/

/-- A copy of an iterator whose positions agree is that iterator. -/
lemma copy_eq (hi : i.it = (h.begin i.container).advance i.distance) : copy h i = i := by
  rw [copy, ← hi]

/-- The positions of `j` agree, and `j` is over the container of `i`. -/
def Agrees (h : Heap α) (i j : RefIterator) : Prop :=
  j.container = i.container ∧ j.it = (h.begin i.container).advance j.distance

lemma agrees_copy (i : RefIterator) : Agrees h i (copy h i) := ⟨rfl, rfl⟩

lemma agrees_begin (i : RefIterator) : Agrees h i (begin h i) :=
  ⟨rfl, (VecIter.advance_zero _).symm⟩

lemma agrees_end (i : RefIterator) : Agrees h i (end_ h i) := ⟨rfl, rfl⟩

lemma Agrees.addAssign (hij : Agrees h i j) (n : ℤ) : Agrees h i (addAssign j n) := by
  refine ⟨hij.1, ?_⟩
  show j.it.advance n = (h.begin i.container).advance (j.distance + n)
  rw [hij.2, VecIter.advance_advance]

lemma Agrees.increment (hij : Agrees h i j) : Agrees h i (increment j) := hij.addAssign 1

/-- Nothing is before the beginning. -/
lemma Agrees.decrement (hij : Agrees h i j) : Agrees h i (decrement h j) := by
  rw [RefIterator.decrement]
  split
  · exact hij.addAssign (-1)
  · exact hij

/-- The index of `operator[]` does not matter to the iterator. -/
lemma Agrees.subscript (hij : Agrees h i j) (n : ℕ) : (subscript h j n).2 = j := by
  have hback : (h.begin j.container).advance ((h.begin j.container).distance j.it) = j.it := by
    rw [hij.2, hij.1, VecIter.distance_advance]
  show { j with it := (h.begin j.container).advance ((h.begin j.container).distance j.it) } = j
  rw [hback]

/-- **Every operation keeps the two positions of an iterator the same.** -/
theorem agrees_results (hi : Agrees h i i) (op : Op) : ∀ j ∈ op.results h i, Agrees h i j := by
  cases op <;> simp only [Op.results, Op.act, RefIterator.postIncrement,
    RefIterator.postDecrement, List.mem_cons, List.not_mem_nil, or_false, forall_eq_or_imp,
    forall_eq]
  case copy => exact ⟨hi, agrees_copy i⟩
  case increment => exact hi.increment
  case postIncrement => exact ⟨hi.increment, agrees_copy i⟩
  case decrement => exact hi.decrement
  case postDecrement => exact ⟨hi.decrement, agrees_copy i⟩
  case addAssign movement => exact hi.addAssign movement
  case subAssign movement => exact hi.addAssign (-movement)
  case add n => exact ⟨hi, agrees_copy _⟩
  case sub n => exact ⟨hi, agrees_copy _⟩
  case subscript n =>
      rw [hi.subscript n]
      exact hi
  case begin => exact ⟨hi, agrees_begin i⟩
  case end_ => exact ⟨hi, agrees_end i⟩

lemma agrees_self (hi : Valid h i) : Agrees h i i := ⟨rfl, hi.it_eq⟩

lemma Agrees.valid (hij : Agrees h i j) (hnonneg : 0 ≤ j.distance)
    (hle : j.distance ≤ h.size j.container) : Valid h j where
  it_eq := by rw [hij.1, hij.2]
  nonneg := hnonneg
  le_size := hle

lemma valid_construct (h : Heap α) (c : Loc) : Valid h (construct h c) :=
  (agrees_begin (h := h) (construct h c)).valid (Int.le_refl 0) (Int.natCast_nonneg _)

/-- The iterators of a run are over the container, and their positions agree. -/
lemma run_valid {l : List Action} (hrun : (iteratorSystem h c).Run [] l) :
    ∀ i ∈ (iteratorSystem h c).after [] l, i.container = c ∧ Valid h i := by
  refine hrun.invariant (I := fun is => ∀ i ∈ is, i.container = c ∧ Valid h i) ?_ (by simp)
  intro is action his henabled j hj
  cases action with
  | construct =>
      rcases List.mem_append.1 hj with hj | hj
      · exact his j hj
      · obtain rfl := List.mem_singleton.1 hj
        exact ⟨rfl, valid_construct h c⟩
  | operate a op =>
      obtain ⟨i, hi, hrange⟩ := henabled
      obtain ⟨hic, hvalid⟩ := his i (List.mem_of_getElem? hi)
      have hresults : ∀ j ∈ op.results h i, j.container = c ∧ Valid h j := by
        intro j hj
        have hagrees := agrees_results (agrees_self hvalid) op j hj
        exact ⟨hagrees.1.trans hic, hagrees.valid (hrange.nonneg j hj) (hrange.le_size j hj)⟩
      simp only [iteratorSystem, hi] at hj
      rcases List.mem_append.1 hj with hj | hj
      · rcases List.mem_or_eq_of_mem_set hj with hj | rfl
        · exact his j hj
        · exact hresults _ List.mem_cons_self
      · exact hresults j (List.mem_cons_of_mem _ hj)

/-! ### What iterators show -/

/-- The position is the distance that the iterator keeps. -/
lemma Valid.position_eq (hi : Valid h i) : position h i = i.distance := by
  rw [position, hi.it_eq, VecIter.distance_advance]

lemma Valid.subscript_eq (hi : Valid h i) (n : ℕ) :
    subscript h i n = ((h.contents i.container)[n]?, i) :=
  Prod.ext (h.deref_advance i.container (Int.natCast_nonneg n)) ((agrees_self hi).subscript n)

lemma less_iff (i j : RefIterator) : less i j ↔ i.distance < j.distance := by
  rw [less, difference, decide_eq_true_iff]
  omega

lemma equal_end_iff (h : Heap α) (i : RefIterator) :
    equal h i (end_ h i) ↔ i.distance = h.size i.container := by
  simp [equal, end_, construct]

/-- A loop that ends at the end of the container and increments the iterator in every round reads
the list of which `d` gets the elements. -/
lemma reads_loop {I : RefIterator → Prop} {d : RefIterator → Option α} {l : List α}
    (hsize : ∀ i, I i → h.size i.container = l.length)
    (hrange : ∀ i, I i → 0 ≤ i.distance ∧ i.distance ≤ l.length)
    (hd : ∀ i, I i → d i = l[i.distance.toNat]?)
    (hI : ∀ i, I i → i.distance < l.length → I (increment i)) :
    ReadsList (fun i => if equal h i (end_ h i) then none else some (d i, increment i)) I
      (fun i => i.distance.toNat) (l.map some) := by
  intro i hi
  obtain ⟨hnonneg, hle⟩ := hrange i hi
  have hend : equal h i (end_ h i) ↔ i.distance = l.length := by
    rw [equal_end_iff, hsize i hi]
  by_cases heq : i.distance = l.length
  · refine Or.inl ⟨?_, if_pos (hend.2 heq)⟩
    show (l.map some).length ≤ i.distance.toNat
    rw [List.length_map]
    omega
  · have hlt : i.distance.toNat < l.length := by omega
    have hread : d i = some l[i.distance.toNat] := by
      rw [hd i hi, List.getElem?_eq_getElem hlt]
    refine Or.inr ⟨d i, increment i, ?_, if_neg (mt hend.1 heq), hI i hi (by omega), ?_⟩
    · show (l.map some)[i.distance.toNat]? = some (d i)
      rw [List.getElem?_map, List.getElem?_eq_getElem hlt, hread]
      rfl
    · show (i.distance + 1).toNat = i.distance.toNat + 1
      omega

/-- Python's loop goes through what is left of the container. -/
lemma yields_next (hnonneg : 0 ≤ i.distance) (hle : i.distance ≤ h.size i.container) :
    YieldsList (next h) i (((h.contents i.container).map some).drop i.distance.toNat) := by
  have hreads : ReadsList (next h)
      (fun j => j.container = i.container ∧ 0 ≤ j.distance ∧ j.distance ≤ h.size i.container)
      (fun j => j.distance.toNat) ((h.contents i.container).map some) := by
    refine reads_loop (d := fun j => deref h (copy h j)) ?_ ?_ ?_ ?_
    · rintro j ⟨hj, -⟩
      exact congrArg h.size hj
    · exact fun j hj => hj.2
    · rintro j ⟨hj, hjnonneg, -⟩
      rw [← hj]
      exact h.deref_advance j.container hjnonneg
    · rintro j ⟨hj, hjnonneg, -⟩ hlt
      exact ⟨hj, Int.le_add_one hjnonneg, hlt⟩
  exact yields_drop hreads ⟨rfl, hnonneg, hle⟩

/-- The iterators show the container `c`, each from its position. -/
structure Represents (h : Heap α) (c : Loc) (is : List RefIterator) : Prop where
  it_eq : ∀ i ∈ is, i.it = (h.begin c).advance i.distance
  subscript_eq : ∀ i ∈ is, ∀ n < h.size c, subscript h i n = ((h.contents c)[n]?, i)
  post_eq : ∀ i ∈ is, (postIncrement h i).1 = i ∧ (postDecrement h i).1 = i
  difference_eq : ∀ i ∈ is, ∀ j ∈ is, difference i j = position h i - position h j
  order : ∀ i ∈ is, ∀ j ∈ is,
    (less i j ↔ position h i < position h j) ∧ (lessEq i j ↔ position h i ≤ position h j) ∧
      (greater i j ↔ position h j < position h i) ∧
      (greaterEq i j ↔ position h j ≤ position h i)
  /-- Python's loop goes through all elements. -/
  yields : ∀ i ∈ is, YieldsList (next h) (iter h i) ((h.contents c).map some)
  getItem_eq : ∀ i ∈ is, ∀ n, getItem h i n = (h.contents c)[n]?.map some

lemma represents_of_valid {is : List RefIterator}
    (his : ∀ i ∈ is, i.container = c ∧ Valid h i) : Represents h c is where
  it_eq i hi := by
    obtain ⟨rfl, hvalid⟩ := his i hi
    exact hvalid.it_eq
  subscript_eq i hi n _ := by
    obtain ⟨rfl, hvalid⟩ := his i hi
    exact hvalid.subscript_eq n
  post_eq i hi := ⟨copy_eq (his i hi).2.it_eq, copy_eq (his i hi).2.it_eq⟩
  difference_eq i hi j hj := by
    rw [(his i hi).2.position_eq, (his j hj).2.position_eq]
    rfl
  order i hi j hj := by
    rw [(his i hi).2.position_eq, (his j hj).2.position_eq]
    simp [lessEq, greater, greaterEq, less_iff, ← Bool.not_eq_true]
  yields i hi := by
    obtain ⟨rfl, -⟩ := his i hi
    exact yields_next (i := iter h i) (Int.le_refl 0) (Int.natCast_nonneg _)
  getItem_eq i hi n := by
    obtain ⟨rfl, hvalid⟩ := his i hi
    rw [getItem, hvalid.subscript_eq]
    split
    · rename_i hle
      rw [List.getElem?_eq_none hle]
      rfl
    · rename_i hlt
      rw [List.getElem?_eq_getElem (Nat.not_le.1 hlt)]
      rfl

/-- **Iterators show their container**: after every step of a run, the two positions of each
agree, and subscripts, differences, comparisons and enumerations are those of the container. -/
theorem run_represents {l l' : List Action} (hrun : (iteratorSystem h c).Run [] l)
    (hl : l' <+: l) : Represents h c ((iteratorSystem h c).after [] l') :=
  represents_of_valid (run_valid (hrun.of_prefix hl))

/-- A vector with two elements, in a memory without others. -/
def pairHeap : Heap ℕ := ⟨id, fun c => if c = 0 then [7, 8] else []⟩

/-- Two iterators, one of them made by `i++`, and an element read through the other. -/
theorem run_represents_pair : Represents pairHeap 0 ((iteratorSystem pairHeap 0).after []
    [.construct, .operate 0 .postIncrement, .operate 0 (.subscript 1)]) := by
  have hrun : (iteratorSystem pairHeap 0).Run []
      [.construct, .operate 0 .postIncrement, .operate 0 (.subscript 1)] := by
    refine ⟨trivial, ⟨_, rfl, ?_, by decide, by decide⟩, ⟨_, rfl, ?_, by decide, by decide⟩,
      trivial⟩
    · rintro n ⟨⟩
    · rintro n ⟨⟩
      decide
  exact run_represents hrun (List.prefix_refl _)

end RefIterator

end ICDump

/-
Registries: a vector that owns its elements, and an index into it by name.

Elements are appended and never removed.  The index maps the key of an element to its
identity, and a later element with the same key takes the place of an earlier one.  The
invariant `Indexed` says that the index and the vector agree: looking up a key gives the
last element that has it.
-/
import Mathlib.Data.List.Nodup
import Mathlib.Logic.Function.Basic

namespace ICDump

/-- A vector of elements of type `α`, each with its identity in `ι`, and an index by keys. -/
structure Registry (κ ι α : Type*) where
  elements : List (ι × α)
  lookup : κ → Option ι

namespace Registry

variable {κ ι α : Type*}

/-- The empty registry. -/
def empty : Registry κ ι α := ⟨[], fun _ => none⟩

/-- The identities of the elements. -/
def ids (r : Registry κ ι α) : List ι := r.elements.map Prod.fst

/-- The element that is last among those with the key `k`. -/
def IsLast (key : α → κ) (r : Registry κ ι α) (k : κ) (i : ι) : Prop :=
  ∃ before x after, r.elements = before ++ (i, x) :: after ∧ key x = k ∧
    ∀ e ∈ after, key e.2 ≠ k

/-- The index answers with the last element that has the key, and with nothing when there is
no such element. -/
structure Indexed (key : α → κ) (r : Registry κ ι α) : Prop where
  last : ∀ {k i}, r.lookup k = some i → r.IsLast key k i
  none : ∀ {k}, r.lookup k = none → ∀ e ∈ r.elements, key e.2 ≠ k

variable {key : α → κ} {r : Registry κ ι α}

lemma indexed_empty : Indexed key (empty : Registry κ ι α) where
  last h := absurd h (by simp [empty])
  none _ _ he := absurd he List.not_mem_nil

lemma Indexed.mem_ids (h : r.Indexed key) {k : κ} {i : ι} (hk : r.lookup k = some i) :
    i ∈ r.ids := by
  obtain ⟨before, x, after, hr, -, -⟩ := h.last hk
  simp [ids, hr]

lemma Indexed.isSome_iff (h : r.Indexed key) (k : κ) :
    (r.lookup k).isSome ↔ ∃ e ∈ r.elements, key e.2 = k := by
  cases hk : r.lookup k with
  | none =>
      have hnone := h.none hk
      simpa using hnone
  | some i =>
      obtain ⟨before, x, after, hr, hx, -⟩ := h.last hk
      exact iff_of_true rfl ⟨(i, x), by simp [hr], hx⟩

variable [DecidableEq κ]

/-- Append an element and index it. -/
def add (r : Registry κ ι α) (k : κ) (i : ι) (x : α) : Registry κ ι α :=
  { elements := r.elements ++ [(i, x)], lookup := Function.update r.lookup k (some i) }

@[simp] lemma elements_add (k : κ) (i : ι) (x : α) :
    (r.add k i x).elements = r.elements ++ [(i, x)] := rfl

@[simp] lemma ids_add (k : κ) (i : ι) (x : α) : (r.add k i x).ids = r.ids ++ [i] := by
  simp [ids]

/-- Appending an element under its own key keeps the index right. -/
lemma Indexed.add (h : r.Indexed key) (i : ι) (x : α) : (r.add (key x) i x).Indexed key where
  last := by
    intro k j hk
    by_cases hx : k = key x
    · -- the new element is the last one with its key
      subst hx
      obtain rfl : i = j := by simpa [Registry.add] using hk
      exact ⟨r.elements, x, [], rfl, rfl, by simp⟩
    · have hj : r.lookup k = some j := by simpa [Registry.add, hx] using hk
      obtain ⟨before, y, after, hr, hy, hafter⟩ := h.last hj
      refine ⟨before, y, after ++ [(i, x)], by simp [hr], hy, fun e he => ?_⟩
      rcases List.mem_append.1 he with he | he
      · exact hafter e he
      · rw [List.mem_singleton.1 he]
        exact Ne.symm hx
  none := by
    intro k hk e he
    have hx : k ≠ key x := by
      rintro rfl
      simp [Registry.add] at hk
    have hnone : r.lookup k = Option.none := by simpa [Registry.add, hx] using hk
    rcases List.mem_append.1 he with he | he
    · exact h.none hnone e he
    · rw [List.mem_singleton.1 he]
      exact hx.symm

/-! ### Following an identity -/

variable [DecidableEq ι]

omit [DecidableEq κ]

/-- The element with the identity `i`. -/
def get? (r : Registry κ ι α) (i : ι) : Option α :=
  (r.elements.find? fun e => e.1 = i).map Prod.snd

lemma mem_elements_of_get? {i : ι} {x : α} (h : r.get? i = some x) : (i, x) ∈ r.elements := by
  obtain ⟨e, he, rfl⟩ := Option.map_eq_some_iff.1 h
  obtain rfl : e.1 = i := by simpa using List.find?_some he
  exact List.mem_of_find?_eq_some he

lemma exists_get?_of_mem_ids {i : ι} (h : i ∈ r.ids) : ∃ x, r.get? i = some x := by
  obtain ⟨e, he, rfl⟩ := List.mem_map.1 h
  cases hfind : r.elements.find? fun e' => e'.1 = e.1 with
  | none => exact absurd (List.find?_eq_none.1 hfind e he) (by simp)
  | some e' => exact ⟨e'.2, by rw [get?, hfind, Option.map_some]⟩

/-- An element is found under its identity when identities are not used twice. -/
lemma get?_of_mem (hr : r.ids.Nodup) {i : ι} {x : α} (h : (i, x) ∈ r.elements) :
    r.get? i = some x := by
  obtain ⟨y, hy⟩ := exists_get?_of_mem_ids (List.mem_map_of_mem (f := Prod.fst) h)
  have heq := List.inj_on_of_nodup_map hr (mem_elements_of_get? hy) h rfl
  exact hy.trans (congrArg some (Prod.ext_iff.1 heq).2)

/-- What is found stays found when elements are appended. -/
lemma get?_of_prefix {r' : Registry κ ι α} (h : r.elements <+: r'.elements) {i : ι} {x : α}
    (hi : r.get? i = some x) : r'.get? i = some x := by
  obtain ⟨e, he, rfl⟩ := Option.map_eq_some_iff.1 hi
  obtain ⟨l, hl⟩ := h
  rw [get?, ← hl, List.find?_append, he, Option.some_or, Option.map_some]

end Registry

end ICDump

/-
The types that an Objective-C type encoding denotes.

In the source a type is a `std::unique_ptr<Type>`, and the classes derived from
`Type` are told apart by the tag `Type::type`.  Here the tag is the constructor,
and a null pointer is a constructor of its own: `Ty` is "a pointer to a type, or
null".  Whether a child of a node is null is thus a question about the tree.
-/
import Mathlib.Data.List.Basic

namespace ICDump

/-- A `std::string`. -/
abbrev Str : Type := List Char

/-- The values of `OBJC_TYPES` that a `PrimitiveTy` carries, those between `CHAR` and
`CSTRING`.  The other values are the constructors of `Ty`. -/
inductive Primitive
  | char | int | short | long | longLong
  | unsignedChar | unsignedInt | unsignedShort | unsignedLong | unsignedLongLong
  | float | double | bool | void | cstring
deriving DecidableEq, Repr

/-- `OBJC_TYPE_SPECIFIERS`. -/
inductive TypeSpecifier
  | unknown | const | in_ | inOut | out | byCopy | byRef | oneWay | atomic | complex
deriving DecidableEq, Repr

/-- `std::unique_ptr<Type>`: null, or a pointer to a type.  An attribute of a structure
or of a union is its name together with its type. -/
inductive Ty
  | null
  | primitive (type : Primitive)
  | selector
  | unknown
  | cls
  | block
  | object (name : Str)
  | pointer (subtype : Ty)
  | array (dim : ℕ) (subtype : Ty)
  | struct (name : Str) (attributes : List (Str × Ty))
  | union (name : Str) (attributes : List (Str × Ty))
  | bitField (size : ℕ)

/-- `AttrTy`. -/
abbrev AttrTy : Type := Str × Ty

namespace Ty

/-- Induction on the tree, with an induction hypothesis for every attribute. -/
@[elab_as_elim, induction_eliminator]
theorem induct {motive : Ty → Prop} (null : motive null)
    (primitive : ∀ p, motive (primitive p)) (selector : motive selector)
    (unknown : motive unknown) (cls : motive cls) (block : motive block)
    (object : ∀ n, motive (object n)) (pointer : ∀ t, motive t → motive (pointer t))
    (array : ∀ n t, motive t → motive (array n t))
    (struct : ∀ n as, (∀ a ∈ as, motive a.2) → motive (struct n as))
    (union : ∀ n as, (∀ a ∈ as, motive a.2) → motive (union n as))
    (bitField : ∀ n, motive (bitField n)) (t : Ty) : motive t := by
  refine @Ty.rec motive (fun as => ∀ a ∈ as, motive a.2) (fun a => motive a.2) null primitive
    selector unknown cls block object pointer array struct union bitField ?_ ?_ (fun _ _ h => h) t
  · exact fun a ha => absurd ha List.not_mem_nil
  · intro a as ha has b hb
    rcases List.mem_cons.1 hb with rfl | hb
    · exact ha
    · exact has b hb

/-- `type == nullptr`. -/
def isNull : Ty → Bool
  | null => true
  | _ => false

@[simp] lemma isNull_iff {t : Ty} : t.isNull = true ↔ t = null := by
  cases t <;> simp [isNull]

@[simp] lemma isNull_eq_false_iff {t : Ty} : t.isNull = false ↔ t ≠ null := by
  cases t <;> simp [isNull]

/-! ### Maps on trees -/

mutual

/-- Apply `f` to every array dimension and every bit-field width. -/
def mapNumbers (f : ℕ → ℕ) : Ty → Ty
  | null => null
  | primitive p => primitive p
  | selector => selector
  | unknown => unknown
  | cls => cls
  | block => block
  | object n => object n
  | pointer t => pointer (mapNumbers f t)
  | array n t => array (f n) (mapNumbers f t)
  | struct n as => struct n (mapNumbersAttrs f as)
  | union n as => union n (mapNumbersAttrs f as)
  | bitField n => bitField (f n)

/-- `mapNumbers` on the attributes. -/
def mapNumbersAttrs (f : ℕ → ℕ) : List (Str × Ty) → List (Str × Ty)
  | [] => []
  | (n, t) :: as => (n, mapNumbers f t) :: mapNumbersAttrs f as

end

lemma mapNumbersAttrs_eq (f : ℕ → ℕ) (as : List AttrTy) :
    mapNumbersAttrs f as = as.map fun a => (a.1, a.2.mapNumbers f) := by
  induction as with
  | nil => rfl
  | cons a as ih => rw [mapNumbersAttrs, ih, List.map_cons]

/-- The shape of a tree: the tree without its array dimensions and bit-field widths. -/
def shape (t : Ty) : Ty := t.mapNumbers fun _ => 0

lemma mapNumbers_mapNumbers (f g : ℕ → ℕ) (t : Ty) :
    (t.mapNumbers f).mapNumbers g = t.mapNumbers (g ∘ f) := by
  induction t with
  | pointer t ih => simp only [mapNumbers, ih]
  | array n t ih => simp only [mapNumbers, ih, Function.comp]
  | struct n as ih | union n as ih =>
      simp only [mapNumbers, mapNumbersAttrs_eq, List.map_map]
      congr 1
      exact List.map_congr_left fun a ha => by simp only [Function.comp, ih a ha]
  | _ => rfl

/-- Forgetting the numbers forgets what was done to them. -/
@[simp] lemma shape_mapNumbers (f : ℕ → ℕ) (t : Ty) : (t.mapNumbers f).shape = t.shape :=
  mapNumbers_mapNumbers f _ t

/-! ### Properties of all nodes -/

mutual

/-- The property `P` holds of the tree and of everything below it, null pointers
included. -/
def All (P : Ty → Prop) : Ty → Prop
  | pointer t => P (pointer t) ∧ All P t
  | array n t => P (array n t) ∧ All P t
  | struct n as => P (struct n as) ∧ AllAttrs P as
  | union n as => P (union n as) ∧ AllAttrs P as
  | null => P null
  | primitive p => P (primitive p)
  | selector => P selector
  | unknown => P unknown
  | cls => P cls
  | block => P block
  | object n => P (object n)
  | bitField n => P (bitField n)

/-- `All` on the attributes. -/
def AllAttrs (P : Ty → Prop) : List (Str × Ty) → Prop
  | [] => True
  | (_, t) :: as => All P t ∧ AllAttrs P as

end

lemma allAttrs_iff {P : Ty → Prop} {as : List AttrTy} :
    AllAttrs P as ↔ ∀ a ∈ as, a.2.All P := by
  induction as with
  | nil => simp [AllAttrs]
  | cons a as ih => rw [AllAttrs, ih, List.forall_mem_cons]

lemma All.self {P : Ty → Prop} {t : Ty} (h : t.All P) : P t := by
  cases t <;> first | exact h | exact h.1

/-- The number in a node, if it has one, satisfies `P`. -/
def NumberOk (P : ℕ → Prop) : Ty → Prop
  | array n _ => P n
  | bitField n => P n
  | _ => True

/-- Every array dimension and every bit-field width in the tree satisfies `P`. -/
def AllNumbers (P : ℕ → Prop) (t : Ty) : Prop := t.All (NumberOk P)

/-- A map of the numbers leaves a tree as it is exactly when it fixes its numbers. -/
lemma mapNumbers_eq_self_iff {f : ℕ → ℕ} {t : Ty} :
    t.mapNumbers f = t ↔ t.AllNumbers fun n => f n = n := by
  induction t with
  | pointer t ih => simpa [mapNumbers, AllNumbers, All, NumberOk] using ih
  | array n t ih => simp [mapNumbers, ih, AllNumbers, All, NumberOk]
  | struct n as ih | union n as ih =>
      simp only [mapNumbers, mapNumbersAttrs_eq, AllNumbers, All, allAttrs_iff, NumberOk,
        struct.injEq, union.injEq, true_and]
      nth_rewrite 2 [← List.map_id as]
      rw [List.map_inj_left]
      refine forall₂_congr fun a ha => ?_
      rw [← AllNumbers, ← ih a ha, id, Prod.ext_iff]
      simp
  | _ => simp [mapNumbers, AllNumbers, All, NumberOk]

end Ty

end ICDump

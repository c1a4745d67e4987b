/-
The bytes of the structures of the runtime (`Types.hpp`).

`Layout` says how a structure is read; `Record` says how it is written, and that reading gives it
back, whatever bytes come behind it.  Fields that the parser does not read are zero.
-/
import ICDump.ObjC.Layout

namespace ICDump

/-! ### Numbers -/

/-- The `k` lowest bytes of a number, the lowest first. -/
def leBytes : ℕ → ℕ → List UInt8
  | 0, _ => []
  | k + 1, n => .ofNat n :: leBytes k (n / 256)

@[simp] lemma length_leBytes (k n : ℕ) : (leBytes k n).length = k := by
  induction k generalizing n with
  | zero => rfl
  | succ k ih => rw [leBytes, List.length_cons, ih]

/-- The number is read from its bytes. -/
lemma leNat_eq {l : List UInt8} {off k n : ℕ} (h : leBytes k n <+: l.drop off) :
    leNat (l.getD · 0) off k = n % 256 ^ k := by
  induction k generalizing off n with
  | zero => rw [leNat, pow_zero, Nat.mod_one]
  | succ k ih =>
      obtain ⟨rest, hrest⟩ := h
      rw [leBytes, List.cons_append] at hrest
      have hbyte : l.getD off 0 = .ofNat n := by
        rw [List.getD_eq_getElem?_getD, ← Nat.add_zero off, ← List.getElem?_drop, ← hrest]
        rfl
      have htail : leBytes k (n / 256) <+: l.drop (off + 1) := by
        rw [← List.tail_drop, ← hrest]
        exact List.prefix_append _ _
      have hlow : (UInt8.ofNat n).toNat = n % 256 := UInt8.toNat_ofNat'
      rw [leNat, hbyte, ih htail, hlow, pow_succ' 256 k, Nat.mod_mul]

/-- The bytes of a `uint32_t`. -/
def bytes32 (w : UInt32) : List UInt8 := leBytes 4 w.toNat

/-- The bytes of a `uintptr_t`. -/
def bytes64 (w : UInt64) : List UInt8 := leBytes 8 w.toNat

@[simp] lemma length_bytes32 (w : UInt32) : (bytes32 w).length = 4 := length_leBytes 4 w.toNat

@[simp] lemma length_bytes64 (w : UInt64) : (bytes64 w).length = 8 := length_leBytes 8 w.toNat

lemma word32_eq {l : List UInt8} {off : ℕ} {w : UInt32} (h : bytes32 w <+: l.drop off) :
    word32 (l.getD · 0) off = w := by
  have hw : w.toNat % 256 ^ 4 = w.toNat := Nat.mod_eq_of_lt w.toNat_lt
  rw [word32, leNat_eq h, hw, UInt32.ofNat_toNat]

lemma word64_eq {l : List UInt8} {off : ℕ} {w : UInt64} (h : bytes64 w <+: l.drop off) :
    word64 (l.getD · 0) off = w := by
  have hw : w.toNat % 256 ^ 8 = w.toNat := Nat.mod_eq_of_lt w.toNat_lt
  rw [word64, leNat_eq h, hw, UInt64.ofNat_toNat]

/-! ### Structures -/

/-- A structure that is written to an image. -/
class Record (α : Type) [Layout α] where
  bytes : α → List UInt8
  length_bytes : ∀ x, (bytes x).length = (Layout.size α).toNat
  ofBytes_bytes : ∀ x rest, Layout.ofBytes (fun i => (bytes x ++ rest).getD i 0) = x

lemma bytes_ne_nil {α : Type} [Layout α] [Record α] (hsize : 0 < (Layout.size α).toNat) (x : α) :
    Record.bytes x ≠ [] := by
  intro hnil
  have hlength := Record.length_bytes x
  rw [hnil, List.length_nil] at hlength
  omega

lemma length_flatMap_bytes {α : Type} [Layout α] [Record α] (xs : List α) :
    (xs.flatMap Record.bytes).length = xs.length * (Layout.size α).toNat := by
  induction xs with
  | nil => simp
  | cons x xs ih =>
      rw [List.flatMap_cons, List.length_append, Record.length_bytes, ih, List.length_cons,
        Nat.add_one_mul, Nat.add_comm]

instance : Record UInt64 where
  bytes := bytes64
  length_bytes := length_bytes64
  ofBytes_bytes _ _ := word64_eq (List.prefix_append _ _)

/-- Bytes that are not read. -/
def unread (n : ℕ) : List UInt8 := List.replicate n 0

@[simp] lemma length_unread (n : ℕ) : (unread n).length = n := List.length_replicate

/-- What comes behind the first of two blocks. -/
lemma drop_behind {l l' : List UInt8} {n : ℕ} (h : l.length ≤ n) :
    (l ++ l').drop n = l'.drop (n - l.length) := by
  rw [List.drop_append, List.drop_of_length_le h, List.nil_append]

/-- The second of two blocks comes behind the first. -/
lemma prefix_behind {l l' final : List UInt8} {off : ℕ} (h : l ++ l' <+: final.drop off) :
    l' <+: final.drop (off + l.length) := by
  obtain ⟨rest, hrest⟩ := h
  refine ⟨rest, ?_⟩
  rw [← List.drop_drop, ← hrest, List.append_assoc, List.drop_left]

instance : Record ObjcClassT where
  bytes cls := bytes64 cls.superClass ++ unread 24 ++ bytes64 cls.bits
  length_bytes cls := by simp [Layout.size]
  ofBytes_bytes cls rest := by
    cases cls
    simp only [Layout.ofBytes, List.append_assoc, ObjcClassT.mk.injEq]
    exact ⟨word64_eq (by simp), word64_eq (by simp (disch := simp) [drop_behind])⟩

instance : Record ClassRoT where
  bytes ro := bytes32 ro.flags ++ bytes32 ro.instanceStart ++ bytes32 ro.instanceSize ++
    bytes32 ro.reserved ++ unread 8 ++ bytes64 ro.name ++ bytes64 ro.baseMethodList ++
    bytes64 ro.baseProtocols ++ bytes64 ro.ivars ++ unread 8 ++ bytes64 ro.baseProperties
  length_bytes ro := by simp [Layout.size]
  ofBytes_bytes ro rest := by
    cases ro
    simp only [Layout.ofBytes, List.append_assoc, ClassRoT.mk.injEq]
    refine ⟨word32_eq ?_, word32_eq ?_, word32_eq ?_, word32_eq ?_, word64_eq ?_, word64_eq ?_,
      word64_eq ?_, word64_eq ?_, word64_eq ?_⟩
    all_goals simp (disch := simp) [drop_behind]

instance : Record ProtocolT where
  bytes proto := unread 8 ++ bytes64 proto.mangledName ++ unread 8 ++
    bytes64 proto.instanceMethods ++ bytes64 proto.classMethods ++
    bytes64 proto.optionalInstanceMethods ++ bytes64 proto.optionalClassMethods ++
    bytes64 proto.instanceProperties ++ unread 8
  length_bytes proto := by simp [Layout.size]
  ofBytes_bytes proto rest := by
    cases proto
    simp only [Layout.ofBytes, List.append_assoc, ProtocolT.mk.injEq]
    refine ⟨word64_eq ?_, word64_eq ?_, word64_eq ?_, word64_eq ?_, word64_eq ?_, word64_eq ?_⟩
    all_goals simp (disch := simp) [drop_behind]

instance : Record MethodListT where
  bytes list := bytes32 list.entsizeAndFlags ++ bytes32 list.count
  length_bytes list := by simp [Layout.size]
  ofBytes_bytes list rest := by
    cases list
    simp only [Layout.ofBytes, List.append_assoc, MethodListT.mk.injEq]
    exact ⟨word32_eq (by simp), word32_eq (by simp)⟩

instance : Record CountedListT where
  bytes list := unread 4 ++ bytes32 list.count
  length_bytes list := by simp [Layout.size]
  ofBytes_bytes list rest := by
    cases list
    simp only [Layout.ofBytes, List.append_assoc, CountedListT.mk.injEq]
    exact word32_eq (by simp)

instance : Record ProtocolListT where
  bytes list := bytes64 list.count
  length_bytes list := length_bytes64 list.count
  ofBytes_bytes list rest := by
    cases list
    simp only [Layout.ofBytes, ProtocolListT.mk.injEq]
    exact word64_eq (by simp)

instance : Record SmallMethodT where
  bytes meth := bytes32 meth.name.toUInt32 ++ bytes32 meth.types.toUInt32 ++
    bytes32 meth.imp.toUInt32
  length_bytes meth := by simp [Layout.size]
  ofBytes_bytes meth rest := by
    cases meth
    simp only [Layout.ofBytes, List.append_assoc, SmallMethodT.mk.injEq]
    refine ⟨congrArg _ (word32_eq ?_), congrArg _ (word32_eq ?_), congrArg _ (word32_eq ?_)⟩
    all_goals simp (disch := simp) [drop_behind]

instance : Record BigMethodT where
  bytes meth := bytes64 meth.name ++ bytes64 meth.types ++ bytes64 meth.imp
  length_bytes meth := by simp [Layout.size]
  ofBytes_bytes meth rest := by
    cases meth
    simp only [Layout.ofBytes, List.append_assoc, BigMethodT.mk.injEq]
    refine ⟨word64_eq ?_, word64_eq ?_, word64_eq ?_⟩
    all_goals simp (disch := simp) [drop_behind]

instance : Record IvarT where
  bytes ivar := unread 8 ++ bytes64 ivar.name ++ bytes64 ivar.type ++ unread 8
  length_bytes ivar := by simp [Layout.size]
  ofBytes_bytes ivar rest := by
    cases ivar
    simp only [Layout.ofBytes, List.append_assoc, IvarT.mk.injEq]
    refine ⟨word64_eq ?_, word64_eq ?_⟩
    all_goals simp (disch := simp) [drop_behind]

instance : Record PropertyT where
  bytes prop := bytes64 prop.name ++ bytes64 prop.attributes
  length_bytes prop := by simp [Layout.size]
  ofBytes_bytes prop rest := by
    cases prop
    simp only [Layout.ofBytes, List.append_assoc, PropertyT.mk.injEq]
    refine ⟨word64_eq ?_, word64_eq ?_⟩
    all_goals simp

end ICDump

/-
The stream on an image (`LIEF::BinaryStream` over `MachOStream`).

The stream has a position, and nothing else that changes: a computation on it takes a
position to a result and the next position.  `peek` leaves the position where it is,
`read` moves it on success only, and `scopedStream` restores it.  Bytes are
taken from wherever `read_at` points, so a structure that starts before the end of a
segment is read to its end.
-/
import Mathlib.Data.List.ReduceOption
import ICDump.Image.Binary

namespace ICDump

/-! ### Structures in memory -/

/-- The number in the `n` bytes from the offset `off`, the lowest first. -/
def leNat (byte : ℕ → UInt8) (off : ℕ) : ℕ → ℕ
  | 0 => 0
  | n + 1 => (byte off).toNat + 256 * leNat byte (off + 1) n

/-- The `uint32_t` at an offset. -/
def word32 (byte : ℕ → UInt8) (off : ℕ) : UInt32 := .ofNat (leNat byte off 4)

/-- The `uintptr_t` at an offset. -/
def word64 (byte : ℕ → UInt8) (off : ℕ) : UInt64 := .ofNat (leNat byte off 8)

/-- A structure that is read from the image: its size and its fields. -/
class Layout (α : Type) where
  /-- `sizeof`. -/
  size : UInt64
  /-- The structure in the given bytes. -/
  ofBytes : (ℕ → UInt8) → α

instance : Layout UInt64 where
  size := 8
  ofBytes byte := word64 byte 0

/-- The structure at an address. -/
def Binary.load (bin : Binary) (α : Type) [Layout α] (offset : UInt64) : Option α :=
  match MachOStream.readAt bin offset (Layout.size α) with
  | .ok p => some (Layout.ofBytes p.byte)
  | .error _ => none

/-! ### Computations on the stream -/

/-- A computation on the stream, which moves its position. -/
abbrev BinaryStream (α : Type) : Type := StateM UInt64 α

namespace BinaryStream

variable {α β : Type}

/-- The result of a computation at a position. -/
def value (m : BinaryStream α) (pos : UInt64) : α := (m pos).1

/-- The computation leaves the stream at the position at which it found it. -/
def Restores (m : BinaryStream α) : Prop := ∀ pos, (m pos).2 = pos

/-- `pos()`. -/
def pos : BinaryStream UInt64 := fun p => (p, p)

/-- `setpos(p)`. -/
def setPos (p : UInt64) : BinaryStream Unit := fun _ => ((), p)

/-- `peek<T>(offset)`. -/
def peekAt (α : Type) [Layout α] (bin : Binary) (offset : UInt64) : BinaryStream (Option α) :=
  fun p => (bin.load α offset, p)

/-- `peek<T>()`. -/
def peek (α : Type) [Layout α] (bin : Binary) : BinaryStream (Option α) :=
  fun p => (bin.load α p, p)

/-- `peek_string_at(offset)`. -/
def peekStringAt (bin : Binary) (offset : UInt64) : BinaryStream (Option (List Char)) :=
  fun p => (bin.peekStringAt offset, p)

/-- `read<T>()`. -/
def read (α : Type) [Layout α] (bin : Binary) : BinaryStream (Option α) := do
  let some x ← peek α bin | return none
  let p ← pos
  setPos (p + Layout.size α)
  return some x

/-- A block that starts with `ScopedStream scoped(stream, offset)`. -/
def scopedStream (offset : UInt64) (m : BinaryStream α) : BinaryStream α := fun p =>
  ((m offset).1, p)

/-- `for (i = 0; i < n; ++i) { setpos(addr + i * stride); … }`, where `create` makes an object
at the position, or fails.  What fails is left out. -/
def createEach (create : BinaryStream (Option α)) (addr stride : UInt64) :
    ℕ → ℕ → BinaryStream (List α)
  | _, 0 => return []
  | i, n + 1 => do
    setPos (addr + .ofNat i * stride)
    match ← create with
    | some x => return x :: (← createEach create addr stride (i + 1) n)
    | none => createEach create addr stride (i + 1) n

/-- The same loop, left with `break` at the first failure. -/
def createWhile (create : BinaryStream (Option α)) (addr stride : UInt64) :
    ℕ → ℕ → BinaryStream (List α)
  | _, 0 => return []
  | i, n + 1 => do
    setPos (addr + .ofNat i * stride)
    match ← create with
    | some x => return x :: (← createWhile create addr stride (i + 1) n)
    | none => return []

/-! ### The position is left alone -/

variable {m : BinaryStream α} {bin : Binary}

lemma restores_pure (a : α) : Restores (pure a : BinaryStream α) := fun _ => rfl

lemma restores_pos : Restores pos := fun _ => rfl

lemma restores_peek [Layout α] : Restores (peek α bin) := fun _ => rfl

lemma restores_peekAt [Layout α] (offset : UInt64) : Restores (peekAt α bin offset) :=
  fun _ => rfl

lemma restores_peekStringAt (offset : UInt64) : Restores (peekStringAt bin offset) :=
  fun _ => rfl

lemma restores_scopedStream (offset : UInt64) (m : BinaryStream α) :
    Restores (scopedStream offset m) :=
  fun _ => rfl

lemma bind_apply (f : α → BinaryStream β) (p : UInt64) : (m >>= f) p = f (m p).1 (m p).2 := rfl

lemma Restores.bind {f : α → BinaryStream β} (hm : Restores m) (hf : ∀ a, Restores (f a)) :
    Restores (m >>= f) := by
  intro p
  rw [bind_apply, hf, hm]

lemma peek_eq [Layout α] {p : UInt64} {x : Option α} (h : bin.load α p = x) :
    peek α bin p = (x, p) := by
  rw [peek, h]

lemma read_of_none [Layout α] {p : UInt64} (h : bin.load α p = none) :
    read α bin p = (none, p) := by
  rw [read, bind_apply, peek_eq h]
  rfl

/-- `read` moves the position past what it reads. -/
lemma read_of_some [Layout α] {p : UInt64} {x : α} (h : bin.load α p = some x) :
    read α bin p = (some x, p + Layout.size α) := by
  rw [read, bind_apply, peek_eq h]
  rfl

/-- A computation that restores the position is given by its values. -/
lemma Restores.eq (hm : Restores m) (p : UInt64) : m p = (m.value p, p) :=
  Prod.ext rfl (hm p)

/-! ### Loops -/

/-- The loop that is left at the first failure makes what there is at the places before it. -/
lemma value_createWhile (create : BinaryStream (Option α)) (addr stride : UInt64) (i n : ℕ)
    (p : UInt64) : (createWhile create addr stride i n).value p =
      (((List.range' i n).map fun j => create.value (addr + .ofNat j * stride)).takeWhile
        Option.isSome).reduceOption := by
  induction n generalizing i p with
  | zero => rfl
  | succ n ih =>
      have hset : setPos (addr + .ofNat i * stride) p = ((), addr + .ofNat i * stride) := rfl
      rw [createWhile, value, bind_apply, hset, bind_apply, List.range'_succ, List.map_cons]
      rcases hcreate : create (addr + .ofNat i * stride) with ⟨_ | x, p'⟩
      · rw [value, hcreate, List.takeWhile_cons_of_neg (by simp)]
        rfl
      · rw [value, hcreate, List.takeWhile_cons_of_pos rfl, List.reduceOption_cons_of_some, ← ih]
        rfl

/-- The loop that passes failures over makes what there is at any of the places. -/
lemma value_createEach (create : BinaryStream (Option α)) (addr stride : UInt64) (i n : ℕ)
    (p : UInt64) : (createEach create addr stride i n).value p =
      ((List.range' i n).map fun j => create.value (addr + .ofNat j * stride)).reduceOption := by
  induction n generalizing i p with
  | zero => rfl
  | succ n ih =>
      have hset : setPos (addr + .ofNat i * stride) p = ((), addr + .ofNat i * stride) := rfl
      rw [createEach, value, bind_apply, hset, bind_apply, List.range'_succ, List.map_cons]
      rcases hcreate : create (addr + .ofNat i * stride) with ⟨_ | x, p'⟩
      · rw [value, hcreate, List.reduceOption_cons_of_none]
        exact ih (i + 1) p'
      · rw [value, hcreate, List.reduceOption_cons_of_some, ← ih]
        rfl

end BinaryStream

end ICDump

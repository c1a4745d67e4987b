/-
Images with one segment.

`imageOf base sections mem` is the image whose only segment has the bytes `mem` at the address
`base`.  Its strings are the bytes up to the next zero.  What was written to `mem` is read from it
(`shows_imageOf`), structures as well as strings; `Shows` says the same about any image.
-/
import ICDump.ObjC.Records
import ICDump.Writer.Records

namespace ICDump

/-- The characters of the bytes up to the next zero, if there is one. -/
def stringIn : List UInt8 → Option Str
  | [] => none
  | b :: bytes => if b = 0 then some [] else (stringIn bytes).map (Char.ofNat b.toNat :: ·)

/-- The image with the bytes `mem` at the address `base`. -/
def imageOf (base : UInt64) (sections : String → String → Option (List UInt8))
    (mem : List UInt8) : Binary where
  imagebase := base
  memoryBaseAddress := 0
  getSection := sections
  segmentFromVirtualAddress v :=
    if (v - base).toNat < mem.length then
      some
        { virtualAddress := base, virtualSize := .ofNat mem.length
          fileSize := .ofNat mem.length, content := ⟨(mem.getD · 0), mem.length⟩ }
    else none
  peekStringAt v :=
    if (v - base).toNat < mem.length then stringIn (mem.drop (v - base).toNat) else none
  hostWord _ := 0

/-- A string as the source has it: bytes, none of them zero. -/
structure CString where
  chars : Str
  isByte : ∀ c ∈ chars, 0 < c.toNat ∧ c.toNat < 256

/-- The bytes of a string, with the zero behind them. -/
def CString.bytes (s : CString) : List UInt8 := s.chars.map (fun c => .ofNat c.toNat) ++ [0]

/-- A string is read from its bytes. -/
lemma stringIn_append {chars : Str} (h : ∀ c ∈ chars, 0 < c.toNat ∧ c.toNat < 256)
    (rest : List UInt8) :
    stringIn (chars.map (fun c => .ofNat c.toNat) ++ 0 :: rest) = some chars := by
  induction chars with
  | nil => rfl
  | cons c chars ih =>
      rw [List.forall_mem_cons] at h
      have hbyte : (UInt8.ofNat c.toNat).toNat = c.toNat := by
        rw [UInt8.toNat_ofNat']
        exact Nat.mod_eq_of_lt h.1.2
      have hne : UInt8.ofNat c.toNat ≠ 0 := by
        intro hzero
        rw [hzero] at hbyte
        exact absurd hbyte.symm (Nat.ne_of_gt h.1.1)
      rw [List.map_cons, List.cons_append, stringIn, if_neg hne, ih h.2, hbyte, Char.ofNat_toNat]
      rfl

variable {base : UInt64} {sections : String → String → Option (List UInt8)} {mem : List UInt8}
  {off : ℕ}

lemma toNat_ofNat {n : ℕ} (h : n < 2 ^ 64) : (UInt64.ofNat n).toNat = n :=
  UInt64.toNat_ofNat_of_lt' h

/-! ### Reading what was written -/

/-- What was written to `mem` is read from the image at `base`. -/
structure Shows (bin : Binary) (base : UInt64) (mem : List UInt8) : Prop where
  imagebase : bin.imagebase = base
  /-- All places are within the reach of a 32-bit offset. -/
  length_lt : mem.length < 2 ^ 31
  load : ∀ {α : Type} [Layout α] [Record α] {x : α} {off : ℕ}, 0 < (Layout.size α).toNat →
    Record.bytes x <+: mem.drop off → bin.load α (base + .ofNat off) = some x
  peekStringAt : ∀ {s : CString} {off : ℕ}, s.bytes <+: mem.drop off →
    bin.peekStringAt (base + .ofNat off) = some s.chars

lemma toNat_offset (h : off < 2 ^ 64) : (base + .ofNat off - base).toNat = off := by
  rw [UInt64.add_comm, UInt64.add_sub_cancel, toNat_ofNat h]

/-- Where a block that is not empty was written, there is memory. -/
lemma lt_length_of_written {block : List UInt8} (hne : block ≠ [])
    (h : block <+: mem.drop off) : off < mem.length := by
  by_contra hle
  rw [List.drop_of_length_le (Nat.not_lt.1 hle), List.prefix_nil] at h
  exact hne h

/-- A structure is read where it was written. -/
lemma load_eq {α : Type} [Layout α] [Record α] (hmem : mem.length < 2 ^ 64) {x : α}
    (hsize : 0 < (Layout.size α).toNat) (h : Record.bytes x <+: mem.drop off) :
    (imageOf base sections mem).load α (base + .ofNat off) = some x := by
  have hoff := lt_length_of_written (bytes_ne_nil hsize x) h
  have htoNat : (base + .ofNat off - base).toNat = off := toNat_offset (by omega)
  have hseg : (imageOf base sections mem).segmentFromVirtualAddress
      (MachOStream.rOffset (imageOf base sections mem) (base + .ofNat off)) =
      some
        { virtualAddress := base, virtualSize := .ofNat mem.length
          fileSize := .ofNat mem.length, content := ⟨(mem.getD · 0), mem.length⟩ } := by
    show (if (base + .ofNat off - base).toNat < mem.length then _ else _) = _
    rw [htoNat, if_pos hoff]
  rw [Binary.load, MachOStream.readAt_of_some hseg]
  obtain ⟨rest, hrest⟩ := h
  have hbytes : (fun i => mem.getD (off + i) 0) = fun i => (Record.bytes x ++ rest).getD i 0 := by
    funext i
    rw [hrest, List.getD_eq_getElem?_getD, List.getD_eq_getElem?_getD, List.getElem?_drop]
  show some (Layout.ofBytes fun i => mem.getD ((base + .ofNat off - base).toNat + i) 0) = _
  rw [htoNat, hbytes, Record.ofBytes_bytes]

/-- A string is read where it was written. -/
lemma peekStringAt_eq (hmem : mem.length < 2 ^ 64) {s : CString}
    (h : s.bytes <+: mem.drop off) :
    (imageOf base sections mem).peekStringAt (base + .ofNat off) = some s.chars := by
  have hoff := lt_length_of_written (by simp [CString.bytes]) h
  show (if (base + .ofNat off - base).toNat < mem.length then
    stringIn (mem.drop (base + .ofNat off - base).toNat) else none) = _
  rw [toNat_offset (by omega), if_pos hoff]
  obtain ⟨rest, hrest⟩ := h
  rw [← hrest, CString.bytes, List.append_assoc]
  exact stringIn_append s.isByte rest

lemma shows_imageOf (h : mem.length < 2 ^ 31) : Shows (imageOf base sections mem) base mem where
  imagebase := rfl
  length_lt := h
  load hsize hbytes := load_eq (by omega) hsize hbytes
  peekStringAt hbytes := peekStringAt_eq (by omega) hbytes

end ICDump

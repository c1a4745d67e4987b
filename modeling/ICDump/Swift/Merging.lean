/-
Merged substitutions are read one by one (`ManglingUtils.h`, `Demangler.cpp`).

The buffer is made of blocks, and each is either something that nothing is merged with or a group of
substitutions (`Block`).  What `SubstitutionMerging` remembers is the end of the last group, as long
as nothing was written behind it (`Tracks`).  A substitution that is merged changes the last group,
so that it stands for one substitution more.  The demangler reads block by block, and for a group it
pushes the nodes of its substitutions.
-/
import ICDump.Swift.Demangling
import ICDump.Swift.Substitutions

namespace ICDump

namespace Mangle

/-! ### Merging -/

/-- How often a substitution is repeated, unless it is not. -/
def countText (n : ℕ) : List UInt8 := if n = 1 then [] else decimal n

/-- A mangler that remembers the substitution at the end of its buffer. -/
def remembered (before : List UInt8) (n : ℕ) (subst : List UInt8) (isStandardSubst : Bool) :
    Merger where
  merging := ⟨before.length, (countText n ++ subst).length, n, isStandardSubst⟩
  buffer := before ++ (countText n ++ subst)

/-- Nothing is remembered, or something was written behind it. -/
def Stale (m : Merger) : Prop :=
  m.merging.lastNumSubsts = 0 ∨
    m.merging.lastSubstPosition + m.merging.lastSubstSize < m.buffer.length

lemma isDigit_decimal (n : ℕ) : ∀ ch ∈ decimal n, isDigit ch = true := by
  rw [decimal, List.forall_mem_map]
  intro c hc
  exact (Demangler.isDigit_byte (Nat.isDigit_of_mem_toDigits (by decide) (by decide) hc)).1

lemma isDigit_countText (n : ℕ) : ∀ ch ∈ countText n, isDigit ch = true := by
  rw [countText]
  split
  · exact List.forall_mem_nil _
  · exact isDigit_decimal n

/-- The count is dropped in front of a substitution. -/
lemma dropWhile_countText {n : ℕ} {subst : List UInt8} (h : isDigit (subst.headD 0) = false) :
    (countText n ++ subst).dropWhile isDigit = subst := by
  rw [List.dropWhile_append_of_pos (isDigit_countText n)]
  cases subst with
  | nil => rfl
  | cons c subst => exact List.dropWhile_cons_of_neg (by rw [show isDigit c = false from h]; decide)

namespace Merger

variable {m : Merger} {before subst subst' : List UInt8} {n : ℕ} {isStandardSubst : Bool}
  {letter : UInt8}

/-- What is written on its own is remembered. -/
lemma mangleSubst_of_not (h : m.tryMergeSubst subst isStandardSubst =
    (false, m.remember subst isStandardSubst)) : m.mangleSubst letter subst isStandardSubst =
      remembered (m.buffer ++ [letter]) 1 subst isStandardSubst := by
  rw [mangleSubst, h]
  simp [remember, remembered, countText]

lemma mangleSubst_of_merged {m' : Merger} (h : m.tryMergeSubst subst isStandardSubst = (true, m')) :
    m.mangleSubst letter subst isStandardSubst = m' := by
  rw [mangleSubst, h]
  rfl

lemma mangleSubst_stale (h : Stale m) : m.mangleSubst letter subst isStandardSubst =
    remembered (m.buffer ++ [letter]) 1 subst isStandardSubst := by
  refine mangleSubst_of_not (if_neg ?_)
  rintro ⟨hpos, -, hlength, -⟩
  rcases h with h | h <;> omega

lemma mangleSubst_full (hn : ¬ n < maxRepeatCount) (isStandardSubst' : Bool) :
    (remembered before n subst isStandardSubst').mangleSubst letter subst' isStandardSubst =
      remembered ((remembered before n subst isStandardSubst').buffer ++ [letter]) 1 subst'
        isStandardSubst :=
  mangleSubst_of_not (if_neg fun h => hn h.2.1)

lemma mangleSubst_other {isStandardSubst' : Bool} (h : isStandardSubst' ≠ isStandardSubst) :
    (remembered before n subst isStandardSubst').mangleSubst letter subst' isStandardSubst =
      remembered ((remembered before n subst isStandardSubst').buffer ++ [letter]) 1 subst'
        isStandardSubst :=
  mangleSubst_of_not (if_neg fun hmerge => h hmerge.2.2.2)

/-- What is remembered of the last substitution is found in the buffer. -/
lemma tryMergeSubst_remembered (hn : 0 < n) (hmax : n < maxRepeatCount)
    (hdigit : isDigit (subst.headD 0) = false) :
    (remembered before n subst isStandardSubst).tryMergeSubst subst' isStandardSubst =
      if subst ≠ subst' ∧ isStandardSubst = false then
        (true,
          { merging := ⟨(before ++ (countText n ++ subst)).length, 1, 1, isStandardSubst⟩
            buffer := (before ++ (countText n ++ subst)).dropLast ++
              (subst.getLastD 0 - byte 'A' + byte 'a') :: subst' })
      else if subst = subst' then (true, remembered before (n + 1) subst isStandardSubst)
      else
        (false, (remembered before n subst isStandardSubst).remember subst' isStandardSubst) := by
  have hdrop (l : List UInt8) : (before ++ l).drop ((before ++ l).length - l.length) = l := by
    rw [List.length_append, Nat.add_sub_cancel, List.drop_left]
  rw [tryMergeSubst, if_pos ⟨hn, hmax, by simp [remembered], rfl⟩]
  dsimp only [remembered]
  rw [hdrop, dropWhile_countText hdigit, List.dropLast_eq_take, List.take_left]
  have hcount : countText (n + 1) = decimal (n + 1) := if_neg (by omega)
  split
  · rfl
  · split
    · rename_i heq
      rw [heq, hcount, List.append_assoc before, List.length_append, Nat.add_sub_cancel_left]
    · rfl

lemma mangleSubst_repeat (hn : 0 < n) (hmax : n < maxRepeatCount)
    (hdigit : isDigit (subst.headD 0) = false) :
    (remembered before n subst isStandardSubst).mangleSubst letter subst isStandardSubst =
      remembered before (n + 1) subst isStandardSubst := by
  refine mangleSubst_of_merged ?_
  rw [tryMergeSubst_remembered hn hmax hdigit, if_neg fun h => h.1 rfl, if_pos rfl]

lemma mangleSubst_next (hn : 0 < n) (hmax : n < maxRepeatCount)
    (hdigit : isDigit (subst.headD 0) = false) (hne : subst ≠ subst') :
    (remembered before n subst false).mangleSubst letter subst' false =
      { merging := ⟨(before ++ (countText n ++ subst)).length, 1, 1, false⟩
        buffer := (before ++ (countText n ++ subst)).dropLast ++
          (subst.getLastD 0 - byte 'A' + byte 'a') :: subst' } := by
  refine mangleSubst_of_merged ?_
  rw [tryMergeSubst_remembered hn hmax hdigit, if_pos ⟨hne, rfl⟩]

lemma mangleSubst_differs (hn : 0 < n) (hmax : n < maxRepeatCount)
    (hdigit : isDigit (subst.headD 0) = false) (hne : subst ≠ subst') :
    (remembered before n subst true).mangleSubst letter subst' true =
      remembered ((remembered before n subst true).buffer ++ [letter]) 1 subst' true := by
  refine mangleSubst_of_not ?_
  rw [tryMergeSubst_remembered hn hmax hdigit, if_neg fun h => absurd h.2 (by decide), if_neg hne]

end Merger

/-! ### Blocks -/

open Demangler (Nodes)

/-- What a name is made of: substitutions, standard types, and other operators, each with its text
and what it does with the nodes. -/
inductive Item (ν : Type)
  | subst (idx : ℕ)
  | standard (t : StandardType)
  | operator (text : List UInt8) (act : Nodes ν → Option (ν × Nodes ν))

/-- An item is mangled. -/
def Merger.mangleItem {ν : Type} (m : Merger) : Item ν → Merger
  | .subst idx => m.mangleSubstitution idx
  | .standard t => (m.mangleStandardSubstitution t.typeName).getD m
  | .operator text _ => { m with buffer := m.buffer ++ text }

/-- The small and the capital letter of a substitution. -/
def lower (i : ℕ) : UInt8 := .ofNat (i + 'a'.toNat)

/-- The capital letter of a substitution. -/
def upper (i : ℕ) : UInt8 := .ofNat (i + 'A'.toNat)

/-- Items that are written together: repeated substitutions, a repeated standard type, or another
item. -/
inductive Block (ν : Type)
  | letters (front : List (ℕ × ℕ)) (n i : ℕ)
  | standard (n : ℕ) (t : StandardType)
  | index (idx : ℕ)
  | operator (text : List UInt8) (act : Nodes ν → Option (ν × Nodes ν))

/-- The small letters of a group. -/
def frontText (front : List (ℕ × ℕ)) : List UInt8 :=
  front.flatMap fun g => countText g.1 ++ [lower g.2]

namespace Block

variable {ν : Type}

def text : Block ν → List UInt8
  | letters front n i => byte 'A' :: (frontText front ++ (countText n ++ [upper i]))
  | standard n t => byte 'S' :: (countText n ++ t.subst)
  | index idx => byte 'A' :: Merger.mangleIndex (idx - 26)
  | operator w _ => w

def items : Block ν → List (Item ν)
  | letters front n i =>
      (front ++ [(n, i)]).flatMap fun g => List.replicate g.1 (.subst g.2)
  | standard n t => List.replicate n (.standard t)
  | index idx => [.subst idx]
  | operator w act => [.operator w act]

end Block

section

variable {ν : Type} {pre : List UInt8} {m : Merger} {blocks : List (Block ν)}

/-- The mangler has written blocks behind `pre`, and it remembers the last one if it can be merged
with. -/
inductive Tracks (pre : List UInt8) (m : Merger) : List (Block ν) → Prop
  | stale {blocks : List (Block ν)} (hbuffer : m.buffer = pre ++ blocks.flatMap Block.text)
      (hstale : Stale m) : Tracks pre m blocks
  | letters {blocks : List (Block ν)} {front : List (ℕ × ℕ)} {n i : ℕ}
      (hm : m = remembered (pre ++ blocks.flatMap Block.text ++ byte 'A' :: frontText front) n
        [upper i] false) : Tracks pre m (blocks ++ [.letters front n i])
  | standard {blocks : List (Block ν)} {n : ℕ} {t : StandardType}
      (hm : m = remembered (pre ++ blocks.flatMap Block.text ++ [byte 'S']) n t.subst true) :
      Tracks pre m (blocks ++ [.standard n t])

lemma Tracks.buffer (h : Tracks pre m blocks) : m.buffer = pre ++ blocks.flatMap Block.text := by
  cases h with
  | stale hbuffer _ => exact hbuffer
  | letters hm =>
      rw [hm, remembered, List.flatMap_append, List.flatMap_singleton, Block.text]
      simp
  | standard hm =>
      rw [hm, remembered, List.flatMap_append, List.flatMap_singleton, Block.text]
      simp

lemma stale_remembered {before subst w : List UInt8} {n : ℕ} {isStandardSubst : Bool}
    (hw : w ≠ []) : Stale { remembered before n subst isStandardSubst with
      buffer := (remembered before n subst isStandardSubst).buffer ++ w } := by
  have hpos := List.length_pos_iff.2 hw
  refine Or.inr ?_
  show before.length + (countText n ++ subst).length <
    (before ++ (countText n ++ subst) ++ w).length
  generalize countText n ++ subst = last
  rw [List.length_append, List.length_append]
  omega

lemma Tracks.stale_append (h : Tracks pre m blocks) {w : List UInt8} (hw : w ≠ []) :
    Stale { m with buffer := m.buffer ++ w } := by
  cases h with
  | stale _ hstale =>
      rcases hstale with hstale | hstale
      · exact Or.inl hstale
      · refine Or.inr (hstale.trans_le ?_)
        dsimp only
        rw [List.length_append]
        exact Nat.le_add_right _ _
  | letters hm =>
      rw [hm]
      exact stale_remembered hw
  | standard hm =>
      rw [hm]
      exact stale_remembered hw

/-- Something else is written behind the blocks. -/
lemma Tracks.append (h : Tracks pre m blocks) {b : Block ν} (hb : b.text ≠ []) :
    Tracks pre { m with buffer := m.buffer ++ b.text } (blocks ++ [b]) := by
  refine .stale ?_ (h.stale_append hb)
  rw [List.flatMap_append, List.flatMap_singleton, ← List.append_assoc, ← h.buffer]

/-- A group is started behind the blocks. -/
lemma Tracks.startLetters (h : Tracks pre m blocks) (i : ℕ) :
    Tracks pre (remembered (m.buffer ++ [byte 'A']) 1 [upper i] false)
      (blocks ++ [.letters [] 1 i]) :=
  .letters (by rw [h.buffer]; rfl)

lemma Tracks.startStandard (h : Tracks pre m blocks) (t : StandardType) :
    Tracks pre (remembered (m.buffer ++ [byte 'S']) 1 t.subst true)
      (blocks ++ [.standard 1 t]) :=
  .standard (by rw [h.buffer])

/-! ### Groups grow -/

lemma upper_spec {i : ℕ} (hi : i < 26) : isDigit ([upper i].headD 0) = false ∧
    [upper i].getLastD 0 - byte 'A' + byte 'a' = lower i := by
  have hall : ∀ i < 26, isDigit (upper i) = false ∧ upper i - byte 'A' + byte 'a' = lower i := by
    decide
  exact hall i hi

lemma upper_inj {i j : ℕ} (hi : i < 26) (hj : j < 26) (h : upper i = upper j) : i = j := by
  have hall : ∀ i < 26, ∀ j < 26, upper i = upper j → i = j := by decide
  exact hall i hi j hj h

/-- Another letter comes behind a small letter. -/
lemma mangleSubst_letters {before : List UInt8} {front : List (ℕ × ℕ)} {n i j : ℕ} (hi : i < 26)
    (hj : j < 26) (hij : i ≠ j) (hn : 0 < n) (hmax : n < maxRepeatCount) :
    (remembered (before ++ byte 'A' :: frontText front) n [upper i] false).mangleSubst (byte 'A')
        [upper j] false =
      remembered (before ++ byte 'A' :: frontText (front ++ [(n, i)])) 1 [upper j] false := by
  obtain ⟨hdigit, hlower⟩ := upper_spec hi
  have hne : [upper i] ≠ [upper j] := fun h => hij (upper_inj hi hj (List.cons.inj h).1)
  rw [Merger.mangleSubst_next hn hmax hdigit hne, hlower, ← List.append_assoc,
    List.dropLast_concat]
  simp [remembered, frontText, countText, Nat.add_assoc]

/-- A group of letters that the demangler accepts. -/
def Counted (g : ℕ × ℕ) : Prop := 0 < g.1 ∧ g.1 ≤ maxRepeatCount ∧ g.2 < 26

lemma counted_one {i : ℕ} (hi : i < 26) : Counted (1, i) :=
  ⟨Nat.one_pos, show 1 ≤ maxRepeatCount by decide, hi⟩

/-- Blocks that the mangler writes. -/
def Block.Sound (Reads : List UInt8 → (Nodes ν → Option (ν × Nodes ν)) → Prop) : Block ν → Prop
  | .letters front n i => ∀ g ∈ front ++ [(n, i)], Counted g
  | .standard n t => 0 < n ∧ n ≤ maxRepeatCount ∧ t ∈ standardTypes
  | .index idx => 26 ≤ idx ∧ idx ≤ Punycode.intMax
  | .operator text act => Reads text act

/-- The mangler has written these items. -/
def Wrote (Reads : List UInt8 → (Nodes ν → Option (ν × Nodes ν)) → Prop) (pre : List UInt8)
    (m : Merger) (items : List (Item ν)) : Prop :=
  ∃ blocks, Tracks pre m blocks ∧ (∀ b ∈ blocks, b.Sound Reads) ∧
    blocks.flatMap Block.items = items

section

variable {Reads : List UInt8 → (Nodes ν → Option (ν × Nodes ν)) → Prop} {items : List (Item ν)}

lemma Wrote.letter (h : Wrote Reads pre m items) {i : ℕ} (hi : i < 26) :
    Wrote Reads pre (m.mangleSubst (byte 'A') [upper i] false) (items ++ [.subst i]) := by
  obtain ⟨blocks, htracks, hsound, rfl⟩ := h
  have hstart (hm : m.mangleSubst (byte 'A') [upper i] false =
      remembered (m.buffer ++ [byte 'A']) 1 [upper i] false) :
      Wrote Reads pre (m.mangleSubst (byte 'A') [upper i] false)
        (blocks.flatMap Block.items ++ [.subst i]) := by
    refine ⟨_, by rw [hm]; exact htracks.startLetters i, ?_, ?_⟩
    · refine List.forall_mem_append.2 ⟨hsound, List.forall_mem_singleton.2 ?_⟩
      exact List.forall_mem_singleton.2 (counted_one hi)
    · rw [List.flatMap_append, List.flatMap_singleton]
      rfl
  cases htracks with
  | stale _ hstale => exact hstart (Merger.mangleSubst_stale hstale)
  | standard hm =>
      subst hm
      exact hstart (Merger.mangleSubst_other (by decide))
  | @letters blocks front n j hm =>
      subst hm
      obtain ⟨hsound, hletters⟩ := List.forall_mem_append.1 hsound
      have hcounted : ∀ g ∈ front ++ [(n, j)], Counted g := hletters _ List.mem_cons_self
      obtain ⟨hfront, hlast⟩ := List.forall_mem_append.1 hcounted
      obtain ⟨hn, hle, hj⟩ := List.forall_mem_singleton.1 hlast
      by_cases hmax : n < maxRepeatCount
      · by_cases hij : j = i
        · subst hij
          rw [Merger.mangleSubst_repeat hn hmax (upper_spec hi).1]
          refine ⟨_, .letters rfl, ?_, ?_⟩
          · refine List.forall_mem_append.2 ⟨hsound, List.forall_mem_singleton.2 ?_⟩
            exact List.forall_mem_append.2 ⟨hfront,
              List.forall_mem_singleton.2 ⟨Nat.succ_pos n, hmax, hi⟩⟩
          · simp [Block.items, List.replicate_succ']
        · rw [mangleSubst_letters hj hi hij hn hmax]
          refine ⟨_, .letters rfl, ?_, ?_⟩
          · refine List.forall_mem_append.2 ⟨hsound, List.forall_mem_singleton.2 ?_⟩
            exact List.forall_mem_append.2 ⟨hcounted,
              List.forall_mem_singleton.2 (counted_one hi)⟩
          · simp [Block.items]
      · exact hstart (Merger.mangleSubst_full hmax false)

/-- Every standard type has a name of its own and letters of its own, which do not start with a
digit. -/
lemma standardTypes_spec {t : StandardType} (ht : t ∈ standardTypes) :
    getStandardTypeSubst t.typeName true = some t.subst ∧ isDigit (t.subst.headD 0) = false ∧
      t.subst ≠ [] ∧ ∀ t' ∈ standardTypes, t.subst = t'.subst → t = t' := by
  have hall : ∀ t ∈ standardTypes, getStandardTypeSubst t.typeName true = some t.subst ∧
      isDigit (t.subst.headD 0) = false ∧ t.subst ≠ [] ∧
      ∀ t' ∈ standardTypes, t.subst = t'.subst → t = t' := by decide +kernel
  exact hall t ht

lemma Wrote.standard (h : Wrote Reads pre m items) {t : StandardType} (ht : t ∈ standardTypes) :
    Wrote Reads pre (m.mangleSubst (byte 'S') t.subst true) (items ++ [.standard t]) := by
  obtain ⟨blocks, htracks, hsound, rfl⟩ := h
  have hstart (hm : m.mangleSubst (byte 'S') t.subst true =
      remembered (m.buffer ++ [byte 'S']) 1 t.subst true) :
      Wrote Reads pre (m.mangleSubst (byte 'S') t.subst true)
        (blocks.flatMap Block.items ++ [.standard t]) := by
    refine ⟨_, by rw [hm]; exact htracks.startStandard t, ?_, ?_⟩
    · exact List.forall_mem_append.2
        ⟨hsound, List.forall_mem_singleton.2 ⟨Nat.one_pos, by decide, ht⟩⟩
    · rw [List.flatMap_append, List.flatMap_singleton]
      rfl
  cases htracks with
  | stale _ hstale => exact hstart (Merger.mangleSubst_stale hstale)
  | letters hm =>
      subst hm
      exact hstart (Merger.mangleSubst_other (by decide))
  | @standard blocks n t' hm =>
      subst hm
      obtain ⟨hsound, hstandard⟩ := List.forall_mem_append.1 hsound
      obtain ⟨hn, hle, ht'⟩ := hstandard _ List.mem_cons_self
      obtain ⟨-, hdigit, -, hinj⟩ := standardTypes_spec ht'
      by_cases hmax : n < maxRepeatCount
      · by_cases heq : t'.subst = t.subst
        · obtain rfl := hinj t ht heq
          rw [Merger.mangleSubst_repeat hn hmax hdigit]
          refine ⟨_, .standard rfl, ?_, ?_⟩
          · exact List.forall_mem_append.2
              ⟨hsound, List.forall_mem_singleton.2 ⟨Nat.succ_pos n, hmax, ht⟩⟩
          · simp [Block.items, List.replicate_succ']
        · exact hstart (Merger.mangleSubst_differs hn hmax hdigit heq)
      · exact hstart (Merger.mangleSubst_full hmax true)

/-- What the mangler can be given. -/
def Item.Valid (Reads : List UInt8 → (Nodes ν → Option (ν × Nodes ν)) → Prop) : Item ν → Prop
  | .subst idx => idx ≤ Punycode.intMax
  | .standard t => t ∈ standardTypes
  | .operator text act => Reads text act

lemma Wrote.append (h : Wrote Reads pre m items) {b : Block ν} (hb : b.text ≠ [])
    (hsound : b.Sound Reads) :
    Wrote Reads pre { m with buffer := m.buffer ++ b.text } (items ++ b.items) := by
  obtain ⟨blocks, htracks, hblocks, rfl⟩ := h
  refine ⟨_, htracks.append hb, ?_, ?_⟩
  · exact List.forall_mem_append.2 ⟨hblocks, List.forall_mem_singleton.2 hsound⟩
  · rw [List.flatMap_append, List.flatMap_singleton]

/-- **An item more is written.** -/
lemma Wrote.mangleItem (hreads : ∀ text act, Reads text act → text ≠ [])
    (h : Wrote Reads pre m items) {item : Item ν} (hitem : item.Valid Reads) :
    Wrote Reads pre (m.mangleItem item) (items ++ [item]) := by
  cases item with
  | subst idx =>
      rw [Merger.mangleItem, Merger.mangleSubstitution]
      split
      · rename_i hidx
        exact h.append (b := .index idx) (List.cons_ne_nil _ _) ⟨hidx, hitem⟩
      · rename_i hidx
        exact h.letter (not_le.1 hidx)
  | standard t =>
      obtain ⟨hsubst, -⟩ := standardTypes_spec hitem
      rw [Merger.mangleItem, Merger.mangleStandardSubstitution, hsubst]
      exact h.standard hitem
  | operator text act =>
      exact h.append (b := .operator text act) (hreads text act hitem) hitem

/-- All items are written. -/
lemma Wrote.mangleItems (hreads : ∀ text act, Reads text act → text ≠ [])
    (h : Wrote Reads pre m items) {items' : List (Item ν)}
    (hitems : ∀ item ∈ items', item.Valid Reads) :
    Wrote Reads pre (items'.foldl Merger.mangleItem m) (items ++ items') := by
  induction items' generalizing m items with
  | nil =>
      rw [List.append_nil]
      exact h
  | cons item items' ih =>
      obtain ⟨hitem, hitems'⟩ := List.forall_mem_cons.1 hitems
      have hrest := ih (h.mangleItem hreads hitem) hitems'
      rwa [List.append_assoc, List.singleton_append] at hrest

end

end

end Mangle

open Mangle

namespace Demangler

/-! ### Pushing -/

section

variable {ν : Type} (createSwiftType : Kind → String → ν)

/-- What an item does with the nodes: it pushes one. -/
def applyItem (nodes : Nodes ν) : Item ν → Option (Nodes ν)
  | .subst idx => nodes.substitutions[idx]?.map nodes.pushNode
  | .standard t => some (nodes.pushNode (createSwiftType t.kind t.typeName))
  | .operator _ act => (act nodes).map fun r => r.2.pushNode r.1

/-- What items do with the nodes, one after another. -/
def applyItems (items : List (Item ν)) (nodes : Nodes ν) : Option (Nodes ν) :=
  items.foldlM (applyItem createSwiftType) nodes

variable {createSwiftType}

lemma applyItems_append (items items' : List (Item ν)) (nodes : Nodes ν) :
    applyItems createSwiftType (items ++ items') nodes =
      (applyItems createSwiftType items nodes).bind (applyItems createSwiftType items') :=
  List.foldlM_append

/-- A node is pushed `n` times. -/
def Nodes.pushTimes (nodes : Nodes ν) (n : ℕ) (nd : ν) : Nodes ν :=
  { nodes with nodeStack := nodes.nodeStack ++ List.replicate n nd }

/-- The same node is pushed again and again, as nothing else changes. -/
lemma applyItems_replicate {item : Item ν} {nodes : Nodes ν} {nd : ν}
    (h : ∀ stack, applyItem createSwiftType { nodes with nodeStack := stack } item =
      some (Nodes.pushNode { nodes with nodeStack := stack } nd)) (n : ℕ) :
    applyItems createSwiftType (List.replicate n item) nodes = some (nodes.pushTimes n nd) := by
  induction n with
  | zero => simp [applyItems, Nodes.pushTimes]
  | succ n ih =>
      rw [List.replicate_succ', applyItems_append, ih]
      show (applyItem createSwiftType (nodes.pushTimes n nd) item).bind some = _
      rw [Nodes.pushTimes, h, Option.bind_some, Nodes.pushNode, Nodes.pushTimes,
        List.replicate_succ', List.append_assoc]

/-- How often a substitution is repeated, as the demangler has it. -/
def countOf (n : ℕ) : Option ℕ := if n = 1 then none else some n

lemma getD_countOf (n : ℕ) : (countOf n).getD 0 = if n = 1 then 0 else n := by
  rw [countOf]
  split <;> rfl

lemma getD_countOf_le (n : ℕ) : (countOf n).getD 0 ≤ n := by
  rw [getD_countOf]
  split <;> omega

/-- With the push of the caller, a node is pushed as often as it is repeated. -/
lemma pushRepeated_pushNode {n : ℕ} (hn : 0 < n) (nodes : Nodes ν) (nd : ν) :
    (nodes.pushRepeated ((countOf n).getD 0) nd).pushNode nd = nodes.pushTimes n nd := by
  obtain ⟨n, rfl⟩ := Nat.exists_eq_succ_of_ne_zero hn.ne'
  have hcount : (countOf (n + 1)).getD 0 - 1 = n := by
    rw [getD_countOf]
    split <;> omega
  rw [Nodes.pushRepeated, hcount, Nodes.pushNode, Nodes.pushTimes, List.replicate_succ',
    List.append_assoc]

/-- The node of a substitution is pushed as often as it is repeated. -/
lemma pushMultiSubstitutions_eq {n i : ℕ} (h : Counted (n, i)) (nodes : Nodes ν) :
    (nodes.pushMultiSubstitutions (countOf n) i).map (fun r => r.2.pushNode r.1) =
      applyItems createSwiftType (List.replicate n (.subst i)) nodes := by
  obtain ⟨hn, hle, -⟩ := h
  rw [Nodes.pushMultiSubstitutions]
  cases hnd : nodes.substitutions[i]? with
  | none =>
      obtain ⟨n, rfl⟩ := Nat.exists_eq_succ_of_ne_zero hn.ne'
      have hnone : applyItem createSwiftType nodes (.subst i) = none := by
        rw [applyItem, hnd]
        rfl
      rw [List.replicate_succ, applyItems, List.foldlM_cons, hnone]
      rfl
  | some nd =>
      have happly : applyItems createSwiftType (List.replicate n (.subst i)) nodes =
          some (nodes.pushTimes n nd) :=
        applyItems_replicate (fun stack => by rw [applyItem, hnd]; rfl) n
      dsimp only
      rw [if_neg (Nat.not_lt.2 ((getD_countOf_le n).trans hle)), Option.map_some,
        pushRepeated_pushNode hn, happly]

/-! ### Reading groups -/

lemma isDigit_spec {c : UInt8} (h : Mangle.isDigit c = true) :
    c ≠ 0 ∧ isLowerLetter c = false ∧ isUpperLetter c = false ∧ c ≠ byte '_' := by
  have hall : ∀ n < 256, Mangle.isDigit (.ofNat n) = true → UInt8.ofNat n ≠ 0 ∧
      isLowerLetter (.ofNat n) = false ∧ isUpperLetter (.ofNat n) = false ∧
      UInt8.ofNat n ≠ byte '_' := by decide +kernel
  rw [← UInt8.ofNat_toNat (x := c)] at h ⊢
  exact hall c.toNat c.toNat_lt h

lemma lower_spec {i : ℕ} (hi : i < 26) : lower i ≠ 0 ∧ isLowerLetter (lower i) = true ∧
    (lower i).toNat - 'a'.toNat = i ∧ Mangle.isDigit (lower i) = false := by
  have hall : ∀ i < 26, lower i ≠ 0 ∧ isLowerLetter (lower i) = true ∧
    (lower i).toNat - 'a'.toNat = i ∧ Mangle.isDigit (lower i) = false := by decide
  exact hall i hi

lemma upper_letter {i : ℕ} (hi : i < 26) : upper i ≠ 0 ∧ isLowerLetter (upper i) = false ∧
    isUpperLetter (upper i) = true ∧ (upper i).toNat - 'A'.toNat = i := by
  have hall : ∀ i < 26, upper i ≠ 0 ∧ isLowerLetter (upper i) = false ∧
    isUpperLetter (upper i) = true ∧ (upper i).toNat - 'A'.toNat = i := by decide
  exact hall i hi

variable {nodes : Nodes ν} {text : List UInt8} {bound n i : ℕ}

/-- A number is read in front of a letter. -/
lemma multiSubstitutions_decimal (hle : n ≤ Punycode.intMax) {rest : List UInt8}
    (hrest : Mangle.isDigit (rest.headD 0) = false) (repeatCount : Option ℕ) :
    multiSubstitutions (bound + 1) repeatCount (decimal n ++ rest) nodes =
      multiSubstitutions bound (some n) rest nodes := by
  obtain ⟨c, cs, hcs, hdigit, -⟩ := decimal_eq_cons n
  obtain ⟨hzero, hlower, hupper, hline⟩ := isDigit_spec hdigit
  have hnat := demangleNatural_decimal hle hrest
  rw [hcs] at hnat ⊢
  rw [List.cons_append] at hnat ⊢
  rw [multiSubstitutions, if_neg hzero, if_neg (by rw [hlower]; decide),
    if_neg (by rw [hupper]; decide), if_neg hline, hnat]

/-- The loop comes to the letter of a group. -/
lemma multiSubstitutions_count (h : Counted (n, i)) {c : UInt8} (hc : Mangle.isDigit c = false)
    (hbound : (countText n ++ c :: text).length < bound) :
    ∃ bound', text.length < bound' ∧
      multiSubstitutions bound none (countText n ++ c :: text) nodes =
      multiSubstitutions (bound' + 1) (countOf n) (c :: text) nodes := by
  obtain ⟨hn, hle, -⟩ := h
  have hmax : n ≤ Punycode.intMax := hle.trans (by decide)
  rw [List.length_append, List.length_cons] at hbound
  rw [countText, countOf] at *
  split_ifs at hbound ⊢ with h1
  · obtain ⟨bound, rfl⟩ := Nat.exists_eq_succ_of_ne_zero (Nat.ne_zero_of_lt hbound)
    exact ⟨bound, by rw [List.length_nil] at hbound; omega, rfl⟩
  · have hpos : 0 < (decimal n).length := by
      obtain ⟨d, ds, hds, -, -⟩ := decimal_eq_cons n
      rw [hds]
      exact Nat.succ_pos _
    obtain ⟨bound, rfl⟩ := Nat.exists_eq_add_of_lt (show 1 < bound by omega)
    refine ⟨bound, by omega, ?_⟩
    have hrest : Mangle.isDigit ((c :: text).headD 0) = false := hc
    rw [show 1 + bound + 1 = (bound + 1) + 1 by omega]
    exact multiSubstitutions_decimal hmax hrest none

lemma multiSubstitutions_lower (hi : i < 26) (repeatCount : Option ℕ) :
    multiSubstitutions (bound + 1) repeatCount (lower i :: text) nodes =
      ((nodes.pushMultiSubstitutions repeatCount i).map fun r => r.2.pushNode r.1).bind
        (multiSubstitutions bound none text) := by
  obtain ⟨hzero, hlower, hnat, -⟩ := lower_spec hi
  rw [multiSubstitutions, if_neg hzero, if_pos hlower, hnat]
  cases nodes.pushMultiSubstitutions repeatCount i with
  | none => rfl
  | some r => rfl

lemma multiSubstitutions_upper (hi : i < 26) (repeatCount : Option ℕ) :
    multiSubstitutions (bound + 1) repeatCount (upper i :: text) nodes =
      (nodes.pushMultiSubstitutions repeatCount i).map (·, text) := by
  obtain ⟨hzero, hlower, hupper, hnat⟩ := upper_letter hi
  rw [multiSubstitutions, if_neg hzero, if_neg (by rw [hlower]; decide), if_pos hupper, hnat]

/-- All groups up to the capital letter are read. -/
lemma multiSubstitutions_letters {front : List (ℕ × ℕ)}
    (h : ∀ g ∈ front ++ [(n, i)], Counted g)
    (hbound : (frontText front ++ (countText n ++ upper i :: text)).length < bound) :
    (multiSubstitutions bound none (frontText front ++ (countText n ++ upper i :: text)) nodes).map
        (fun r => (r.1.2.pushNode r.1.1, r.2)) =
      (applyItems createSwiftType
        ((front ++ [(n, i)]).flatMap fun g => List.replicate g.1 (.subst g.2)) nodes).map
          (·, text) := by
  induction front generalizing bound nodes with
  | nil =>
      have hcounted := List.forall_mem_singleton.1 h
      have hi : i < 26 := hcounted.2.2
      have hdigit : Mangle.isDigit (upper i) = false := (upper_spec hi).1
      obtain ⟨bound', -, heq⟩ := multiSubstitutions_count hcounted hdigit hbound
      show (multiSubstitutions bound none (countText n ++ upper i :: text) nodes).map _ = _
      rw [heq, multiSubstitutions_upper hi, List.nil_append, List.flatMap_singleton,
        ← pushMultiSubstitutions_eq hcounted]
      cases nodes.pushMultiSubstitutions (countOf n) i <;> rfl
  | cons g front ih =>
      obtain ⟨k, j⟩ := g
      obtain ⟨hcounted, hrest⟩ := List.forall_mem_cons.1 h
      have hj : j < 26 := hcounted.2.2
      have htext : frontText ((k, j) :: front) ++ (countText n ++ upper i :: text) =
          countText k ++ lower j :: (frontText front ++ (countText n ++ upper i :: text)) := by
        simp [frontText]
      rw [htext] at hbound ⊢
      obtain ⟨bound', hbound', heq⟩ :=
        multiSubstitutions_count hcounted (lower_spec hj).2.2.2 hbound
      rw [heq, multiSubstitutions_lower hj, List.cons_append, List.flatMap_cons, applyItems_append,
        pushMultiSubstitutions_eq hcounted, Option.map_bind, Option.map_bind]
      refine Option.bind_congr fun nodes' _ => ?_
      exact ih hrest hbound'

/-- A number that is too large for a letter is read. -/
lemma multiSubstitutions_index {idx : ℕ} (hidx : 26 ≤ idx) (hmax : idx ≤ Punycode.intMax) :
    multiSubstitutions (bound + 2) none (Merger.mangleIndex (idx - 26) ++ text) nodes =
      nodes.substitutions[idx]?.map fun nd => ((nd, nodes), text) := by
  have hline (bound : ℕ) (repeatCount : Option ℕ) :
      multiSubstitutions (bound + 1) repeatCount (byte '_' :: text) nodes =
        nodes.substitutions[largeIdx repeatCount]?.map fun nd => ((nd, nodes), text) := rfl
  rw [Merger.mangleIndex]
  split
  · obtain rfl : idx = 26 := by omega
    exact hline _ none
  · have hrest : Mangle.isDigit ((byte '_' :: text).headD 0) = false := rfl
    rw [List.append_assoc, List.singleton_append]
    rw [multiSubstitutions_decimal (by omega) hrest, hline, largeIdx]
    congr 2
    omega

/-! ### Reading standard types -/

/-- The letters of a standard type are no others. -/
lemma standardTypes_letters (createSwiftType : Kind → String → ν) {t : StandardType}
    (ht : t ∈ standardTypes) :
    isSpecial (t.subst.headD 0) = false ∧ (t.subst.headD 0 == byte 'c') = t.secondLevel ∧
      createStandardSubstitution createSwiftType (byte t.mangling) t.secondLevel =
        some (createSwiftType t.kind t.typeName) := by
  have hall : ∀ t ∈ standardTypes, isSpecial (t.subst.headD 0) = false ∧
      (t.subst.headD 0 == byte 'c') = t.secondLevel ∧
      standardTypes.find? (fun t' => t.secondLevel == t'.secondLevel &&
        byte t.mangling == byte t'.mangling) = some t := by decide +kernel
  obtain ⟨hspecial, hsecond, hfind⟩ := hall t ht
  refine ⟨hspecial, hsecond, ?_⟩
  rw [createStandardSubstitution, hfind]
  rfl

lemma isSpecial_of_isDigit {c : UInt8} (h : Mangle.isDigit c = true) : isSpecial c = false := by
  have hall : ∀ n < 256, Mangle.isDigit (.ofNat n) = true → isSpecial (.ofNat n) = false := by
    decide +kernel
  rw [← UInt8.ofNat_toNat (x := c)] at h ⊢
  exact hall c.toNat c.toNat_lt h

/-- Neither a number nor a standard type is something else. -/
lemma isSpecial_count {t : StandardType} (ht : t ∈ standardTypes) (n : ℕ) (text : List UInt8) :
    isSpecial (peekChar (countText n ++ (t.subst ++ text))) = false := by
  rw [countText]
  split
  · obtain ⟨-, -, hne, -⟩ := standardTypes_spec ht
    obtain ⟨hspecial, -⟩ := standardTypes_letters (fun _ _ => ()) ht
    obtain ⟨c, cs, hcs⟩ := List.exists_cons_of_ne_nil hne
    rw [hcs] at hspecial ⊢
    exact hspecial
  · obtain ⟨c, cs, hcs, hdigit, -⟩ := decimal_eq_cons n
    rw [hcs]
    exact isSpecial_of_isDigit hdigit

lemma readRepeatCount_count {n : ℕ} (hmax : n ≤ Punycode.intMax) {rest : List UInt8}
    (hrest : Mangle.isDigit (rest.headD 0) = false) :
    readRepeatCount (countText n ++ rest) = some ((countOf n).getD 0, rest) := by
  rw [readRepeatCount, countText, countOf]
  split
  · exact if_neg (by rw [show Mangle.isDigit (peekChar ([] ++ rest)) = false from hrest]; decide)
  · obtain ⟨c, cs, hcs, hdigit, -⟩ := decimal_eq_cons n
    have hpeek : Mangle.isDigit (peekChar (decimal n ++ rest)) = true := by rwa [hcs]
    rw [if_pos hpeek, demangleNatural_decimal hmax hrest]
    rfl

/-- A standard type is read, and is pushed as often as it is repeated. -/
lemma demangleStandardSubstitution_eq {t : StandardType} (ht : t ∈ standardTypes) (hn : 0 < n)
    (hle : n ≤ maxRepeatCount) :
    (demangleStandardSubstitution createSwiftType (countText n ++ (t.subst ++ text)) nodes).map
        (fun r => (r.1.2.pushNode r.1.1, r.2)) =
      (applyItems createSwiftType (List.replicate n (.standard t)) nodes).map (·, text) := by
  obtain ⟨-, hdigit, hne, -⟩ := standardTypes_spec ht
  obtain ⟨-, hsecond, hcreate⟩ := standardTypes_letters createSwiftType ht
  have hhead : (t.subst ++ text).headD 0 = t.subst.headD 0 := by
    obtain ⟨c, cs, hcs⟩ := List.exists_cons_of_ne_nil hne
    rw [hcs]
    rfl
  have happly : applyItems createSwiftType (List.replicate n (.standard t)) nodes =
      some (nodes.pushTimes n (createSwiftType t.kind t.typeName)) :=
    applyItems_replicate (fun _ => rfl) n
  have htext : (if t.secondLevel then (t.subst ++ text).tail else t.subst ++ text) =
      byte t.mangling :: text := by
    rw [StandardType.subst]
    split <;> rfl
  rw [demangleStandardSubstitution, readRepeatCount_count (hle.trans (by decide))
    (by rw [hhead]; exact hdigit), happly]
  dsimp only
  rw [if_neg (Nat.not_lt.2 ((getD_countOf_le n).trans hle)), peekChar, hhead, hsecond, htext]
  dsimp only
  rw [hcreate, Option.map_some, Option.map_some, pushRepeated_pushNode hn]
  rfl

/-! ### Reading names -/

variable (operator : List UInt8 → Nodes ν → Option ((ν × Nodes ν) × List UInt8))

/-- An operator that is no substitution, whatever follows, is read up to its end. -/
structure ReadsAs (w : List UInt8) (act : Nodes ν → Option (ν × Nodes ν)) : Prop where
  ne_nil : w ≠ []
  ne_subst (rest : List UInt8) : peekChar (w ++ rest) ≠ byte 'A'
  ne_standard (rest : List UInt8) :
    ¬ (peekChar (w ++ rest) = byte 'S' ∧ isSpecial (peekChar (w ++ rest).tail) = false)
  reads (rest : List UInt8) (nodes : Nodes ν) :
    operator (w ++ rest) nodes = (act nodes).map (·, rest)

variable {operator}

lemma demangleOperator_multi (text : List UInt8) (nodes : Nodes ν) :
    demangleOperator createSwiftType operator (byte 'A' :: text) nodes =
      demangleMultiSubstitutions text nodes := if_pos rfl

lemma demangleOperator_standard (h : isSpecial (peekChar text) = false) :
    demangleOperator createSwiftType operator (byte 'S' :: text) nodes =
      demangleStandardSubstitution createSwiftType text nodes :=
  (if_neg (show ¬ byte 'S' = byte 'A' by decide)).trans (if_pos ⟨rfl, h⟩)

/-- A block is read, and does what its items do. -/
lemma demangleOperator_block {b : Block ν} (hb : b.Sound (ReadsAs operator)) :
    (demangleOperator createSwiftType operator (b.text ++ text) nodes).map
        (fun r => (r.1.2.pushNode r.1.1, r.2)) =
      (applyItems createSwiftType b.items nodes).map (·, text) := by
  cases b with
  | letters front n i =>
      have htext : (Block.letters front n i : Block ν).text ++ text =
          byte 'A' :: (frontText front ++ (countText n ++ upper i :: text)) := by
        simp [Block.text]
      rw [htext, demangleOperator_multi]
      exact multiSubstitutions_letters hb (Nat.lt_succ_self _)
  | standard n t =>
      obtain ⟨hn, hle, ht⟩ := hb
      have htext : (Block.standard n t : Block ν).text ++ text =
          byte 'S' :: (countText n ++ (t.subst ++ text)) := by
        simp [Block.text]
      rw [htext, demangleOperator_standard (isSpecial_count ht n text)]
      exact demangleStandardSubstitution_eq ht hn hle
  | index idx =>
      obtain ⟨hidx, hmax⟩ := hb
      have hne : Merger.mangleIndex (idx - 26) ≠ [] := by
        rw [Merger.mangleIndex]
        split <;> simp
      have hlength := List.length_pos_iff.2 (List.append_ne_nil_of_left_ne_nil hne text)
      obtain ⟨bound, hbound⟩ := Nat.exists_eq_succ_of_ne_zero hlength.ne'
      rw [Block.text, List.cons_append, demangleOperator_multi, demangleMultiSubstitutions, hbound,
        multiSubstitutions_index hidx hmax]
      show _ = ((applyItem createSwiftType nodes (.subst idx)).bind some).map _
      rw [applyItem]
      cases nodes.substitutions[idx]? <;> rfl
  | operator w act =>
      have hreads : ReadsAs operator w act := hb
      rw [Block.text, demangleOperator, if_neg (hreads.ne_subst text),
        if_neg (hreads.ne_standard text), hreads.reads]
      show _ = ((applyItem createSwiftType nodes (.operator w act)).bind some).map _
      rw [applyItem]
      cases act nodes <;> rfl

lemma text_ne_nil {b : Block ν} (hb : b.Sound (ReadsAs operator)) : b.text ≠ [] := by
  cases b with
  | operator w act => exact ReadsAs.ne_nil hb
  | _ => exact List.cons_ne_nil _ _

lemma parseAndPushNodes_cons (c : UInt8) (text : List UInt8) :
    parseAndPushNodes createSwiftType operator (bound + 1) (c :: text) nodes =
      ((demangleOperator createSwiftType operator (c :: text) nodes).map fun r =>
        (r.1.2.pushNode r.1.1, r.2)).bind fun r =>
          parseAndPushNodes createSwiftType operator bound r.2 r.1 := by
  rw [parseAndPushNodes]
  cases demangleOperator createSwiftType operator (c :: text) nodes <;> rfl

/-- Blocks are read, and do what their items do. -/
lemma parseAndPushNodes_blocks {blocks : List (Block ν)}
    (hblocks : ∀ b ∈ blocks, b.Sound (ReadsAs operator))
    (hbound : (blocks.flatMap Block.text).length ≤ bound) :
    parseAndPushNodes createSwiftType operator bound (blocks.flatMap Block.text) nodes =
      applyItems createSwiftType (blocks.flatMap Block.items) nodes := by
  induction blocks generalizing bound nodes with
  | nil =>
      cases bound <;> rfl
  | cons b blocks ih =>
      obtain ⟨hb, hblocks'⟩ := List.forall_mem_cons.1 hblocks
      obtain ⟨c, cs, hcs⟩ := List.exists_cons_of_ne_nil (text_ne_nil hb)
      have htext : (b :: blocks).flatMap Block.text = c :: (cs ++ blocks.flatMap Block.text) := by
        rw [List.flatMap_cons, hcs, List.cons_append]
      rw [htext, List.length_cons, List.length_append] at hbound
      obtain ⟨bound, rfl⟩ := Nat.exists_eq_succ_of_ne_zero (show bound ≠ 0 by omega)
      rw [htext, parseAndPushNodes_cons, ← List.cons_append, ← hcs, demangleOperator_block hb,
        List.flatMap_cons, applyItems_append, Option.bind_map]
      refine Option.bind_congr fun nodes' _ => ?_
      exact ih hblocks' (by omega)

/-- **Substitutions that are merged are read one by one.**  Whatever is in the buffer when a mangler
with nothing to merge starts, what it writes behind it for the items does to all nodes what the
items do one after another. -/
theorem parseAndPushNodes_mangleItems {m : Merger} (hm : m.merging.lastNumSubsts = 0)
    {items : List (Item ν)} (hitems : ∀ item ∈ items, item.Valid (ReadsAs operator)) :
    ∃ out, (items.foldl Merger.mangleItem m).buffer = m.buffer ++ out ∧
      ∀ nodes : Nodes ν, parseAndPushNodes createSwiftType operator out.length out nodes =
        applyItems createSwiftType items nodes := by
  have hstart : Wrote (ReadsAs operator) m.buffer m ([] : List (Item ν)) :=
    ⟨[], .stale (List.append_nil _).symm (Or.inl hm), List.forall_mem_nil _, rfl⟩
  obtain ⟨blocks, htracks, hsound, hblocks⟩ :=
    hstart.mangleItems (fun _ _ h => ReadsAs.ne_nil h) hitems
  refine ⟨blocks.flatMap Block.text, htracks.buffer, fun nodes => ?_⟩
  rw [parseAndPushNodes_blocks hsound le_rfl, hblocks, List.nil_append]

/-- An operator `D`, which pops a node and pushes its string, and no other. -/
def sampleOperator : List UInt8 → Nodes String → Option ((String × Nodes String) × List UInt8)
  | c :: text, nodes =>
      if c = byte 'D' then
        (nodes.nodeStack.getLast?).map fun nd =>
          ((nd, { nodes with nodeStack := nodes.nodeStack.dropLast }), text)
      else none
  | [], _ => none

/-- Substitutions that are merged, before and behind an operator. -/
def sampleItems : List (Item String) :=
  [.subst 0, .subst 0, .subst 1,
    .operator [byte 'D'] fun nodes =>
      (nodes.nodeStack.getLast?).map fun nd =>
        (nd, { nodes with nodeStack := nodes.nodeStack.dropLast }),
    .subst 27, .standard ⟨.structureNode, false, 'i', "Int"⟩,
    .standard ⟨.structureNode, false, 'i', "Int"⟩]

lemma valid_sampleItems : ∀ item ∈ sampleItems, item.Valid (ReadsAs sampleOperator) := by
  have hD : byte 'D' ≠ byte 'A' := by decide
  have hS : byte 'D' ≠ byte 'S' := by decide
  have hoperator : ReadsAs sampleOperator [byte 'D'] fun nodes =>
      (nodes.nodeStack.getLast?).map fun nd =>
        (nd, { nodes with nodeStack := nodes.nodeStack.dropLast }) :=
    { ne_nil := List.cons_ne_nil _ _
      ne_subst := fun _ => hD
      ne_standard := fun _ h => hS h.1
      reads := fun rest nodes => by
        show (if byte 'D' = byte 'D' then _ else none) = _
        rw [if_pos rfl, Option.map_map]
        rfl }
  have hInt : (⟨.structureNode, false, 'i', "Int"⟩ : StandardType) ∈ standardTypes := by decide
  intro item hitem
  simp only [sampleItems, List.mem_cons, List.not_mem_nil, or_false] at hitem
  rcases hitem with rfl | rfl | rfl | rfl | rfl | rfl | rfl
  · exact Nat.zero_le _
  · exact Nat.zero_le _
  · exact (by decide : 1 ≤ Punycode.intMax)
  · exact hoperator
  · exact (by decide : 27 ≤ Punycode.intMax)
  · exact hInt
  · exact hInt

theorem parseAndPushNodes_mangleItems_sample :
    (∀ item ∈ sampleItems, item.Valid (ReadsAs sampleOperator)) ∧
      ∃ out, (sampleItems.foldl Merger.mangleItem ⟨⟨0, 0, 0, false⟩, []⟩).buffer = [] ++ out ∧
        ∀ nodes : Nodes String,
          parseAndPushNodes (fun _ name => name) sampleOperator out.length out nodes =
            applyItems (fun _ name => name) sampleItems nodes :=
  ⟨valid_sampleItems, parseAndPushNodes_mangleItems rfl valid_sampleItems⟩

end

end Demangler

end ICDump

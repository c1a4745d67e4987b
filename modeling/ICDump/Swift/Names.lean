/-
Names with their substitutions (`Remangler.cpp`, `Demangler.cpp`).

The remangler looks an identifier up in its table before it writes it, and an operator by the
letters that it is written with.  What is in the table is written as a substitution, which may be
merged with the one before it.  What merging changes is behind all words (`Settled`), so the words
of the demangler are those of the remangler.  Here is what both do for a name, and how the
demangler reads what was written of substitutions and other items (`parseNodes_blocks`).
-/
import ICDump.Swift.Merging
import ICDump.Swift.Operators

namespace ICDump

namespace Mangle

/-! ### Mangling -/

/-- The nodes that `mangleIdentifierImpl` is called for. -/
inductive Name
  | identifier (text : List UInt8)
  | operator (kind : OperatorKind) (text : List UInt8)
deriving DecidableEq, Repr

namespace Name

/-- The text of the node. -/
def text : Name → List UInt8
  | identifier text => text
  | operator _ text => text

/-- What kind of node it is. -/
def kind : Name → Option OperatorKind
  | identifier _ => none
  | operator kind _ => some kind

/-- `getCharOfNodeText`, of all characters. -/
def chars : Name → List UInt8
  | identifier text => text
  | operator _ text => translateOperator text

end Name

/-- `SubstitutionEntry::identifierEquals`. -/
def identifierEquals (lhs rhs : Name) : Bool :=
  if rhs.text.length ≠ lhs.text.length then false
  else if lhs.kind = rhs.kind then lhs.text == rhs.text
  else lhs.chars == rhs.chars

/-- `SubstitutionEntry`.  Names are what is treated as an identifier. -/
inductive Entry (ν : Type)
  | name (nm : Name)
  | node (nd : Demangler.Node ν)
deriving DecidableEq, Repr

/-- The comparison of entries.  The hashes of entries that are equal are equal. -/
def Entry.equals {ν : Type} [DecidableEq ν] : Entry ν → Entry ν → Bool
  | .name lhs, .name rhs => identifierEquals lhs rhs
  | .node lhs, .node rhs => lhs == rhs
  | _, _ => false

/-- What is used of a remangler for names. -/
structure Remangler (ν : Type) where
  mangler : Mangler
  merging : SubstitutionMerging
  substitutions : List (Entry ν)
deriving DecidableEq, Repr

namespace Remangler

variable {ν : Type}

/-- What `SubstitutionMerging` uses. -/
def merger (m : Remangler ν) : Merger := ⟨m.merging, m.mangler.buffer⟩

/-- What `SubstitutionMerging` has changed. -/
def withMerger (m : Remangler ν) (r : Merger) : Remangler ν :=
  { m with mangler := { m.mangler with buffer := r.buffer }, merging := r.merging }

/-- `Buffer << text`. -/
def write (m : Remangler ν) (w : List UInt8) : Remangler ν :=
  m.withMerger { m.merger with buffer := m.merger.buffer ++ w }

/-- `addSubstitution`. -/
def addSubstitution (m : Remangler ν) (entry : Entry ν) : Remangler ν :=
  { m with substitutions := m.substitutions ++ [entry] }

variable [DecidableEq ν]

/-- `findSubstitution`. -/
def findSubstitution (m : Remangler ν) (entry : Entry ν) : Option ℕ :=
  m.substitutions.findIdx? (·.equals entry)

/-- `trySubstitution`, of nodes that are no standard types. -/
def trySubstitution (m : Remangler ν) (entry : Entry ν) : Option (Remangler ν) :=
  (m.findSubstitution entry).map fun idx => m.withMerger (m.merger.mangleSubstitution idx)

/-- `mangleIdentifierImpl`. -/
def mangleIdentifierImpl (m : Remangler ν) (name : Name) : Remangler ν :=
  match m.trySubstitution (.name name) with
  | some m => m
  | none =>
      { m with mangler := mangleIdentifier m.mangler name.chars }.addSubstitution (.name name)

/-- `mangleIdentifier`, `mangleInfixOperator`, `manglePrefixOperator` and
`manglePostfixOperator`. -/
def mangleName (m : Remangler ν) (name : Name) : Remangler ν :=
  let m := m.mangleIdentifierImpl name
  match name.kind with
  | none => m
  | some kind => m.write [byte 'o', kind.letter]

end Remangler

end Mangle

open Mangle

namespace Demangler

/-! ### Demangling -/

section

variable {ν : Type} (createSwiftType : Kind → String → Node ν)
  (operator : Demangler → Nodes (Node ν) → Option ((Node ν × Nodes (Node ν)) × Demangler))

/-- `demangleOperator`.  What is neither a name nor a substitution is left to `operator`. -/
def demangleNode (d : Demangler) (nodes : Nodes (Node ν)) :
    Option ((Node ν × Nodes (Node ν)) × Demangler) :=
  if peekChar d.text = byte 'A' then
    (demangleMultiSubstitutions d.text.tail nodes).map fun r => (r.1, ⟨r.2, d.words⟩)
  else if peekChar d.text = byte 'S' ∧ isSpecial (peekChar d.text.tail) = false then
    (demangleStandardSubstitution createSwiftType d.text.tail nodes).map
      fun r => (r.1, ⟨r.2, d.words⟩)
  else if peekChar d.text = byte 'o' then
    (demangleOperatorIdentifier d.text.tail nodes.nodeStack).map
      fun r => ((r.1.1, { nodes with nodeStack := r.1.2 }), ⟨r.2, d.words⟩)
  else if Mangle.isDigit (peekChar d.text) then
    (demangleIdentifier d).map fun r => ((.identifier r.1,
      { nodes with substitutions := nodes.substitutions ++ [.identifier r.1] }), r.2)
  else operator d nodes

/-- `parseAndPushNodes`, with a bound on the iterations of its loop. -/
def parseNodes : ℕ → Demangler → Nodes (Node ν) → Option (Nodes (Node ν))
  | 0, d, nodes => if d.text = [] then some nodes else none
  | bound + 1, d, nodes =>
      if d.text = [] then some nodes
      else
        match demangleNode createSwiftType operator d nodes with
        | none => none
        | some ((nd, nodes), d) => parseNodes bound d (nodes.pushNode nd)

end

end Demangler

open Demangler Punycode

/-! ### What is settled -/

/-- What is merged leaves `before` as it is. -/
def Settled (m : Merger) (before : List UInt8) : Prop :=
  before <+: m.buffer ∧ (0 < m.merging.lastNumSubsts →
    m.buffer.length = m.merging.lastSubstPosition + m.merging.lastSubstSize →
      before.length ≤ m.merging.lastSubstPosition ∧ 0 < m.merging.lastSubstSize)

lemma settled_of_stale {m : Merger} {before : List UInt8} (hbefore : before <+: m.buffer)
    (h : Stale m) : Settled m before := by
  refine ⟨hbefore, fun hnum hlength => ?_⟩
  rcases h with h | h
  · exact absurd h hnum.ne'
  · exact absurd hlength h.ne'

/-- A substitution leaves all that is settled as it is. -/
lemma Settled.mangleSubst {m : Merger} {before : List UInt8} (h : Settled m before)
    (letter : UInt8) {subst : List UInt8} (hsubst : subst ≠ []) (isStandardSubst : Bool) :
    Settled (m.mangleSubst letter subst isStandardSubst) before := by
  obtain ⟨hbefore, hlast⟩ := h
  have hpos := List.length_pos_iff.2 hsubst
  have hwritten : Settled ⟨⟨m.buffer.length + 1, subst.length, 1, isStandardSubst⟩,
      m.buffer ++ letter :: subst⟩ before :=
    ⟨hbefore.trans (List.prefix_append _ _), fun _ _ =>
      ⟨hbefore.length_le.trans (Nat.le_succ _), hpos⟩⟩
  rw [Merger.mangleSubst, Merger.tryMergeSubst]
  dsimp only
  by_cases hmerge : m.merging.lastNumSubsts > 0 ∧ m.merging.lastNumSubsts < maxRepeatCount ∧
      m.buffer.length = m.merging.lastSubstPosition + m.merging.lastSubstSize ∧
      m.merging.lastSubstIsStandardSubst = isStandardSubst
  · obtain ⟨hle, hsize⟩ := hlast hmerge.1 hmerge.2.2.1
    have hlength := hmerge.2.2.1
    rw [if_pos hmerge]
    generalize
      (m.buffer.drop (m.buffer.length - m.merging.lastSubstSize)).dropWhile Mangle.isDigit = last
    by_cases hnext : last ≠ subst ∧ isStandardSubst = false
    · -- the letter at the end is changed
      rw [if_pos hnext, if_pos rfl]
      refine ⟨?_, fun _ _ => ⟨hbefore.length_le, Nat.one_pos⟩⟩
      exact (List.prefix_take_iff.2 ⟨hbefore, by omega⟩).trans (List.prefix_append _ _)
    · rw [if_neg hnext]
      by_cases hrepeat : last = subst
      · -- the substitution at the end gets a larger count
        rw [if_pos hrepeat, if_pos rfl]
        refine ⟨?_, fun _ _ => ⟨hle, ?_⟩⟩
        · show before <+: m.buffer.take _ ++ _ ++ _
          rw [List.append_assoc]
          exact (List.prefix_take_iff.2 ⟨hbefore, hle⟩).trans (List.prefix_append _ _)
        · show 0 < (m.buffer.take _ ++ _ ++ subst).length - _
          rw [List.length_append, List.length_append, List.length_take]
          omega
      · rw [if_neg hrepeat]
        exact hwritten
  · rw [if_neg hmerge]
    exact hwritten

/-! ### Reading -/

section

variable {ν : Type}

/-- An identifier starts with a digit. -/
lemma isDigit_of_demangleIdentifier {d : Demangler} {r : List UInt8 × Demangler}
    (h : demangleIdentifier d = some r) : Mangle.isDigit (peekChar d.text) = true := by
  by_contra hdigit
  rw [demangleIdentifier, if_neg hdigit] at h
  cases h

/-- An identifier is not read of nothing. -/
lemma length_pos_of_read {out ident : List UInt8} {words words' : List (List UInt8)}
    (hread : ∀ text, demangleIdentifier ⟨out ++ text, words⟩ = some (ident, ⟨text, words'⟩)) :
    0 < out.length := by
  rw [List.length_pos_iff]
  rintro rfl
  have hdigit : Mangle.isDigit 0 = true := isDigit_of_demangleIdentifier (hread [])
  exact absurd hdigit (by decide)

/-- An identifier is made a node, which can be referred to. -/
def pushIdentifier (ident : List UInt8) (nodes : Nodes (Node ν)) :
    Option (Node ν × Nodes (Node ν)) :=
  some (.identifier ident,
    { nodes with substitutions := nodes.substitutions ++ [.identifier ident] })

/-- What concerns the stack only. -/
def onStack (act : List (Node ν) → Option (Node ν × List (Node ν))) (nodes : Nodes (Node ν)) :
    Option (Node ν × Nodes (Node ν)) :=
  (act nodes.nodeStack).map fun r => (r.1, { nodes with nodeStack := r.2 })

/-- What is made of the stack, and can be referred to. -/
def addingNode (act : List (Node ν) → Option (Node ν × List (Node ν)))
    (nodes : Nodes (Node ν)) : Option (Node ν × Nodes (Node ν)) :=
  (act nodes.nodeStack).map fun r => (r.1, ⟨nodes.substitutions ++ [r.1], r.2⟩)

/-- The identifier on the stack is made an operator. -/
def popOperator (kind : OperatorKind) (nodeStack : List (Node ν)) :
    Option (Node ν × List (Node ν)) :=
  (demangleOperatorIdentifier [kind.letter] nodeStack).map Prod.fst

lemma demangleOperatorIdentifier_text (kind : OperatorKind) (text : List UInt8)
    (nodeStack : List (Node ν)) :
    demangleOperatorIdentifier (kind.letter :: text) nodeStack =
      (popOperator kind nodeStack).map (·, text) := by
  rw [popOperator, demangleOperatorIdentifier, demangleOperatorIdentifier]
  rcases nodeStack.getLast? with _ | nd
  · rfl
  · cases nd with
    | identifier ident =>
        have hkind (rest : List UInt8) :
            operatorKind (peekChar (kind.letter :: rest)) = some kind := operatorKind_letter kind
        dsimp only
        rw [hkind, hkind]
        cases ident.mapM demangleOperatorChar <;> rfl
    | operator => rfl
    | other => rfl

variable (createSwiftType : Kind → String → Node ν)
  (operator : Demangler → Nodes (Node ν) → Option ((Node ν × Nodes (Node ν)) × Demangler))

/-- What is written as `w` is read up to its end.  The words change from `words` to `words'`. -/
def ReadsItem (words words' : List (List UInt8)) (w : List UInt8)
    (act : Nodes (Node ν) → Option (Node ν × Nodes (Node ν))) : Prop :=
  w.length ≤ intMax → ∀ rest nodes,
    demangleNode createSwiftType operator ⟨w ++ rest, words⟩ nodes =
      (act nodes).map (·, ⟨rest, words'⟩)

/-- What is neither a name nor a substitution, whatever follows, is read up to its end. -/
structure ReadsOther (w : List UInt8)
    (act : Nodes (Node ν) → Option (Node ν × Nodes (Node ν))) : Prop where
  ne_nil : w ≠ []
  ne_subst (rest : List UInt8) : peekChar (w ++ rest) ≠ byte 'A'
  ne_standard (rest : List UInt8) :
    ¬ (peekChar (w ++ rest) = byte 'S' ∧ isSpecial (peekChar (w ++ rest).tail) = false)
  ne_operator (rest : List UInt8) : peekChar (w ++ rest) ≠ byte 'o'
  ne_digit (rest : List UInt8) : Mangle.isDigit (peekChar (w ++ rest)) = false
  reads (rest : List UInt8) (words : List (List UInt8)) (nodes : Nodes (Node ν)) :
    operator ⟨w ++ rest, words⟩ nodes = (act nodes).map (·, ⟨rest, words⟩)

variable {createSwiftType operator}

lemma ReadsOther.readsItem {w : List UInt8}
    {act : Nodes (Node ν) → Option (Node ν × Nodes (Node ν))} (h : ReadsOther operator w act)
    (words : List (List UInt8)) : ReadsItem createSwiftType operator words words w act := by
  intro _ rest nodes
  have hdigit : ¬ Mangle.isDigit (peekChar (w ++ rest)) = true := by
    rw [h.ne_digit]
    exact Bool.false_ne_true
  rw [demangleNode, if_neg (h.ne_subst rest), if_neg (h.ne_standard rest),
    if_neg (h.ne_operator rest), if_neg hdigit, h.reads]

lemma readsItem_operator (kind : OperatorKind) (words : List (List UInt8)) :
    ReadsItem createSwiftType operator words words [byte 'o', kind.letter]
      (onStack (popOperator kind)) := by
  intro _ rest nodes
  have hsubst : ¬ byte 'o' = byte 'A' := by decide
  have hstandard : ¬ byte 'o' = byte 'S' := by decide
  have hpeek : peekChar ([byte 'o', kind.letter] ++ rest) = byte 'o' := rfl
  rw [demangleNode]
  dsimp only
  rw [hpeek, if_neg hsubst, if_neg fun h => hstandard h.1, if_pos rfl]
  show (demangleOperatorIdentifier (kind.letter :: rest) nodes.nodeStack).map _ = _
  rw [demangleOperatorIdentifier_text, onStack, Option.map_map, Option.map_map]
  rfl

lemma readsItem_identifier {out ident : List UInt8} {words words' : List (List UInt8)}
    (hread : out.length ≤ intMax → ∀ text,
      demangleIdentifier ⟨out ++ text, words⟩ = some (ident, ⟨text, words'⟩)) :
    ReadsItem createSwiftType operator words words' out (pushIdentifier ident) := by
  intro hle rest nodes
  have hdigit := isDigit_of_demangleIdentifier (hread hle rest)
  have hne {c : UInt8} (hc : Mangle.isDigit c = false) : peekChar (out ++ rest) ≠ c := by
    rintro rfl
    exact absurd (hdigit.symm.trans hc) (by decide)
  rw [demangleNode, if_neg (hne (by decide)), if_neg fun h => hne (by decide) h.1,
    if_neg (hne (by decide)), if_pos hdigit, hread hle]
  rfl

variable (createSwiftType operator)

/-- What items were written as is read one after another, by a demangler that has the words
`words` before and `words'` behind them. -/
inductive Run : List (List UInt8) → List (Item (Node ν)) → List (List UInt8) → Prop
  | nil (words : List (List UInt8)) : Run words [] words
  | subst {words words' : List (List UInt8)} {items : List (Item (Node ν))} (idx : ℕ)
      (h : Run words items words') : Run words (.subst idx :: items) words'
  | standard {words words' : List (List UInt8)} {items : List (Item (Node ν))} (t : StandardType)
      (h : Run words items words') : Run words (.standard t :: items) words'
  | operator {words words₁ words' : List (List UInt8)} {items : List (Item (Node ν))}
      {w : List UInt8} {act : Nodes (Node ν) → Option (Node ν × Nodes (Node ν))}
      (hread : ReadsItem createSwiftType operator words words₁ w act)
      (h : Run words₁ items words') : Run words (.operator w act :: items) words'

variable {createSwiftType operator} {words words₁ words' : List (List UInt8)}
  {items items' : List (Item (Node ν))}

lemma Run.append (h : Run createSwiftType operator words items words₁)
    (h' : Run createSwiftType operator words₁ items' words') :
    Run createSwiftType operator words (items ++ items') words' := by
  induction h with
  | nil => exact h'
  | subst idx _ ih => exact .subst idx (ih h')
  | standard t _ ih => exact .standard t (ih h')
  | operator hread _ ih => exact .operator hread (ih h')

/-- Substitutions have no words. -/
lemma Run.drop (hitems : ∀ item ∈ items, ∀ w act, item ≠ .operator w act)
    (h : Run createSwiftType operator words (items ++ items') words') :
    Run createSwiftType operator words items' words' := by
  induction items with
  | nil => exact h
  | cons item items ih =>
      obtain ⟨hitem, hitems'⟩ := List.forall_mem_cons.1 hitems
      cases h with
      | subst _ h => exact ih hitems' h
      | standard _ h => exact ih hitems' h
      | operator _ _ => exact absurd rfl (hitem _ _)

/-- Substitutions and standard types are read without the words. -/
lemma demangleNode_subst {d : Demangler} (nodes : Nodes (Node ν))
    (h : peekChar d.text = byte 'A' ∨
      peekChar d.text = byte 'S' ∧ isSpecial (peekChar d.text.tail) = false) :
    demangleNode createSwiftType operator d nodes =
      (demangleOperator createSwiftType (fun _ _ => none) d.text nodes).map
        fun r => (r.1, ⟨r.2, d.words⟩) := by
  rw [demangleNode, demangleOperator]
  by_cases hA : peekChar d.text = byte 'A'
  · rw [if_pos hA, if_pos hA]
  · rw [if_neg hA, if_neg hA, if_pos (h.resolve_left hA), if_pos (h.resolve_left hA)]

/-- A block of substitutions is read as it is without names. -/
lemma demangleNode_group {b : Block (Node ν)}
    (hb : b.Sound (Demangler.ReadsAs fun _ _ => none)) {text : List UInt8}
    (hpeek : peekChar (b.text ++ text) = byte 'A' ∨ peekChar (b.text ++ text) = byte 'S' ∧
      isSpecial (peekChar (b.text ++ text).tail) = false) (nodes : Nodes (Node ν)) :
    (demangleNode createSwiftType operator ⟨b.text ++ text, words⟩ nodes).map
        (fun r => (r.1.2.pushNode r.1.1, r.2)) =
      (applyItems createSwiftType b.items nodes).map (·, ⟨text, words⟩) := by
  have hblock : (demangleOperator createSwiftType (fun _ _ => none) (b.text ++ text) nodes).map
      (fun r => (r.1.2.pushNode r.1.1, r.2)) =
        (applyItems createSwiftType b.items nodes).map (·, text) :=
    demangleOperator_block hb
  have heq := congrArg (Option.map fun q => (q.1, (⟨q.2, words⟩ : Demangler))) hblock
  rw [demangleNode_subst nodes hpeek, Option.map_map]
  rw [Option.map_map, Option.map_map] at heq
  exact heq

/-- A block is read, and does what its items do. -/
lemma demangleNode_block {b : Block (Node ν)} (hb : b.Sound fun w _ => w ≠ [])
    (hle : b.text.length ≤ intMax)
    (hrun : Run createSwiftType operator words (b.items ++ items) words') :
    ∃ words₁, Run createSwiftType operator words₁ items words' ∧ ∀ text nodes,
      (demangleNode createSwiftType operator ⟨b.text ++ text, words⟩ nodes).map
          (fun r => (r.1.2.pushNode r.1.1, r.2)) =
        (applyItems createSwiftType b.items nodes).map (·, ⟨text, words₁⟩) := by
  cases b with
  | letters front n i =>
      refine ⟨words, hrun.drop ?_, fun text nodes => demangleNode_group hb (Or.inl rfl) nodes⟩
      intro item hitem w act
      obtain ⟨g, -, hg⟩ := List.mem_flatMap.1 hitem
      rw [(List.mem_replicate.1 hg).2]
      intro heq
      cases heq
  | standard n t =>
      have ht : t ∈ standardTypes := hb.2.2
      refine ⟨words, hrun.drop ?_,
        fun text nodes => demangleNode_group hb (Or.inr ⟨rfl, ?_⟩) nodes⟩
      · intro item hitem w act
        rw [(List.mem_replicate.1 hitem).2]
        intro heq
        cases heq
      · rw [Block.text, List.cons_append, List.tail_cons, List.append_assoc]
        exact isSpecial_count ht n text
  | index idx =>
      refine ⟨words, hrun.drop ?_, fun text nodes => demangleNode_group hb (Or.inl rfl) nodes⟩
      intro item hitem w act
      rw [List.mem_singleton.1 hitem]
      intro heq
      cases heq
  | operator w act =>
      cases hrun with
      | operator hread h =>
          refine ⟨_, h, fun text nodes => ?_⟩
          rw [Block.text, hread hle text nodes]
          show _ = ((applyItem createSwiftType nodes (.operator w act)).bind some).map _
          rw [applyItem]
          cases act nodes <;> rfl

lemma parseNodes_succ {d : Demangler} (hne : d.text ≠ []) (bound : ℕ) (nodes : Nodes (Node ν)) :
    parseNodes createSwiftType operator (bound + 1) d nodes =
      ((demangleNode createSwiftType operator d nodes).map fun r =>
        (r.1.2.pushNode r.1.1, r.2)).bind fun r =>
          parseNodes createSwiftType operator bound r.2 r.1 := by
  rw [parseNodes, if_neg hne]
  cases demangleNode createSwiftType operator d nodes <;> rfl

/-- Blocks are read, and do what their items do. -/
lemma parseNodes_blocks {blocks : List (Block (Node ν))} {bound : ℕ} {nodes : Nodes (Node ν)}
    (hblocks : ∀ b ∈ blocks, b.Sound fun w _ => w ≠ [])
    (hrun : Run createSwiftType operator words (blocks.flatMap Block.items) words')
    (hle : (blocks.flatMap Block.text).length ≤ intMax)
    (hbound : (blocks.flatMap Block.text).length ≤ bound) :
    parseNodes createSwiftType operator bound ⟨blocks.flatMap Block.text, words⟩ nodes =
      applyItems createSwiftType (blocks.flatMap Block.items) nodes := by
  induction blocks generalizing bound nodes words with
  | nil => cases bound <;> rfl
  | cons b blocks ih =>
      obtain ⟨hb, hblocks'⟩ := List.forall_mem_cons.1 hblocks
      have hne : b.text ≠ [] := by
        cases b with
        | operator w act => exact hb
        | _ => exact List.cons_ne_nil _ _
      have hpos := List.length_pos_iff.2 hne
      rw [List.flatMap_cons] at hrun
      rw [List.flatMap_cons, List.length_append] at hle hbound
      obtain ⟨words₁, hrun', hread⟩ := demangleNode_block hb (by omega) hrun
      obtain ⟨bound, rfl⟩ := Nat.exists_eq_succ_of_ne_zero (show bound ≠ 0 by omega)
      have hne' : b.text ++ blocks.flatMap Block.text ≠ [] :=
        List.append_ne_nil_of_left_ne_nil hne _
      rw [List.flatMap_cons, List.flatMap_cons, parseNodes_succ hne', hread, applyItems_append,
        Option.bind_map]
      refine Option.bind_congr fun nodes' _ => ?_
      exact ih hblocks' hrun' (by omega) (by omega)

end

end ICDump

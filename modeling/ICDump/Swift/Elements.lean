/-
Names with their substitutions come back (`Remangler.cpp`, `Demangler.cpp`).

A name is a sequence of elements.  A compound element has parts, and the operator behind them makes
a node of what they have pushed.  This node is entered in the table, and where it is in the table
already, its number is written in place of all the parts.  The table of the demangler is that of the
remangler (`Remangler.table`).  What was written so far, and what is known of it, is `Written`:
each element that is mangled keeps it, a compound one by what its parts do (`Mangles`).
-/
import ICDump.Swift.Names

namespace ICDump

open Punycode Mangle Demangler

/-! ### Elements of a name -/

/-- What a mangled name is made of: names, standard types, nodes that are entered in the table, and
what has nothing to do with the table. -/
inductive Element (ν : Type)
  | name (nm : Name)
  | standard (t : StandardType)
  | compound (parts : List (Element ν)) (op : List UInt8)
      (act : List (Node ν) → Option (Node ν × List (Node ν))) (nd : Node ν)
  | other (w : List UInt8) (act : List (Node ν) → Option (Node ν × List (Node ν)))

/-- The node that a name is demangled to. -/
def Mangle.Name.node {ν : Type} : Name → Node ν
  | .identifier ident => .identifier ident
  | .operator kind op => .operator kind op

/-- The node that the demangler enters for an entry of the remangler. -/
def Mangle.Entry.toNode {ν : Type} : Entry ν → Node ν
  | .name nm => .identifier nm.chars
  | .node nd => nd

section

variable {ν : Type}

namespace Element

mutual

/-- How many entries of the table an element has at most. -/
def entries : Element ν → ℕ
  | .name _ => 1
  | .standard _ => 0
  | .compound parts _ _ _ => entriesAll parts + 1
  | .other _ _ => 0

/-- How many entries of the table elements have at most. -/
def entriesAll : List (Element ν) → ℕ
  | [] => 0
  | e :: es => e.entries + entriesAll es

end

variable (createSwiftType : Kind → String → Node ν)
  (operator : Demangler → Nodes (Node ν) → Option ((Node ν × Nodes (Node ν)) × Demangler))

mutual

/-- What an element does to the stack. -/
def apply (nodeStack : List (Node ν)) : Element ν → Option (List (Node ν))
  | .name nm => some (nodeStack ++ [nm.node])
  | .standard t => some (nodeStack ++ [createSwiftType t.kind t.typeName])
  | .compound parts _ act _ => do
      let nodeStack ← applyAll nodeStack parts
      (act nodeStack).map fun r => r.2 ++ [r.1]
  | .other _ act => (act nodeStack).map fun r => r.2 ++ [r.1]

/-- What elements do to the stack, one after another. -/
def applyAll (nodeStack : List (Node ν)) : List (Element ν) → Option (List (Node ν))
  | [] => some nodeStack
  | e :: es => do
      let nodeStack ← apply nodeStack e
      applyAll nodeStack es

end

end Element

/-- The names that can be mangled. -/
def Mangle.Name.Valid (usePunycode : Bool) : Name → Prop
  | .identifier ident => IsIdentifier usePunycode ident
  | .operator _ op => IsOperatorName usePunycode op

variable (createSwiftType : Kind → String → Node ν)
  (operator : Demangler → Nodes (Node ν) → Option ((Node ν × Nodes (Node ν)) × Demangler))

/-- The elements that can be mangled.  Of the parts of a compound one, its operator makes its node,
whatever is below them on the stack. -/
inductive Element.Valid (usePunycode : Bool) : Element ν → Prop
  | name {nm : Name} (h : nm.Valid usePunycode) : Valid usePunycode (.name nm)
  | standard {t : StandardType} (h : t ∈ standardTypes) : Valid usePunycode (.standard t)
  | compound {parts : List (Element ν)} {op : List UInt8}
      {act : List (Node ν) → Option (Node ν × List (Node ν))} {nd : Node ν}
      (hparts : ∀ e ∈ parts, Valid usePunycode e) (hread : ReadsOther operator op (addingNode act))
      (hnode : ∀ nodeStack, (applyAll createSwiftType nodeStack parts).bind act =
        some (nd, nodeStack)) : Valid usePunycode (.compound parts op act nd)
  | other {w : List UInt8} {act : List (Node ν) → Option (Node ν × List (Node ν))}
      (hread : ReadsOther operator w (onStack act)) : Valid usePunycode (.other w act)

lemma Mangle.Name.Valid.isIdentifier {usePunycode : Bool} {name : Name}
    (h : name.Valid usePunycode) : IsIdentifier usePunycode name.chars := by
  cases name with
  | identifier ident => exact h
  | operator kind op => exact IsOperatorName.isIdentifier h

/-- Names that are the same to the remangler are written the same. -/
lemma chars_of_identifierEquals {lhs rhs : Name} (h : identifierEquals lhs rhs = true) :
    lhs.chars = rhs.chars := by
  rw [identifierEquals] at h
  split_ifs at h with hlength hkind
  · have htext := beq_iff_eq.1 h
    cases lhs <;> cases rhs <;> simp_all [Name.kind, Name.text, Name.chars]
  · exact beq_iff_eq.1 h

/-- Entries that are the same to the remangler are the same to the demangler. -/
lemma toNode_of_equals [DecidableEq ν] {lhs rhs : Entry ν} (h : lhs.equals rhs = true) :
    lhs.toNode = rhs.toNode := by
  cases lhs with
  | name lhs =>
      cases rhs with
      | name rhs => exact congrArg Node.identifier (chars_of_identifierEquals h)
      | node rhs => exact absurd h (by simp [Entry.equals])
  | node lhs =>
      cases rhs with
      | name rhs => exact absurd h (by simp [Entry.equals])
      | node rhs => exact beq_iff_eq.1 h

/-- What was written behind `pre` since the words were `words₀`, and what is known of it. -/
structure Written (pre : List UInt8) (words₀ : List (List UInt8)) (m : Remangler ν)
    (words : List (List UInt8)) (items : List (Item (Node ν))) : Prop where
  wrote : Wrote (fun w _ => w ≠ []) pre m.merger items
  run : Run createSwiftType operator words₀ items words
  settled : ∃ before, Settled m.merger before ∧ Knows before m.mangler.words words
  fits : ∀ w ∈ words, fits w = true
  room : words.length ≤ maxNumWords

variable {createSwiftType operator} {pre : List UInt8} {words₀ words words' : List (List UInt8)}
  {m : Remangler ν} {items : List (Item (Node ν))} {usePunycode : Bool}

lemma Mangle.Wrote.stale_append {Reads : List UInt8 → (Nodes (Node ν) →
    Option (Node ν × Nodes (Node ν))) → Prop} {r : Merger} (h : Wrote Reads pre r items)
    {w : List UInt8} (hw : w ≠ []) : Stale { r with buffer := r.buffer ++ w } := by
  obtain ⟨_, htracks, -, -⟩ := h
  exact htracks.stale_append hw

lemma Written.agree (h : Written createSwiftType operator pre words₀ m words items) :
    Agree m.mangler words := by
  obtain ⟨before, ⟨⟨rest, hbefore⟩, -⟩, hknows⟩ := h.settled
  refine ⟨?_, h.fits, h.room⟩
  rw [show m.mangler.buffer = before ++ rest from hbefore.symm]
  exact hknows.append rest

/-- Text that is no substitution is written. -/
lemma Written.write (h : Written createSwiftType operator pre words₀ m words items)
    {w : List UInt8} {act : Nodes (Node ν) → Option (Node ν × Nodes (Node ν))} (hw : w ≠ [])
    (hread : ReadsItem createSwiftType operator words words w act) :
    Written createSwiftType operator pre words₀ (m.write w) words
      (items ++ [.operator w act]) where
  wrote := h.wrote.mangleItem (fun _ _ hne => hne) (show Item.Valid _ (.operator w act) from hw)
  run := h.run.append (.operator hread (.nil words))
  settled := by
    obtain ⟨before, ⟨hbefore, -⟩, hknows⟩ := h.settled
    exact ⟨before, settled_of_stale (hbefore.trans (List.prefix_append _ _))
      (h.wrote.stale_append hw), hknows⟩
  fits := h.fits
  room := h.room

/-- A substitution is written. -/
lemma Written.subst (h : Written createSwiftType operator pre words₀ m words items) {idx : ℕ}
    (hidx : idx ≤ intMax) :
    Written createSwiftType operator pre words₀ (m.withMerger (m.merger.mangleSubstitution idx))
      words (items ++ [.subst idx]) where
  wrote := h.wrote.mangleItem (fun _ _ hne => hne) (show Item.Valid _ (.subst idx) from hidx)
  run := h.run.append (.subst idx (.nil words))
  settled := by
    obtain ⟨before, hsettled, hknows⟩ := h.settled
    refine ⟨before, ?_, hknows⟩
    show Settled (m.merger.mangleSubstitution idx) before
    rw [Merger.mangleSubstitution]
    split
    · exact settled_of_stale (hsettled.1.trans (List.prefix_append _ _))
        (h.wrote.stale_append (List.cons_ne_nil _ _))
    · exact hsettled.mangleSubst _ (List.cons_ne_nil _ _) _
  fits := h.fits
  room := h.room

/-- A standard type is written. -/
lemma Written.standard (h : Written createSwiftType operator pre words₀ m words items)
    {t : StandardType} (ht : t ∈ standardTypes) :
    Written createSwiftType operator pre words₀
      (m.withMerger (m.merger.mangleSubst (byte 'S') t.subst true)) words
      (items ++ [.standard t]) where
  wrote := h.wrote.standard ht
  run := h.run.append (.standard t (.nil words))
  settled := by
    obtain ⟨before, hsettled, hknows⟩ := h.settled
    obtain ⟨-, -, hne, -⟩ := standardTypes_spec ht
    exact ⟨before, hsettled.mangleSubst _ hne _, hknows⟩
  fits := h.fits
  room := h.room

/-- An identifier is written, which is new. -/
lemma Written.identifier (h : Written createSwiftType operator pre words₀ m words items)
    {mangler : Mangler} {out ident : List UInt8} {substitutions : List (Entry ν)}
    (hbuffer : mangler.buffer = m.mangler.buffer ++ out) (hagree : Agree mangler words')
    (hread : out.length ≤ intMax → ∀ text,
      demangleIdentifier ⟨out ++ text, words⟩ = some (ident, ⟨text, words'⟩)) :
    Written createSwiftType operator pre words₀ ⟨mangler, m.merging, substitutions⟩ words'
      (items ++ [.operator out (pushIdentifier ident)]) := by
  have hne : out ≠ [] := by
    rintro rfl
    exact absurd (length_pos_of_read (hread (Nat.zero_le _))) (Nat.lt_irrefl 0)
  have hmerger : (⟨mangler, m.merging, substitutions⟩ : Remangler ν).merger =
      { m.merger with buffer := m.merger.buffer ++ out } := by
    rw [Remangler.merger, hbuffer]
    rfl
  refine ⟨?_, h.run.append (.operator (readsItem_identifier hread) (.nil words')), ?_,
    hagree.fits, hagree.room⟩
  · rw [hmerger]
    exact h.wrote.mangleItem (fun _ _ hne => hne) (show Item.Valid _ (.operator out _) from hne)
  · rw [hmerger]
    refine ⟨_, settled_of_stale List.prefix_rfl (h.wrote.stale_append hne), ?_⟩
    show Knows (m.mangler.buffer ++ out) _ _
    rw [← hbuffer]
    exact hagree.knows

lemma popOperator_eq {op : List UInt8} (hchars : ∀ c ∈ op, isOperatorChar c = true)
    (kind : OperatorKind) (nodeStack : List (Node ν)) :
    popOperator kind (nodeStack ++ [.identifier (translateOperator op)]) =
      some (.operator kind op, nodeStack) := by
  rw [popOperator, demangleOperatorIdentifier_eq, (mapM_translateOperator op).2 hchars]
  rfl

lemma applyItems_singleton (item : Item (Node ν)) (nodes : Nodes (Node ν)) :
    applyItems createSwiftType [item] nodes = applyItem createSwiftType nodes item :=
  bind_pure _

/-! ### Mangling elements -/

/-- The table of the demangler. -/
def Mangle.Remangler.table (m : Remangler ν) : List (Node ν) := m.substitutions.map Entry.toNode

variable (createSwiftType operator usePunycode)

/-- Whatever was written before, what `mangle` writes does `act` to the stack, and the tables are
the same again, with at most `k` entries more. -/
def Mangles (mangle : Remangler ν → Option (Remangler ν)) (k : ℕ)
    (act : List (Node ν) → Option (List (Node ν))) : Prop :=
  ∀ ⦃pre words₀ m words items⦄, Written createSwiftType operator pre words₀ m words items →
    m.mangler.usePunycode = usePunycode → m.substitutions.length + k ≤ intMax →
    ∃ m' words' items', mangle m = some m' ∧ m'.mangler.usePunycode = usePunycode ∧
      m'.substitutions.length ≤ m.substitutions.length + k ∧
      Written createSwiftType operator pre words₀ m' words' (items ++ items') ∧
      ∀ nodeStack, applyItems createSwiftType items' ⟨m.table, nodeStack⟩ =
        (act nodeStack).map fun nodeStack => ⟨m'.table, nodeStack⟩

variable {createSwiftType operator usePunycode} {k k' : ℕ}
  {mangle mangle' : Remangler ν → Option (Remangler ν)}
  {act act' : List (Node ν) → Option (List (Node ν))}

lemma mangles_nil : Mangles createSwiftType operator usePunycode some 0 some := by
  intro pre words₀ m words items h hm hroom
  refine ⟨m, words, [], rfl, hm, Nat.le_refl _, ?_, fun _ => rfl⟩
  rwa [List.append_nil]

lemma Mangles.bind (h : Mangles createSwiftType operator usePunycode mangle k act)
    (h' : Mangles createSwiftType operator usePunycode mangle' k' act') :
    Mangles createSwiftType operator usePunycode (fun m => (mangle m).bind mangle') (k + k')
      fun nodeStack => (act nodeStack).bind act' := by
  intro pre words₀ m words items hwritten hm hroom
  obtain ⟨m₁, words₁, items₁, hmangle₁, hm₁, hlength₁, hwritten₁, happly₁⟩ :=
    h hwritten hm (by omega)
  obtain ⟨m₂, words₂, items₂, hmangle₂, hm₂, hlength₂, hwritten₂, happly₂⟩ :=
    h' hwritten₁ hm₁ (by omega)
  refine ⟨m₂, words₂, items₁ ++ items₂, ?_, hm₂, by omega, ?_, fun nodeStack => ?_⟩
  · show (mangle m).bind mangle' = some m₂
    rw [hmangle₁]
    exact hmangle₂
  · rwa [← List.append_assoc]
  · rw [applyItems_append, happly₁, Option.bind_map, Option.map_bind]
    exact Option.bind_congr fun nodeStack' _ => happly₂ nodeStack'

/-- What has nothing to do with the table. -/
lemma mangles_write {w : List UInt8} {act : List (Node ν) → Option (Node ν × List (Node ν))}
    (hw : w ≠ [])
    (hread : ∀ words, ReadsItem createSwiftType operator words words w (onStack act)) :
    Mangles createSwiftType operator usePunycode (fun m => some (m.write w)) 0
      fun nodeStack => (act nodeStack).map fun r => r.2 ++ [r.1] := by
  intro pre words₀ m words items h hm hroom
  refine ⟨m.write w, words, [.operator w (onStack act)], rfl, hm, Nat.le_refl _,
    h.write hw (hread words), fun nodeStack => ?_⟩
  rw [applyItems_singleton]
  show (onStack act ⟨m.table, nodeStack⟩).map _ = _
  rw [onStack, Option.map_map, Option.map_map]
  rfl

/-- An identifier is written, and entered in the table. -/
lemma mangles_identifier {name : Name} (hname : IsIdentifier usePunycode name.chars) :
    Mangles createSwiftType operator usePunycode
      (fun m => some (Remangler.addSubstitution
        { m with mangler := mangleIdentifier m.mangler name.chars } (.name name))) 1
      fun nodeStack => some (nodeStack ++ [(Entry.name name).toNode]) := by
  intro pre words₀ m words items h hm hroom
  rw [← hm] at hname
  obtain ⟨out, words', huse, hbuffer, hagree, hread⟩ := h.agree.mangleIdentifier hname
  refine ⟨_, words', [.operator out (pushIdentifier name.chars)], rfl, huse.trans hm, ?_,
    h.identifier hbuffer hagree hread, fun nodeStack => ?_⟩
  · rw [Remangler.addSubstitution, List.length_append, List.length_singleton]
  · rw [applyItems_singleton, Remangler.table, Remangler.table, Remangler.addSubstitution,
      List.map_append]
    rfl

/-- A standard type is pushed. -/
lemma mangles_standard {t : StandardType} (ht : t ∈ standardTypes) :
    Mangles createSwiftType operator usePunycode
      (fun m => (m.merger.mangleStandardSubstitution t.typeName).map m.withMerger) 0
      fun nodeStack => some (nodeStack ++ [createSwiftType t.kind t.typeName]) := by
  intro pre words₀ m words items h hm hroom
  obtain ⟨hsubst, -⟩ := standardTypes_spec ht
  refine ⟨m.withMerger (m.merger.mangleSubst (byte 'S') t.subst true), words, [.standard t], ?_,
    hm, Nat.le_refl _, h.standard ht, fun nodeStack => ?_⟩
  · show (m.merger.mangleStandardSubstitution t.typeName).map m.withMerger = _
    rw [Merger.mangleStandardSubstitution, hsubst]
    rfl
  · rw [applyItems_singleton]
    rfl

/-- The operator behind the parts makes the node, which is entered in the table. -/
lemma Mangles.compound (h : Mangles createSwiftType operator usePunycode mangle k act)
    {op : List UInt8} {make : List (Node ν) → Option (Node ν × List (Node ν))} {nd : Node ν}
    (hread : ReadsOther operator op (addingNode make))
    (hnode : ∀ nodeStack, (act nodeStack).bind make = some (nd, nodeStack)) :
    Mangles createSwiftType operator usePunycode
      (fun m => (mangle m).map fun m => (m.write op).addSubstitution (.node nd)) (k + 1)
      fun nodeStack => some (nodeStack ++ [nd]) := by
  intro pre words₀ m words items hwritten hm hroom
  obtain ⟨m₁, words₁, items₁, hmangle, hm₁, hlength, hwritten₁, happly⟩ :=
    h hwritten hm (by omega)
  have hop := hwritten₁.write hread.ne_nil (hread.readsItem words₁)
  refine ⟨(m₁.write op).addSubstitution (.node nd), words₁,
    items₁ ++ [.operator op (addingNode make)], ?_, hm₁, ?_, ?_, fun nodeStack => ?_⟩
  · show (mangle m).map _ = _
    rw [hmangle]
    rfl
  · rw [Remangler.addSubstitution, List.length_append, List.length_singleton]
    exact Nat.succ_le_succ hlength
  · rw [← List.append_assoc]
    exact ⟨hop.wrote, hop.run, hop.settled, hop.fits, hop.room⟩
  · obtain ⟨nodeStack₁, hact, hmake⟩ := Option.bind_eq_some_iff.1 (hnode nodeStack)
    rw [applyItems_append, happly, hact, Option.map_some, Option.bind_some, applyItems_singleton]
    show (addingNode make ⟨m₁.table, nodeStack₁⟩).map _ = _
    rw [addingNode, hmake, Remangler.table, Remangler.table, Remangler.addSubstitution,
      List.map_append]
    rfl

variable [DecidableEq ν]

namespace Mangle.Remangler

mutual

/-- An element is mangled.  A compound one is mangled like the node of a generic type
(`mangleAnyGenericType`). -/
def mangleElement (m : Remangler ν) : Element ν → Option (Remangler ν)
  | .name nm => some (m.mangleName nm)
  | .standard t => (m.merger.mangleStandardSubstitution t.typeName).map m.withMerger
  | .compound parts op _ nd =>
      match m.trySubstitution (.node nd) with
      | some m => some m
      | none => (m.mangleElements parts).map fun m => (m.write op).addSubstitution (.node nd)
  | .other w _ => some (m.write w)

/-- Elements are mangled one after another. -/
def mangleElements (m : Remangler ν) : List (Element ν) → Option (Remangler ν)
  | [] => some m
  | e :: es => do
      let m ← m.mangleElement e
      m.mangleElements es

end

end Mangle.Remangler

/-- Where an entry is in the table, its number pushes its node. -/
lemma Mangles.trySubstitution {entry : Entry ν}
    (h : Mangles createSwiftType operator usePunycode mangle k
      fun nodeStack => some (nodeStack ++ [entry.toNode])) :
    Mangles createSwiftType operator usePunycode
      (fun m => (m.trySubstitution entry).or (mangle m)) k
      fun nodeStack => some (nodeStack ++ [entry.toNode]) := by
  intro pre words₀ m words items hwritten hm hroom
  show ∃ m' words' items', (m.trySubstitution entry).or (mangle m) = some m' ∧ _
  rw [Remangler.trySubstitution]
  cases hfind : m.findSubstitution entry with
  | none => exact h hwritten hm hroom
  | some idx =>
      obtain ⟨hidx, hequals, -⟩ := List.findIdx?_eq_some_iff_getElem.1 hfind
      have hget : m.table[idx]? = some entry.toNode := by
        rw [Remangler.table, List.getElem?_map, List.getElem?_eq_getElem hidx, Option.map_some,
          toNode_of_equals hequals]
      refine ⟨_, words, [.subst idx], rfl, hm, Nat.le_add_right _ _, hwritten.subst (by omega),
        fun nodeStack => ?_⟩
      rw [applyItems_singleton]
      show (m.table[idx]?).map _ = _
      rw [hget]
      rfl

lemma mangles_identifierImpl {name : Name} (hname : IsIdentifier usePunycode name.chars) :
    Mangles createSwiftType operator usePunycode (fun m => some (m.mangleIdentifierImpl name)) 1
      fun nodeStack => some (nodeStack ++ [.identifier name.chars]) := by
  have heq : (fun m : Remangler ν => some (m.mangleIdentifierImpl name)) = fun m =>
      (m.trySubstitution (.name name)).or (some (Remangler.addSubstitution
        { m with mangler := mangleIdentifier m.mangler name.chars } (.name name))) := by
    funext m
    rw [Remangler.mangleIdentifierImpl]
    cases m.trySubstitution (.name name) <;> rfl
  rw [heq]
  exact (mangles_identifier hname).trySubstitution

/-- The node of a name is pushed. -/
lemma mangles_name {name : Name} (hname : name.Valid usePunycode) :
    Mangles createSwiftType operator usePunycode (fun m => some (m.mangleName name)) 1
      fun nodeStack => some (nodeStack ++ [name.node]) := by
  have himpl : Mangles createSwiftType operator usePunycode _ 1 _ :=
    mangles_identifierImpl hname.isIdentifier
  cases name with
  | identifier ident => exact himpl
  | operator kind op =>
      have hpop := himpl.bind (mangles_write (List.cons_ne_nil _ _) (readsItem_operator kind))
      have heq : (fun nodeStack : List (Node ν) => (some (nodeStack ++
          [.identifier (Name.operator kind op).chars])).bind fun nodeStack =>
            (popOperator kind nodeStack).map fun r => r.2 ++ [r.1]) =
          fun nodeStack => some (nodeStack ++ [.operator kind op]) := by
        funext nodeStack
        show (popOperator kind (nodeStack ++ [.identifier (translateOperator op)])).map _ = _
        rw [popOperator_eq (IsOperatorName.chars hname)]
        rfl
      rw [heq] at hpop
      exact hpop

lemma mangles_all {es : List (Element ν)} (h : ∀ e ∈ es, Mangles createSwiftType operator
    usePunycode (fun m => m.mangleElement e) e.entries fun nodeStack =>
      Element.apply createSwiftType nodeStack e) :
    Mangles createSwiftType operator usePunycode (fun m => m.mangleElements es)
      (Element.entriesAll es) fun nodeStack => Element.applyAll createSwiftType nodeStack es := by
  induction es with
  | nil => exact mangles_nil
  | cons e es ih =>
      obtain ⟨he, hes⟩ := List.forall_mem_cons.1 h
      exact he.bind (ih hes)

/-- What an element is written as does to the stack what the element does. -/
lemma Element.Valid.mangles {e : Element ν} (h : e.Valid createSwiftType operator usePunycode) :
    Mangles createSwiftType operator usePunycode (fun m => m.mangleElement e) e.entries
      fun nodeStack => Element.apply createSwiftType nodeStack e := by
  induction h with
  | name h => exact mangles_name h
  | standard h => exact mangles_standard h
  | other hread => exact mangles_write hread.ne_nil hread.readsItem
  | @compound parts op act nd _ hread hnode ih =>
      have hmangle : (fun m : Remangler ν => m.mangleElement (.compound parts op act nd)) =
          fun m => (m.trySubstitution (.node nd)).or ((m.mangleElements parts).map
            fun m => (m.write op).addSubstitution (.node nd)) := by
        funext m
        rw [Remangler.mangleElement]
        cases m.trySubstitution (.node nd) <;> rfl
      have happly : (fun nodeStack =>
          Element.apply createSwiftType nodeStack (.compound parts op act nd)) =
            fun nodeStack => some (nodeStack ++ [(Entry.node nd).toNode]) := by
        funext nodeStack
        obtain ⟨nodeStack₁, hparts, hact⟩ := Option.bind_eq_some_iff.1 (hnode nodeStack)
        rw [Element.apply, hparts]
        show (act nodeStack₁).map _ = _
        rw [hact]
        rfl
      rw [hmangle, happly]
      exact ((mangles_all ih).compound hread hnode).trySubstitution

/-- **A name with substitutions is read as it was meant.**  Names and nodes that are in the table of
the remangler are substitutions, words are left out, and operators are written in letters; the
demangler makes the same nodes out of what is written, and has the same table in the end. -/
theorem parseNodes_mangleElements (hagree : Agree m.mangler words)
    (hm : m.merging.lastNumSubsts = 0) {es : List (Element ν)}
    (hes : ∀ e ∈ es, e.Valid createSwiftType operator m.mangler.usePunycode)
    (hroom : m.substitutions.length + Element.entriesAll es ≤ intMax) :
    ∃ m' out, m.mangleElements es = some m' ∧ m'.mangler.buffer = m.mangler.buffer ++ out ∧
      (out.length ≤ intMax → ∀ nodeStack,
        parseNodes createSwiftType operator out.length ⟨out, words⟩ ⟨m.table, nodeStack⟩ =
          (Element.applyAll createSwiftType nodeStack es).map
            fun nodeStack => ⟨m'.table, nodeStack⟩) := by
  have hstart : Written createSwiftType operator m.mangler.buffer words m words [] :=
    { wrote := ⟨[], .stale (List.append_nil _).symm (Or.inl hm), List.forall_mem_nil _, rfl⟩
      run := .nil words
      settled := ⟨_, settled_of_stale List.prefix_rfl (Or.inl hm), hagree.knows⟩
      fits := hagree.fits
      room := hagree.room }
  obtain ⟨m', words', items, hmangle, -, -, hwritten, happly⟩ :=
    mangles_all (fun e he => (hes e he).mangles) hstart rfl hroom
  obtain ⟨blocks, htracks, hsound, hblocks⟩ := hwritten.wrote
  have hrun := hwritten.run
  rw [List.nil_append] at hblocks hrun
  rw [← hblocks] at hrun
  refine ⟨m', blocks.flatMap Block.text, hmangle, htracks.buffer, fun hle nodeStack => ?_⟩
  rw [parseNodes_blocks hsound hrun hle le_rfl, hblocks, happly]


/-! ### A sample -/

/-- The nodes of the sample: an empty list, a standard type, and a structure in its module. -/
inductive SampleNode
  | emptyList
  | standard (typeName : String)
  | structure (module name : List UInt8)
deriving DecidableEq

/-- Two identifiers are popped, and make a structure. -/
def popStructure : List (Node SampleNode) → Option (Node SampleNode × List (Node SampleNode)) :=
  fun nodeStack =>
    match nodeStack.reverse with
    | .identifier name :: .identifier module :: rest =>
        some (.other (.structure module name), rest.reverse)
    | _ => none

/-- The operators `y` and `V`, and no other. -/
def sampleOperator (d : Demangler) (nodes : Nodes (Node SampleNode)) :
    Option ((Node SampleNode × Nodes (Node SampleNode)) × Demangler) :=
  match d.text with
  | [] => none
  | c :: rest =>
      if c = byte 'y' then some ((.other .emptyList, nodes), ⟨rest, d.words⟩)
      else if c = byte 'V' then (addingNode popStructure nodes).map (·, ⟨rest, d.words⟩)
      else none

/-- The structure `ps.x`. -/
def sampleStructure : Element SampleNode :=
  .compound [.name (.identifier (['p', 's'].map byte)), .name (.identifier [byte 'x'])] [byte 'V']
    popStructure (.other (.structure (['p', 's'].map byte) [byte 'x']))

/-- A structure twice, and an operator that is written like the identifier of its module. -/
def sampleElements : List (Element SampleNode) :=
  [sampleStructure, sampleStructure, .name (.operator .prefixOperator (['+', '-'].map byte)),
    .standard ⟨.structureNode, false, 'i', "Int"⟩, .standard ⟨.structureNode, false, 'i', "Int"⟩,
    .other [byte 'y'] fun nodeStack => some (.other .emptyList, nodeStack)]

/-- What is read by its first letter. -/
lemma readsOther_letter {c : UInt8} (hne : c ∉ [byte 'A', byte 'S', byte 'o'])
    (hdigit : Mangle.isDigit c = false)
    {act : Nodes (Node SampleNode) → Option (Node SampleNode × Nodes (Node SampleNode))}
    (hread : ∀ rest words nodes, sampleOperator ⟨c :: rest, words⟩ nodes =
      (act nodes).map (·, ⟨rest, words⟩)) : ReadsOther sampleOperator [c] act where
  ne_nil := List.cons_ne_nil _ _
  ne_subst := fun _ h => hne (List.mem_cons.2 (Or.inl h))
  ne_standard := fun _ h => hne (List.mem_cons_of_mem _ (List.mem_cons.2 (Or.inl h.1)))
  ne_operator := fun _ h => hne (by simp [show c = byte 'o' from h])
  ne_digit := fun _ => hdigit
  reads := hread

lemma valid_sampleStructure (createSwiftType : Kind → String → Node SampleNode) :
    sampleStructure.Valid createSwiftType sampleOperator true := by
  refine .compound ?_ (readsOther_letter (by decide) rfl fun rest words nodes => rfl)
    fun nodeStack => ?_
  · have hname : ∀ ident : List UInt8, ident ≠ [] → needsPunycodeEncoding ident = false →
        Mangle.isDigit (ident.headD 0) = false →
        Element.Valid createSwiftType sampleOperator true (.name (.identifier ident)) :=
      fun ident hne hplain hdigit => .name ⟨hne, fun _ => hdigit, fun h =>
        absurd (h.symm.trans hplain) (by decide)⟩
    exact List.forall_mem_cons.2 ⟨hname _ (by decide) (by decide) rfl,
      List.forall_mem_singleton.2 (hname _ (by decide) (by decide) rfl)⟩
  · show popStructure (nodeStack ++ [_] ++ [_]) = _
    rw [popStructure, List.reverse_append, List.reverse_append]
    show some (_, nodeStack.reverse.reverse) = _
    rw [List.reverse_reverse]

lemma valid_sampleElements (createSwiftType : Kind → String → Node SampleNode) :
    ∀ e ∈ sampleElements, e.Valid createSwiftType sampleOperator true := by
  have hplus : IsOperatorName true (['+', '-'].map byte) :=
    ⟨by decide, List.all_eq_true.1 rfl, fun _ h => absurd h (by decide)⟩
  have hInt : (⟨.structureNode, false, 'i', "Int"⟩ : StandardType) ∈ standardTypes := by decide
  have hstructure := valid_sampleStructure createSwiftType
  exact List.forall_mem_cons.2 ⟨hstructure, List.forall_mem_cons.2 ⟨hstructure,
    List.forall_mem_cons.2 ⟨.name hplus, List.forall_mem_cons.2 ⟨.standard hInt,
      List.forall_mem_cons.2 ⟨.standard hInt, List.forall_mem_singleton.2
        (.other (readsOther_letter (by decide) rfl fun rest words nodes => rfl))⟩⟩⟩⟩⟩

theorem parseNodes_mangleElements_sample :
    (∀ e ∈ sampleElements,
        e.Valid (fun _ name => .other (.standard name)) sampleOperator true) ∧
      ∃ m' out, Remangler.mangleElements ⟨⟨true, [], []⟩, ⟨0, 0, 0, false⟩, []⟩ sampleElements =
          some m' ∧ m'.mangler.buffer = [] ++ out ∧ (out.length ≤ intMax → ∀ nodeStack,
        parseNodes (fun _ name => .other (.standard name)) sampleOperator out.length ⟨out, []⟩
            ⟨[], nodeStack⟩ =
          (Element.applyAll (fun _ name => .other (.standard name)) nodeStack sampleElements).map
            fun nodeStack => ⟨m'.table, nodeStack⟩) :=
  ⟨valid_sampleElements _, parseNodes_mangleElements (agree_initial true []) rfl
    (valid_sampleElements _) (by decide)⟩

end

end ICDump

/-
Substitutions in mangled names (`ManglingUtils.h`, `Remangler.cpp`, `Demangler.cpp`).

What was in a name before is referred to by its number.  The first `26` numbers are letters behind
an `A`, and standard types have letters of their own, behind an `S`.  When substitutions follow each
other at once, `SubstitutionMerging` changes the last one in the buffer: it is repeated, or its
letter becomes a small one and the next letter stands behind it.  `demangleMultiSubstitutions` reads
all letters up to a capital one.

The other operators of a name are parameters, and so are the nodes that are made.
-/
import Mathlib.Data.Nat.Notation
import ICDump.Swift.Identifiers

namespace ICDump

namespace Mangle

/-! ### Standard types -/

/-- The kinds of nodes that standard types have. -/
inductive Kind
  | structureNode
  | enumNode
  | protocolNode
  | classNode
deriving DecidableEq, Repr

/-- An entry of `StandardTypesMangling.def`.  The letters of the second level are behind a `c`. -/
structure StandardType where
  kind : Kind
  secondLevel : Bool
  mangling : Char
  typeName : String
deriving DecidableEq, Repr

/-- `StandardTypesMangling.def`. -/
def standardTypes : List StandardType :=
  [⟨.structureNode, false, 'A', "AutoreleasingUnsafeMutablePointer"⟩,
    ⟨.structureNode, false, 'a', "Array"⟩,
    ⟨.structureNode, false, 'b', "Bool"⟩,
    ⟨.structureNode, false, 'D', "Dictionary"⟩,
    ⟨.structureNode, false, 'd', "Double"⟩,
    ⟨.structureNode, false, 'f', "Float"⟩,
    ⟨.structureNode, false, 'h', "Set"⟩,
    ⟨.structureNode, false, 'I', "DefaultIndices"⟩,
    ⟨.structureNode, false, 'i', "Int"⟩,
    ⟨.structureNode, false, 'J', "Character"⟩,
    ⟨.structureNode, false, 'N', "ClosedRange"⟩,
    ⟨.structureNode, false, 'n', "Range"⟩,
    ⟨.structureNode, false, 'O', "ObjectIdentifier"⟩,
    ⟨.structureNode, false, 'P', "UnsafePointer"⟩,
    ⟨.structureNode, false, 'p', "UnsafeMutablePointer"⟩,
    ⟨.structureNode, false, 'R', "UnsafeBufferPointer"⟩,
    ⟨.structureNode, false, 'r', "UnsafeMutableBufferPointer"⟩,
    ⟨.structureNode, false, 'S', "String"⟩,
    ⟨.structureNode, false, 's', "Substring"⟩,
    ⟨.structureNode, false, 'u', "UInt"⟩,
    ⟨.structureNode, false, 'V', "UnsafeRawPointer"⟩,
    ⟨.structureNode, false, 'v', "UnsafeMutableRawPointer"⟩,
    ⟨.structureNode, false, 'W', "UnsafeRawBufferPointer"⟩,
    ⟨.structureNode, false, 'w', "UnsafeMutableRawBufferPointer"⟩,
    ⟨.enumNode, false, 'q', "Optional"⟩,
    ⟨.protocolNode, false, 'B', "BinaryFloatingPoint"⟩,
    ⟨.protocolNode, false, 'E', "Encodable"⟩,
    ⟨.protocolNode, false, 'e', "Decodable"⟩,
    ⟨.protocolNode, false, 'F', "FloatingPoint"⟩,
    ⟨.protocolNode, false, 'G', "RandomNumberGenerator"⟩,
    ⟨.protocolNode, false, 'H', "Hashable"⟩,
    ⟨.protocolNode, false, 'j', "Numeric"⟩,
    ⟨.protocolNode, false, 'K', "BidirectionalCollection"⟩,
    ⟨.protocolNode, false, 'k', "RandomAccessCollection"⟩,
    ⟨.protocolNode, false, 'L', "Comparable"⟩,
    ⟨.protocolNode, false, 'l', "Collection"⟩,
    ⟨.protocolNode, false, 'M', "MutableCollection"⟩,
    ⟨.protocolNode, false, 'm', "RangeReplaceableCollection"⟩,
    ⟨.protocolNode, false, 'Q', "Equatable"⟩,
    ⟨.protocolNode, false, 'T', "Sequence"⟩,
    ⟨.protocolNode, false, 't', "IteratorProtocol"⟩,
    ⟨.protocolNode, false, 'U', "UnsignedInteger"⟩,
    ⟨.protocolNode, false, 'X', "RangeExpression"⟩,
    ⟨.protocolNode, false, 'x', "Strideable"⟩,
    ⟨.protocolNode, false, 'Y', "RawRepresentable"⟩,
    ⟨.protocolNode, false, 'y', "StringProtocol"⟩,
    ⟨.protocolNode, false, 'Z', "SignedInteger"⟩,
    ⟨.protocolNode, false, 'z', "BinaryInteger"⟩,
    ⟨.protocolNode, true, 'A', "Actor"⟩,
    ⟨.structureNode, true, 'C', "CheckedContinuation"⟩,
    ⟨.structureNode, true, 'c', "UnsafeContinuation"⟩,
    ⟨.structureNode, true, 'E', "CancellationError"⟩,
    ⟨.structureNode, true, 'e', "UnownedSerialExecutor"⟩,
    ⟨.protocolNode, true, 'F', "Executor"⟩,
    ⟨.protocolNode, true, 'f', "SerialExecutor"⟩,
    ⟨.structureNode, true, 'G', "TaskGroup"⟩,
    ⟨.structureNode, true, 'g', "ThrowingTaskGroup"⟩,
    ⟨.protocolNode, true, 'I', "AsyncIteratorProtocol"⟩,
    ⟨.protocolNode, true, 'i', "AsyncSequence"⟩,
    ⟨.structureNode, true, 'J', "UnownedJob"⟩,
    ⟨.classNode, true, 'M', "MainActor"⟩,
    ⟨.structureNode, true, 'P', "TaskPriority"⟩,
    ⟨.structureNode, true, 'S', "AsyncStream"⟩,
    ⟨.structureNode, true, 's', "AsyncThrowingStream"⟩,
    ⟨.structureNode, true, 'T', "Task"⟩,
    ⟨.structureNode, true, 't', "UnsafeCurrentTask"⟩]

/-- The letters of a standard type. -/
def StandardType.subst (t : StandardType) : List UInt8 :=
  (if t.secondLevel then [byte 'c'] else []) ++ [byte t.mangling]

/-- `getStandardTypeSubst`.  The types of the second level are those of the concurrency library. -/
def getStandardTypeSubst (typeName : String) (allowConcurrencyManglings : Bool) :
    Option (List UInt8) :=
  (standardTypes.find? fun t => (allowConcurrencyManglings || !t.secondLevel) &&
    typeName == t.typeName).map StandardType.subst

/-! ### Mangling -/

/-- `SubstitutionMerging`. -/
structure SubstitutionMerging where
  lastSubstPosition : ℕ
  lastSubstSize : ℕ
  lastNumSubsts : ℕ
  lastSubstIsStandardSubst : Bool
deriving DecidableEq, Repr

/-- `MaxRepeatCount`. -/
def maxRepeatCount : ℕ := 2048

/-- What is used of a mangler for substitutions. -/
structure Merger where
  merging : SubstitutionMerging
  buffer : List UInt8
deriving DecidableEq, Repr

namespace Merger

/-- The end of `tryMergeSubst`: the substitution that the caller writes is remembered. -/
def remember (m : Merger) (subst : List UInt8) (isStandardSubst : Bool) : Merger :=
  { m with merging := ⟨m.buffer.length + 1, subst.length, 1, isStandardSubst⟩ }

/-- `tryMergeSubst`, and whether the substitution was merged. -/
def tryMergeSubst (m : Merger) (subst : List UInt8) (isStandardSubst : Bool) : Bool × Merger :=
  let s := m.merging
  if s.lastNumSubsts > 0 ∧ s.lastNumSubsts < maxRepeatCount ∧
      m.buffer.length = s.lastSubstPosition + s.lastSubstSize ∧
      s.lastSubstIsStandardSubst = isStandardSubst then
    let lastSubst := (m.buffer.drop (m.buffer.length - s.lastSubstSize)).dropWhile isDigit
    if lastSubst ≠ subst ∧ isStandardSubst = false then
      (true,
        { merging := ⟨m.buffer.length, 1, 1, isStandardSubst⟩
          buffer := m.buffer.take (m.buffer.length - 1) ++
            (lastSubst.getLastD 0 - byte 'A' + byte 'a') :: subst })
    else if lastSubst = subst then
      let buffer := m.buffer.take s.lastSubstPosition ++ decimal (s.lastNumSubsts + 1) ++ subst
      (true,
        { merging := ⟨s.lastSubstPosition, buffer.length - s.lastSubstPosition,
            s.lastNumSubsts + 1, isStandardSubst⟩
          buffer })
    else (false, m.remember subst isStandardSubst)
  else (false, m.remember subst isStandardSubst)

/-- A substitution is merged, or it is written behind its letter. -/
def mangleSubst (m : Merger) (letter : UInt8) (subst : List UInt8) (isStandardSubst : Bool) :
    Merger :=
  let r := m.tryMergeSubst subst isStandardSubst
  if r.1 then r.2 else { r.2 with buffer := r.2.buffer ++ letter :: subst }

/-- `mangleIndex`. -/
def mangleIndex (value : ℕ) : List UInt8 :=
  if value = 0 then [byte '_'] else decimal (value - 1) ++ [byte '_']

/-- `trySubstitution`, once the number was found. -/
def mangleSubstitution (m : Merger) (idx : ℕ) : Merger :=
  if idx ≥ 26 then { m with buffer := m.buffer ++ byte 'A' :: mangleIndex (idx - 26) }
  else m.mangleSubst (byte 'A') [.ofNat (idx + 'A'.toNat)] false

/-- `mangleStandardSubstitution`, for a type of the standard library. -/
def mangleStandardSubstitution (m : Merger) (typeName : String) : Option Merger :=
  (getStandardTypeSubst typeName true).map fun subst => m.mangleSubst (byte 'S') subst true

end Merger

end Mangle

open Mangle

namespace Demangler

/-! ### Demangling -/

/-- What a demangler has made: the nodes that can be referred to, and the stack, its top last. -/
structure Nodes (ν : Type) where
  substitutions : List ν
  nodeStack : List ν
deriving DecidableEq, Repr

section

variable {ν : Type}

/-- `pushNode`. -/
def Nodes.pushNode (nodes : Nodes ν) (nd : ν) : Nodes ν :=
  { nodes with nodeStack := nodes.nodeStack ++ [nd] }

/-- The loop that pushes a node once less than it is repeated. -/
def Nodes.pushRepeated (nodes : Nodes ν) (repeatCount : ℕ) (nd : ν) : Nodes ν :=
  { nodes with nodeStack := nodes.nodeStack ++ List.replicate (repeatCount - 1) nd }

/-- `pushMultiSubstitutions`.  There may be no repeat count. -/
def Nodes.pushMultiSubstitutions (nodes : Nodes ν) (repeatCount : Option ℕ) (substIdx : ℕ) :
    Option (ν × Nodes ν) :=
  match nodes.substitutions[substIdx]? with
  | none => none
  | some nd =>
      if repeatCount.getD 0 > maxRepeatCount then none
      else some (nd, nodes.pushRepeated (repeatCount.getD 0) nd)

/-- `RepeatCount + 27`, where no number is `-1`. -/
def largeIdx : Option ℕ → ℕ
  | none => 26
  | some n => n + 27

/-- The loop of `demangleMultiSubstitutions`, with a bound on its iterations. -/
def multiSubstitutions : ℕ → Option ℕ → List UInt8 → Nodes ν →
    Option ((ν × Nodes ν) × List UInt8)
  | 0, _, _, _ => none
  | _ + 1, _, [], _ => none
  | bound + 1, repeatCount, c :: text, nodes =>
      if c = 0 then none
      else if isLowerLetter c then
        match nodes.pushMultiSubstitutions repeatCount (c.toNat - 'a'.toNat) with
        | none => none
        | some (nd, nodes) => multiSubstitutions bound none text (nodes.pushNode nd)
      else if isUpperLetter c then
        (nodes.pushMultiSubstitutions repeatCount (c.toNat - 'A'.toNat)).map (·, text)
      else if c = byte '_' then
        nodes.substitutions[largeIdx repeatCount]?.map fun nd => ((nd, nodes), text)
      else
        match demangleNatural (c :: text) with
        | none => none
        | some (n, text) => multiSubstitutions bound (some n) text nodes

/-- `demangleMultiSubstitutions`. -/
def demangleMultiSubstitutions (text : List UInt8) (nodes : Nodes ν) :
    Option ((ν × Nodes ν) × List UInt8) :=
  multiSubstitutions (text.length + 1) none text nodes

variable (createSwiftType : Kind → String → ν)

/-- `createStandardSubstitution`. -/
def createStandardSubstitution (subst : UInt8) (secondLevel : Bool) : Option ν :=
  (standardTypes.find? fun t => secondLevel == t.secondLevel && subst == byte t.mangling).map
    fun t => createSwiftType t.kind t.typeName

/-- The number in `demangleStandardSubstitution`, if there is one.  Where `demangleNatural` fails, a
digit is left, which is no standard type. -/
def readRepeatCount (text : List UInt8) : Option (ℕ × List UInt8) :=
  if Mangle.isDigit (peekChar text) then demangleNatural text else some (0, text)

/-- `demangleStandardSubstitution`, but for the letters that are no standard types. -/
def demangleStandardSubstitution (text : List UInt8) (nodes : Nodes ν) :
    Option ((ν × Nodes ν) × List UInt8) :=
  match readRepeatCount text with
  | none => none
  | some (repeatCount, text) =>
      if repeatCount > maxRepeatCount then none
      else
        let secondLevel := peekChar text == byte 'c'
        match if secondLevel then text.tail else text with
        | [] => none
        | c :: text =>
            (createStandardSubstitution createSwiftType c secondLevel).map fun nd =>
              ((nd, nodes.pushRepeated repeatCount nd), text)

variable (operator : List UInt8 → Nodes ν → Option ((ν × Nodes ν) × List UInt8))

/-- The letters behind an `S` that are no standard types. -/
def isSpecial (c : UInt8) : Bool := c == byte 'o' || c == byte 'C' || c == byte 'g'

/-- `demangleOperator`.  What is no substitution is left to `operator`. -/
def demangleOperator (text : List UInt8) (nodes : Nodes ν) :
    Option ((ν × Nodes ν) × List UInt8) :=
  if peekChar text = byte 'A' then demangleMultiSubstitutions text.tail nodes
  else if peekChar text = byte 'S' ∧ isSpecial (peekChar text.tail) = false then
    demangleStandardSubstitution createSwiftType text.tail nodes
  else operator text nodes

/-- `parseAndPushNodes`, with a bound on the iterations of its loop. -/
def parseAndPushNodes : ℕ → List UInt8 → Nodes ν → Option (Nodes ν)
  | _, [], nodes => some nodes
  | 0, _ :: _, _ => none
  | bound + 1, c :: text, nodes =>
      match demangleOperator createSwiftType operator (c :: text) nodes with
      | none => none
      | some ((nd, nodes), text) => parseAndPushNodes bound text (nodes.pushNode nd)

end

end Demangler

end ICDump

/-
The decoder of type encodings, statement by statement (`TypesEncoding.cpp`).

`Decode.lean` gives the functions of the decoder as functions of what is left of the string.
Here they are programs that move a position in the string: every `*it` and every `substr` is
written down in a log, whether it is inside the string or not, and every loop and every call of
`process` has a bound, at which the program gives up.  So one can ask which characters are read,
in the arguments of diagnostics too, and whether the decoder comes to an end.
-/
import ICDump.Encoding.Decode
import ICDump.Library.Attempt

namespace ICDump

/-- What is done to the string.  A substring is one access, whatever it copies. -/
inductive Access
  /-- `*it`, at a position. -/
  | deref (pos : ℕ)
  /-- `encoded.substr(start, …)`. -/
  | substr (start : ℕ)
deriving DecidableEq, Repr

/-- What is allowed on a string of the given size. -/
def Access.InBounds (size : ℕ) : Access → Prop
  | deref pos => pos < size
  | substr start => start ≤ size

instance (size : ℕ) : DecidablePred (Access.InBounds size)
  | .deref pos => inferInstanceAs (Decidable (pos < size))
  | .substr start => inferInstanceAs (Decidable (start ≤ size))

/-- The iterator `it`, and what was done to the string so far. -/
structure Iter where
  pos : ℕ
  log : List Access

/-- A program that moves the iterator.  It may give up. -/
abbrev IterM (α : Type) : Type := Attempt Iter α

namespace IterM

/-! ### The iterator -/

section

variable (encoded : Str)

/-- `it == std::end(encoded)`. -/
def atEnd : IterM Bool := fun s => (some (s.pos == encoded.length), s)

/-- `*it`.  Behind the end there is the null that a `std::string` ends with. -/
def deref : IterM Char := fun s =>
  (some (encoded.getD s.pos (Char.ofNat 0)), { s with log := s.log ++ [.deref s.pos] })

/-- `++it`. -/
def next : IterM Unit := fun s => (some (), { s with pos := s.pos + 1 })

/-- `get_pos(encoded, it)`. -/
def getPos : IterM ℕ := fun s => (some s.pos, s)

/-- `encoded.substr(start, …)`. -/
def substr (start : ℕ) : IterM Unit := fun s =>
  (some (), { s with log := s.log ++ [.substr start] })

/-- `*it++`. -/
def take : IterM Char := do
  let c ← deref encoded
  next
  return c

/-- `it != std::end(encoded) && p(*it)`. -/
def test (p : Char → Bool) : IterM Bool := do
  if ← atEnd encoded then return false
  else
    let c ← deref encoded
    return p c

/-- `if (it != std::end(encoded) && *it == c) ++it;` -/
def skipChar (c : Char) : IterM Unit := do
  if ← test encoded (· == c) then next
  else return ()

/-! ### Tokens -/

/-- `skip_digits`. -/
def skipDigits (bound : ℕ) : IterM Unit := do
  let _ ← Attempt.whileLoop (test encoded isDigit) next bound
  return ()

/-- `read_opt_name`. -/
def readOptName (bound : ℕ) : IterM Str := do
  if ← test encoded (· == '"') then
    let _ ← take encoded
    let name ← Attempt.whileLoop (test encoded (· != '"')) (take encoded) bound
    skipChar encoded '"'
    return name
  else return []

/-- The loop of `read_str_number`. -/
def readStrNumberFrom (n : Str) : ℕ → IterM Str
  | 0 => Attempt.giveUp
  | bound + 1 => do
    if ← test encoded isDigit then
      let c ← take encoded
      readStrNumberFrom [c] bound
    else return n

/-- `read_str_number`. -/
def readStrNumber (bound : ℕ) : IterM Str := readStrNumberFrom encoded [] bound

/-- `process_specifier`. -/
def processSpecifier : IterM TypeSpecifier := do
  if ← atEnd encoded then return .unknown
  else
    let c ← deref encoded
    if specifier c = .unknown then return .unknown
    else
      next
      return specifier c

/-- The `do … while` loop of `process`. -/
def processSpecifiers : ℕ → IterM Unit
  | 0 => Attempt.giveUp
  | bound + 1 => do
    let spec ← processSpecifier encoded
    if ← atEnd encoded then return ()
    else if spec = .unknown then return ()
    else processSpecifiers bound

/-! ### Composite types -/

/-- The body of the loops on the fields of a structure and of a union. -/
def processAttr (bound : ℕ) (proc : IterM Ty) : IterM AttrTy := do
  let name ← readOptName encoded bound
  let type ← proc
  return (name, type)

/-- `process_structure`. -/
def processStructure (bound : ℕ) (proc : IterM Ty) : IterM Ty := do
  skipChar encoded '?'
  let structName ← Attempt.whileLoop (do
    if ← test encoded (· != '=') then
      let c ← deref encoded
      return c != '}'
    else return false) (take encoded) bound
  if ← test encoded (· == '}') then
    next
    return .struct structName []
  else
    skipChar encoded '='
    if ← test encoded (· == '}') then
      next
      return .struct structName []
    else
      let attributes ← Attempt.whileLoop (test encoded (· != '}')) (processAttr encoded bound proc)
        bound
      if ← test encoded (· == '}') then
        next
        return .struct structName attributes
      else
        -- the argument of the error message
        let _ ← deref encoded
        return .null

/-- `process_union`. -/
def processUnion (bound : ℕ) (proc : IterM Ty) : IterM Ty := do
  skipChar encoded '?'
  let unionName ← Attempt.whileLoop (test encoded (· != '=')) (take encoded) bound
  skipChar encoded '='
  if ← test encoded (· == ')') then
    next
    return .union unionName []
  else
    let attributes ← Attempt.whileLoop (test encoded (· != ')')) (processAttr encoded bound proc)
      bound
    if ← test encoded (· == ')') then
      next
      return .union unionName attributes
    else return .null

/-- `process_bitfield`. -/
def processBitfield (bound : ℕ) : IterM Ty := do
  let num ← readStrNumber encoded bound
  if num = [] then return .null
  else return .bitField (strtoull num)

/-- `process_array`. -/
def processArray (bound : ℕ) (proc : IterM Ty) : IterM Ty := do
  let size ← readStrNumber encoded bound
  if size = [] then return .null
  else
    let types ← Attempt.whileLoop (test encoded (· != ']')) proc bound
    if ← test encoded (· == ']') then
      next
      return .array (strtoull size) (types.getLast?.getD .null)
    else return .null

/-- The case `'^'` of `process`. -/
def processPointer (proc : IterM Ty) : IterM Ty := do
  if ← test encoded (· == '?') then
    next
    return .pointer (.primitive .void)
  else
    let currentPos ← getPos
    let ptrType ← proc
    if ptrType.isNull then
      substr currentPos
      return .null
    else return .pointer ptrType

/-- The case `'@'` of `process`. -/
def processObject (bound : ℕ) : IterM Ty := do
  if ← test encoded (· == '?') then
    next
    return .block
  else
    let name ← readOptName encoded bound
    return .object name

/-- The default case of `process`. -/
def unsupported : IterM Ty := do
  let pos ← getPos
  substr (pos - 1)
  return .null

/-! ### `process` and `decode_type` -/

/-- The `switch` of `process`. -/
def processCode (bound : ℕ) (proc : IterM Ty) (c : Char) : IterM Ty :=
  match c with
  | 'c' => return .primitive .char
  | 'i' => return .primitive .int
  | 's' => return .primitive .short
  | 'l' => return .primitive .long
  | 'q' => return .primitive .longLong
  | 'C' => return .primitive .unsignedChar
  | 'I' => return .primitive .unsignedInt
  | 'S' => return .primitive .unsignedShort
  | 'L' => return .primitive .unsignedLong
  | 'Q' => return .primitive .unsignedLongLong
  | 'f' => return .primitive .float
  | 'd' => return .primitive .double
  | 'B' => return .primitive .bool
  | 'v' => return .primitive .void
  | '*' => return .primitive .cstring
  | '#' => return .cls
  | ':' => return .selector
  | '[' => processArray encoded bound proc
  | '{' => processStructure encoded bound proc
  | '(' => processUnion encoded bound proc
  | 'b' => processBitfield encoded bound
  | '?' => return .unknown
  | '^' => processPointer encoded proc
  | '@' => processObject encoded bound
  | _ => unsupported

/-- `process`. -/
def process : ℕ → IterM Ty
  | 0 => Attempt.giveUp
  | bound + 1 => do
    skipDigits encoded (bound + 1)
    if ← atEnd encoded then return .null
    else
      processSpecifiers encoded (bound + 1)
      if ← atEnd encoded then return .null
      else
        let c ← take encoded
        processCode encoded (bound + 1) (process bound) c

/-- `decode_type`. -/
def decodeType (bound : ℕ) : IterM (List Ty) := do
  if encoded.isEmpty then return []
  else
    let types ← Attempt.whileLoop (return !(← atEnd encoded)) (do
      let _ ← processSpecifier encoded
      process encoded bound) bound
    return types.filter fun t => !t.isNull

end

end IterM

/-- What `decode_type` does to the string `encoded`, with a bound on its loops and its recursion
that is large enough. -/
def accesses (encoded : Str) : List Access :=
  (IterM.decodeType encoded (encoded.length + 1) ⟨0, []⟩).2.log

end ICDump

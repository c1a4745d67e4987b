/-
The decoder of type encodings (`TypesEncoding.cpp`).

The iterator that the source threads through its functions is what is left of the
string: `it == std::end(encoded)` is `it = []`, `*it` is the head and `++it` drops
it.  Every function that moves the iterator is a reader.  The functions that call
`process` back are written for an arbitrary reader `proc` in its place, and
`process` is tied by `Reader.fix`; its equation is `process_eq`.

The diagnostics of the source are not modelled, nor is `Type::specifiers`, which
nothing fills.
-/
import ICDump.Library.Cursor
import ICDump.Encoding.Types

namespace ICDump

/-! ### Tokens -/

/-- `is_digit`. -/
def isDigit (c : Char) : Bool := decide ('0' ≤ c) && decide (c ≤ '9')

/-- `skip_digits`. -/
def skipDigits (it : Str) : Str := it.dropWhile isDigit

/-- `if (it != std::end(encoded) && *it == c) ++it;` -/
def skipChar (c : Char) : Str → Str
  | [] => []
  | d :: it => if d = c then it else d :: it

/-- `read_opt_name`: a name between quotes, if there is one.  The closing quote may be
missing. -/
def readOptName : Reader Char Str
  | [] => ([], [])
  | c :: it =>
      if c = '"' then (it.takeWhile (· != '"'), skipChar '"' (it.dropWhile (· != '"')))
      else ([], c :: it)

/-- The loop of `read_str_number`.  A digit *replaces* the digits read before it. -/
def readStrNumberFrom (n : Str) : Reader Char Str
  | [] => (n, [])
  | c :: it => if isDigit c then readStrNumberFrom [c] it else (n, c :: it)

/-- `read_str_number`. -/
def readStrNumber : Reader Char Str := readStrNumberFrom []

/-- `std::strtoull` in base ten, on a string of digits. -/
def strtoull (s : Str) : ℕ := min (Nat.ofDigitChars 10 s 0) (UInt64.size - 1)

/-- The `switch` of `process_specifier`. -/
def specifier : Char → TypeSpecifier
  | 'r' => .const
  | 'n' => .in_
  | 'N' => .inOut
  | 'o' => .out
  | 'O' => .byCopy
  | 'R' => .byRef
  | 'V' => .oneWay
  | 'A' => .atomic
  | 'j' => .complex
  | _ => .unknown

/-- `process_specifier`. -/
def processSpecifier : Reader Char TypeSpecifier
  | [] => (.unknown, [])
  | c :: it => if specifier c = .unknown then (.unknown, c :: it) else (specifier c, it)

/-- The `do … while` loop of `process`, which runs `process_specifier` until it answers
`UNKNOWN` or the string ends. -/
def processSpecifiers : Str → Str
  | [] => []
  | c :: it => if specifier c = .unknown then c :: it else processSpecifiers it

/-! ### Composite types -/

/-- `it == std::end(encoded) || *it == c`, the negation of the condition of a loop. -/
def atDelim (c : Char) : Str → Bool
  | [] => true
  | d :: _ => d == c

/-- The body of the loops on the fields of a structure and of a union. -/
def processAttr (proc : Reader Char Ty) : Reader Char AttrTy := fun it =>
  let name := readOptName it
  let type := proc name.2
  ((name.1, type.1), type.2)

/-- What `process_structure` and `process_union` do once they have read the name: read
the fields up to the closing delimiter. -/
def processAttrs (proc : Reader Char Ty) (delim : Char) (mk : List AttrTy → Ty) :
    Reader Char Ty := fun it =>
  if it.head? = some delim then (mk [], it.tail)
  else
    let attributes := Reader.repeatUntil (atDelim delim) (processAttr proc) it
    if attributes.2.head? = some delim then (mk attributes.1, attributes.2.tail)
    else (.null, attributes.2)

/-- `process_structure`. -/
def processStructure (proc : Reader Char Ty) : Reader Char Ty := fun it =>
  let it := skipChar '?' it
  let structName := it.takeWhile fun c => c != '=' && c != '}'
  let it := it.dropWhile fun c => c != '=' && c != '}'
  -- an opaque structure has no fields
  if it.head? = some '}' then (.struct structName [], it.tail)
  else processAttrs proc '}' (.struct structName) (skipChar '=' it)

/-- `process_union`.  The name runs to the next `=`, whatever comes before it. -/
def processUnion (proc : Reader Char Ty) : Reader Char Ty := fun it =>
  let it := skipChar '?' it
  let unionName := it.takeWhile (· != '=')
  let it := it.dropWhile (· != '=')
  processAttrs proc ')' (.union unionName) (skipChar '=' it)

/-- `process_bitfield`. -/
def processBitfield : Reader Char Ty := fun it =>
  let num := readStrNumber it
  if num.1 = [] then (.null, num.2) else (.bitField (strtoull num.1), num.2)

/-- `process_array`.  Every type read up to the closing bracket overwrites the one
before it. -/
def processArray (proc : Reader Char Ty) : Reader Char Ty := fun it =>
  let num := readStrNumber it
  if num.1 = [] then (.null, num.2)
  else
    let types := Reader.repeatUntil (atDelim ']') proc num.2
    -- null is kept, and there may have been no type at all
    if types.2.head? = some ']' then
      (.array (strtoull num.1) (types.1.getLast?.getD .null), types.2.tail)
    else (.null, types.2)

/-- The case `'^'` of `process`.  `^?` is a pointer to void. -/
def processPointer (proc : Reader Char Ty) : Reader Char Ty := fun it =>
  if it.head? = some '?' then (.pointer (.primitive .void), it.tail)
  else
    match proc it with
    | (.null, it) => (.null, it)
    | (t, it) => (.pointer t, it)

/-- The case `'@'` of `process`.  `@?` is a block. -/
def processObject : Reader Char Ty := fun it =>
  if it.head? = some '?' then (.block, it.tail)
  else
    let name := readOptName it
    (.object name.1, name.2)

/-! ### `process` and `decode_type` -/

/-- The `switch` of `process` on the letter `c`, with the iterator past it. -/
def processCode (proc : Reader Char Ty) (c : Char) : Reader Char Ty := fun it =>
  match c with
  | 'c' => (.primitive .char, it)
  | 'i' => (.primitive .int, it)
  | 's' => (.primitive .short, it)
  | 'l' => (.primitive .long, it)
  | 'q' => (.primitive .longLong, it)
  | 'C' => (.primitive .unsignedChar, it)
  | 'I' => (.primitive .unsignedInt, it)
  | 'S' => (.primitive .unsignedShort, it)
  | 'L' => (.primitive .unsignedLong, it)
  | 'Q' => (.primitive .unsignedLongLong, it)
  | 'f' => (.primitive .float, it)
  | 'd' => (.primitive .double, it)
  | 'B' => (.primitive .bool, it)
  | 'v' => (.primitive .void, it)
  | '*' => (.primitive .cstring, it)
  | '#' => (.cls, it)
  | ':' => (.selector, it)
  | '[' => processArray proc it
  | '{' => processStructure proc it
  | '(' => processUnion proc it
  | 'b' => processBitfield it
  | '?' => (.unknown, it)
  | '^' => processPointer proc it
  | '@' => processObject it
  | _ => (.null, it)

/-- The body of `process`. -/
def processStep (proc : Reader Char Ty) : Reader Char Ty := fun it =>
  match processSpecifiers (skipDigits it) with
  | [] => (.null, [])
  | c :: it => processCode proc c it

/-- `process`. -/
def process : Reader Char Ty := Reader.fix processStep .null

/-- The body of the loop of `decode_type`. -/
def decodeStep : Reader Char Ty := fun it => process (processSpecifier it).2

/-- `decode_type`.  The results that are not null are kept. -/
def decodeType (encoded : Str) : List Ty :=
  (Reader.repeatUntil List.isEmpty decodeStep encoded).1.filter fun t => !t.isNull

end ICDump

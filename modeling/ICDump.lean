import ICDump.Library.Cursor
import ICDump.Library.Repeats
import ICDump.Library.Enumeration
import ICDump.Library.Chain
import ICDump.Library.Registry
import ICDump.Library.System
import ICDump.Library.Attempt
import ICDump.Library.Emit
import ICDump.Library.Supply
import ICDump.Library.Digits
import ICDump.Library.Dictionary
import ICDump.Encoding.Types
import ICDump.Encoding.Decode
import ICDump.Encoding.Equations
import ICDump.Encoding.Recovery
import ICDump.Encoding.Calls
import ICDump.Encoding.Grammar
import ICDump.Encoding.RoundTrip
import ICDump.Encoding.NamedFields
import ICDump.Encoding.Print
import ICDump.Encoding.Swap
import ICDump.Encoding.Opaque
import ICDump.Encoding.EmptyArray
import ICDump.Encoding.Brackets
import ICDump.Encoding.Completeness
import ICDump.Encoding.Whole
import ICDump.Encoding.Iterator
import ICDump.Encoding.Accesses
import ICDump.Encoding.Progress
import ICDump.Encoding.Costs
import ICDump.Image.Binary
import ICDump.Image.Stream
import ICDump.ObjC.Layout
import ICDump.ObjC.Records
import ICDump.ObjC.MethodEntries
import ICDump.ObjC.TypeStrings
import ICDump.ObjC.Parser
import ICDump.ObjC.Store
import ICDump.ObjC.Classes
import ICDump.ObjC.MethodChain
import ICDump.ObjC.Runs
import ICDump.ObjC.Parse
import ICDump.ObjC.NullPointers
import ICDump.ObjC.Refinement
import ICDump.ObjC.Identity
import ICDump.ObjC.MethodLists
import ICDump.ObjC.Frames
import ICDump.ObjC.PointerForms
import ICDump.ObjC.Orders
import ICDump.Writer.Records
import ICDump.Writer.Image
import ICDump.Writer.Spec
import ICDump.Writer.Lists
import ICDump.Writer.Objects
import ICDump.Writer.RoundTrip
import ICDump.ClangAST.ASTGen
import ICDump.ClangAST.NullSafety
import ICDump.ClangAST.ParamNames
import ICDump.ClangAST.ClassDecl
import ICDump.ClangAST.IvarTypes
import ICDump.ClangAST.ProtocolDecl
import ICDump.ClangAST.Translation
import ICDump.ClangAST.Independence
import ICDump.ClangAST.Identities
import ICDump.Writer.Declarations
import ICDump.Swift.Punycode
import ICDump.Swift.RoundTrip
import ICDump.Swift.Canonical
import ICDump.Swift.UTF8
import ICDump.Swift.Identifiers
import ICDump.Swift.Words
import ICDump.Swift.Mangling
import ICDump.Swift.Demangling
import ICDump.Swift.Symbols
import ICDump.Swift.Operators
import ICDump.Swift.Substitutions
import ICDump.Swift.Merging
import ICDump.Swift.Names
import ICDump.Swift.Elements
import ICDump.Iterators.RefIterator
import ICDump.Iterators.Positions
import ICDump.Iterators.Assignment

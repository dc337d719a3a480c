import X86Listing.AddressMap
import X86Listing.Codec.CompileError
import X86Listing.Codec.Config
import X86Listing.Codec.Instruction
import X86Listing.Codec.Procedure
import X86Listing.Codec.Variant
import X86Listing.CompileError
import X86Listing.Declaration
import X86Listing.Fault
import X86Listing.Instruction.Basic
import X86Listing.Instruction.Decode
import X86Listing.Instruction.DecodeError
import X86Listing.Instruction.Listing
import X86Listing.Instruction.Mnemonic
import X86Listing.Json.Basic
import X86Listing.Json.Parser
import X86Listing.Json.Printer
import X86Listing.Machine.Arithmetic
import X86Listing.Machine.Basic
import X86Listing.Machine.Config
import X86Listing.Machine.Run
import X86Listing.Machine.Shared
import X86Listing.Machine.Step
import X86Listing.Memory.DataSegment
import X86Listing.Memory.Region
import X86Listing.Memory.Sparse
import X86Listing.Memory.Stack
import X86Listing.Memory.Word
import X86Listing.NameMap
import X86Listing.Operand.Cursor
import X86Listing.Operand.Progress
import X86Listing.Operand.Symbols
import X86Listing.Operand.Token
import X86Listing.Power
import X86Listing.Procedure.Basic
import X86Listing.Procedure.Compile
import X86Listing.Procedure.Store
import X86Listing.Procedure.Survey
import X86Listing.Register.Basic
import X86Listing.Register.File
import X86Listing.Session.Command
import X86Listing.Session.Perform
import X86Listing.Source.Classify
import X86Listing.Source.Line
import X86Listing.Text.Blank
import X86Listing.Text.Case
import X86Listing.Text.HexBytes
import X86Listing.Text.NameTable
import X86Listing.Text.Numeral
import X86Listing.Text.Pieces
import X86Listing.Text.Utf8
import X86Listing.Proofs.Answer
import X86Listing.Proofs.Codec.RoundTrip
import X86Listing.Proofs.DataSegment.Append
import X86Listing.Proofs.DataSegment.Continuation
import X86Listing.Proofs.DataSegment.History
import X86Listing.Proofs.DataSegment.Words
import X86Listing.Proofs.Declaration.Element
import X86Listing.Proofs.Declaration.Encoding
import X86Listing.Proofs.Declaration.Listed
import X86Listing.Proofs.Declaration.OffsetTable
import X86Listing.Proofs.Declaration.Scanning
import X86Listing.Proofs.Instruction.Decoding
import X86Listing.Proofs.Instruction.LabelOperand
import X86Listing.Proofs.Instruction.ListingText
import X86Listing.Proofs.Instruction.Lookup
import X86Listing.Proofs.Instruction.Mnemonic
import X86Listing.Proofs.Instruction.PendingPush
import X86Listing.Proofs.Instruction.Place
import X86Listing.Proofs.Instruction.Scanning
import X86Listing.Proofs.Instruction.Spelling
import X86Listing.Proofs.Instruction.Unresolved
import X86Listing.Proofs.Machine.Arithmetic
import X86Listing.Proofs.Machine.Budget
import X86Listing.Proofs.Machine.CallingConvention
import X86Listing.Proofs.Machine.Comparison
import X86Listing.Proofs.Machine.Effects
import X86Listing.Proofs.Machine.Faults
import X86Listing.Proofs.Machine.FlatMemory
import X86Listing.Proofs.Machine.Frame
import X86Listing.Proofs.Machine.Instruction
import X86Listing.Proofs.Machine.JumpTable
import X86Listing.Proofs.Machine.Layout
import X86Listing.Proofs.Machine.OperandShapes
import X86Listing.Proofs.Machine.Operations
import X86Listing.Proofs.Machine.Return
import X86Listing.Proofs.Machine.ShiftRoutine
import X86Listing.Proofs.Machine.SlotList
import X86Listing.Proofs.Machine.Stack
import X86Listing.Proofs.Machine.StackBounds
import X86Listing.Proofs.Machine.StackTop
import X86Listing.Proofs.Machine.StraightCode
import X86Listing.Proofs.Machine.SymbolicJump
import X86Listing.Proofs.Machine.WideArithmetic
import X86Listing.Proofs.Memory.Region
import X86Listing.Proofs.Operand.Boundary
import X86Listing.Proofs.Operand.Declared
import X86Listing.Proofs.Operand.LeadingNumeral
import X86Listing.Proofs.Operand.Names
import X86Listing.Proofs.Operand.Numeral
import X86Listing.Proofs.Operand.Position
import X86Listing.Proofs.Operand.Primitives
import X86Listing.Proofs.Operand.Reading
import X86Listing.Proofs.Operand.Run
import X86Listing.Proofs.Operand.Scan
import X86Listing.Proofs.Procedure.Assembly
import X86Listing.Proofs.Procedure.Atomic
import X86Listing.Proofs.Procedure.FirstError
import X86Listing.Proofs.Procedure.Outline
import X86Listing.Proofs.Procedure.OwnData
import X86Listing.Proofs.Procedure.Recompile
import X86Listing.Proofs.Procedure.Refusal
import X86Listing.Proofs.Procedure.StoreHistory
import X86Listing.Proofs.Procedure.Surroundings
import X86Listing.Proofs.Procedure.Table
import X86Listing.Proofs.Procedure.TwoReadings
import X86Listing.Proofs.Register.File
import X86Listing.Proofs.Register.Lens
import X86Listing.Proofs.Session.Memory
import X86Listing.Proofs.Source.Locals
import X86Listing.Proofs.Source.NormalForm
import X86Listing.Proofs.Source.Normalize
import X86Listing.Proofs.Source.Numbers
import X86Listing.Proofs.Symbols.Growth
import X86Listing.Proofs.Text.Digits
import X86Listing.Proofs.Text.NameTable
import X86Listing.Proofs.Text.Order
import X86Listing.Proofs.Text.Utf8
import X86Listing.Proofs.Text.Words

import JvmAssembler.Attribute.Annotation
import JvmAssembler.Attribute.Basic
import JvmAssembler.Attribute.Emit
import JvmAssembler.Attribute.ModuleInfo
import JvmAssembler.Batch
import JvmAssembler.Bytecode.Body
import JvmAssembler.Bytecode.Instruction
import JvmAssembler.Bytecode.Label
import JvmAssembler.Bytecode.LabelTable
import JvmAssembler.Bytecode.Layout
import JvmAssembler.Bytecode.Opcode
import JvmAssembler.Bytecode.Switch
import JvmAssembler.Bytes
import JvmAssembler.Bytes.Sink
import JvmAssembler.ClassFile
import JvmAssembler.Constant
import JvmAssembler.Descriptor
import JvmAssembler.Diagnostic
import JvmAssembler.Emission
import JvmAssembler.FileTree
import JvmAssembler.Flags
import JvmAssembler.ModifiedUtf8
import JvmAssembler.OffsetTable
import JvmAssembler.Pool.Basic
import JvmAssembler.Pool.Encode
import JvmAssembler.Pool.Finalize
import JvmAssembler.Pool.Intern
import JvmAssembler.Version
import JvmAssembler.Widths
import JvmAssembler.Proofs.Attribute.Annotation
import JvmAssembler.Proofs.Attribute.Length
import JvmAssembler.Proofs.Bytecode.Decode
import JvmAssembler.Proofs.Bytecode.OperandField
import JvmAssembler.Proofs.Bytecode.Operand
import JvmAssembler.Proofs.Bytecode.Instruction
import JvmAssembler.Proofs.Bytecode.Layout
import JvmAssembler.Proofs.Bytecode.RoundTrip
import JvmAssembler.Proofs.Bytecode.Switch
import JvmAssembler.Proofs.Emission
import JvmAssembler.Proofs.Outcome
import JvmAssembler.Proofs.Report
import JvmAssembler.Proofs.ModifiedUtf8
import JvmAssembler.Proofs.OffsetTable
import JvmAssembler.Proofs.Pool.Binding
import JvmAssembler.Proofs.Pool.Decision
import JvmAssembler.Proofs.Pool.Decode
import JvmAssembler.Proofs.Pool.Finalize
import JvmAssembler.Proofs.Pool.History
import JvmAssembler.Proofs.Pool.Indexed
import JvmAssembler.Proofs.Pool.Numbering
import JvmAssembler.Proofs.Pool.Reference
import JvmAssembler.Proofs.Pool.Resolve
import JvmAssembler.Proofs.Reader
import JvmAssembler.Proofs.Record
import JvmAssembler.Proofs.Pool.Content
import JvmAssembler.Proofs.Pool.Deduplication
import JvmAssembler.Proofs.Pool.Endless
import JvmAssembler.Proofs.Pool.KeepsContent
import JvmAssembler.Proofs.Pool.BindStep
import JvmAssembler.Proofs.Pool.OpenStep
import JvmAssembler.Proofs.Pool.Height
import JvmAssembler.Proofs.Pool.Promise
import JvmAssembler.Proofs.Pool.Identity
import JvmAssembler.Proofs.Bytecode.Failure
import JvmAssembler.Proofs.Check
import JvmAssembler.Proofs.Attribute.Decode
import JvmAssembler.Proofs.Attribute.Checks
import JvmAssembler.Proofs.Pool.Bounds
import JvmAssembler.Proofs.Attribute.RoundTrip
import JvmAssembler.Proofs.ClassFile.Framing
import JvmAssembler.Proofs.ClassFile.Prepare
import JvmAssembler.Proofs.ClassFile.Failure
import JvmAssembler.Proofs.ClassFile.Assemble
import JvmAssembler.Proofs.Bytecode.Freshness
import JvmAssembler.Proofs.Pool.Change
import JvmAssembler.Proofs.Pool.Stability
import JvmAssembler.Proofs.Pool.Rank
import JvmAssembler.Proofs.Pool.Refinalize
import JvmAssembler.Proofs.ClassFile.Repeat
import JvmAssembler.Proofs.Bytecode.Positions
import JvmAssembler.Proofs.Bytecode.Dispatch
import JvmAssembler.Proofs.Attribute.Scoping
import JvmAssembler.Proofs.Pool.Edit
import JvmAssembler.Proofs.Pool.Bootstrap
import JvmAssembler.Proofs.ClassFile.Bootstrap
import JvmAssembler.Proofs.Bytecode.Overflow
import JvmAssembler.Proofs.Pool.Meaning
import JvmAssembler.Proofs.Pool.Lookup
import JvmAssembler.Proofs.Bytecode.InterfaceCall
import JvmAssembler.Proofs.Descriptor
import JvmAssembler.Proofs.Batch
import JvmAssembler.Proofs.ClassFile.BootstrapCount
import JvmAssembler.Proofs.Bytecode.Labels
import JvmAssembler.Proofs.Pool.Nesting

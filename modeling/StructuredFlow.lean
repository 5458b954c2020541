import StructuredFlow.BlockTree
import StructuredFlow.BlockTree.Run
import StructuredFlow.BlockTree.Traversal
import StructuredFlow.Code
import StructuredFlow.Code.Emission
import StructuredFlow.Code.Expression
import StructuredFlow.Code.Text
import StructuredFlow.Compilation
import StructuredFlow.Config
import StructuredFlow.Flow
import StructuredFlow.Flow.Analysis
import StructuredFlow.Flow.Worklist
import StructuredFlow.Function
import StructuredFlow.Function.Validation
import StructuredFlow.Instruction
import StructuredFlow.Instruction.Operand
import StructuredFlow.Instruction.Operator
import StructuredFlow.Instruction.Transfer
import StructuredFlow.LabelSet
import StructuredFlow.LabelSet.Bank
import StructuredFlow.Registry
import StructuredFlow.Storage
import StructuredFlow.Storage.Access
import StructuredFlow.Structuring
import StructuredFlow.Structuring.Event
import StructuredFlow.Structuring.Pattern
import StructuredFlow.Text.Blank
import StructuredFlow.Text.Decimal
import StructuredFlow.Text.Identifier
import StructuredFlow.Transfers
import StructuredFlow.Ty
import StructuredFlow.Ty.Layout
import StructuredFlow.Ty.Reader
import StructuredFlow.Walk
import StructuredFlow.Proofs.LabelSet.Members
import StructuredFlow.Proofs.LabelSet.SameMembers
import StructuredFlow.Proofs.LabelSet.Words
import StructuredFlow.Proofs.LabelSet.Bank
import StructuredFlow.Proofs.LabelSet.Changes
import StructuredFlow.Proofs.Reach
import StructuredFlow.Proofs.Flow.Worklist
import StructuredFlow.Proofs.Flow.Closure
import StructuredFlow.Proofs.Flow.PostDominators
import StructuredFlow.Proofs.Flow.MustGetTo
import StructuredFlow.Proofs.Transfers
import StructuredFlow.Proofs.Flow.Relations
import StructuredFlow.Proofs.Flow.AnyOrder
import StructuredFlow.Proofs.Flow.Records
import StructuredFlow.Proofs.Flow.MustOrder
import StructuredFlow.Proofs.Flow.Agreement
import StructuredFlow.Proofs.Flow.Lookups
import StructuredFlow.Proofs.Flow.Bounds
import StructuredFlow.Proofs.Flow.Restriction
import StructuredFlow.Proofs.BlockTree.Leaves
import StructuredFlow.Proofs.BlockTree.Addresses
import StructuredFlow.Proofs.BlockTree.Realises
import StructuredFlow.Proofs.BlockTree.Simulation
import StructuredFlow.Proofs.BlockTree.Scopes
import StructuredFlow.Proofs.BlockTree.Visits
import StructuredFlow.Proofs.BlockTree.Trailing
import StructuredFlow.Proofs.Function.Contract
import StructuredFlow.Proofs.Function.Names
import StructuredFlow.Proofs.Function.Owners
import StructuredFlow.Proofs.Function.Validation
import StructuredFlow.Proofs.Structuring.Marks
import StructuredFlow.Proofs.Structuring.Region
import StructuredFlow.Proofs.Structuring.Choice
import StructuredFlow.Proofs.Structuring.Agreement
import StructuredFlow.Proofs.Structuring.Builds
import StructuredFlow.Proofs.Structuring.Relaxing
import StructuredFlow.Proofs.Structuring.Depth
import StructuredFlow.Proofs.Structuring.Fit
import StructuredFlow.Proofs.Structuring.Partition
import StructuredFlow.Proofs.Structuring.Isolation
import StructuredFlow.Proofs.Structuring.Realisation
import StructuredFlow.Proofs.Structuring.ControlFlow
import StructuredFlow.Proofs.Structuring.Scoping
import StructuredFlow.Proofs.Structuring.Conditions
import StructuredFlow.Proofs.Structuring.Forced
import StructuredFlow.Proofs.Structuring.Preservation
import StructuredFlow.Proofs.Structuring.Requests
import StructuredFlow.Proofs.Structuring.Calls
import StructuredFlow.Proofs.Structuring.Unreached
import StructuredFlow.Proofs.Program.Lowering
import StructuredFlow.Proofs.Program.Paths
import StructuredFlow.Proofs.Program.Region
import StructuredFlow.Proofs.Program.Conditionals
import StructuredFlow.Proofs.Program.Loops
import StructuredFlow.Proofs.Program.Dispatch
import StructuredFlow.Proofs.Registry
import StructuredFlow.Proofs.Text.Identifier
import StructuredFlow.Proofs.Text.Blank
import StructuredFlow.Proofs.Text.Decimal
import StructuredFlow.Proofs.Text.Naming
import StructuredFlow.Proofs.Code.Search
import StructuredFlow.Proofs.Code.Expression
import StructuredFlow.Proofs.Code.Written
import StructuredFlow.Proofs.Code.Writable
import StructuredFlow.Proofs.Code.Run
import StructuredFlow.Proofs.Code.Script
import StructuredFlow.Proofs.Code.Walk
import StructuredFlow.Proofs.Code.Visit
import StructuredFlow.Proofs.Code.Lines
import StructuredFlow.Proofs.Code.Reading
import StructuredFlow.Proofs.Code.Comments
import StructuredFlow.Proofs.Code.Annotation
import StructuredFlow.Proofs.Code.Simulation
import StructuredFlow.Proofs.Compilation
import StructuredFlow.Proofs.Storage.Pointers
import StructuredFlow.Proofs.Ty.Layout
import StructuredFlow.Proofs.Ty.Offsets
import StructuredFlow.Proofs.Ty.Reader
import StructuredFlow.Proofs.Ty.Rereading
import StructuredFlow.Proofs.Storage.Uses
import StructuredFlow.Proofs.Code.Dispatches
import StructuredFlow.Proofs.Code.Printing
import StructuredFlow.Proofs.Code.Actions
import StructuredFlow.Proofs.Emission
import StructuredFlow.Proofs.Indices

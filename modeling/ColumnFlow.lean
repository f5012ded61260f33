import ColumnFlow.Codec.Graph
import ColumnFlow.Codec.Value
import ColumnFlow.Graph.Mermaid
import ColumnFlow.Run
import ColumnFlow.Settings
import ColumnFlow.Proofs.Except
import ColumnFlow.Proofs.Grammar
import ColumnFlow.Proofs.Parsing.Completeness
import ColumnFlow.Proofs.Numbers.Bits
import ColumnFlow.Proofs.Numbers.Nearest
import ColumnFlow.Proofs.Numbers.Decimals
import ColumnFlow.Proofs.Numbers.Numerals
import ColumnFlow.Proofs.Scanning
import ColumnFlow.Proofs.Tiling
import ColumnFlow.Proofs.Parsing.Contents
import ColumnFlow.Proofs.Rendering
import ColumnFlow.Proofs.Execution.Tasks
import ColumnFlow.Proofs.Execution.Orders
import ColumnFlow.Proofs.Execution.Runs
import ColumnFlow.Proofs.Scheduling
import ColumnFlow.Proofs.Digraphs
import ColumnFlow.Proofs.Search
import ColumnFlow.Proofs.Requirements
import ColumnFlow.Proofs.Validity
import ColumnFlow.Proofs.Editing
import ColumnFlow.Proofs.Cycles
import ColumnFlow.Proofs.Sorting
import ColumnFlow.Proofs.Engine
import ColumnFlow.Proofs.Names
import ColumnFlow.Proofs.Lookups
import ColumnFlow.Proofs.Evaluation
import ColumnFlow.Proofs.Interpretation
import ColumnFlow.Proofs.Emission
import ColumnFlow.Proofs.Numbering
import ColumnFlow.Proofs.Caching
import ColumnFlow.Proofs.Compilation
import ColumnFlow.Proofs.Linking.Attachment
import ColumnFlow.Proofs.Linking.Ordering
import ColumnFlow.Proofs.Linking.Serial
import ColumnFlow.Proofs.Linking.Definitions
import ColumnFlow.Proofs.Linking.Acceptance
import ColumnFlow.Proofs.Linking.Edges
import ColumnFlow.Proofs.Arrays.Shapes
import ColumnFlow.Proofs.Arrays.Entries
import ColumnFlow.Proofs.Arrays.Stretching
import ColumnFlow.Proofs.Arrays.Broadcasting
import ColumnFlow.Proofs.Arrays.Nesting
import ColumnFlow.Proofs.Arrays.Pairwise
import ColumnFlow.Proofs.Arrays.Selecting
import ColumnFlow.Proofs.Stepwise
import ColumnFlow.Proofs.Pointwise
import ColumnFlow.Proofs.Builtins
import ColumnFlow.Proofs.Reports
import ColumnFlow.Proofs.Confluence
import ColumnFlow.Proofs.Interleavings
import ColumnFlow.Proofs.Preservation
import ColumnFlow.Proofs.Readback
import ColumnFlow.Proofs.EvalTasks
import ColumnFlow.Proofs.TaskTrees
import ColumnFlow.Proofs.Nodes
import ColumnFlow.Proofs.Arrays.Slicing
import ColumnFlow.Proofs.Parentheses
import ColumnFlow.Proofs.Parsing.Lookahead
import ColumnFlow.Proofs.Parsing.Offsets
import ColumnFlow.Proofs.Arrays.Counting
import ColumnFlow.Proofs.Diagrams
import ColumnFlow.Proofs.Distinctness
import ColumnFlow.Proofs.Json.Documents
import ColumnFlow.Proofs.Json.Numbers
import ColumnFlow.Proofs.Codecs.Variants
import ColumnFlow.Proofs.Codecs

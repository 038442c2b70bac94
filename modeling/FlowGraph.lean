import FlowGraph.Main
import FlowGraph.Proofs.Diagnosis
import FlowGraph.Proofs.Marks
import FlowGraph.Proofs.Pruning
import FlowGraph.Proofs.Refinement
import FlowGraph.Proofs.Soundness
import FlowGraph.Proofs.Transparency
import FlowGraph.Proofs.Reports
import FlowGraph.Proofs.Leftovers
import FlowGraph.Proofs.Prospect
import FlowGraph.Proofs.Foresight
import FlowGraph.Proofs.Splicing
import FlowGraph.Proofs.Rereading
import FlowGraph.Proofs.References
import FlowGraph.Proofs.Renumbering
import FlowGraph.Proofs.Foreign
import FlowGraph.Proofs.Decoding
import FlowGraph.Proofs.Documents
import FlowGraph.Proofs.Depths
import FlowGraph.Proofs.Slots
import FlowGraph.Proofs.Hoisting
import FlowGraph.Proofs.Coverage
import FlowGraph.Proofs.Numbering
import FlowGraph.Proofs.Ahead
import FlowGraph.Proofs.Jumps
import FlowGraph.Proofs.Adapters
import FlowGraph.Proofs.Limits
import FlowGraph.Proofs.Relabelling
import FlowGraph.Proofs.Reachable
import FlowGraph.Proofs.Bytes
import FlowGraph.Proofs.Precedence
import FlowGraph.Proofs.Gathering
import FlowGraph.Proofs.Termination

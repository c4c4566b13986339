import StackLowering.Main
import StackLowering.Tree.Writer
import StackLowering.Proofs.Draws
import StackLowering.Proofs.LoweringDraws
import StackLowering.Proofs.Derivation
import StackLowering.Proofs.Acceptance
import StackLowering.Proofs.Entries
import StackLowering.Proofs.Linking
import StackLowering.Proofs.Machine
import StackLowering.Proofs.Execution
import StackLowering.Proofs.NormalForm
import StackLowering.Proofs.Unambiguity
import StackLowering.Proofs.Paths
import StackLowering.Proofs.Blocks
import StackLowering.Proofs.StackDepth
import StackLowering.Proofs.Session
import StackLowering.Proofs.Relabeling
import StackLowering.Proofs.AssemblyLines
import StackLowering.Proofs.AssemblyReading
import StackLowering.Proofs.AssemblyLinks
import StackLowering.Proofs.DocumentReading
import StackLowering.Proofs.RecordReading
import StackLowering.Proofs.TreeReading
import StackLowering.Proofs.PathPlaces
import StackLowering.Proofs.InputSafety
import StackLowering.Proofs.Delivery
import StackLowering.Proofs.FirstFault
import StackLowering.Proofs.Numbering
import StackLowering.Proofs.NodeEntries
import StackLowering.Proofs.Inventory
import StackLowering.Proofs.Arguments
import StackLowering.Proofs.Escaping
import StackLowering.Proofs.Spelling
import StackLowering.Proofs.Respelling
import StackLowering.Proofs.NodeRoles
import StackLowering.Proofs.RespelledTrees

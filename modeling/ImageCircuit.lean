import ImageCircuit.Command.Plan
import ImageCircuit.Image.GridJson
import ImageCircuit.Image.Png
import ImageCircuit.Main
import ImageCircuit.Proofs.Path
import ImageCircuit.Proofs.Reach
import ImageCircuit.Proofs.Order
import ImageCircuit.Proofs.Draws
import ImageCircuit.Proofs.Swap
import ImageCircuit.Proofs.Formed
import ImageCircuit.Proofs.Meaning
import ImageCircuit.Proofs.Frame
import ImageCircuit.Proofs.Eval
import ImageCircuit.Proofs.Parse
import ImageCircuit.Proofs.Calls
import ImageCircuit.Proofs.Normalize
import ImageCircuit.Proofs.WellFormed
import ImageCircuit.Proofs.Mutation
import ImageCircuit.Proofs.PostHoc
import ImageCircuit.Proofs.SocketMatching
import ImageCircuit.Proofs.Reachable
import ImageCircuit.Proofs.CircuitEval
import ImageCircuit.Proofs.FirstPins
import ImageCircuit.Proofs.Pieces
import ImageCircuit.Proofs.Grammar
import ImageCircuit.Proofs.Accepts
import ImageCircuit.Proofs.Double
import ImageCircuit.Proofs.Rounding
import ImageCircuit.Proofs.Shortest
import ImageCircuit.Proofs.Literals
import ImageCircuit.Proofs.Printing
import ImageCircuit.Proofs.Recursion
import ImageCircuit.Proofs.Refusals
import ImageCircuit.Proofs.Composition
import ImageCircuit.Proofs.Rereading
import ImageCircuit.Proofs.Evolution
import ImageCircuit.Proofs.Reordering
import ImageCircuit.Proofs.Grid
import ImageCircuit.Proofs.Schedules
import ImageCircuit.Proofs.Generated
import ImageCircuit.Proofs.DrawnText
import ImageCircuit.Proofs.LongestPath
import ImageCircuit.Proofs.Sorting
import ImageCircuit.Proofs.Commuting
import ImageCircuit.Proofs.Shaking
import ImageCircuit.Proofs.InnerText
import ImageCircuit.Proofs.VisibleMutation
import ImageCircuit.Proofs.Connected
import ImageCircuit.Proofs.Nesting
import ImageCircuit.Proofs.PartialEval
import ImageCircuit.Proofs.Sockets
import ImageCircuit.Proofs.Undoing
import ImageCircuit.Proofs.Bindings
import ImageCircuit.Proofs.Influence
import ImageCircuit.Proofs.Graph
import ImageCircuit.Proofs.Dot
import ImageCircuit.Proofs.Strata
import ImageCircuit.Proofs.NoiseTable
import ImageCircuit.Proofs.CallTurns
import ImageCircuit.Proofs.JsonText
import ImageCircuit.Proofs.SettingsText

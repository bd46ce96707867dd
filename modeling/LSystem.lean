import LSystem.Binary.Interchange
import LSystem.Grammar.Plants
import LSystem.Walk.Run
import LSystem.Document.Codec
import LSystem.Proofs.Walk.Forest
import LSystem.Proofs.Walk.Rendering
import LSystem.Proofs.Walk.Branch
import LSystem.Proofs.Walk.Scope
import LSystem.Proofs.Binary.Amount
import LSystem.Proofs.Choice.Intervals
import LSystem.Proofs.Choice.Shares
import LSystem.Proofs.Grammar.Productions
import LSystem.Proofs.Grammar.ZeroWeights
import LSystem.Proofs.Grammar.Generations
import LSystem.Proofs.Choice.Acceptance
import LSystem.Proofs.Choice.Places
import LSystem.Proofs.Grammar.Draws
import LSystem.Proofs.Grammar.Clauses
import LSystem.Proofs.Walk.Lengths
import LSystem.Proofs.Walk.Geometry
import LSystem.Proofs.Document.RoundTrip
import LSystem.Proofs.Document.Configurations
import LSystem.Proofs.Walk.Canvases
import LSystem.Proofs.Walk.Tapering
import LSystem.Proofs.Walk.Sending
import LSystem.Proofs.Walk.Meaning
import LSystem.Proofs.Walk.Mirror
import LSystem.Proofs.Walk.Lifting
import LSystem.Proofs.Grammar.Growth
import LSystem.Proofs.Grammar.Reachable
import LSystem.Proofs.Grammar.Reports

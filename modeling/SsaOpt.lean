import SsaOpt.Pipeline
import SsaOpt.Proofs.Stores
import SsaOpt.Proofs.Totality
import SsaOpt.Script
import SsaOpt.Proofs.Chain
import SsaOpt.Proofs.Schedule
import SsaOpt.Proofs.Rehoming
import SsaOpt.Proofs.Rest
import SsaOpt.Proofs.Descent
import SsaOpt.Proofs.Optimality
import SsaOpt.Proofs.Sinking
import SsaOpt.Proofs.Frame
import SsaOpt.Proofs.Layers
import SsaOpt.Proofs.PhiReach
import SsaOpt.Proofs.NormalForm
import SsaOpt.Proofs.Reloads
import SsaOpt.Proofs.TreeQueries
import SsaOpt.Proofs.Moves
import SsaOpt.Proofs.Elements
import SsaOpt.Proofs.Loops
import SsaOpt.Proofs.ScopeStack
import SsaOpt.Proofs.Substitution
import SsaOpt.Proofs.Interchange
import SsaOpt.Proofs.PhiQueries
import SsaOpt.Proofs.Construction

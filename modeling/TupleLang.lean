import TupleLang.Proofs.AllocatedTuples
import TupleLang.Proofs.ArgumentPassing
import TupleLang.Proofs.Budgets
import TupleLang.Proofs.CollectionBounds
import TupleLang.Proofs.Comments
import TupleLang.Proofs.DefinitionOrder
import TupleLang.Proofs.EncodableCode
import TupleLang.Proofs.EnumerationOrder
import TupleLang.Proofs.FlatFixpoints
import TupleLang.Proofs.Flattening
import TupleLang.Proofs.FlowAdequacy
import TupleLang.Proofs.FrameLayout
import TupleLang.Proofs.GraphAdditions
import TupleLang.Proofs.KnownLabels
import TupleLang.Proofs.LeastLiveSets
import TupleLang.Proofs.LivenessSoundness
import TupleLang.Proofs.OperatorCode
import TupleLang.Proofs.PatchedSegments
import TupleLang.Proofs.RootHomes
import TupleLang.Proofs.ShownTypes
import TupleLang.Proofs.VisitedStates

import UnitGraph.Codec.Config
import UnitGraph.Codec.Report
import UnitGraph.Proofs.Analysis.Access
import UnitGraph.Proofs.Analysis.Crossings
import UnitGraph.Proofs.Analysis.Invocations
import UnitGraph.Proofs.Analysis.Recording
import UnitGraph.Proofs.Analysis.Totals
import UnitGraph.Proofs.Codec.RoundTrip
import UnitGraph.Proofs.Config.Decision
import UnitGraph.Proofs.Detection.Collapse
import UnitGraph.Proofs.Detection.Rescoring
import UnitGraph.Proofs.Detection.Skeleton
import UnitGraph.Proofs.Graph.Offences
import UnitGraph.Proofs.Graph.Relisting
import UnitGraph.Proofs.RecordOrder
import UnitGraph.Proofs.SourceLine.Grammar
import UnitGraph.Similarity

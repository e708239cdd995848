import DmmGapbs.Spec.Partition
import DmmGapbs.Spec.Graph
import DmmGapbs.Spec.Tc
import DmmGapbs.Proofs.Tc
import DmmGapbs.Spec.Sssp
import DmmGapbs.Sanity.SsspStep
import DmmGapbs.Proofs.SsspControl
import DmmGapbs.Proofs.SsspScatter
import DmmGapbs.Proofs.SsspInvariant
import DmmGapbs.Proofs.SsspExact
import DmmGapbs.Proofs.SsspRelax
import DmmGapbs.Proofs.SsspPhase2
import DmmGapbs.Proofs.SsspTermination
import DmmGapbs.Spec.Queue
import DmmGapbs.Proofs.Queue
import DmmGapbs.Spec.TdStep
import DmmGapbs.Proofs.TdClaims
import DmmGapbs.Spec.Builder
import DmmGapbs.Proofs.BuilderBarriers
import DmmGapbs.Spec.Bfs
import DmmGapbs.Proofs.BfsControl
import DmmGapbs.Proofs.BfsLoop
import DmmGapbs.Proofs.BuilderCsr
import DmmGapbs.Spec.PrefixSum
import DmmGapbs.Proofs.PrefixSum
import DmmGapbs.Proofs.BfsAddress
import DmmGapbs.Spec.BfsVerifier
import DmmGapbs.Proofs.BfsVerifier
import DmmGapbs.Spec.ShmemBuStep
import DmmGapbs.Proofs.ShmemBuStep
import DmmGapbs.Spec.Relabel
import DmmGapbs.Proofs.Relabel
import DmmGapbs.Proofs.RelabelCopy
import DmmGapbs.Proofs.Hybrid
import DmmGapbs.Proofs.BfsLevels
import DmmGapbs.Proofs.BfsPhases
import DmmGapbs.Proofs.BfsOneRank
import DmmGapbs.Proofs.BuilderStages
import DmmGapbs.Proofs.MakeCsr
import DmmGapbs.Proofs.MakeCsrBounds
import DmmGapbs.Spec.Squish
import DmmGapbs.Proofs.Squish
import DmmGapbs.Proofs.MakeGraph

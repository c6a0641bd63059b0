import YangSchema.Build
import YangSchema.Draft.Lemmas
import YangSchema.Serial
import YangSchema.Proofs.Augmentations
import YangSchema.Proofs.SourceOrder
import YangSchema.Proofs.Deadlock
import YangSchema.Proofs.Inference.Records
import YangSchema.Proofs.Expansion
import YangSchema.Proofs.Unfolding.Draft
import YangSchema.Proofs.Unfolding.Sources
import YangSchema.Proofs.Unfolding.Declaring
import YangSchema.Proofs.Linking
import YangSchema.Proofs.Unfolding.Modules
import YangSchema.Proofs.Schema.Trees
import YangSchema.Proofs.Unfolding
import YangSchema.Proofs.LinkageOrder
import YangSchema.Proofs.Provenance
import YangSchema.Proofs.Termination
import YangSchema.Proofs.Phases
import YangSchema.Proofs.DeviationPolicy
import YangSchema.Proofs.Definitions
import YangSchema.Proofs.MergeOrder
import YangSchema.Proofs.Namespaces
import YangSchema.Proofs.Assembly
import YangSchema.Proofs.Siblings
import YangSchema.Proofs.NodePaths
import YangSchema.Proofs.FailedMoves
import YangSchema.Proofs.Copies
import YangSchema.Proofs.Memoization
import YangSchema.Proofs.Submodules
import YangSchema.Proofs.IncludeOrder
import YangSchema.Proofs.SubmoduleOrder
import YangSchema.Proofs.MissingGroupings
import YangSchema.Proofs.Inference.Rounds
import YangSchema.Proofs.Inference.Blocks
import YangSchema.Proofs.UsesOrder
import YangSchema.Proofs.DeviateEdits
import YangSchema.Proofs.Rejections
import YangSchema.Proofs.TopGroupings
import YangSchema.Proofs.Registration
import YangSchema.Proofs.Mirroring
import YangSchema.Proofs.Editions
import YangSchema.Proofs.EffectiveConfig
import YangSchema.Proofs.Headers
import YangSchema.Proofs.WrittenPaths
import YangSchema.Proofs.PathOrder
import YangSchema.Proofs.SerialForms
import YangSchema.Proofs.RevisionDates
import YangSchema.Proofs.Keywords
import YangSchema.Proofs.Interning

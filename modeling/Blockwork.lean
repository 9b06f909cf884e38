import Blockwork.Proofs.Assembling
import Blockwork.Proofs.Conditions
import Blockwork.Proofs.DraftTexts
import Blockwork.Proofs.FrozenLinks
import Blockwork.Proofs.IntegerTexts
import Blockwork.Proofs.Intervals
import Blockwork.Proofs.LeastOrder
import Blockwork.Proofs.ObtainedTypes
import Blockwork.Proofs.PlanOutputs
import Blockwork.Proofs.PlanPipelines
import Blockwork.Proofs.Registration
import Blockwork.Proofs.Requirements
import Blockwork.Proofs.ResolvedTexts
import Blockwork.Proofs.TypeRecursions
import Blockwork.Report

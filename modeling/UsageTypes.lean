import UsageTypes.Main
import UsageTypes.Proofs.AccessChains
import UsageTypes.Proofs.Accounting
import UsageTypes.Proofs.Additions
import UsageTypes.Proofs.Annotations
import UsageTypes.Proofs.BaseOrder
import UsageTypes.Proofs.Binders
import UsageTypes.Proofs.CallSites
import UsageTypes.Proofs.Comments
import UsageTypes.Proofs.DepthLimits
import UsageTypes.Proofs.Edits
import UsageTypes.Proofs.IntersectionLaws
import UsageTypes.Proofs.LocalScopes
import UsageTypes.Proofs.NestingLimit
import UsageTypes.Proofs.NodeInvariant
import UsageTypes.Proofs.OptionTexts
import UsageTypes.Proofs.Order
import UsageTypes.Proofs.Policies
import UsageTypes.Proofs.Propagation
import UsageTypes.Proofs.ReadPrefixes
import UsageTypes.Proofs.Shadowing
import UsageTypes.Proofs.Specificity
import UsageTypes.Proofs.UniqueReading

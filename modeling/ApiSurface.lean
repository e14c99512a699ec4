import ApiSurface.Draft.Type
import ApiSurface.Inspection
import ApiSurface.Link
import ApiSurface.Proofs.ClosedView
import ApiSurface.Proofs.MethodIdentity
import ApiSurface.Proofs.Shadowing
import ApiSurface.Proofs.Substitution
import ApiSurface.Prose
import ApiSurface.Store
import ApiSurface.Proofs.ArgumentList
import ApiSurface.Proofs.Rendering
import ApiSurface.Proofs.NamePasses
import ApiSurface.Proofs.ShownName
import ApiSurface.Proofs.FixedSource
import ApiSurface.Proofs.Rewriting
import ApiSurface.Proofs.InheritedProse
import ApiSurface.Proofs.OneSection
import ApiSurface.Proofs.StoreGrowth
import ApiSurface.Proofs.BatchOrder
import ApiSurface.Proofs.MemberIdentity
import ApiSurface.Proofs.BracedName
import ApiSurface.Proofs.ClimbLimit
import ApiSurface.Proofs.PublicView
import ApiSurface.Proofs.DraftLinks
import ApiSurface.Proofs.HiddenMembers
import ApiSurface.Proofs.OwnMembers
import ApiSurface.Proofs.StoreHistory
import ApiSurface.Proofs.FinalOutcome
import ApiSurface.Proofs.LastInsertion
import ApiSurface.Proofs.FailedSearch
import ApiSurface.Proofs.DocumentedName
import ApiSurface.Proofs.ScopedLoading
import ApiSurface.Proofs.MangledRoundTrip
import ApiSurface.Proofs.WellFormedMarkup
import ApiSurface.Proofs.ProseFile
import ApiSurface.Proofs.NormalForm
import ApiSurface.Proofs.SizeOverflow
import ApiSurface.Proofs.LeadingType
import ApiSurface.Proofs.ArgumentName
import ApiSurface.Proofs.FirstFlaw
import ApiSurface.Proofs.RootName
import ApiSurface.Proofs.BoundReference
import ApiSurface.Proofs.Variance
import ApiSurface.Proofs.QuotedLiteral
import ApiSurface.Proofs.WrittenName

import VesselHub.Feed
import VesselHub.Http.Exchange
import VesselHub.Job.Interleaving
import VesselHub.Job.Timing
import VesselHub.Main
import VesselHub.Message.Server
import VesselHub.Proofs.Hub.Cancelling
import VesselHub.Proofs.Hub.InStep
import VesselHub.Proofs.Hub.Refused
import VesselHub.Proofs.Job.Accepted
import VesselHub.Proofs.Model.Alias
import VesselHub.Proofs.Model.Noninterference
import VesselHub.Proofs.Model.Refine
import VesselHub.Proofs.Model.WellFormed
import VesselHub.Proofs.Payload.Replica
import VesselHub.Proofs.Tree.Standing
import VesselHub.Proofs.Json.Reordered
import VesselHub.Proofs.Tree.Rebuild
import VesselHub.Proofs.Model.Rebuild
import VesselHub.Proofs.Json.Reach
import VesselHub.Proofs.Model.Named
import VesselHub.Proofs.Model.Discreet
import VesselHub.Proofs.Model.Standing
import VesselHub.Proofs.Model.Address
import VesselHub.Proofs.Tree.Edit
import VesselHub.Proofs.Tree.View
import VesselHub.Proofs.Model.Commute
import VesselHub.Proofs.Tree.Unstamped
import VesselHub.Proofs.Tree.Renewed
import VesselHub.Proofs.Model.Again
import VesselHub.Proofs.Message.Server
import VesselHub.Proofs.Message.Inbound
import VesselHub.Proofs.Model.NothingApplied
import VesselHub.Proofs.Model.Written
import VesselHub.Proofs.Transport.Server
import VesselHub.Proofs.Payload.Changes
import VesselHub.Proofs.Query.Listing
import VesselHub.Proofs.Model.Handles
import VesselHub.Proofs.Model.Deletion
import VesselHub.Proofs.Model.Projection
import VesselHub.Proofs.Path.Matching
import VesselHub.Proofs.Model.Locate
import VesselHub.Proofs.Model.Search
import VesselHub.Proofs.Subscription.Ledger
import VesselHub.Proofs.Session.History
import VesselHub.Proofs.Json.Apart
import VesselHub.Proofs.Transport.LineWorld

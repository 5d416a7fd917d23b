import GeneGraph.ErrorReport
import GeneGraph.Graph.Document
import GeneGraph.Graph.Greedy
import GeneGraph.Json.Field
import GeneGraph.Nominal
import GeneGraph.Samples
import GeneGraph.Settings.Profile
import GeneGraph.Workspace
import GeneGraph.Proofs.Edits
import GeneGraph.Proofs.Checks
import GeneGraph.Proofs.Delivery
import GeneGraph.Proofs.Freezing
import GeneGraph.Proofs.Outcomes
import GeneGraph.Proofs.Restructure
import GeneGraph.Proofs.Soundness
import GeneGraph.Proofs.Splicing
import GeneGraph.Proofs.Grafting
import GeneGraph.Proofs.Retyping
import GeneGraph.Proofs.Joining
import GeneGraph.Proofs.Repairs
import GeneGraph.Proofs.Ordering
import GeneGraph.Proofs.Preimage
import GeneGraph.Proofs.Identity
import GeneGraph.Proofs.Simulation
import GeneGraph.Proofs.JsonText
import GeneGraph.Proofs.Records
import GeneGraph.Proofs.Overlay
import GeneGraph.Proofs.Profiles
import GeneGraph.Proofs.Reading
import GeneGraph.Proofs.Documents
import GeneGraph.Proofs.Alignment
import GeneGraph.Proofs.Wrapping
import GeneGraph.Proofs.Growth
import GeneGraph.Proofs.Room
import GeneGraph.Proofs.Legality
import GeneGraph.Proofs.Outlook
import GeneGraph.Proofs.Framing
import GeneGraph.Proofs.FanOut
import GeneGraph.Proofs.Conservation
import GeneGraph.Proofs.Sourcing
import GeneGraph.Proofs.Hierarchy
import GeneGraph.Proofs.StoredRegistries
import GeneGraph.Proofs.Ancestors
import GeneGraph.Proofs.PlainTypes
import GeneGraph.Proofs.Sequences
import GeneGraph.Proofs.Failures
import GeneGraph.Proofs.Acceptance
import GeneGraph.Proofs.NormalForm
import GeneGraph.Proofs.Collection
import GeneGraph.Proofs.Streams
import GeneGraph.Proofs.Shuffling
import GeneGraph.Proofs.Substitution
import GeneGraph.Proofs.NominalForms
import GeneGraph.Proofs.Rebuilding
import GeneGraph.Proofs.Insertions
import GeneGraph.Proofs.Stock
import GeneGraph.Proofs.Picks
import GeneGraph.Proofs.Resolution
import GeneGraph.Proofs.Packing
import GeneGraph.Proofs.KeyFiles

import DirectoryListing.CommandLine.Folder
import DirectoryListing.Forest
import DirectoryListing.Main
import DirectoryListing.Proofs.Listing.BlockOrder
import DirectoryListing.Proofs.Listing.LabelPaths
import DirectoryListing.Proofs.Listing.RoundTrip
import DirectoryListing.Proofs.Listing.Skipped
import DirectoryListing.Proofs.Listing.Strict
import DirectoryListing.Proofs.Query.Prefixes
import DirectoryListing.Proofs.Query.Rendering
import DirectoryListing.Proofs.Search.Runs
import DirectoryListing.Proofs.Session.Failures
import DirectoryListing.Proofs.Session.Readers
import DirectoryListing.Proofs.Session.Whereabouts
import DirectoryListing.Proofs.Shell.Moves
import DirectoryListing.Proofs.Listing.Leniency
import DirectoryListing.Proofs.Node.InitialParts
import DirectoryListing.Proofs.Listing.CutShort
import DirectoryListing.Proofs.Session.Scripts
import DirectoryListing.Proofs.Session.Containment
import DirectoryListing.Proofs.Search.Operators
import DirectoryListing.Proofs.Search.Shared
import DirectoryListing.Proofs.Find.Printed
import DirectoryListing.Proofs.Forest.Treelike
import DirectoryListing.Proofs.Listing.Edits
import DirectoryListing.Proofs.CommandLine.Status
import DirectoryListing.Proofs.Search.Batches
import DirectoryListing.Proofs.Search.Stopped
import DirectoryListing.Proofs.Listing.EntryPattern
import DirectoryListing.Proofs.Listing.EntryFields
import DirectoryListing.Proofs.Node.Descents
import DirectoryListing.Proofs.Query.Progress

import Branding.Main
import Branding.Proofs.Source.Context
import Branding.Proofs.Source.Sites
import Branding.Proofs.Source.Insertion
import Branding.Proofs.Source.Passes
import Branding.Proofs.Source.Rebranding
import Branding.Proofs.Source.Declared
import Branding.Proofs.Source.DeclarationLine
import Branding.Proofs.Source.Lines
import Branding.Proofs.Source.Points
import Branding.Proofs.Source.Checks
import Branding.Proofs.Source.Kept
import Branding.Proofs.Source.Opened
import Branding.Proofs.Source.Unreferenced
import Branding.Proofs.Source.Tagged
import Branding.Proofs.Source.Twice
import Branding.Proofs.Source.Spared
import Branding.Proofs.Tree.Spelling
import Branding.Proofs.Loader.Candidate
import Branding.Proofs.Loader.Resolution
import Branding.Proofs.Loader.Reported
import Branding.Proofs.Loader.Required
import Branding.Proofs.Options
import Branding.Proofs.Run.Context
import Branding.Proofs.Run.Preview
import Branding.Proofs.Path.Lexical
import Branding.Proofs.Tree.Way
import Branding.Proofs.Path.Outward
import Branding.Proofs.Tree.Plain
import Branding.Proofs.Tree.Edits
import Branding.Proofs.Files.Write
import Branding.Proofs.Files.Clean
import Branding.Proofs.Files.Copy
import Branding.Proofs.Files.Sources
import Branding.Proofs.Files.Loader
import Branding.Proofs.Run.Overlap
import Branding.Proofs.Run.Build
import Branding.Proofs.Run.Install
import Branding.Proofs.Run.Settled
import Branding.Proofs.Files.Remade
import Branding.Proofs.Run.Prepare
import Branding.Proofs.Run.Untouched
import Branding.Proofs.Files.Faults
import Branding.Proofs.Run.Checks
import Branding.Proofs.Run.Reinstall
import Branding.Proofs.Binary64
import Branding.Proofs.Json.Decimal
import Branding.Proofs.Json.Roundtrip
import Branding.Proofs.Remembered
import Branding.Proofs.State.Calls
import Branding.Proofs.State.Saved
import Branding.Proofs.Run.Remembered
import Branding.Proofs.Run.Regenerated
import Branding.Proofs.Run.Records
import Branding.Proofs.Run.Foreseen
import Branding.Proofs.Files.Order
import Branding.Proofs.Files.Departures
import Branding.Proofs.Files.Removed
import Branding.Proofs.Loader.Literal
import Branding.Proofs.Source.Assigned
import Branding.Proofs.Loader.Prefix
import Branding.Proofs.Loader.Helpers
import Branding.Proofs.Path.Text
import Branding.Proofs.Path.Parent
import Branding.Proofs.Run.Apart
import Branding.Proofs.Settings.Search
import Branding.Proofs.Settings.Places
import Branding.Proofs.Run.Shown

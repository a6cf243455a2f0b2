import PagePartials.Text.Basic
import PagePartials.Text.CharClass
import PagePartials.Text.Blank
import PagePartials.Text.Case
import PagePartials.Text.Printable
import PagePartials.Text.Digit
import PagePartials.Text.Quoted
import PagePartials.Comment
import PagePartials.Marker
import PagePartials.SectionName
import PagePartials.Path
import PagePartials.Section
import PagePartials.Log
import PagePartials.Document.Body
import PagePartials.Document.Event
import PagePartials.Document.Basic
import PagePartials.Section.Table
import PagePartials.Extraction.Issue
import PagePartials.Extraction.Basic
import PagePartials.Extraction.Record
import PagePartials.Encoding.Basic
import PagePartials.Encoding.Utf8
import PagePartials.Encoding.Utf16
import PagePartials.Encoding.Charset
import PagePartials.Encoding.Named
import PagePartials.FileSystem.Fault
import PagePartials.FileSystem.Basic
import PagePartials.FileSystem.Access
import PagePartials.Failure
import PagePartials.Extraction.Write
import PagePartials.Command.Settings
import PagePartials.Command.Arguments
import PagePartials.Command.Run
import PagePartials.Main
import PagePartials.Proofs.Text.Lines
import PagePartials.Proofs.Document.Grammar
import PagePartials.Proofs.Document.Page
import PagePartials.Proofs.Document.Conservation
import PagePartials.Proofs.Text.Pieces
import PagePartials.Proofs.SectionName
import PagePartials.Proofs.Document.Sections
import PagePartials.Proofs.Section.PartialName
import PagePartials.Proofs.Extraction.Partials
import PagePartials.Proofs.Encoding.Utf8
import PagePartials.Proofs.Encoding.Utf16
import PagePartials.Proofs.FileSystem.Writing
import PagePartials.Proofs.Extraction.Runs
import PagePartials.Proofs.Path
import PagePartials.Proofs.Document.Locations
import PagePartials.Proofs.Extraction.Overwriting
import PagePartials.Proofs.Document.Children
import PagePartials.Proofs.Section.Rendering
import PagePartials.Proofs.Document.Slices
import PagePartials.Proofs.Document.Unterminated
import PagePartials.Proofs.Extraction.Report
import PagePartials.Proofs.Marker
import PagePartials.Proofs.Extraction.Fragments
import PagePartials.Proofs.Extraction.Index
import PagePartials.Proofs.Document.Inlining
import PagePartials.Proofs.SectionName.Collision
import PagePartials.Proofs.Extraction.Targets
import PagePartials.Proofs.Document.Continuation
import PagePartials.Proofs.Document.Sessions
import PagePartials.Proofs.Document.Skeleton
import PagePartials.Proofs.Extraction.Emission
import PagePartials.Proofs.Document.Linking
import PagePartials.Proofs.Section.Ancestry
import PagePartials.Proofs.Document.Closing
import PagePartials.Proofs.Extraction.Includes
import PagePartials.Proofs.Encoding.Repertoire
import PagePartials.Proofs.Extraction.Encodable
import PagePartials.Proofs.Comment
import PagePartials.Proofs.Extraction.Stopping
import PagePartials.Proofs.Command.Effects
import PagePartials.Proofs.Extraction.Dangling
import PagePartials.Proofs.Section.Ancestors
import PagePartials.Proofs.Section.Preorder
import PagePartials.Proofs.SectionName.Registries
import PagePartials.Proofs.Section.Reparenting
import PagePartials.Proofs.Section.Relinking
import PagePartials.Proofs.SectionName.Runs
import PagePartials.Proofs.Extraction.Paths
import PagePartials.Proofs.Extraction.ClosingTags
import PagePartials.Proofs.Document.Levels
import PagePartials.Proofs.Extraction.Listing
import PagePartials.Proofs.Section.Visibility
import PagePartials.Proofs.Encoding.RoundTrip
import PagePartials.Proofs.Extraction.ReadingBack

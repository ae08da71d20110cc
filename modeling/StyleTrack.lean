import StyleTrack.Calendar
import StyleTrack.SortedMap
import StyleTrack.Text.Blank
import StyleTrack.Text.EditDistance
import StyleTrack.Text.Lowercase
import StyleTrack.Text.Parser
import StyleTrack.Text.Timestamp
import StyleTrack.Text.Utf8
import StyleTrack.Digest.Sha256
import StyleTrack.Json.Quoted
import StyleTrack.Json.Document
import StyleTrack.Json.Value
import StyleTrack.Toml.Document
import StyleTrack.Path.Clean
import StyleTrack.Path.Normalize
import StyleTrack.File.Disk
import StyleTrack.File.Tree
import StyleTrack.Source.Directive
import StyleTrack.Source.Reference
import StyleTrack.Source.Variable
import StyleTrack.Evidence
import StyleTrack.Options
import StyleTrack.Diagnostic.Sink
import StyleTrack.Import.Expansion
import StyleTrack.Import.Listing
import StyleTrack.Import.Standard
import StyleTrack.Cache.Directory
import StyleTrack.Cache.Store
import StyleTrack.Change.Detector
import StyleTrack.Change.Standard
import StyleTrack.Change.Tracker
import StyleTrack.Config.Layers
import StyleTrack.Proofs.Map.Entries
import StyleTrack.Proofs.Import.Traced
import StyleTrack.Proofs.Import.Listing
import StyleTrack.Proofs.Path.Clean
import StyleTrack.Proofs.Path.Join
import StyleTrack.Proofs.File.Tree
import StyleTrack.Proofs.Import.Search
import StyleTrack.Proofs.Change.Decision
import StyleTrack.Proofs.Import.Walk
import StyleTrack.Proofs.Import.Standard
import StyleTrack.Proofs.Import.Expanded
import StyleTrack.Proofs.Import.Completeness
import StyleTrack.Proofs.Cache.Store
import StyleTrack.Proofs.Change.Call
import StyleTrack.Proofs.Change.History
import StyleTrack.Proofs.Change.Failure
import StyleTrack.Proofs.Change.Replay
import StyleTrack.Proofs.Change.Removal
import StyleTrack.Proofs.Import.Descent
import StyleTrack.Proofs.Import.Agenda
import StyleTrack.Proofs.Path.Normalize
import StyleTrack.Proofs.File.Disk
import StyleTrack.Proofs.File.Folder
import StyleTrack.Proofs.Cache.Directory
import StyleTrack.Proofs.Change.Independence
import StyleTrack.Proofs.Toml.Line
import StyleTrack.Proofs.Toml.Document
import StyleTrack.Proofs.Cache.Requests
import StyleTrack.Proofs.Import.Spelling
import StyleTrack.Proofs.Import.Return
import StyleTrack.Proofs.Change.Spelling
import StyleTrack.Proofs.Import.Existence
import StyleTrack.Proofs.Import.Location
import StyleTrack.Proofs.Text.Blank
import StyleTrack.Proofs.Source.Lexeme
import StyleTrack.Proofs.Source.Passage
import StyleTrack.Proofs.Source.Call
import StyleTrack.Proofs.Source.Statement
import StyleTrack.Proofs.Source.Composition
import StyleTrack.Proofs.Source.Stripping
import StyleTrack.Proofs.Source.Offset
import StyleTrack.Proofs.Source.Static
import StyleTrack.Proofs.Import.Embedded
import StyleTrack.Proofs.Source.Interpolation
import StyleTrack.Proofs.Source.Declaration
import StyleTrack.Proofs.Import.Verbatim
import StyleTrack.Proofs.Path.Renormalize
import StyleTrack.Proofs.Source.Target
import StyleTrack.Proofs.Import.Foreign
import StyleTrack.Proofs.Change.Report
import StyleTrack.Proofs.Config.Variable
import StyleTrack.Proofs.Diagnostic.Line
import StyleTrack.Proofs.Diagnostic.Object
import StyleTrack.Proofs.Config.Suggestion
import StyleTrack.Proofs.Import.Stream
import StyleTrack.Proofs.Indexed.Interpolation

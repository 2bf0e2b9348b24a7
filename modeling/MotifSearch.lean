import MotifSearch.Text.Blank
import MotifSearch.Text.Bytes
import MotifSearch.Text.Number
import MotifSearch.Text.Quoted
import MotifSearch.Regex.Parse
import MotifSearch.Regex.Search
import MotifSearch.Note.Accidental
import MotifSearch.Note.Duration
import MotifSearch.Note.Pitch
import MotifSearch.Diagnostic
import MotifSearch.Pattern.Basic
import MotifSearch.Pattern.Canonical
import MotifSearch.Pattern.Compile
import MotifSearch.Xml.Chars
import MotifSearch.Xml.Element
import MotifSearch.Xml.Aside
import MotifSearch.Xml.Entity
import MotifSearch.Xml.Prolog
import MotifSearch.Xml.Document
import MotifSearch.Markup.Container
import MotifSearch.Markup.Pattern
import MotifSearch.Kern.Marked
import MotifSearch.Kern.Voices
import MotifSearch.Search.Basic
import MotifSearch.Json.Basic
import MotifSearch.Json.Token
import MotifSearch.Json.Decode
import MotifSearch.Json.Parse
import MotifSearch.Json.Render
import MotifSearch.Pattern.Saved
import MotifSearch.Corpus.Basic
import MotifSearch.Corpus.Saved
import MotifSearch.Search.Cache
import MotifSearch.Corpus.FilePath
import MotifSearch.Corpus.FileTree
import MotifSearch.Corpus.Import
import MotifSearch.Keyboard.Basic
import MotifSearch.Keyboard.Saved
import MotifSearch.Request
import MotifSearch.Proofs.Regex.Tokens
import MotifSearch.Proofs.Regex.Soundness
import MotifSearch.Proofs.Regex.Address
import MotifSearch.Proofs.Regex.Completeness
import MotifSearch.Proofs.Regex.Factoring
import MotifSearch.Proofs.Regex.Sharing
import MotifSearch.Proofs.Regex.Preference
import MotifSearch.Proofs.Regex.SharedPreference
import MotifSearch.Proofs.Pattern.SyntaxTree
import MotifSearch.Proofs.Pattern.Reading
import MotifSearch.Proofs.Record.Mode
import MotifSearch.Proofs.Record.Progress
import MotifSearch.Proofs.Record.Closing
import MotifSearch.Proofs.Record.Insertion
import MotifSearch.Proofs.Record.Factored
import MotifSearch.Proofs.Record.Notes
import MotifSearch.Proofs.Record.Preferred
import MotifSearch.Proofs.Record.NoteMeaning
import MotifSearch.Proofs.Record.Succession
import MotifSearch.Proofs.Pattern.Meaning
import MotifSearch.Proofs.Search.Spans
import MotifSearch.Proofs.Search.ControlRecords
import MotifSearch.Proofs.Search.RecordScan
import MotifSearch.Proofs.Pattern.Lines
import MotifSearch.Proofs.Pattern.Preference
import MotifSearch.Proofs.Pattern.Carried
import MotifSearch.Proofs.Kern.LineOffsets
import MotifSearch.Proofs.Kern.Touched
import MotifSearch.Proofs.Kern.LineSpans
import MotifSearch.Proofs.Kern.SpineLines
import MotifSearch.Proofs.Search.SpanShape
import MotifSearch.Proofs.Search.Marking
import MotifSearch.Proofs.Search.Voices
import MotifSearch.Proofs.Except
import MotifSearch.Proofs.Xml.Actions
import MotifSearch.Proofs.Xml.EndTags
import MotifSearch.Proofs.Markup.Readings
import MotifSearch.Proofs.Markup.Lowering
import MotifSearch.Proofs.Markup.Proper
import MotifSearch.Proofs.Pattern.NoteText
import MotifSearch.Proofs.Pattern.Canonical
import MotifSearch.Proofs.Search.Caching
import MotifSearch.Proofs.Regex.Widening
import MotifSearch.Proofs.Pattern.Repetition
import MotifSearch.Proofs.Pattern.Kept
import MotifSearch.Proofs.Markup.Containers
import MotifSearch.Proofs.Markup.Fragment
import MotifSearch.Proofs.Search.Found
import MotifSearch.Proofs.Search.Choice
import MotifSearch.Proofs.Search.Fallback
import MotifSearch.Proofs.Search.Coverage
import MotifSearch.Proofs.Pattern.Generalized
import MotifSearch.Proofs.Search.Generalized
import MotifSearch.Proofs.Kern.SingleSpine
import MotifSearch.Proofs.Search.SingleSpine
import MotifSearch.Proofs.Record.Marker
import MotifSearch.Proofs.Search.KeptLines
import MotifSearch.Proofs.Search.MarkedText
import MotifSearch.Proofs.Corpus.Ids
import MotifSearch.Proofs.Corpus.Ranking
import MotifSearch.Proofs.Keyboard.Reached
import MotifSearch.Proofs.Keyboard.Heights
import MotifSearch.Proofs.Xml.EmptyTags
import MotifSearch.Proofs.Keyboard.Markup
import MotifSearch.Proofs.Kern.Slice
import MotifSearch.Proofs.Kern.Columns
import MotifSearch.Proofs.Kern.Comments
import MotifSearch.Proofs.Search.Comments
import MotifSearch.Proofs.Pattern.Notes
import MotifSearch.Proofs.Search.CommentStarts
import MotifSearch.Proofs.Record.Lookahead
import MotifSearch.Proofs.Record.LookaheadMoves
import MotifSearch.Proofs.Search.Lookahead
import MotifSearch.Proofs.Search.ExactNotes
import MotifSearch.Proofs.Corpus.LineEnds
import MotifSearch.Proofs.Markup.LeadingBlanks
import MotifSearch.Proofs.Corpus.Walk
import MotifSearch.Proofs.Corpus.Resolution
import MotifSearch.Proofs.Corpus.DenseIds
import MotifSearch.Proofs.Corpus.Directory
import MotifSearch.Proofs.Markup.Places
import MotifSearch.Proofs.Xml.Depth
import MotifSearch.Proofs.Markup.LoneLayer
import MotifSearch.Proofs.Json.Tokens
import MotifSearch.Proofs.Json.RoundTrip
import MotifSearch.Proofs.Saved.Sessions

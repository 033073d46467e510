import SpeechGrammar.Text.Blank
import SpeechGrammar.Text.Alphanumeric
import SpeechGrammar.Text.LowerCase
import SpeechGrammar.Text.Utf8
import SpeechGrammar.Numeric.Single
import SpeechGrammar.Component.Rule
import SpeechGrammar.Jsgf.Lexical
import SpeechGrammar.Jsgf.Printer
import SpeechGrammar.Jsgf.Document
import SpeechGrammar.Match.ParseTree
import SpeechGrammar.Match.Options
import SpeechGrammar.Grammar.Basic
import SpeechGrammar.Graph.Layout
import SpeechGrammar.Match.Search
import SpeechGrammar.Digest.Blake3
import SpeechGrammar.Match.Candidates
import SpeechGrammar.Cache.Blob
import SpeechGrammar.Workspace
import SpeechGrammar.Proofs.Language
import SpeechGrammar.Proofs.Inlining
import SpeechGrammar.Proofs.Paths
import SpeechGrammar.Proofs.SearchPaths
import SpeechGrammar.Proofs.LayoutPaths
import SpeechGrammar.Proofs.Wildcards
import SpeechGrammar.Proofs.Recognition
import SpeechGrammar.Proofs.StoreInvariant
import SpeechGrammar.Proofs.Runs
import SpeechGrammar.Proofs.CacheCodec
import SpeechGrammar.Proofs.CacheValidation
import SpeechGrammar.Proofs.CacheRoundTrip
import SpeechGrammar.Proofs.SearchLimits
import SpeechGrammar.Proofs.WorkspaceRuns
import SpeechGrammar.Proofs.Compilability
import SpeechGrammar.Proofs.Roster
import SpeechGrammar.Proofs.Expansions
import SpeechGrammar.Proofs.NumberText
import SpeechGrammar.Proofs.Rereading
import SpeechGrammar.Proofs.Splicing
import SpeechGrammar.Proofs.GrammarText
import SpeechGrammar.Proofs.Reloading
import SpeechGrammar.Proofs.LoopEntries
import SpeechGrammar.Proofs.Termination
import SpeechGrammar.Proofs.ReloadedLanguage
import SpeechGrammar.Proofs.RestoredStates
import SpeechGrammar.Proofs.WrittenForms
import SpeechGrammar.Proofs.ReadAsWritten
import SpeechGrammar.Proofs.WrittenAsRead
import SpeechGrammar.Proofs.Generations
import SpeechGrammar.Proofs.RestoredCounters
import SpeechGrammar.Proofs.LegibleComponents
import SpeechGrammar.Proofs.LegibleGrammars
import SpeechGrammar.Proofs.Walks
import SpeechGrammar.Proofs.LayoutWalks
import SpeechGrammar.Proofs.Brackets
import SpeechGrammar.Proofs.FirstParse
import SpeechGrammar.Proofs.DamagedCaches
import SpeechGrammar.Proofs.Requests
import SpeechGrammar.Proofs.OwnWords
import SpeechGrammar.Proofs.SkippedChanges
import SpeechGrammar.Proofs.CandidateParses
import SpeechGrammar.Proofs.LoadedGrammars
import SpeechGrammar.Proofs.Culprits
import SpeechGrammar.Proofs.ReachedRules
import SpeechGrammar.Proofs.Parts
import SpeechGrammar.Proofs.Decoders
import SpeechGrammar.Proofs.AnnouncedLengths
import SpeechGrammar.Proofs.CacheReaders
import SpeechGrammar.Proofs.SearchCalls
import SpeechGrammar.Proofs.Folding
import SpeechGrammar.Proofs.Quoting
import SpeechGrammar.Proofs.Tables
import SpeechGrammar.Proofs.Stores
import SpeechGrammar.Proofs.Progress

import MinimalistGrammar.Text.CodePoint
import MinimalistGrammar.Text.Blank
import MinimalistGrammar.Text.Digit
import MinimalistGrammar.Text.Printable
import MinimalistGrammar.Text.Quoted
import MinimalistGrammar.Text.Encoding
import MinimalistGrammar.Text.Integer
import MinimalistGrammar.Text.Lines
import MinimalistGrammar.Collection.SortedSet
import MinimalistGrammar.Collection.SortedMap
import MinimalistGrammar.Json.Basic
import MinimalistGrammar.Json.Double
import MinimalistGrammar.Json.Elements
import MinimalistGrammar.Json.Display
import MinimalistGrammar.Json.Writer
import MinimalistGrammar.Json.Reader
import MinimalistGrammar.Name
import MinimalistGrammar.Feature
import MinimalistGrammar.Formula.Basic
import MinimalistGrammar.Formula.Name
import MinimalistGrammar.Formula.Printer
import MinimalistGrammar.Formula.Reader
import MinimalistGrammar.Grammar.Basic
import MinimalistGrammar.Grammar.Lexicon
import MinimalistGrammar.Grammar.Document
import MinimalistGrammar.Model.Basic
import MinimalistGrammar.Model.Description
import MinimalistGrammar.Model.Document
import MinimalistGrammar.Expression.Basic
import MinimalistGrammar.Expression.Merge
import MinimalistGrammar.Expression.Attachment
import MinimalistGrammar.Expression.Spellout
import MinimalistGrammar.Chart.Entry
import MinimalistGrammar.Chart.Combination
import MinimalistGrammar.Chart.Listing
import MinimalistGrammar.Parsing.Search
import MinimalistGrammar.Parsing.Report
import MinimalistGrammar.Parsing.Attempt
import MinimalistGrammar.Truth.Evaluation
import MinimalistGrammar.Truth.Trace
import MinimalistGrammar.Model.Assignment
import MinimalistGrammar.Storage.Log
import MinimalistGrammar.Storage.Path
import MinimalistGrammar.Storage.Files
import MinimalistGrammar.Storage.Directory
import MinimalistGrammar.CommandLine.Arguments
import MinimalistGrammar.CommandLine.Invocation
import MinimalistGrammar.CommandLine.Output
import MinimalistGrammar.CommandLine.Sentence
import MinimalistGrammar.CommandLine.Session
import MinimalistGrammar.CommandLine.Run
import MinimalistGrammar.Main
import MinimalistGrammar.Proofs.Except
import MinimalistGrammar.Proofs.Trimming
import MinimalistGrammar.Proofs.Numeral
import MinimalistGrammar.Proofs.IntegerNotation
import MinimalistGrammar.Proofs.Scanning
import MinimalistGrammar.Proofs.Notation
import MinimalistGrammar.Proofs.RoundTrip
import MinimalistGrammar.Proofs.WrittenForms
import MinimalistGrammar.Proofs.Lines
import MinimalistGrammar.Proofs.Recognition
import MinimalistGrammar.Proofs.TruthConditions
import MinimalistGrammar.Proofs.Assignments
import MinimalistGrammar.Proofs.Sets
import MinimalistGrammar.Proofs.Combination
import MinimalistGrammar.Proofs.Derivation
import MinimalistGrammar.Proofs.Operation
import MinimalistGrammar.Proofs.Symmetry
import MinimalistGrammar.Proofs.Weight
import MinimalistGrammar.Proofs.Search
import MinimalistGrammar.Proofs.Correspondence
import MinimalistGrammar.Proofs.Termination
import MinimalistGrammar.Proofs.Consumption
import MinimalistGrammar.Proofs.Words
import MinimalistGrammar.Proofs.Conservation
import MinimalistGrammar.Proofs.Typing
import MinimalistGrammar.Proofs.Binding
import MinimalistGrammar.Proofs.Renaming
import MinimalistGrammar.Proofs.Reindexing
import MinimalistGrammar.Proofs.Renumbering
import MinimalistGrammar.Proofs.Priority
import MinimalistGrammar.Proofs.Attached
import MinimalistGrammar.Proofs.Heads
import MinimalistGrammar.Proofs.Continuation
import MinimalistGrammar.Proofs.Pending
import MinimalistGrammar.Proofs.Agenda
import MinimalistGrammar.Proofs.Acceptance
import MinimalistGrammar.Proofs.Balance
import MinimalistGrammar.Proofs.Tokens
import MinimalistGrammar.Proofs.Vocabulary
import MinimalistGrammar.Proofs.Pronunciation
import MinimalistGrammar.Proofs.Arguments
import MinimalistGrammar.Proofs.Replay
import MinimalistGrammar.Proofs.Opacity
import MinimalistGrammar.Proofs.Serialization
import MinimalistGrammar.Proofs.Storage
import MinimalistGrammar.Proofs.FeatureNotation
import MinimalistGrammar.Proofs.GrammarDocument
import MinimalistGrammar.Proofs.Adjuncts
import MinimalistGrammar.Proofs.DocumentTypes
import MinimalistGrammar.Proofs.Undescribed
import MinimalistGrammar.Proofs.ModelDocument
import MinimalistGrammar.Proofs.Meanings
import MinimalistGrammar.Proofs.Inscriptions
import MinimalistGrammar.Proofs.Robustness
import MinimalistGrammar.Proofs.IndexRenaming
import MinimalistGrammar.Proofs.Numbering
import MinimalistGrammar.Proofs.Answers
import MinimalistGrammar.Proofs.Dialogue
import MinimalistGrammar.Proofs.Scope
import MinimalistGrammar.Proofs.Exclusion
import MinimalistGrammar.Proofs.Bivalence
import MinimalistGrammar.Proofs.Entailment
import MinimalistGrammar.Proofs.Repetition
import MinimalistGrammar.Proofs.ListingRows
import MinimalistGrammar.Proofs.DerivationListing
import MinimalistGrammar.Proofs.DerivationLines
import MinimalistGrammar.Proofs.Encodability
import MinimalistGrammar.Proofs.EncodableDocuments
import MinimalistGrammar.Proofs.Streams
import MinimalistGrammar.Proofs.ExitCodes

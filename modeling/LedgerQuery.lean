import LedgerQuery.Text.Span
import LedgerQuery.Text.Location
import LedgerQuery.Text.Width
import LedgerQuery.Text.Quoted
import LedgerQuery.Text.Blank
import LedgerQuery.Text.Lines
import LedgerQuery.Value.Literal
import LedgerQuery.Token.Basic
import LedgerQuery.Token.Scan
import LedgerQuery.Query.Basic
import LedgerQuery.Parse
import LedgerQuery.Query.Written
import LedgerQuery.Query.Outline
import LedgerQuery.Query.Postorder
import LedgerQuery.Json.Decode
import LedgerQuery.Query.Equality
import LedgerQuery.Error.Diagnostic
import LedgerQuery.Reparse
import LedgerQuery.Proofs.Phrase.Basic
import LedgerQuery.Proofs.Phrase.Grammar
import LedgerQuery.Proofs.Lexing.Legal
import LedgerQuery.Proofs.Lexing.Spelling
import LedgerQuery.Proofs.Lexing.Values
import LedgerQuery.Proofs.Phrase.Opening
import LedgerQuery.Proofs.Phrase.Place
import LedgerQuery.Proofs.Reading.Backward
import LedgerQuery.Proofs.Reading.CompleteExpr
import LedgerQuery.Proofs.Reading.CompleteSelect
import LedgerQuery.Proofs.Reading.Exact
import LedgerQuery.Proofs.Tree.Conditions
import LedgerQuery.Proofs.Tree.Levels
import LedgerQuery.Proofs.Written.Derived
import LedgerQuery.Proofs.Written.Scanned
import LedgerQuery.Proofs.Written.ScannedTree
import LedgerQuery.Proofs.Written.DerivedSelect
import LedgerQuery.Proofs.Written.CoversSelect
import LedgerQuery.Proofs.Limit.Threshold
import LedgerQuery.Proofs.Reading.Valid
import LedgerQuery.Proofs.Reading.Placeholders
import LedgerQuery.Proofs.Written.Reread
import LedgerQuery.Proofs.Limit.Height
import LedgerQuery.Proofs.Lexing.Segments
import LedgerQuery.Proofs.Lexing.Longest
import LedgerQuery.Proofs.Tree.Like
import LedgerQuery.Proofs.Reading.Uniform
import LedgerQuery.Proofs.Reading.Insertion
import LedgerQuery.Proofs.Reading.Lookahead
import LedgerQuery.Proofs.Reading.LookaheadExpr
import LedgerQuery.Proofs.Reading.LookaheadSelect
import LedgerQuery.Proofs.Reading.Targets
import LedgerQuery.Proofs.Reading.Excerpts
import LedgerQuery.Proofs.Json.RoundTrip
import LedgerQuery.Proofs.Lexing.Recased
import LedgerQuery.Proofs.Reading.Beginnings
import LedgerQuery.Proofs.Reading.Completes
import LedgerQuery.Proofs.Reading.CompletesExpr
import LedgerQuery.Proofs.Reading.HeedsExpr
import LedgerQuery.Proofs.Reading.HeedsSelect
import LedgerQuery.Proofs.Reading.Recased
import LedgerQuery.Proofs.Lexing.Stuck
import LedgerQuery.Proofs.Reading.Modulo
import LedgerQuery.Proofs.Outline.Layout
import LedgerQuery.Proofs.Outline.Constants
import LedgerQuery.Proofs.Tree.Unspanned
import LedgerQuery.Proofs.Outline.Readable
import LedgerQuery.Proofs.Outline.Injective
import LedgerQuery.Proofs.Reading.Keys
import LedgerQuery.Proofs.Reading.CompletesSelect
import LedgerQuery.Proofs.Reading.Completion
import LedgerQuery.Proofs.Reading.Expectations
import LedgerQuery.Proofs.Text.Location
import LedgerQuery.Proofs.Tree.Occurrences
import LedgerQuery.Proofs.Reading.Numbers
import LedgerQuery.Proofs.Reading.Parenthesised
import LedgerQuery.Proofs.Trace.Run

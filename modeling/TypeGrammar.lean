import TypeGrammar.Cursor.Session
import TypeGrammar.Main
import TypeGrammar.Node.Make
import TypeGrammar.SourceText
import TypeGrammar.Proofs.Layout
import TypeGrammar.Proofs.Reading
import TypeGrammar.Proofs.ReadingPaths
import TypeGrammar.Proofs.ReadingTypes
import TypeGrammar.Proofs.Rereading
import TypeGrammar.Proofs.RereadingLifetimes
import TypeGrammar.Proofs.RereadingPaths
import TypeGrammar.Proofs.RereadingExpressions
import TypeGrammar.Proofs.RereadingTypes
import TypeGrammar.Proofs.RoundTrip
import TypeGrammar.Proofs.Unchanged
import TypeGrammar.Proofs.Binders
import TypeGrammar.Proofs.Outcomes
import TypeGrammar.Proofs.Tiling
import TypeGrammar.Proofs.Retokenizing
import TypeGrammar.Proofs.Balance
import TypeGrammar.Proofs.Lookahead
import TypeGrammar.Proofs.Places
import TypeGrammar.Proofs.Payload
import TypeGrammar.Proofs.Adjacency
import TypeGrammar.Proofs.Plus
import TypeGrammar.Proofs.Precedence
import TypeGrammar.Proofs.Promoting
import TypeGrammar.Proofs.Tuples
import TypeGrammar.Proofs.Calls
import TypeGrammar.Proofs.Trimming
import TypeGrammar.Proofs.Display
import TypeGrammar.Proofs.Skipping
import TypeGrammar.Proofs.Formatting
import TypeGrammar.Proofs.Carets
import TypeGrammar.Proofs.Growing
import TypeGrammar.Proofs.Parts
import TypeGrammar.Proofs.Seams
import TypeGrammar.Proofs.WalkingLexemes
import TypeGrammar.Proofs.Colors
import TypeGrammar.Proofs.Qualified
import TypeGrammar.Proofs.Taking
import TypeGrammar.Proofs.Abutting
import TypeGrammar.Proofs.Rows
import TypeGrammar.Proofs.TextRoundTrip

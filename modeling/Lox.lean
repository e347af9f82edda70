import Lox.Evaluation.Fuel
import Lox.Expr.Text
import Lox.Grammar.Bound
import Lox.Main
import Lox.Proofs.Token.Lexis
import Lox.Proofs.Token.Scanning
import Lox.Proofs.Token.Joining
import Lox.Proofs.Grammar.Reads
import Lox.Proofs.Grammar.Phrase
import Lox.Proofs.Grammar.Expressions
import Lox.Proofs.Grammar.Clause
import Lox.Proofs.Grammar.Statements
import Lox.Proofs.Grammar.Programs
import Lox.Proofs.Grammar.Rules
import Lox.Proofs.Grammar.Acceptance
import Lox.Proofs.Grammar.Shape
import Lox.Proofs.Grammar.Unparsing
import Lox.Proofs.Grammar.Barrier
import Lox.Proofs.Grammar.Replies
import Lox.Proofs.Grammar.Progress
import Lox.Proofs.Pairing.Trees
import Lox.Proofs.Pairing.Parsing
import Lox.Proofs.Pairing.Evaluation
import Lox.Proofs.Grammar.Survivors
import Lox.Proofs.Grammar.Malformed
import Lox.Proofs.Grammar.Insertion
import Lox.Proofs.Grammar.Keywords
import Lox.Proofs.Lines.Relabel
import Lox.Proofs.Lines.Evaluation
import Lox.Proofs.Lines.Grammar
import Lox.Proofs.Evaluation.Law
import Lox.Proofs.Evaluation.Comparison
import Lox.Proofs.Session.Printing
import Lox.Proofs.Session.Sequencing
import Lox.Proofs.Session.Source
import Lox.Proofs.Session.Joined
import Lox.Proofs.Pairing.Sources
import Lox.Proofs.Session.Ordinary
import Lox.Proofs.Session.Layout
import Lox.Proofs.Scopes.Restored
import Lox.Proofs.Scopes.Reach
import Lox.Proofs.Scopes.WellFormed
import Lox.Proofs.Scopes.Correspondence
import Lox.Proofs.Scopes.Lexical
import Lox.Proofs.Evaluation.Course
import Lox.Proofs.Output.Limited
import Lox.Proofs.Evaluation.Moments
import Lox.Proofs.Session.History
import Lox.Proofs.Scopes.Linked
import Lox.Proofs.Session.Identity
import Lox.Proofs.Session.Provenance
import Lox.Proofs.Token.Spelling
import Lox.Proofs.Grammar.Equality
import Lox.Proofs.Grammar.Desugaring
import Lox.Proofs.Scopes.Variables
import Lox.Proofs.Scopes.Names
import Lox.Proofs.Grammar.Equations
import Lox.Proofs.Grammar.Descent
import Lox.Proofs.Grammar.Mirrors
import Lox.Proofs.Grammar.Termination
import Lox.Proofs.Output.Written
import Lox.Proofs.Session.Prompt
import Lox.Proofs.Number.Reading
import Lox.Proofs.Number.Printed
import Lox.Proofs.Grammar.PrefixForms
import Lox.Proofs.Grammar.Occurrence
import Lox.Proofs.Grammar.Legibility
import Lox.Proofs.Grammar.MissingSemicolon
import Lox.Proofs.Grammar.Sameness

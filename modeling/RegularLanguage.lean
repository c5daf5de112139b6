import RegularLanguage.Ascending
import RegularLanguage.Automaton.Basic
import RegularLanguage.Binary64.Basic
import RegularLanguage.Binary64.Shortest
import RegularLanguage.Binary64.Text
import RegularLanguage.Command.Arguments
import RegularLanguage.Command.Log
import RegularLanguage.Command.Path
import RegularLanguage.Command.Run
import RegularLanguage.DFA.Basic
import RegularLanguage.DFA.Distinguish
import RegularLanguage.DFA.Minimize
import RegularLanguage.DFA.Refinement
import RegularLanguage.DFA.Subset
import RegularLanguage.DFA.Table
import RegularLanguage.DFA.Trim
import RegularLanguage.Dialect.Basic
import RegularLanguage.Dialect.Load
import RegularLanguage.Dot.Quote
import RegularLanguage.Dot.Reader
import RegularLanguage.Dot.Writer
import RegularLanguage.Grammar.RightLinear
import RegularLanguage.Grammar.Text
import RegularLanguage.Graph.Attribute
import RegularLanguage.Graph.Basic
import RegularLanguage.Graph.OfAutomaton
import RegularLanguage.Graph.ToAutomaton
import RegularLanguage.Json.Reader
import RegularLanguage.Json.Value
import RegularLanguage.Main
import RegularLanguage.Matrix.Automaton
import RegularLanguage.Matrix.Boolean
import RegularLanguage.Matrix.Product
import RegularLanguage.NFA.Basic
import RegularLanguage.NFA.Builder
import RegularLanguage.NFA.OfRegex
import RegularLanguage.Pattern.Automaton
import RegularLanguage.Pattern.Error
import RegularLanguage.Pattern.Grammar
import RegularLanguage.Pattern.OpenGroup
import RegularLanguage.Pattern.Parser
import RegularLanguage.Proofs.Automaton.Basic
import RegularLanguage.Proofs.Automaton.Search
import RegularLanguage.Proofs.Checked.Basic
import RegularLanguage.Proofs.Checked.Construction
import RegularLanguage.Proofs.Checked.DFA
import RegularLanguage.Proofs.Checked.Matrix
import RegularLanguage.Proofs.Checked.Minimize
import RegularLanguage.Proofs.Checked.NFA
import RegularLanguage.Proofs.Checked.Subset
import RegularLanguage.Proofs.Command.Run
import RegularLanguage.Proofs.DFA.Canonical
import RegularLanguage.Proofs.DFA.Classes
import RegularLanguage.Proofs.DFA.Coarsest
import RegularLanguage.Proofs.DFA.Combination
import RegularLanguage.Proofs.DFA.Complete
import RegularLanguage.Proofs.DFA.Completion
import RegularLanguage.Proofs.DFA.Distinguish
import RegularLanguage.Proofs.DFA.Equivalence
import RegularLanguage.Proofs.DFA.Isomorphism
import RegularLanguage.Proofs.DFA.Minimal
import RegularLanguage.Proofs.DFA.MinimalComplete
import RegularLanguage.Proofs.DFA.NormalForm
import RegularLanguage.Proofs.DFA.Partition
import RegularLanguage.Proofs.DFA.Quotient
import RegularLanguage.Proofs.DFA.Refinement
import RegularLanguage.Proofs.DFA.Residual
import RegularLanguage.Proofs.DFA.Run
import RegularLanguage.Proofs.DFA.Shortlex
import RegularLanguage.Proofs.DFA.Subset
import RegularLanguage.Proofs.DFA.SubsetComplete
import RegularLanguage.Proofs.DFA.SubsetNumbering
import RegularLanguage.Proofs.DFA.SubsetRun
import RegularLanguage.Proofs.DFA.Table
import RegularLanguage.Proofs.DFA.ToNFA
import RegularLanguage.Proofs.DFA.Trim
import RegularLanguage.Proofs.Dialect.Basic
import RegularLanguage.Proofs.Dialect.Load
import RegularLanguage.Proofs.Grammar.RightLinear
import RegularLanguage.Proofs.Grammar.Text
import RegularLanguage.Proofs.Graph.Rendering
import RegularLanguage.Proofs.Graph.RoundTrip
import RegularLanguage.Proofs.Matrix.Automaton
import RegularLanguage.Proofs.Matrix.Intersection
import RegularLanguage.Proofs.Matrix.OfNFA
import RegularLanguage.Proofs.Matrix.Reachable
import RegularLanguage.Proofs.NFA.Builder
import RegularLanguage.Proofs.NFA.Closure
import RegularLanguage.Proofs.NFA.Shape
import RegularLanguage.Proofs.NFA.Simulation
import RegularLanguage.Proofs.NFA.Thompson
import RegularLanguage.Proofs.NFA.WithoutSilent
import RegularLanguage.Proofs.Pattern.Automaton
import RegularLanguage.Proofs.Pattern.Completeness
import RegularLanguage.Proofs.Pattern.Fault
import RegularLanguage.Proofs.Pattern.Renaming
import RegularLanguage.Proofs.Pattern.RoundTrip
import RegularLanguage.Proofs.Pattern.Scan
import RegularLanguage.Proofs.Pattern.Shortest
import RegularLanguage.Proofs.Pattern.Soundness
import RegularLanguage.Proofs.Pattern.Symbols
import RegularLanguage.Proofs.Regex.Walk
import RegularLanguage.Proofs.Search.Discovery
import RegularLanguage.Proofs.Search.Grouping
import RegularLanguage.Proofs.Search.Numbering
import RegularLanguage.Proofs.Search.Reach
import RegularLanguage.Proofs.Search.Stack
import RegularLanguage.Proofs.Text.Delimited
import RegularLanguage.Proofs.Text.Integer
import RegularLanguage.Regex.Basic
import RegularLanguage.Regex.Printer
import RegularLanguage.Regex.Walk
import RegularLanguage.Search.Discovery
import RegularLanguage.Search.Grouping
import RegularLanguage.Search.Numbering
import RegularLanguage.Search.Reach
import RegularLanguage.Text.Alphanumeric
import RegularLanguage.Text.Blank
import RegularLanguage.Text.Digit
import RegularLanguage.Text.Integer
import RegularLanguage.Text.Quoted
import RegularLanguage.Text.Ranges
import RegularLanguage.Text.Unprintable

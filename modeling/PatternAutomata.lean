import PatternAutomata.Pattern.Conventional
import PatternAutomata.Table.Export
import PatternAutomata.Table
import PatternAutomata.Table.Record
import PatternAutomata.Main
import PatternAutomata.Matcher
import PatternAutomata.Stages
import PatternAutomata.Disagreement
import PatternAutomata.Text
import PatternAutomata.Text.CodePoint
import PatternAutomata.Proofs.Pattern.Expression
import PatternAutomata.Proofs.Pattern.Grammar
import PatternAutomata.Proofs.Pattern.Tokens
import PatternAutomata.Proofs.Pattern.Ordering
import PatternAutomata.Proofs.Discovery
import PatternAutomata.Proofs.Nfa.Route
import PatternAutomata.Proofs.Pattern.Evaluation
import PatternAutomata.Proofs.Pattern.Placement
import PatternAutomata.Proofs.Nfa.Part
import PatternAutomata.Proofs.Nfa.Thompson
import PatternAutomata.Proofs.Pattern.Reading
import PatternAutomata.Proofs.Dfa.Walk
import PatternAutomata.Proofs.Dfa.Quotient
import PatternAutomata.Proofs.Dfa.Subset
import PatternAutomata.Proofs.Dfa.Canonical
import PatternAutomata.Proofs.Dfa.Constructed
import PatternAutomata.Proofs.Dfa.Determinized
import PatternAutomata.Proofs.Dfa.Access
import PatternAutomata.Proofs.Dfa.FixedPoint
import PatternAutomata.Proofs.Matcher
import PatternAutomata.Proofs.Pipeline
import PatternAutomata.Proofs.Alphabet
import PatternAutomata.Proofs.Pattern.Splicing
import PatternAutomata.Proofs.Table.Levels
import PatternAutomata.Proofs.Table.Renaming
import PatternAutomata.Proofs.Table.Export
import PatternAutomata.Proofs.Table.Pairing
import PatternAutomata.Proofs.Json.RoundTrip
import PatternAutomata.Proofs.Table.Record
import PatternAutomata.Proofs.Table.Recognition
import PatternAutomata.Proofs.Table.Reading
import PatternAutomata.Proofs.Table.Dot
import PatternAutomata.Proofs.Nfa.Sharing
import PatternAutomata.Proofs.Pattern.Conventional
import PatternAutomata.Proofs.FileTree
import PatternAutomata.Proofs.Batch
import PatternAutomata.Proofs.Rejected
import PatternAutomata.Proofs.Table.Stored
import PatternAutomata.Proofs.Storing
import PatternAutomata.Proofs.Rerun
import PatternAutomata.Proofs.Regex.Marked
import PatternAutomata.Proofs.Sample
import PatternAutomata.Proofs.Disagreement
import PatternAutomata.Proofs.Earliest
import PatternAutomata.Proofs.Enumeration
import PatternAutomata.Proofs.Sampling
import PatternAutomata.Proofs.Dfa.NamedEdges
import PatternAutomata.Proofs.Arguments
import PatternAutomata.Proofs.References
import PatternAutomata.Proofs.Confinement
import PatternAutomata.Proofs.Pattern.Delimiters
import PatternAutomata.Proofs.Pattern.Failure
import PatternAutomata.Proofs.Nfa.Shape
import PatternAutomata.Proofs.Nfa.Offset
import PatternAutomata.Proofs.Pattern.Classes
import PatternAutomata.Proofs.Pattern.Explicit
import PatternAutomata.Proofs.Pattern.Calls
import PatternAutomata.Proofs.Nfa.Closure
import PatternAutomata.Proofs.Dfa.Rounds

import ShiftReduce.Automaton.Alphabet
import ShiftReduce.Automaton.Dfa
import ShiftReduce.Automaton.Displaced
import ShiftReduce.Automaton.Fragment
import ShiftReduce.Automaton.Nfa
import ShiftReduce.Automaton.Recognizer
import ShiftReduce.Diagnostic.Basic
import ShiftReduce.Diagnostic.Layout
import ShiftReduce.Diagnostic.Source
import ShiftReduce.Grammar.Basic
import ShiftReduce.Grammar.Draft
import ShiftReduce.IdSet
import ShiftReduce.Lalr.Action
import ShiftReduce.Lalr.Cell
import ShiftReduce.Lalr.Collection
import ShiftReduce.Lalr.First
import ShiftReduce.Lalr.Item
import ShiftReduce.Lalr.Report
import ShiftReduce.Lalr.Tables
import ShiftReduce.Lexer.Basic
import ShiftReduce.Lexer.Token
import ShiftReduce.Log
import ShiftReduce.Parser.Basic
import ShiftReduce.Parser.Blueprint
import ShiftReduce.Parser.Error
import ShiftReduce.Parser.Run
import ShiftReduce.Proofs.Automaton.Alphabet
import ShiftReduce.Proofs.Automaton.Dfa
import ShiftReduce.Proofs.Automaton.Displaced
import ShiftReduce.Proofs.Automaton.Displacement
import ShiftReduce.Proofs.Automaton.Fragment
import ShiftReduce.Proofs.Automaton.Isolation
import ShiftReduce.Proofs.Automaton.Nfa
import ShiftReduce.Proofs.Automaton.Recognizer
import ShiftReduce.Proofs.Automaton.TransitionMap
import ShiftReduce.Proofs.Counting
import ShiftReduce.Proofs.Diagnostic.Place
import ShiftReduce.Proofs.Grammar.Acceptance
import ShiftReduce.Proofs.Grammar.Calls
import ShiftReduce.Proofs.Grammar.Closed
import ShiftReduce.Proofs.Grammar.Declared
import ShiftReduce.Proofs.Grammar.Derivation
import ShiftReduce.Proofs.Grammar.Draft
import ShiftReduce.Proofs.Grammar.Operators
import ShiftReduce.Proofs.Grammar.Reordered
import ShiftReduce.Proofs.Grammar.Sentence
import ShiftReduce.Proofs.Grammar.Tree
import ShiftReduce.Proofs.Grammar.WellFormed
import ShiftReduce.Proofs.Lalr.Actions
import ShiftReduce.Proofs.Lalr.Automaton
import ShiftReduce.Proofs.Lalr.Candidates
import ShiftReduce.Proofs.Lalr.Canonical
import ShiftReduce.Proofs.Lalr.Closure
import ShiftReduce.Proofs.Lalr.Conflicts
import ShiftReduce.Proofs.Lalr.Exactness
import ShiftReduce.Proofs.Lalr.Filling
import ShiftReduce.Proofs.Lalr.First
import ShiftReduce.Proofs.Lalr.Grouping
import ShiftReduce.Proofs.Lalr.Halting
import ShiftReduce.Proofs.Lalr.Kernel
import ShiftReduce.Proofs.Lalr.Lookups
import ShiftReduce.Proofs.Lalr.Machine
import ShiftReduce.Proofs.Lalr.Merge
import ShiftReduce.Proofs.Lalr.Operators
import ShiftReduce.Proofs.Lalr.Recursion
import ShiftReduce.Proofs.Lalr.Reordering
import ShiftReduce.Proofs.Lalr.Resolutions
import ShiftReduce.Proofs.Lalr.Settling
import ShiftReduce.Proofs.Lalr.Stack
import ShiftReduce.Proofs.Lalr.Tables
import ShiftReduce.Proofs.Lalr.ViablePrefix
import ShiftReduce.Proofs.Lalr.Worklist
import ShiftReduce.Proofs.Lexer.EmptyMatch
import ShiftReduce.Proofs.Lexer.Letters
import ShiftReduce.Proofs.Lexer.MaximalMunch
import ShiftReduce.Proofs.Lexer.Patterns
import ShiftReduce.Proofs.Parser.Alignment
import ShiftReduce.Proofs.Parser.Blueprint
import ShiftReduce.Proofs.Parser.Completeness
import ShiftReduce.Proofs.Parser.Endless
import ShiftReduce.Proofs.Parser.FailedRecovery
import ShiftReduce.Proofs.Parser.FirstMistake
import ShiftReduce.Proofs.Parser.Handlers
import ShiftReduce.Proofs.Parser.Literals
import ShiftReduce.Proofs.Parser.Precedence
import ShiftReduce.Proofs.Parser.Reading
import ShiftReduce.Proofs.Parser.Recovery
import ShiftReduce.Proofs.Parser.Runtimes
import ShiftReduce.Proofs.Parser.Safety
import ShiftReduce.Proofs.Parser.Soundness
import ShiftReduce.Proofs.Parser.Step
import ShiftReduce.Proofs.Parser.Termination
import ShiftReduce.Proofs.Parser.Value
import ShiftReduce.Proofs.Reach
import ShiftReduce.Proofs.Regex.Dialect
import ShiftReduce.Proofs.Regex.Escape
import ShiftReduce.Proofs.Regex.Language
import ShiftReduce.Proofs.Regex.NormalForm
import ShiftReduce.Proofs.Regex.Parts
import ShiftReduce.Proofs.Regex.Ranges
import ShiftReduce.Proofs.Regex.Reading
import ShiftReduce.Proofs.Text.Location
import ShiftReduce.Reach
import ShiftReduce.Regex.Basic
import ShiftReduce.Regex.Error
import ShiftReduce.Regex.Escape
import ShiftReduce.Regex.Ranges
import ShiftReduce.Regex.Reader
import ShiftReduce.Stable
import ShiftReduce.Text.Alphanumeric
import ShiftReduce.Text.Blank
import ShiftReduce.Text.CodePoints
import ShiftReduce.Text.Columns
import ShiftReduce.Text.Location
import ShiftReduce.Text.Printable
import ShiftReduce.Text.Quoted

import PetriReach.Checker
import PetriReach.Cohort
import PetriReach.Cohort.Muster
import PetriReach.Encoder.Basic
import PetriReach.Encoder.Frame
import PetriReach.Encoder.Goal
import PetriReach.Encoder.StateEquation
import PetriReach.FileTree
import PetriReach.Formula.Basic
import PetriReach.Formula.Error
import PetriReach.Formula.Parser
import PetriReach.Formula.Printer
import PetriReach.Formula.Table
import PetriReach.Formula.Builder
import PetriReach.Formula.Truth
import PetriReach.Main
import PetriReach.Method
import PetriReach.Net.Index
import PetriReach.Net.Basic
import PetriReach.Net.Declaration
import PetriReach.Net.Firing
import PetriReach.Net.Printer
import PetriReach.Net.Quantity
import PetriReach.Net.Reader
import PetriReach.Options
import PetriReach.Program
import PetriReach.Race
import PetriReach.Race.Crew
import PetriReach.Smt.Command
import PetriReach.Smt.Meaning
import PetriReach.Smt.Symbol
import PetriReach.Smt.Term
import PetriReach.Solver.Arena
import PetriReach.Solver.Backend
import PetriReach.Solver.Conversation
import PetriReach.Solver.Session
import PetriReach.Solver.Switch
import PetriReach.Solver.Work
import PetriReach.Strategy.Bmc
import PetriReach.Strategy.Induction
import PetriReach.Strategy.KInduction
import PetriReach.Strategy.StateEquation
import PetriReach.Text
import PetriReach.Token
import PetriReach.Token.Scan
import PetriReach.Trial
import PetriReach.Proofs.Search
import PetriReach.Proofs.Net.WellFormed
import PetriReach.Proofs.Net.Lines
import PetriReach.Proofs.Net.Mentions
import PetriReach.Proofs.Net.Tokens
import PetriReach.Proofs.Formula.Atoms
import PetriReach.Proofs.Smt.SExpr
import PetriReach.Proofs.Smt.Reader
import PetriReach.Proofs.Smt.Legal
import PetriReach.Proofs.Smt.Lines
import PetriReach.Proofs.Smt.Naming
import PetriReach.Proofs.Smt.Symbols
import PetriReach.Proofs.Smt.Truth
import PetriReach.Proofs.Solver.Replies
import PetriReach.Proofs.Encoder.Frames
import PetriReach.Proofs.Encoder.Goals
import PetriReach.Proofs.Encoder.Unrolling
import PetriReach.Proofs.Encoder.Scripts
import PetriReach.Proofs.Encoder.Tokens
import PetriReach.Proofs.Encoder.Marks
import PetriReach.Proofs.Encoder.Safe
import PetriReach.Proofs.Encoder.Solutions
import PetriReach.Proofs.Encoder.StateEquation
import PetriReach.Proofs.Formula.Grammar
import PetriReach.Proofs.Formula.Unambiguous
import PetriReach.Proofs.Formula.Outlook
import PetriReach.Proofs.Token.Stream
import PetriReach.Proofs.Formula.Derivations
import PetriReach.Proofs.Formula.Viable
import PetriReach.Proofs.Formula.Blame
import PetriReach.Proofs.Net.Printed
import PetriReach.Proofs.Net.Lookup
import PetriReach.Proofs.Net.Roundtrip
import PetriReach.Proofs.Token.Spelling
import PetriReach.Proofs.Formula.Roundtrip
import PetriReach.Proofs.Encoder.Names
import PetriReach.Proofs.Encoder.GoalText
import PetriReach.Proofs.Encoder.Relation
import PetriReach.Proofs.Formula.Tables
import PetriReach.Proofs.Formula.Interning
import PetriReach.Proofs.Formula.Building
import PetriReach.Proofs.Token.Layout
import PetriReach.Proofs.Cohort.Results
import PetriReach.Proofs.Cohort.Registry
import PetriReach.Proofs.Options.Flags
import PetriReach.Proofs.Options.Overrides
import PetriReach.Proofs.Solver.Logic
import PetriReach.Proofs.Solver.Dialogue
import PetriReach.Proofs.Solver.Steps
import PetriReach.Proofs.Solver.Transcript
import PetriReach.Proofs.Solver.Twins
import PetriReach.Proofs.Solver.Mirrors
import PetriReach.Proofs.Solver.Stream
import PetriReach.Proofs.Strategy.Speech
import PetriReach.Proofs.Strategy.Unrolled
import PetriReach.Proofs.Solver.Protocol
import PetriReach.Proofs.Solver.Delivery
import PetriReach.Proofs.Strategy.Bmc
import PetriReach.Proofs.Strategy.Induction
import PetriReach.Proofs.Strategy.KInduction
import PetriReach.Proofs.Strategy.Scripts
import PetriReach.Proofs.Checker.Runs
import PetriReach.Proofs.Strategy.Moves
import PetriReach.Proofs.Checker.Mirrors
import PetriReach.Proofs.Checker.Surroundings
import PetriReach.Proofs.Checker.Cancellation
import PetriReach.Proofs.Strategy.Answers
import PetriReach.Proofs.Checker.Answers
import PetriReach.Proofs.Strategy.Encoded
import PetriReach.Proofs.Strategy.Progress
import PetriReach.Proofs.Checker.Scripts
import PetriReach.Proofs.Strategy.StateEquation
import PetriReach.Proofs.Checker.Verdicts
import PetriReach.Proofs.Checker.BoundedSearch
import PetriReach.Proofs.Checker.Inductiveness
import PetriReach.Proofs.Checker.Relaxation
import PetriReach.Proofs.Strategy.Waiting
import PetriReach.Proofs.Net.Readers
import PetriReach.Proofs.Race.Agreement
import PetriReach.Proofs.Race.Independence
import PetriReach.Proofs.Race.Sequence
import PetriReach.Proofs.Race.Encoding
import PetriReach.Proofs.Race.Faults
import PetriReach.Proofs.Race.Crews
import PetriReach.Proofs.Race.OneByOne
import PetriReach.Proofs.Program.Output
import PetriReach.Proofs.Checker.Depth
import PetriReach.Proofs.Formula.Stored
import PetriReach.Proofs.Number.Literals
import PetriReach.Proofs.Token.Plain
import PetriReach.Proofs.Token.Utf8

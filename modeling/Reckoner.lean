import Reckoner.Action
import Reckoner.Binary.Arithmetic
import Reckoner.Binary.Constants
import Reckoner.Binary.Cut
import Reckoner.Context.Basic
import Reckoner.Context.Scope
import Reckoner.Decimal.Reading
import Reckoner.Decimal.Rounding
import Reckoner.Evaluation
import Reckoner.Fault.Basic
import Reckoner.Fault.Guard
import Reckoner.Fragment.Basic
import Reckoner.Fragment.Calls
import Reckoner.Fragment.Scan
import Reckoner.Function.Basic
import Reckoner.Function.Builtin
import Reckoner.Function.User
import Reckoner.Lexed
import Reckoner.Library
import Reckoner.Main
import Reckoner.Number.Arithmetic
import Reckoner.Number.Basic
import Reckoner.Number.Text
import Reckoner.Numeral
import Reckoner.Operand.Basic
import Reckoner.Operand.Compile
import Reckoner.Operand.Order
import Reckoner.Precision
import Reckoner.Reducer
import Reckoner.Session.Basic
import Reckoner.Session.Command
import Reckoner.Session.Definition
import Reckoner.Session.Listing
import Reckoner.Symbol
import Reckoner.Table
import Reckoner.Text
import Reckoner.Transcript
import Reckoner.Trie
import Reckoner.Proofs.Evaluation.Shape
import Reckoner.Proofs.Evaluation.Yields
import Reckoner.Proofs.Grammar.Arguments
import Reckoner.Proofs.Grammar.Compile
import Reckoner.Proofs.Grammar.Cutting
import Reckoner.Proofs.Grammar.Expression
import Reckoner.Proofs.Grammar.Numeral
import Reckoner.Proofs.Grammar.Refusal
import Reckoner.Proofs.Grammar.Scanning
import Reckoner.Proofs.Grammar.Words
import Reckoner.Proofs.Memory.Bare
import Reckoner.Proofs.Memory.Blind
import Reckoner.Proofs.Memory.Dependence
import Reckoner.Proofs.Memory.Faithful
import Reckoner.Proofs.Memory.Meaning
import Reckoner.Proofs.Memory.Means
import Reckoner.Proofs.Memory.Session
import Reckoner.Proofs.Memory.Trusted
import Reckoner.Proofs.Operand.Occurs
import Reckoner.Proofs.Operand.WellFormed
import Reckoner.Proofs.Order.Chain
import Reckoner.Proofs.Order.Phrase
import Reckoner.Proofs.Outcome
import Reckoner.Proofs.Reduction.Acceptance
import Reckoner.Proofs.Reduction.Run
import Reckoner.Proofs.Reduction.Safety
import Reckoner.Proofs.Reduction.Settle
import Reckoner.Proofs.Reduction.Value
import Reckoner.Proofs.Session.Steps
import Reckoner.Proofs.Memory.Growth
import Reckoner.Proofs.Evaluation.Trace
import Reckoner.Proofs.Session.Effect
import Reckoner.Proofs.Session.Invariant
import Reckoner.Proofs.Session.Dependents
import Reckoner.Proofs.Evaluation.Congruence
import Reckoner.Proofs.Evaluation.Chance
import Reckoner.Proofs.Evaluation.Repeat
import Reckoner.Proofs.Evaluation.Concord
import Reckoner.Proofs.Evaluation.Noninterference
import Reckoner.Proofs.Session.Stocked
import Reckoner.Proofs.Session.Ceiling
import Reckoner.Proofs.Session.Defects
import Reckoner.Proofs.Grammar.Printing
import Reckoner.Proofs.Session.Entries
import Reckoner.Proofs.Session.Arrangement
import Reckoner.Proofs.Session.Standing
import Reckoner.Proofs.Number.Rounding
import Reckoner.Proofs.Evaluation.Terms
import Reckoner.Proofs.Number.Layout
import Reckoner.Proofs.Number.Reentry
import Reckoner.Proofs.Table.History
import Reckoner.Proofs.Memory.Invalidation
import Reckoner.Proofs.Number.Integer
import Reckoner.Proofs.Evaluation.Counting
import Reckoner.Proofs.Evaluation.Fold
import Reckoner.Proofs.Number.Quotient
import Reckoner.Proofs.Number.Power
import Reckoner.Proofs.Evaluation.Combinations
import Reckoner.Proofs.Number.Writing
import Reckoner.Proofs.Context.Scopes
import Reckoner.Proofs.Session.Patterns
import Reckoner.Proofs.Grammar.Calls
import Reckoner.Proofs.Grammar.Covering
import Reckoner.Proofs.Order.Relabelling
import Reckoner.Proofs.Reduction.Minus
import Reckoner.Proofs.Evaluation.Replay
import Reckoner.Proofs.Evaluation.Minus

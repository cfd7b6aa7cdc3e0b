import LetFn.CommandLine
import LetFn.Main
import LetFn.Interpreter
import LetFn.Program.Printer
import LetFn.Proofs.Parser.Reads
import LetFn.Proofs.Grammar
import LetFn.Proofs.Grammar.Sound
import LetFn.Proofs.Grammar.Complete
import LetFn.Proofs.Parser.Outcomes
import LetFn.Proofs.Grammar.Exact
import LetFn.Proofs.Grammar.Nesting
import LetFn.Proofs.Grammar.Descent
import LetFn.Proofs.Lexer.Lines
import LetFn.Proofs.Lexer.Run
import LetFn.Proofs.Lexer.Words
import LetFn.Proofs.Lexer.Positions
import LetFn.Proofs.Lexer.LongestMatch
import LetFn.Proofs.Lexer.Layout
import LetFn.Proofs.Parser.Truncation
import LetFn.Proofs.Parser.Fails
import LetFn.Proofs.Parser.Lookahead
import LetFn.Proofs.Parser.Sentences
import LetFn.Proofs.Parser.Recovery
import LetFn.Proofs.Parser.FirstFailure
import LetFn.Proofs.Parser.Completion
import LetFn.Proofs.Parser.ErrorOrder
import LetFn.Proofs.Parser.TokenAccess
import LetFn.Proofs.Rename
import LetFn.Proofs.Rename.Store
import LetFn.Proofs.Parser.Places
import LetFn.Proofs.Lexer.Append
import LetFn.Proofs.Parser.Append
import LetFn.Proofs.Parser.Layout
import LetFn.Proofs.Printer.Words
import LetFn.Proofs.Printer.RoundTrip
import LetFn.Proofs.Printer.Writable
import LetFn.Proofs.Eval.Run
import LetFn.Proofs.Eval.Arithmetic
import LetFn.Proofs.Code
import LetFn.Proofs.Store.Plain
import LetFn.Proofs.Store.Changes
import LetFn.Proofs.Store.Linked
import LetFn.Proofs.Structured
import LetFn.Proofs.Structured.Disciplined
import LetFn.Proofs.Structured.Simulation
import LetFn.Proofs.Eval.Task
import LetFn.Proofs.Eval.Steps
import LetFn.Proofs.Eval.Effects
import LetFn.Proofs.Eval.Escape
import LetFn.Proofs.Eval.Output
import LetFn.Proofs.Eval.Refusal
import LetFn.Proofs.Eval.Limit
import LetFn.Proofs.Eval.Footprint
import LetFn.Proofs.Eval.Invariant
import LetFn.Proofs.Eval.Sites
import LetFn.Proofs.Session
import LetFn.Proofs.Session.Escape
import LetFn.Proofs.Session.Errors
import LetFn.Proofs.Session.Depth
import LetFn.Proofs.Session.Identity
import LetFn.Proofs.Session.Append
import LetFn.Proofs.Rename.Simulation
import LetFn.Proofs.Session.Rename
import LetFn.Proofs.Interpreter

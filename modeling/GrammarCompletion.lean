import GrammarCompletion.Main
import GrammarCompletion.Proofs.Completion.Exactness
import GrammarCompletion.Proofs.Completion.Transparency
import GrammarCompletion.Proofs.Completion.Termination
import GrammarCompletion.Proofs.Completion.Hints
import GrammarCompletion.Proofs.Completion.Predicates
import GrammarCompletion.Proofs.Completion.Translation
import GrammarCompletion.Proofs.Completion.Recognition
import GrammarCompletion.Proofs.Completion.RulePaths
import GrammarCompletion.Proofs.Editor.Server
import GrammarCompletion.Proofs.Language.Independence
import GrammarCompletion.Proofs.Lexer.Positions
import GrammarCompletion.Proofs.Completion.Failures
import GrammarCompletion.Proofs.Editor.History
import GrammarCompletion.Proofs.Grammar.Literals
import GrammarCompletion.Proofs.Ebnf.Declared
import GrammarCompletion.Proofs.Grammar.Names
import GrammarCompletion.Proofs.Language.Labels
import GrammarCompletion.Proofs.Grammar.References
import GrammarCompletion.Proofs.Grammar.Consistency
import GrammarCompletion.Proofs.IntervalSet.Canonical
import GrammarCompletion.Proofs.Editor.Boundaries
import GrammarCompletion.Proofs.Lexer.Greedy
import GrammarCompletion.Proofs.IntervalSet.Complement
import GrammarCompletion.Proofs.Lexer.Restart
import GrammarCompletion.Proofs.Lexer.Optional
import GrammarCompletion.Proofs.Lexer.SourceText
import GrammarCompletion.Proofs.Completion.Bookkeeping
import GrammarCompletion.Proofs.Grammar.Unsupported
import GrammarCompletion.Proofs.Ebnf.Identifiers
import GrammarCompletion.Proofs.Report.Line
import GrammarCompletion.Proofs.Lexer.RuleOrder
import GrammarCompletion.Proofs.IntervalSet.Extensional
import GrammarCompletion.Proofs.Lexer.Termination
import GrammarCompletion.Proofs.Completion.Restoration

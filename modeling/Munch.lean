import Munch.Alphabet
import Munch.Bytes
import Munch.IdSet
import Munch.Tag
import Munch.Nfa.Basic
import Munch.Nfa.Fragment
import Munch.Nfa.Patterns
import Munch.Nfa.Closure
import Munch.Nfa.Simulation
import Munch.Lexicon
import Munch.Dfa.Basic
import Munch.Dfa.Listing
import Munch.Determinize
import Munch.Decimal
import Munch.Scan.Token
import Munch.Scan.Trivia
import Munch.Scan.LongestMatch
import Munch.Scan.Scanner
import Munch.Fos
import Munch.Json.Basic
import Munch.Json.Literal
import Munch.Json.Printer
import Munch.Json.Parser
import Munch.Symbols
import Munch.Checked
import Munch.Dfa.Stored
import Munch.Sample.Words
import Munch.Sample.Source
import Munch.Sample.Check
import Munch.Command.PathName
import Munch.Command.Files
import Munch.Command.Host
import Munch.Command.Programs
import Munch.Main
import Munch.Proofs.Nfa.Path
import Munch.Proofs.Nfa.Stamp
import Munch.Proofs.Nfa.Growth
import Munch.Proofs.Nfa.Region
import Munch.Proofs.Nfa.Operators
import Munch.Proofs.Nfa.Assembly
import Munch.Proofs.Nfa.Expression
import Munch.Proofs.Dfa.View
import Munch.Proofs.Determinize
import Munch.Proofs.Determinize.Numbering
import Munch.Proofs.Bytes
import Munch.Proofs.Lexicon
import Munch.Proofs.Scan.LongestMatch
import Munch.Proofs.Scan.MaximalMunch
import Munch.Proofs.Nfa.Patterns
import Munch.Proofs.Nfa.Spelling
import Munch.Proofs.Nfa.Classes
import Munch.Proofs.Scan.Drain
import Munch.Proofs.Fos.Reference
import Munch.Proofs.Fos.Words
import Munch.Proofs.Fos.Lexeme
import Munch.Proofs.Fos.Scan
import Munch.Proofs.Scan.Partition
import Munch.Proofs.Scan.Newline
import Munch.Proofs.Scan.Recovery
import Munch.Proofs.Fos.Relex
import Munch.Proofs.Sample.Check
import Munch.Proofs.Sample.Source
import Munch.Proofs.Symbols
import Munch.Proofs.Decimal
import Munch.Proofs.Decimal.Numeral
import Munch.Proofs.Decimal.Rounding
import Munch.Proofs.Json.Literal
import Munch.Proofs.Json.RoundTrip
import Munch.Proofs.Dfa.Rebuilt
import Munch.Proofs.Dfa.Stored
import Munch.Proofs.Dfa.Saved
import Munch.Proofs.Bytes.Positions
import Munch.Proofs.Scan.Cursor
import Munch.Proofs.Scan.Safety
import Munch.Proofs.Scan.Comments
import Munch.Proofs.Determinize.Queue
import Munch.Proofs.Determinize.Outline
import Munch.Proofs.Scan.DeclarationOrder
import Munch.Proofs.Dfa.Loaded
import Munch.Proofs.Decimal.Grammar
import Munch.Proofs.Symbols.Bracket
import Munch.Proofs.Nfa.Edit
import Munch.Proofs.Lexicon.Definitions
import Munch.Proofs.Dfa.Store
import Munch.Proofs.Nfa.Closure
import Munch.Proofs.Nfa.Matching
import Munch.Proofs.Nfa.Automaton
import Munch.Proofs.Dfa.Listing
import Munch.Proofs.Dfa.OriginSets

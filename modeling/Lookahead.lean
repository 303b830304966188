import Lookahead.Extended.Meaning
import Lookahead.Extended.Nesting
import Lookahead.Extended.Declaration
import Lookahead.Grammar.Derivation
import Lookahead.Grammar.WellFormed
import Lookahead.Main
import Lookahead.Proofs.Director
import Lookahead.Proofs.ExtendedQuery
import Lookahead.Proofs.Growth
import Lookahead.Proofs.Hygiene
import Lookahead.Proofs.Lowering
import Lookahead.Proofs.Predictive
import Lookahead.Proofs.Unambiguous
import Lookahead.Source.Pattern
import Lookahead.Source.Phrase
import Lookahead.Source.Piece
import Lookahead.Proofs.Reordering
import Lookahead.Proofs.Agreement
import Lookahead.Proofs.Acceptance
import Lookahead.Proofs.Quoting
import Lookahead.Proofs.Scanning
import Lookahead.Proofs.RoundTrip
import Lookahead.Proofs.Conversation
import Lookahead.Proofs.Monotony
import Lookahead.Proofs.Outcome
import Lookahead.Proofs.LeftRecursion
import Lookahead.Proofs.Passes
import Lookahead.Proofs.Bracketing
import Lookahead.Proofs.RightHandSides
import Lookahead.Proofs.Parentheses
import Lookahead.Proofs.Blocks
import Lookahead.Proofs.Lexemes
import Lookahead.Proofs.Places
import Lookahead.Proofs.Viability
import Lookahead.Proofs.Listing
import Lookahead.Proofs.Checks
import Lookahead.Proofs.Closed
import Lookahead.Proofs.Refusals
import Lookahead.Proofs.Verbosity
import Lookahead.Proofs.Restriction

import Chomsky.Automaton.Graph
import Chomsky.Automaton.Minimal
import Chomsky.Automaton.Run
import Chomsky.Grammar.Derivation
import Chomsky.Grammar.Membership
import Chomsky.Grammar.NormalForm
import Chomsky.Grammar.Text
import Chomsky.Options
import Chomsky.RightLinear.Generator
import Chomsky.RightLinear.Recognizer
import Chomsky.StateSet.Bits
import Chomsky.Proofs.Automaton.Agreement
import Chomsky.Proofs.Automaton.Language
import Chomsky.Proofs.Grammar.Agreement
import Chomsky.Proofs.Grammar.Failure
import Chomsky.Proofs.Grammar.Membership
import Chomsky.Proofs.Grammar.Normalization
import Chomsky.Proofs.Grammar.Productivity
import Chomsky.Proofs.RightLinear.RoundTrip
import Chomsky.Proofs.Automaton.Isomorphism
import Chomsky.Proofs.Grammar.Transformation
import Chomsky.Proofs.RightLinear.NormalForm
import Chomsky.Proofs.Lookup.Basic
import Chomsky.Proofs.Lookup.Subsets
import Chomsky.Proofs.Lookup.Minimal
import Chomsky.Proofs.Lookup.Safety
import Chomsky.Proofs.Grammar.Sampling
import Chomsky.Proofs.RightLinear.Regularity
import Chomsky.Proofs.Grammar.NormalFormText
import Chomsky.Proofs.Grammar.Omission
import Chomsky.Proofs.Grammar.UnitChains
import Chomsky.Proofs.Grammar.Analysis
import Chomsky.Proofs.Grammar.Pruning
import Chomsky.Proofs.Grammar.Binarization
import Chomsky.Proofs.Grammar.Sharing
import Chomsky.Proofs.Grammar.NameIndependence
import Chomsky.Proofs.Automaton.SubsetNames
import Chomsky.Proofs.Automaton.Idempotence
import Chomsky.Proofs.Automaton.History
import Chomsky.Proofs.Automaton.Graph
import Chomsky.Proofs.Automaton.Emptiness
import Chomsky.Proofs.RightLinear.Renaming
import Chomsky.Proofs.Grammar.Reading
import Chomsky.Proofs.Grammar.Hierarchy
import Chomsky.Proofs.Symbol.History
import Chomsky.Proofs.Grammar.Declaration
import Chomsky.Proofs.Lookup.Worklist
import Chomsky.Proofs.RightLinear.LetterWords
import Chomsky.Proofs.StateSet.History

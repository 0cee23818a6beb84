import PhraseStructure.Chart.BestTree
import PhraseStructure.Command.Outcome
import PhraseStructure.Derivation
import PhraseStructure.Directory
import PhraseStructure.Draws.ChaCha
import PhraseStructure.Generator
import PhraseStructure.Grammar.Loading
import PhraseStructure.Main
import PhraseStructure.Proofs.Chart.Locality
import PhraseStructure.Proofs.Chart.Optimality
import PhraseStructure.Proofs.Generation.Attempts
import PhraseStructure.Proofs.Generation.Bounds
import PhraseStructure.Proofs.Generation.Reparsing
import PhraseStructure.Proofs.Grammar.Written
import PhraseStructure.Proofs.RoundTrip.Sentences
import PhraseStructure.RoundTrip
import PhraseStructure.Rule.Written
import PhraseStructure.Proofs.Chart.ForeignRules
import PhraseStructure.Proofs.Chart.UnrelatedRules
import PhraseStructure.Proofs.RoundTrip.FixedPoints
import PhraseStructure.Proofs.Binary64.Halvings
import PhraseStructure.Proofs.Chart.Possible
import PhraseStructure.Proofs.Rule.Concatenation
import PhraseStructure.Proofs.Grammar.Indices
import PhraseStructure.Proofs.Text.Bytes
import PhraseStructure.Proofs.Command.LineByLine
import PhraseStructure.Proofs.Binary64.Scaling
import PhraseStructure.Proofs.Grammar.Scaling
import PhraseStructure.Proofs.Chart.Congruence
import PhraseStructure.Proofs.Generation.RelativeWeights
import PhraseStructure.Proofs.Generation.Intervals
import PhraseStructure.Proofs.Rule.Faults
import PhraseStructure.Proofs.Generation.Frequencies
import PhraseStructure.Proofs.Generation.ZeroWeights
import PhraseStructure.Proofs.Generation.DepthBound
import PhraseStructure.Proofs.Generation.Continuation
import PhraseStructure.Proofs.Chart.Shares
import PhraseStructure.Proofs.RoundTrip.Leaves
import PhraseStructure.Proofs.Text.Newlines
import PhraseStructure.Proofs.Tree.Brackets
import PhraseStructure.Proofs.Tree.Layout
import PhraseStructure.Proofs.Chart.OfferSequences
import PhraseStructure.Proofs.Generation.Totals
import PhraseStructure.Proofs.Chart.Storage
import PhraseStructure.Proofs.Chart.Listing

import SelectorAlgebra.Proofs.Collection
import SelectorAlgebra.Proofs.Conversion.Refusals
import SelectorAlgebra.Proofs.Failures.Carets
import SelectorAlgebra.Proofs.Failures.Prefixes
import SelectorAlgebra.Proofs.Grammar.Complete
import SelectorAlgebra.Proofs.Identifiers
import SelectorAlgebra.Proofs.Reading.Progress
import SelectorAlgebra.Proofs.Session.History
import SelectorAlgebra.Proofs.Session.Options
import SelectorAlgebra.Proofs.Session.Tails
import SelectorAlgebra.Proofs.Tokens
import SelectorAlgebra.Proofs.WellFormed.Spelling
import SelectorAlgebra.Proofs.Writing.Quoted
import SelectorAlgebra.Proofs.Writing.Values
import SelectorAlgebra.RoundTrip

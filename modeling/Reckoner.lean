import Reckoner.Function.Description
import Reckoner.Journal.Session
import Reckoner.Proofs.Calculator.ByName
import Reckoner.Proofs.Calculator.Canonical
import Reckoner.Proofs.Calculator.Errors
import Reckoner.Proofs.Calculator.Handles
import Reckoner.Proofs.Expr.FullValue
import Reckoner.Proofs.Expr.MinimalForm
import Reckoner.Proofs.Expr.MinimalValue
import Reckoner.Proofs.Fraction.Kernel
import Reckoner.Proofs.Fraction.LowestTerms
import Reckoner.Proofs.Parser.Arguments
import Reckoner.Proofs.Parser.Discipline
import Reckoner.Proofs.Parser.Leaves
import Reckoner.Proofs.Parser.Levels
import Reckoner.Proofs.Session.History
import Reckoner.Proofs.Session.Restart
import Reckoner.Proofs.Standard.Flattening
import Reckoner.Proofs.Token.Exponents
import Reckoner.Proofs.Token.MinusSigns
import Reckoner.Proofs.Token.Offsets
import Reckoner.Proofs.Token.Spacing

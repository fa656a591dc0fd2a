import LineCalc.Bracket.Dyck
import LineCalc.Infix.Basic
import LineCalc.Main
import LineCalc.Proofs.Acceptance
import LineCalc.Proofs.Assignment
import LineCalc.Proofs.Frame
import LineCalc.Proofs.Input
import LineCalc.Proofs.Listing
import LineCalc.Proofs.Meaning
import LineCalc.Sign.Literal
import LineCalc.Text.Names
import LineCalc.Token.Rendering
import LineCalc.Proofs.MinusAfter
import LineCalc.Proofs.Replacement
import LineCalc.Proofs.InsertionOrder
import LineCalc.Proofs.RenamedLine
import LineCalc.Session.Renaming
import LineCalc.Proofs.Renaming
import LineCalc.Proofs.Spacing
import LineCalc.Proofs.Blanks
import LineCalc.Proofs.Independence
import LineCalc.Checked
import LineCalc.Proofs.InRange
import LineCalc.Infix.Derivation
import LineCalc.Proofs.Precedence
import LineCalc.Proofs.Outcomes
import LineCalc.Proofs.KeptGroups
import LineCalc.Sign.Step
import LineCalc.Proofs.Inserted
import LineCalc.Proofs.NormalForm
import LineCalc.Proofs.Conserved
import LineCalc.Proofs.Unmatched
import LineCalc.Sign.Skeleton
import LineCalc.Proofs.CanonicalForm
import LineCalc.Proofs.Written
import LineCalc.Binary64.Rounding
import LineCalc.Proofs.Power
import LineCalc.Proofs.Decimal
import LineCalc.Proofs.PowerRounding
import LineCalc.Proofs.Literal

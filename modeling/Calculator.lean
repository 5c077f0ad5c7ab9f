import Calculator.Main
import Calculator.Proofs.Nesting
import Calculator.Proofs.ViablePrefix
import Calculator.Proofs.Truthfulness
import Calculator.Proofs.Spacing
import Calculator.Proofs.ReadBack
import Calculator.Proofs.Typing
import Calculator.Proofs.Groups
import Calculator.Proofs.Events
import Calculator.Proofs.Lines
import Calculator.Proofs.DeadEnds
import Calculator.Proofs.Noninterference
import Calculator.Proofs.Literals
import Calculator.Proofs.Grids
import Calculator.Proofs.Minimality
import Calculator.Proofs.LeftOver
import Calculator.Proofs.Association
import Calculator.Proofs.Alphabet
import Calculator.Proofs.Layouts
import Calculator.Proofs.Offsets
import Calculator.Proofs.Editing
import Calculator.Proofs.Labels
import Calculator.Proofs.Messages
import Calculator.Proofs.Bookkeeping
import Calculator.Proofs.Maximality

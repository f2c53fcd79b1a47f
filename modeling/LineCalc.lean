import LineCalc.Main
import LineCalc.Script
import LineCalc.Proofs.Diagnosis
import LineCalc.Proofs.Grammar
import LineCalc.Proofs.RoundTrip
import LineCalc.Proofs.Outline
import LineCalc.Proofs.Safety
import LineCalc.Proofs.PlainTurn
import LineCalc.Proofs.ExplicitText
import LineCalc.Proofs.FaultPlaces
import LineCalc.Proofs.Backtracking
import LineCalc.Proofs.Resumption
import LineCalc.Proofs.Enclosure
import LineCalc.Proofs.Relayout
import LineCalc.Proofs.NumeralReading
import LineCalc.Proofs.TokenizedText
import LineCalc.Proofs.RecordCounts
import LineCalc.Proofs.UniqueReading
import LineCalc.Proofs.WellFormed
import LineCalc.Proofs.Atomicity
import LineCalc.Proofs.Scaling
import LineCalc.Proofs.LookAhead

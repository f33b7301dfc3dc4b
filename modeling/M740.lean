import M740.Disassembly.Listing
import M740.Emulator
import M740.Proofs.Resuming
import M740.Proofs.SingleStepping
import M740.Proofs.Loading
import M740.Proofs.Listing
import M740.Proofs.ListingText
import M740.Proofs.StraightLine
import M740.Proofs.Branching
import M740.Checked.Alu
import M740.Checked.Execution
import M740.Checked.Machine
import M740.Proofs.CheckedAlu
import M740.Proofs.CheckedExecution
import M740.Proofs.CheckedMachine
import M740.Proofs.Metering
import M740.Proofs.Conservation
import M740.Proofs.Overdraw
import M740.Proofs.History
import M740.Proofs.FixedState
import M740.Proofs.Latches
import M740.Proofs.Masking
import M740.Proofs.Stopping
import M740.Proofs.ClockIndependence
import M740.Proofs.Transcript
import M740.Proofs.Accesses
import M740.Proofs.BinaryArithmetic
import M740.Proofs.DecimalArithmetic
import M740.Proofs.Operands
import M740.Proofs.Redirection
import M740.Proofs.DecimalSteps
import M740.Proofs.IndexMode
import M740.Proofs.StackList
import M740.Proofs.Handlers
import M740.Proofs.Subroutines
import M740.Proofs.StackActions
import M740.Proofs.StackCode
import M740.Proofs.StepCharge
import M740.Proofs.Layout
import M740.Proofs.RunLength
import M740.Proofs.Stores
import M740.Proofs.Effects
import M740.Proofs.Normalizing
import M740.Proofs.LastByte

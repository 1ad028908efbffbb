import OnePass.Main
import OnePass.Proofs.Machine.Integrity
import OnePass.Proofs.Binary.Lockstep
import OnePass.Proofs.Globals.Order
import OnePass.Proofs.Evaluation.Programs
import OnePass.Proofs.Renaming
import OnePass.Proofs.Lexical.Printing
import OnePass.Proofs.Pool.Description
import OnePass.Proofs.Storage.Cells
import OnePass.Proofs.Binary.Canonical
import OnePass.Proofs.Lexical.Diagnostics
import OnePass.Proofs.Sidecar.RoundTrip
import OnePass.Proofs.Command.Effects
import OnePass.Proofs.Splitting
import OnePass.Proofs.Consumption
import OnePass.Proofs.Upkeep.Targets
import OnePass.Proofs.Operators

import TapeMachine.Evaluation
import TapeMachine.Main
import TapeMachine.Proofs.Argument
import TapeMachine.Proofs.Audit
import TapeMachine.Proofs.BackJumps
import TapeMachine.Proofs.Closing
import TapeMachine.Proofs.Commands
import TapeMachine.Proofs.Composition
import TapeMachine.Proofs.Debugging
import TapeMachine.Proofs.Decoding
import TapeMachine.Proofs.Echo
import TapeMachine.Proofs.Endless
import TapeMachine.Proofs.Evaluating
import TapeMachine.Proofs.Feeding
import TapeMachine.Proofs.FilePrograms
import TapeMachine.Proofs.InputValues
import TapeMachine.Proofs.Invocation
import TapeMachine.Proofs.Loading
import TapeMachine.Proofs.Numerals
import TapeMachine.Proofs.Observing
import TapeMachine.Proofs.Pairing
import TapeMachine.Proofs.Precedence
import TapeMachine.Proofs.ReadBack
import TapeMachine.Proofs.Reckoning
import TapeMachine.Proofs.Safety
import TapeMachine.Proofs.SimpleLoops
import TapeMachine.Proofs.StraightLine
import TapeMachine.Proofs.Structured
import TapeMachine.Proofs.TapeLength
import TapeMachine.Proofs.ValidSettings
import TapeMachine.Proofs.Views
import TapeMachine.Proofs.Windows
import TapeMachine.Session
import TapeMachine.CommandLine.Console
import TapeMachine.Proofs.Console

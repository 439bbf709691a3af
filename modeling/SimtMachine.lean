import SimtMachine.Command.Directory
import SimtMachine.Command.Verbosity
import SimtMachine.Interpreter
import SimtMachine.Main
import SimtMachine.Proofs.Assembly.Behaviour
import SimtMachine.Proofs.Assembly.Edits
import SimtMachine.Proofs.Core.Datapath
import SimtMachine.Proofs.Core.Debt
import SimtMachine.Proofs.Core.Exclusivity
import SimtMachine.Proofs.Core.Handshake
import SimtMachine.Proofs.Core.Lead
import SimtMachine.Proofs.Core.Progress
import SimtMachine.Proofs.Core.SoleLane
import SimtMachine.Proofs.Core.Stages
import SimtMachine.Proofs.Core.Words
import SimtMachine.Proofs.DataText.Reading
import SimtMachine.Proofs.Device.Bookkeeping
import SimtMachine.Proofs.Device.Chronicle
import SimtMachine.Proofs.Device.Independence
import SimtMachine.Proofs.Device.Meter
import SimtMachine.Proofs.Device.PowerOn
import SimtMachine.Proofs.Device.Reference
import SimtMachine.Proofs.Device.Sequence
import SimtMachine.Proofs.Device.Termination
import SimtMachine.Proofs.Dispatch.Completion
import SimtMachine.Proofs.Dump.Difference
import SimtMachine.Proofs.Guarded.Device
import SimtMachine.Proofs.Memory.Histories
import SimtMachine.Proofs.Memory.PortOrder

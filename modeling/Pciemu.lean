import Pciemu.Replay
import Pciemu.Uninitialised
import Pciemu.References
import Pciemu.Roundtrip
import Pciemu.Framing
import Pciemu.Pairing
import Pciemu.Forgetting
import Pciemu.RegisterFile
import Pciemu.Accounting
import Pciemu.Reconnect
import Pciemu.TcpMutex
import Pciemu.LockStep
import Pciemu.Unwinding
import Pciemu.Lifecycle
import Pciemu.WriteProtection
import Pciemu.Success
import Pciemu.Completion
import Pciemu.AddressMask
import Pciemu.IrqReset
import Pciemu.SplitAccess
import Pciemu.DeviceMemory
import Pciemu.Teardown
import Pciemu.OffState
import Pciemu.NodeName
import Pciemu.Endpoint
import Pciemu.Arguments
import Pciemu.Liveness
import Pciemu.Atomicity
import Pciemu.Selection
import Pciemu.TcpServer
import Pciemu.OpenFiles
import Pciemu.Emulator
import Pciemu.InterruptLine

import Aesd.Driver.Ledger
import Aesd.Driver.Spec
import Aesd.Driver.Refine
import Aesd.Driver.Ownership
import Aesd.Driver.Reading
import Aesd.Driver.Seeking
import Aesd.Lib.CString
import Aesd.Server.Command
import Aesd.Lib.Transition
import Aesd.Server.Thread
import Aesd.Server.Framing
import Aesd.Server.Boundary
import Aesd.Lib.Locking
import Aesd.Server.Locks
import Aesd.Server.System
import Aesd.Server.Clients
import Aesd.Server.Response
import Aesd.Server.Serial
import Aesd.Server.SeekRace
import Aesd.Server.Process
import Aesd.Server.Deadlock
import Aesd.Driver.Ring
import Aesd.Driver.Faults
import Aesd.Driver.Position
import Aesd.Lib.WaitStatus
import Aesd.Systemcalls.Exec
import Aesd.Systemcalls.Agreement
import Aesd.Systemcalls.Contract
import Aesd.Systemcalls.Sequence
import Aesd.Server.Outcomes
import Aesd.Server.Grammar
import Aesd.Server.Capacity
import Aesd.Server.Failure
import Aesd.Lib.Discipline
import Aesd.Server.Resources
import Aesd.Server.Bookkeeping
import Aesd.FinderApp.Writer
import Aesd.Server.Transfers
import Aesd.Lib.SList
import Aesd.Lib.Tokens
import Aesd.Server.ClientList
import Aesd.Server.Descriptors
import Aesd.Server.Reports
import Aesd.Server.Setup
import Aesd.Driver.Concurrent
import Aesd.Driver.Skipping
import Aesd.FinderApp.Exit
import Aesd.Driver.Module
import Aesd.Threading.Obtaining
import Aesd.Lib.Turns
import Aesd.Server.FileCourses
import Aesd.Server.FileLines
import Aesd.Server.FileResponse
import Aesd.Server.DeviceResponse
import Aesd.Server.Shutdown

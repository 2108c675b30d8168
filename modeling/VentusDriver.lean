import VentusDriver.Device.ByteStore
import VentusDriver.Device.Isolation
import VentusDriver.Device.AllocateMap
import VentusDriver.Device.Atomicity
import VentusDriver.Device.Cursor
import VentusDriver.Device.ReleaseEffect
import VentusDriver.Device.OtherRoots
import VentusDriver.Device.CleanTables
import VentusDriver.Device.CleanTask
import VentusDriver.Device.FirstFit
import VentusDriver.Device.Insertion
import VentusDriver.Device.VirtualChunks
import VentusDriver.Device.StatusCodes
import VentusDriver.Device.SameTables
import VentusDriver.Device.WordStore
import VentusDriver.Device.Handshake
import VentusDriver.Device.Unsupported
import VentusDriver.Device.Echo
import VentusDriver.Device.BufferBounds
import VentusDriver.Device.DevicePath
import VentusDriver.Driver.AllocComplete
import VentusDriver.Driver.LocalMemory
import VentusDriver.Driver.BufferRelease
import VentusDriver.Driver.Lifecycle
import VentusDriver.Driver.Completion
import VentusDriver.Driver.Polling
import VentusDriver.Driver.Translation
import VentusDriver.Device.DeviceStores
import VentusDriver.Driver.HostCalls
import VentusDriver.Driver.TaskTables
import VentusDriver.Device.AllocateSucceeds
import VentusDriver.Device.BrokenTables
import VentusDriver.Device.Reallocation
import VentusDriver.Driver.Room
import VentusDriver.Driver.AllocOutcome
import VentusDriver.Driver.Bookkeeping
import VentusDriver.Driver.MemCopy
import VentusDriver.Driver.ItemHistory
import VentusDriver.Driver.KernelUpload
import VentusDriver.Foundation.TagTable
import VentusDriver.Rtl.OutOfOrder
import VentusDriver.Rtl.Drain
import VentusDriver.Rtl.DriverTables
import VentusDriver.Rtl.HostPort
import VentusDriver.Rtl.Latency
import VentusDriver.Rtl.TableReads
import VentusDriver.Driver.Ledger
import VentusDriver.Device.SameView
import VentusDriver.Driver.TaskIsolation

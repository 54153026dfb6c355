import Larva.Ble.AccessAddr
import Larva.Ble.Broken
import Larva.Ble.Channels
import Larva.Ble.Discovery
import Larva.Ble.FlatBuf
import Larva.Hal.FlashMap
import Larva.Ble.GattcDispatch
import Larva.Ble.HciAcks
import Larva.Ble.HciCancel
import Larva.Ble.HciEvents
import Larva.Ble.Schedule
import Larva.Ble.UpdateOffset
import Larva.Ble.LlReceive
import Larva.Ble.LlTransmit
import Larva.Boot.Selection
import Larva.Boot.StatusWrite
import Larva.Boot.TestOnce
import Larva.Nffs.ByteArray
import Larva.Nffs.Scratch
import Larva.Nffs.Searchable
import Larva.Os.EventQueues
import Larva.Os.MbufEdits
import Larva.Os.MbufReads
import Larva.Os.Msys
import Larva.Os.Sanity
import Larva.Os.Semaphores
import Larva.Os.Timeouts
import Larva.Os.WakeOrder
import Larva.Util.CircularLog

import Libft.CPPClass.Theorems.Comparisons
import Libft.CPPClass.Theorems.ModPow
import Libft.Networking.Theorems.Replay
import Libft.Networking.Theorems.PacketNumbers
import Libft.Networking.Theorems.Foreign
import Libft.Networking.Theorems.KeyUpdates
import Libft.Networking.Theorems.AckedHeld
import Libft.Networking.Theorems.Credit
import Libft.Networking.Theorems.Migration
import Libft.Networking.Theorems.DatagramSize
import Libft.Networking.Theorems.RoundTrip
import Libft.Networking.Theorems.Reassembly
import Libft.Networking.Theorems.LaneService
import Libft.Networking.Theorems.StreamWindows
import Libft.Networking.Theorems.Probes
import Libft.Networking.Theorems.Retransmissions
import Libft.Storage.Theorems.Atomic
import Libft.Storage.Theorems.Replication
import Libft.Template.Map
import Libft.Game.VoxelSection
import Libft.JSon.Pointer
import Libft.JSon.SchemaEvolution
import Libft.Logger.Redaction
import Libft.Networking.WebSocket
import Libft.Networking.HttpServer
import Libft.Template.Theorems.FiniteMap
import Libft.PThread.Theorems.Exclusion
import Libft.PThread.Theorems.Phases
import Libft.PThread.Theorems.Wakeups
import Libft.PThread.Theorems.RealCycles
import Libft.PThread.Theorems.Deadlocks
import Libft.Threading.Theorems.QueueWakeups
import Libft.Threading.Theorems.HeapAccess
import Libft.Threading.Theorems.Cancellation
import Libft.Threading.Theorems.Executed
import Libft.Threading.Theorems.WaitReturns
import Libft.Basic.Utf8
import Libft.Buffer.ByteBuffer
import Libft.Encryption.Rsa
import Libft.SCMA.Theorems.Enlarging
import Libft.SCMA.Theorems.Handles
import Libft.SCMA.Theorems.Wiped
import Libft.SCMA.Theorems.Bookkeeping
import Libft.Encoding.Theorems.Restores
import Libft.CSV.Theorems.Restores
import Libft.Crypto.Theorems.Sealed

import CortexTheseus.Schedule
import CortexTheseus.Common.Hex
import CortexTheseus.Types.Rlp
import CortexTheseus.Torrentfs.Tunnel
import CortexTheseus.Torrentfs.BroadcastRace
import CortexTheseus.Torrentfs.Listen
import CortexTheseus.Torrentfs.Bitsflow
import CortexTheseus.Torrentfs.Shutdown
import CortexTheseus.Torrentfs.Peers
import CortexTheseus.Torrentfs.MessageLoop
import CortexTheseus.Torrentfs.Download
import CortexTheseus.Torrentfs.GetFile
import CortexTheseus.Torrentfs.Seeding
import CortexTheseus.Infernet.Server
import CortexTheseus.Infernet.Infer
import CortexTheseus.Rpc.Server
import CortexTheseus.Libc.Lock
import CortexTheseus.Libc.Tls
import CortexTheseus.Libc.Strings
import CortexTheseus.Libc.Thread
import CortexTheseus.Libc.Jump

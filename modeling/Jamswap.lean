import Jamswap.Engine.Book
import Jamswap.Service.CarryBalance
import Jamswap.Service.AgeIndex
import Jamswap.Engine.Deltas
import Jamswap.Service.LandedQueue
import Jamswap.Builder.DeadRounds
import Jamswap.Service.BookBytes
import Jamswap.Builder.SeqFilter
import Jamswap.Builder.Refill
import Jamswap.Committee.Soundness
import Jamswap.Service.Provenance
import Jamswap.Service.Authority
import Jamswap.Builder.OrderIds
import Jamswap.Service.Registry
import Jamswap.Client.ReserveKeeper
import Jamswap.Client.WorkPackage
import Jamswap.Client.WebSocket
import Jamswap.Telemetry.Agreement
import Jamswap.Service.Indexed.Handlers

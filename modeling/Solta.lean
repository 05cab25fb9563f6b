import Solta.Lib.Run
import Solta.Lib.Stride
import Solta.Lib.Sampling
import Solta.Lib.FirstMax
import Solta.Lib.FixedWidth
import Solta.Lib.Pieces
import Solta.Lib.PathStore
import Solta.Lib.SortedList
import Solta.Lib.Overwrite
import Solta.Lib.Rounding
import Solta.Float32
import Solta.Imaging
import Solta.Brightness
import Solta.Spots
import Solta.Exposure
import Solta.Ratchet
import Solta.FluxGuard
import Solta.Buffers
import Solta.Geometry
import Solta.MainQueue
import Solta.Login
import Solta.Accounts
import Solta.DateFormatter
import Solta.Calendar
import Solta.Detection
import Solta.History
import Solta.FirebaseHelper
import Solta.Scores
import Solta.Provenance
import Solta.Isolation
import Solta.Records
import Solta.HalfWritten
import Solta.TimeOrder
import Solta.Agreement
import Solta.ReadBack
import Solta.Download
import Solta.Session
import Solta.Database.Llrb
import Solta.Database.LlrbRemove
import Solta.Database.TreeBuilder
import Solta.Database.SortedDictionary
import Solta.Database.Enumerator
import Solta.Database.Keys
import Solta.Database.Node
import Solta.Database.CompoundWrite
import Solta.Database.WriteTree
import Solta.Database.Connection
import Solta.Database.Delivery
import Solta.Database.Arrival
import Solta.Database.Repo
import Solta.Database.CacheWalk
import Solta.Database.Persistence
import Solta.Database.Restart
import Solta.Database.UserWrites

import Memcarrot.Authorization.Lines
import Memcarrot.Authorization.Login
import Memcarrot.Authorization.Pending
import Memcarrot.Client.SharedServer
import Memcarrot.Client.Waiting
import Memcarrot.Parsing.CompleteLines
import Memcarrot.Parsing.Consumption
import Memcarrot.Parsing.DataBlocks
import Memcarrot.Parsing.Decisions
import Memcarrot.Parsing.Failures
import Memcarrot.Parsing.FlushAll
import Memcarrot.Parsing.Grammar
import Memcarrot.Parsing.Keys
import Memcarrot.Parsing.LineFraming
import Memcarrot.Parsing.MemorySafety
import Memcarrot.Parsing.Reads
import Memcarrot.Refinement.OutputBuffer
import Memcarrot.Replies.Counters
import Memcarrot.Retrieval.GetAndTouch
import Memcarrot.Retrieval.Overflow
import Memcarrot.Retrieval.ReadBack
import Memcarrot.Server.DeadWorkers
import Memcarrot.Server.Delivery
import Memcarrot.Server.Finishing
import Memcarrot.Server.Fragments
import Memcarrot.Server.Interleaving
import Memcarrot.Server.Pipelining
import Memcarrot.Server.Releases
import Memcarrot.Server.RoundEnds
import Memcarrot.Client.SharedServer

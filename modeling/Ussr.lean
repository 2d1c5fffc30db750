import Ussr.BTree.Failure
import Ussr.ScopeIndex
import Ussr.Vm.Loaded
import Ussr.Sched.Resume
import Ussr.Bytecode.Compiled
import Ussr.Gc.Exact
import Ussr.Kv.NodesFit
import Ussr.Stalin.Places
import Ussr.Dubna.ServerProof
import Ussr.Sochi.Delivery
import Ussr.Sochi.BotRuns
import Ussr.FloorCeil
import Ussr.Usa.Helpers
import Ussr.Murmansk.RoundTrip
import Ussr.Siberia.CsvRoundTrip
import Ussr.Ukraine.Chunking
import Ussr.Moscow.Lease
import Ussr.Lenin.Calls
import Ussr.Omsk.Sizes
import Ussr.Ural.RoundTrip
import Ussr.Ural.Extraction
import Ussr.BTree.KeyOrder
import Ussr.Belarus.PutRuns
import Ussr.Belarus.FreeMap
import Ussr.Belarus.FsckComplete
import Ussr.Moscow.Received
import Ussr.Pp.Sections
import Ussr.Pp.Origins
import Ussr.Usa.Lex
import Ussr.Usa.Sort
import Ussr.Usa.ObjectBytes
import Ussr.Usa.Areas
import Ussr.Dubna.Base64
import Ussr.Utf8
import Ussr.Dubna.Collect
import Ussr.Novgorod.References
import Ussr.Omsk.RoundTrip
import Ussr.Sched.RunQueue
import Ussr.Regex.Spans
import Ussr.Uno.Fields

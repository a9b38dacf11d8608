import Kududown.IteratorRange
import Kududown.Close
import Kududown.BatchCalls
import Kududown.KeyValue
import Kududown.Open
import Kududown.Snapshot
import Kududown.Collect
import Kududown.JsIterator
import Kududown.Delete
import Kududown.Progress
import Kududown.Seek
import Kududown.Tracer
import Kududown.Lib.Literal
import Kududown.AvscConverter
import Kududown.Lib.LiteralReads
import Kududown.Lib.LiteralQuotes
import Kududown.Slices
import Kududown.Calls
import Kududown.CallsMemory
import Kududown.CallsLog
import Kududown.Rows
import Kududown.CallsRows
import Kududown.JsDelivery
import Kududown.Apart
import Kududown.TracerOrder
import Kududown.MessagesRoundTrip
import Kududown.AddonDrain
import Kududown.AddonReads

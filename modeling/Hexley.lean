import Hexley.Dns.RecordBuffer
import Hexley.Dns.Compression
import Hexley.Launchd.Receive
import Hexley.Cf.Utf8
import Hexley.DnsSd.TxtItems
import Hexley.Launchd.CalendarAlarm
import Hexley.Launchd.CalendarObject
import Hexley.Cf.BinaryPlist.Lookup
import Hexley.Cf.BinaryPlist.RoundTrip
import Hexley.Hid.Agreement
import Hexley.Cf.UrlPathResolve
import Hexley.DnsInfo.RoundTrip
import Hexley.Dns.PutBounds
import Hexley.Dns.Sections
import Hexley.Hid.NextItem
import Hexley.Kext.LoadOrder
import Hexley.Dtrace.Totals
import Hexley.IOKit.QueueRuns
import Hexley.Configd.Abort
import Hexley.Configd.Transaction
import Hexley.Configd.Read
import Hexley.Dns.ServiceName
import Hexley.Dns.Escape
import Hexley.Dns.Options
import Hexley.Mdns.Reconfirm
import Hexley.Mdns.CacheFlush
import Hexley.Mdns.Questions
import Hexley.Mdns.ServerList
import Hexley.Mdns.ServerChoice
import Hexley.Dns.ValidateRData
import Hexley.Cf.BSearch
import Hexley.Cf.DictionaryMarker
import Hexley.Cf.ArrayCapacity
import Hexley.Cf.BitVector
import Hexley.Cf.Date
import Hexley.Cf.PlistCharacters

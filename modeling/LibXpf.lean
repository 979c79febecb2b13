import LibXpf.Allocators.LinearReclaim
import LibXpf.Allocators.Products
import LibXpf.NetIoMux.Connects
import LibXpf.NetIoMux.Departures
import LibXpf.NetIoMux.Iocp
import LibXpf.NetIoMux.Quiescence
import LibXpf.NetIoMux.IocpStatuses
import LibXpf.NetIoMux.IocpTurns
import LibXpf.Base64.Grammar
import LibXpf.Getopt.FirstScan
import LibXpf.Utf.BackAgain
import LibXpf.Tls.TlsMap
import LibXpf.Xpfstring.IsoConformance
import LibXpf.Allocators.BuddyGrants
import LibXpf.Allocators.LinearBounds
import LibXpf.Coroutine.Bookkeeping
import LibXpf.Threading.Thread
import LibXpf.Allocators.BuddyPeaks
import LibXpf.Allocators.LinearRealloc
import LibXpf.Utf.Truncation
import LibXpf.Utf.BufferSafety
import LibXpf.Utf.Strings
import LibXpf.Base64.TwoCalls
import LibXpf.Getopt.Arguments
import LibXpf.Foundation.Abbreviations
import LibXpf.Getopt.LongNames
import LibXpf.Getopt.Suboptions
import LibXpf.NetIoMux.Aborts
import LibXpf.Xpfstring.Splitting
import LibXpf.Xpfstring.CaseFolding
import LibXpf.Xpfstring.Hashing
import LibXpf.Xpfstring.StringFields
import LibXpf.Xpfstring.LexicalCast
import LibXpf.Uuid.TextForm
import LibXpf.NetIoMux.StatusFlags
import LibXpf.Xpfstring.ScannerBounds
import LibXpf.Allocators.BuddyGeometry
import LibXpf.Xpfstring.FloatTexts
import LibXpf.Uuid.Generation
import LibXpf.NetEndpoint.Success
import LibXpf.Threading.ThreadLock
import LibXpf.Delegate.Invocations
import LibXpf.Allocators.BuddyContents
import LibXpf.Allocators.LinearContents
import LibXpf.Xpfstring.ArgumentKinds
import LibXpf.Xpfstring.WholeFormats
import LibXpf.NetEndpoint.Descriptors
import LibXpf.NetIoMux.SyncFifo
import LibXpf.Threading.WindowsThread

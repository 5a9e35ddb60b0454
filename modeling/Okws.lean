import Okws.Lib.Machine
import Okws.Lib.Scan
import Okws.Lib.Memory
import Okws.Lib.Transition
import Okws.Lib.Qsort
import Okws.Lib.Kmp
import Okws.Byte
import Okws.Abuf
import Okws.Tape
import Okws.ByteStream
import Okws.AbufBulk
import Okws.AbufPipe
import Okws.Suiolite
import Okws.Resp
import Okws.Pair
import Okws.Proxy
import Okws.Cgi
import Okws.CgiFrag
import Okws.CgiCodec
import Okws.CgiTail
import Okws.Reader
import Okws.Hdr
import Okws.InHdr
import Okws.InHdrFrag
import Okws.Mpfd
import Okws.MpfdFrag
import Okws.MpfdTerm
import Okws.ReqLine
import Okws.Clone
import Okws.Child
import Okws.Cluster
import Okws.BackPressure
import Okws.Shutdown
import Okws.Launcher
import Okws.Sticky
import Okws.Ahttpcon
import Okws.HandOff
import Okws.Whole
import Okws.HdrLines
import Okws.HdrTab
import Okws.Trust
import Okws.HdrAgree
import Okws.Ztab
import Okws.Zbuf
import Okws.HtmlFilter
import Okws.Lib.BigEndian
import Okws.Scalar
import Okws.Msgpack
import Okws.MsgpackCodec
import Okws.MsgpackRound
import Okws.MsgpackRecv
import Okws.MsgpackCall
import Okws.Output
import Okws.Ast
import Okws.MightBlock
import Okws.Descriptor
import Okws.MpfdCodec
import Okws.Lib.Register
import Okws.Heap
import Okws.Convert
import Okws.Env
import Okws.Eval
import Okws.Pub
import Okws.EvalAgree
import Okws.PubAgree
import Okws.KeptFile
import Okws.FlowFile
import Okws.Lexical
import Okws.Pipeliner
import Okws.Mtdispatch
import Okws.OkwcReq
import Okws.DnsEntry
import Okws.ClientCache
import Okws.DeltaPush
import Okws.Timehash
import Okws.SrvCache
import Okws.Lib.Feed
import Okws.Chunker
import Okws.OkwcHdrFrag
import Okws.KeepAlive
import Okws.GetfileChunked
import Okws.KmpMatcher
import Okws.Scraps
import Okws.Contdisp
import Okws.MtdShutdown
import Okws.Redis
import Okws.Gzip
import Okws.JsonRpc
import Okws.PatternedFn
import Okws.CgiString
import Okws.CgiFields
import Okws.CgiOversize
import Okws.CgiFilter
import Okws.PairInts
import Okws.ContLen
import Okws.ScalarOrder
import Okws.ScalarDiv
import Okws.ScalarHistory
import Okws.XssEscape
import Okws.JsonEscape
import Okws.MsgpackJs
import Okws.MsgpackDispatch
import Okws.LookupLayer
import Okws.MsgpackCursor
import Okws.BestFit
import Okws.Applicator
import Okws.AhttpTab
import Okws.MsgpackPtr
import Okws.CrashLoop
import Okws.TimehashMem
import Okws.Lib.Flex
import Okws.Scanner
import Okws.ScanStr
import Okws.JsonScan
import Okws.IncludeScope
import Okws.ListSlots
import Okws.SameContent
import Okws.Later
import Okws.Reeval
import Okws.WriteBack
import Okws.Lib.Depth
import Okws.Lib.Delimit
import Okws.Lib.Assoc
import Okws.Datum
import Okws.DatumEq
import Okws.DatumText
import Okws.DatumSame
import Okws.ScalarEq
import Okws.ScalarPrims
import Okws.Equality
import Okws.Lib.Crc
import Okws.KeySlot
import Okws.Lib.Cut
import Okws.Cidr
import Okws.ListFns
import Okws.JsonXdr
import Okws.SortFn
import Okws.Rxx
import Okws.EvalLua
import Okws.Traverse
import Okws.ChunkerEnd
import Okws.OkwcResp
import Okws.JsonRound
import Okws.GzipWire
import Okws.Oklog

import Exec02.Lib.Machine
import Exec02.Lib.Deque
import Exec02.Lib.Heap
import Exec02.Lib.Ring
import Exec02.Lib.CString
import Exec02.Lib.SortedSet
import Exec02.Lib.SerialWriter
import Exec02.MyList
import Exec02.MyQueue
import Exec02.MyEvents
import Exec02.MyCircleQueue
import Exec02.ChatMessage
import Exec02.ChatRoom
import Exec02.ChatOutbox
import Exec02.ChatClient
import Exec02.ChatServer
import Exec02.MLogger
import Exec02.MLogStream
import Exec02.MLogWriters
import Exec02.MThread02
import Exec02.UDPServer
import Exec02.UDPClient
import Exec02.FileTransMain
import Exec02.Lib.ElementArray
import Exec02.Lib.StableSort
import Exec02.MySort
import Exec02.MySortPartition
import Exec02.MySortQksort
import Exec02.FileTransMainKmp
import Exec02.MyListDestroy
import Exec02.Lib.Ledger
import Exec02.MyEventsOwnership
import Exec02.ChatMessageHeader
import Exec02.ChatMessageBounds
import Exec02.MLogCopy
import Exec02.MLogMsgObjects
import Exec02.MLogMsgTexts
import Exec02.IndentStream
import Exec02.MLog2
import Exec02.MyString
import Exec02.UDPClientAddress
import Exec02.MyService
import Exec02.MyTestMain01
import Exec02.MThread02Bounce
import Exec02.Lib.HeapOrder
import Exec02.MyTestMain01Heap
import Exec02.MyTestMain01HeapRuns
import Exec02.MyTestMain01HeapListing
import Exec02.MyHash
import Exec02.Lib.Relay
import Exec02.MyTCPSrv01
import Exec02.Lib.Progress
import Exec02.Lib.Pipeline
import Exec02.MyTCPCli01
import Exec02.ChatServerDelivery
import Exec02.ChatServerBytes
import Exec02.Lib.Mutex
import Exec02.MThread01
import Exec02.MThread01Screen
import Exec02.MThread01Signal
import Exec02.Lib.Pool
import Exec02.LockFreeMain
import Exec02.Lib.PrefixCode
import Exec02.Lib.View
import Exec02.ChatFraming
import Exec02.ChatNetwork
import Exec02.ChatAgreement
import Exec02.Lib.StopAndWait
import Exec02.UDPNetwork
import Exec02.Lib.Words
import Exec02.Exec02Words
import Exec02.NamedLinkedList
import Exec02.Lib.Owners
import Exec02.MyTestMain01HeapObjects
import Exec02.FileTransMainPoll

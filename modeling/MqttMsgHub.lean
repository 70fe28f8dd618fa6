import MqttMsgHub.Lib.Exec
import MqttMsgHub.Lib.Pool
import MqttMsgHub.Lib.Assoc
import MqttMsgHub.Lib.Loop
import MqttMsgHub.Lib.Ptr
import MqttMsgHub.Lib.Links
import MqttMsgHub.Lib.JsonString
import MqttMsgHub.Lib.Ring
import MqttMsgHub.Lib.DLinks
import MqttMsgHub.Lib.Refine
import MqttMsgHub.Lib.Machine
import MqttMsgHub.Lib.JsonText
import MqttMsgHub.CTypes
import MqttMsgHub.CacheFile
import MqttMsgHub.OfflineQueue
import MqttMsgHub.Json
import MqttMsgHub.RequestBody
import MqttMsgHub.Hub
import MqttMsgHub.Drain
import MqttMsgHub.Priority
import MqttMsgHub.Ledger
import MqttMsgHub.CacheFiles
import MqttMsgHub.StrayFiles
import MqttMsgHub.Accounting
import MqttMsgHub.WakeUp
import MqttMsgHub.IniFile
import MqttMsgHub.IniStore
import MqttMsgHub.ParseLine
import MqttMsgHub.CounterFile
import MqttMsgHub.MsgCounter
import MqttMsgHub.SaveFailure
import MqttMsgHub.PayloadCipher
import MqttMsgHub.Restart
import MqttMsgHub.Enqueue
import MqttMsgHub.Retry
import MqttMsgHub.Collisions
import MqttMsgHub.LazyInit
import MqttMsgHub.Base64
import MqttMsgHub.MsgRevHandler
import MqttMsgHub.CommandTopic
import MqttMsgHub.WritePipe
import MqttMsgHub.SList
import MqttMsgHub.JsonFriendly
import MqttMsgHub.Threadpool
import MqttMsgHub.LinkedList
import MqttMsgHub.QueueMemory
import MqttMsgHub.Durability
import MqttMsgHub.JsonTokener
import MqttMsgHub.JsonDialect
import MqttMsgHub.JsonReads
import MqttMsgHub.JsonAccepts
import MqttMsgHub.JsonRoundTrip
import MqttMsgHub.JsonStandard

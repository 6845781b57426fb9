import NodeServer.Proof.Agreement
import NodeServer.Proof.Lookup
import NodeServer.Proof.RoomIds
import NodeServer.Proof.Membership
import NodeServer.Proof.Leaving
import NodeServer.Spec.RoomView
import NodeServer.Proof.RoomRequests
import NodeServer.Proof.LoginGate
import NodeServer.Proof.LoginProgress
import NodeServer.Proof.Delivery
import NodeServer.Proof.Truthful
import NodeServer.Proof.CloseNotices
import NodeServer.Proof.Shutdown
import NodeServer.Proof.RoomErrors
import NodeServer.Proof.KeyTypes
import NodeServer.Proof.RoomCheck
import NodeServer.Proof.Disconnects
import NodeServer.Proof.Numbering
import NodeServer.Proof.PrivateMessages
import NodeServer.Proof.RoomList
import NodeServer.Proof.LoginErrors
import NodeServer.Proof.Rest
import NodeServer.Proof.Correlation
import NodeServer.Proof.Connections
import NodeServer.Proof.Kicks
import NodeServer.Proof.Directory
import NodeServer.Proof.RoomNotices
import NodeServer.Proof.Departure
import NodeServer.Redis.Intset
import NodeServer.Redis.DictRuns
import NodeServer.Redis.SetCommands
import NodeServer.Redis.ZiplistRuns
import NodeServer.Proof.Sending

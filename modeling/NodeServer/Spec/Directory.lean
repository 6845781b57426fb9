import NodeServer.Model.State
import Mathlib.Data.Set.Insert

/-! # The directory the servers share

What the servers keep in Redis, without keys, hashes and sets: who is logged in on
which connection and on which server, the rooms, and their members. -/

namespace NodeServer

abbrev SocketId := { s : Str // IsSocketId s }

@[ext]
structure Directory where
  sessions : Str → SocketId → Option AppInfo
  lastRoom : ℕ
  rooms : Set Str
  members : Str → Set Str

namespace Directory

def empty : Directory := ⟨fun _ _ => none, 0, ∅, fun _ => ∅⟩

inductive Op where
  | register (userId : Str) (s : SocketId) (server : AppInfo)
  | unregister (userId : Str) (s : SocketId)
  | drawRoom
  | openRoom (room : Str)
  | closeRoom (room : Str)
  | join (room userId : Str)
  | leave (room userId : Str)

def setSession (d : Directory) (userId : Str) (s : SocketId) (server : Option AppInfo) : Directory :=
  { d with sessions := fun u t => if u = userId ∧ t = s then server else d.sessions u t }

def setMembers (d : Directory) (room : Str) (users : Set Str) : Directory :=
  { d with members := fun r => if r = room then users else d.members r }

def apply (d : Directory) : Op → Directory
  | .register userId s server => d.setSession userId s (some server)
  | .unregister userId s => d.setSession userId s none
  | .drawRoom => { d with lastRoom := d.lastRoom + 1 }
  | .openRoom room => { d with rooms := insert room d.rooms }
  | .closeRoom room => { d.setMembers room ∅ with rooms := d.rooms \ {room} }
  | .join room userId => d.setMembers room (insert userId (d.members room))
  | .leave room userId => d.setMembers room (d.members room \ {userId})

end Directory

end NodeServer

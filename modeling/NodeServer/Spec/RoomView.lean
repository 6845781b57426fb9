import NodeServer.Model.Keys
import Mathlib.Data.Set.Insert

/-! # A user and its connection, seen from the rooms

What the room requests of one connection do, without processes, callbacks and
Redis: the rooms there are, the rooms the user is a member of, and the room the
connection has noted. A room is named by a text a client chose, and the server
looks for it with that text as a pattern. -/

namespace NodeServer

@[ext]
structure RoomView where
  rooms : Set ℕ
  member : Set Str
  noted : JsVal

inductive RoomReq where
  | roomIn (roomId : JsVal)
  | roomOut (roomId : JsVal)
  | roomClose (roomId : JsVal)
  deriving DecidableEq

namespace RoomView

/- The user is in a room exactly when the connection has noted that room. -/
def Agrees (v : RoomView) : Prop := ∀ n ∈ v.rooms, natText n ∈ v.member ↔ v.noted.text = natText n

def Finds (v : RoomView) (roomId : JsVal) : Prop :=
  ∃ n ∈ v.rooms, Glob.stringmatch (roomPattern roomId.text) (roomPattern (natText n)) = true

def joined (v : RoomView) (roomId : JsVal) : RoomView :=
  { v with member := insert roomId.text v.member, noted := roomId }

def left (v : RoomView) (roomId : JsVal) : RoomView :=
  { v with member := v.member \ {roomId.text}, noted := .undefined }

def closed (v : RoomView) (roomId : JsVal) : RoomView :=
  { v with
    rooms := { n ∈ v.rooms | natText n ≠ roomId.text }
    member := v.member \ {roomId.text} }

open Classical in
noncomputable def serve (v : RoomView) : RoomReq → RoomView
  | .roomIn roomId => if v.Finds roomId then v.joined roomId else v
  | .roomOut roomId => if v.noted.isNull then v else v.left roomId
  | .roomClose roomId => if v.Finds roomId then v.closed roomId else v

/- The request concerns the noted room, when the noted room still exists. -/
def Concerns (v : RoomView) (roomId : JsVal) : Prop :=
  ∀ n ∈ v.rooms, v.noted.text = natText n → roomId.text = natText n

/- No join of a second room and no leave of another room. -/
def Keeps (v : RoomView) : RoomReq → Prop
  | .roomIn roomId => v.Finds roomId → v.Concerns roomId
  | .roomOut roomId => v.Concerns roomId
  | .roomClose _ => True

theorem agrees_joined_iff (v : RoomView) (h : v.Agrees) (roomId : JsVal) :
    (v.joined roomId).Agrees ↔ v.Concerns roomId := by
  constructor
  · intro hj n hn hnoted
    exact (hj n hn).mp (Set.mem_insert_of_mem _ ((h n hn).mpr hnoted))
  · intro hc n hn
    constructor
    · intro hm
      rcases Set.mem_insert_iff.mp hm with hroom | hm
      · exact hroom.symm
      · exact hc n hn ((h n hn).mp hm)
    · intro hroom
      exact Set.mem_insert_iff.mpr (Or.inl hroom.symm)

theorem agrees_left_iff (v : RoomView) (h : v.Agrees) (roomId : JsVal) :
    (v.left roomId).Agrees ↔ v.Concerns roomId := by
  constructor
  · intro hl n hn hnoted
    by_contra hne
    have hm : natText n ∈ (v.left roomId).member := ⟨(h n hn).mpr hnoted, fun he => hne he.symm⟩
    exact isNull_not_decimal .undefined rfl n ((hl n hn).mp hm)
  · intro hc n hn
    constructor
    · intro hm
      exact absurd (hc n hn ((h n hn).mp hm.1)).symm hm.2
    · intro hroom
      exact absurd hroom (isNull_not_decimal .undefined rfl n)

theorem agrees_closed (v : RoomView) (h : v.Agrees) (roomId : JsVal) : (v.closed roomId).Agrees := by
  intro n hn
  constructor
  · intro hm
    exact (h n hn.1).mp hm.1
  · intro hnoted
    exact ⟨(h n hn.1).mpr hnoted, hn.2⟩

/-- From a view that agrees, a request leads to one that agrees exactly when it
concerns the noted room. -/
theorem agrees_serve_iff (v : RoomView) (h : v.Agrees) (req : RoomReq) :
    (v.serve req).Agrees ↔ v.Keeps req := by
  cases req with
  | roomIn roomId =>
    by_cases hf : v.Finds roomId
    · simp only [serve, hf, if_true, Keeps, true_implies]
      exact agrees_joined_iff v h roomId
    · simp only [serve, hf, if_false, Keeps, false_implies, iff_true]
      exact h
  | roomOut roomId =>
    by_cases hn : v.noted.isNull = true
    · simp only [serve, hn, if_true, Keeps, iff_true_intro h, true_iff]
      intro n _ hnoted
      exact absurd hnoted (isNull_not_decimal v.noted hn n)
    · simp only [serve, hn, Keeps]
      exact agrees_left_iff v h roomId
  | roomClose roomId =>
    by_cases hf : v.Finds roomId
    · simp only [serve, hf, if_true, Keeps, iff_true]
      exact agrees_closed v h roomId
    · simp only [serve, hf, if_false, Keeps, iff_true]
      exact h

end RoomView

end NodeServer

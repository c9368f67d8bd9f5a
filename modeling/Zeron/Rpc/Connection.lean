import Mathlib.Data.List.Basic
import Mathlib.Logic.Function.Basic
import Zeron.Lib.Machine
import Zeron.Registry.Json

/-!
# One RPC connection

The client of `rpc/src/client.rs` and the server of `rpc/src/server.rs` over a pair of string
channels. Every request of the client has its own task on the server; tasks, the two readers and the
callers interleave freely, and what a handler answers is part of the action.

A frame crosses as one line of JSON. What `serde_json` reads of the text it wrote is a parameter.
-/

namespace Zeron.Rpc

open Zeron.Lib (Machine)
open Zeron.Registry (JsonValue)

/-- The text of `serde_json`: `reread` is what it reads back of a value inside a frame. The line is
malformed where this is `none` (nesting beyond its recursion limit). -/
structure JsonLine (J : Type) where
  null : J
  reread : J → Option J
  reread_null : reread null = some null

inductive RpcError where
  | unknownMethod (method : String)
  | badParams (message : String)
  | failed (message : String)
  | transport (message : String)
  | closed
  deriving DecidableEq

def RpcError.toString : RpcError → String
  | .unknownMethod method => "unknown method: " ++ method
  | .badParams message => "bad params: " ++ message
  | .failed message => message
  | .transport message => "transport: " ++ message
  | .closed => "connection closed"

structure ClientFrame (J : Type) where
  id : Nat
  method : Option String
  params : J
  cancel : Bool
  deriving DecidableEq

structure ServerFrame (J : Type) where
  id : Nat
  ok : Option J
  err : Option String
  item : Option J
  done : Bool
  deriving DecidableEq

inductive RpcReply (J : Type) where
  | value (value : J)
  | stream
  deriving DecidableEq

/-- The two variants of `Pending`. -/
inductive Kind where
  | call
  | stream
  deriving DecidableEq

variable {J : Type} [DecidableEq J]

section Text

variable (lib : JsonLine J)

/-- An `Option<Value>` field: left out when `None`, and `null` is read as `None`. -/
def readField : Option J → Option (Option J)
  | none => some none
  | some value => (lib.reread value).map fun v => if v = lib.null then none else some v

def ServerFrame.readBack (frame : ServerFrame J) : Option (ServerFrame J) :=
  (readField lib frame.ok).bind fun ok =>
    (readField lib frame.item).map fun item => { frame with ok := ok, item := item }

/-- The client frame read from its line; `params` is left out when `null`. -/
def ClientFrame.readBack (frame : ClientFrame J) : Option (ClientFrame J) :=
  if frame.params = lib.null then some frame
  else (lib.reread frame.params).map fun params => { frame with params := params }

end Text

/-! ## State -/

/-- One request task of the server, at the point where it waits. -/
inductive Task (J : Type) where
  | handling (method : String) (params : J)
  /-- In `stream.next()`. -/
  | streaming
  /-- In `out.send`; `more` when the stream goes on after it. -/
  | sending (frame : ServerFrame J) (more : Bool)
  | finished
  | aborted

/-- A caller's side of a request: the future of `call`, or the receiver of `subscribe`. -/
structure Request (J : Type) where
  kind : Kind
  method : String
  params : J
  sent : Bool
  /-- The caller has not dropped it. -/
  held : Bool
  result : Option (Except RpcError J)
  queue : List J
  taken : List J

inductive Ending (J : Type) where
  | value (value : J)
  | failed (err : RpcError)
  | ended

/-- What the handler of a request has returned and streamed. -/
structure History (J : Type) where
  items : List J
  ending : Option (Ending J)

structure Connection (J : Type) where
  nextId : Nat
  requests : Nat → Option (Request J)
  pending : Nat → Option Kind
  toServer : List (ClientFrame J)
  tasks : Nat → Option (Task J)
  toClient : List (ServerFrame J)
  history : Nat → History J

def History.empty : History J := ⟨[], none⟩

def Connection.new : Connection J where
  nextId := 1
  requests := fun _ => none
  pending := fun _ => none
  toServer := []
  tasks := fun _ => none
  toClient := []
  history := fun _ => .empty

/-! ## Steps -/

def channelCap : Nat := 256

def streamQueueCap : Nat := 256

inductive Action (J : Type) where
  /-- `call` or `subscribe`, up to the registration. -/
  | request (kind : Kind) (method : String) (params : J)
  /-- The frame of the request enters the channel. -/
  | submit (id : Nat)
  | recv (id : Nat)
  | drop (id : Nat)
  /-- `serve_connection` takes the next line. -/
  | serve
  | reply (id : Nat) (reply : Except RpcError (RpcReply J))
  | next (id : Nat) (item : Option J)
  /-- The frame a task is sending enters the channel. -/
  | send (id : Nat)
  /-- The client's reader takes the next line. -/
  | route

def okFrame (id : Nat) (value : J) : ServerFrame J := ⟨id, some value, none, none, false⟩

def errFrame (id : Nat) (err : String) : ServerFrame J := ⟨id, none, some err, none, false⟩

def itemFrame (id : Nat) (item : J) : ServerFrame J := ⟨id, none, none, some item, false⟩

def doneFrame (id : Nat) : ServerFrame J := ⟨id, none, none, none, true⟩

def requestFrame (id : Nat) (request : Request J) : ClientFrame J :=
  ⟨id, some request.method, request.params, false⟩

def cancelFrame (lib : JsonLine J) (id : Nat) : ClientFrame J := ⟨id, none, lib.null, true⟩

def Task.abort : Task J → Task J
  | .finished => .finished
  | _ => .aborted

namespace Connection

variable (lib : JsonLine J) (s : Connection J)

/-- `call` and `subscribe`: take an id and register the sender. -/
def request (kind : Kind) (method : String) (params : J) : Connection J :=
  { s with
    nextId := s.nextId + 1
    requests := Function.update s.requests s.nextId
      (some ⟨kind, method, params, false, true, none, [], []⟩)
    pending := Function.update s.pending s.nextId (some kind) }

def setRequest (id : Nat) (request : Request J) : Connection J :=
  { s with requests := Function.update s.requests id (some request) }

def setTask (id : Nat) (task : Task J) : Connection J :=
  { s with tasks := Function.update s.tasks id (some task) }

def record (id : Nat) (history : History J) : Connection J :=
  { s with history := Function.update s.history id history }

/-- `shared.lock().remove(&id)`. -/
def forget (id : Nat) : Connection J :=
  { s with pending := Function.update s.pending id none }

def resolve (id : Nat) (result : Except RpcError J) : Connection J :=
  match s.requests id with
  | none => s
  | some request => s.setRequest id { request with result := some result }

/-- The body of the loop of `serve_connection`, for one line. -/
def serve (line : ClientFrame J) : Connection J :=
  match line.readBack lib with
  | none => s
  | some frame =>
      if frame.cancel then
        match s.tasks frame.id with
        | none => s
        | some task => s.setTask frame.id task.abort
      else
        match frame.method with
        | none => s
        | some method => s.setTask frame.id (.handling method frame.params)

/-- `route_frame`; `none` while the send into a full stream queue waits. -/
def routeFrame (frame : ServerFrame J) : Option (Connection J) :=
  let id := frame.id
  match frame.err, frame.ok, frame.item with
  | some err, _, _ =>
      match s.pending id with
      | some .call => some ((s.forget id).resolve id (.error (.failed err)))
      | _ => some (s.forget id)
  | none, some value, _ =>
      match s.pending id with
      | some .call => some ((s.forget id).resolve id (.ok value))
      | _ => some (s.forget id)
  | none, none, some item =>
      match s.pending id, s.requests id with
      | some .stream, some request =>
          if request.held then
            if request.queue.length < streamQueueCap then
              some (s.setRequest id { request with queue := request.queue ++ [item] })
            else none
          else if s.toServer.length < channelCap then
            some { s.forget id with toServer := s.toServer ++ [cancelFrame lib id] }
          else none
      | _, _ => some s
  | none, none, none =>
      if frame.done then
        match s.pending id with
        -- The dropped oneshot sender.
        | some .call => some ((s.forget id).resolve id (.error .closed))
        | _ => some (s.forget id)
      else some s

def route (line : ServerFrame J) : Option (Connection J) :=
  match line.readBack lib with
  | none => some s
  | some frame => s.routeFrame lib frame

/-- `handle_request` once the handler has returned. -/
def reply (id : Nat) : Except RpcError (RpcReply J) → Connection J
  | .ok (.value value) =>
      (s.setTask id (.sending (okFrame id value) false)).record id
        ⟨(s.history id).items, some (.value value)⟩
  | .ok .stream => s.setTask id .streaming
  | .error err =>
      (s.setTask id (.sending (errFrame id err.toString) false)).record id
        ⟨(s.history id).items, some (.failed err)⟩

/-- What `stream.next()` gives. -/
def next (id : Nat) : Option J → Connection J
  | some item =>
      (s.setTask id (.sending (itemFrame id item) true)).record id
        ⟨(s.history id).items ++ [item], (s.history id).ending⟩
  | none =>
      (s.setTask id (.sending (doneFrame id) false)).record id
        ⟨(s.history id).items, some .ended⟩

def step : Action J → Option (Connection J)
  | .request kind method params => some (s.request kind method params)
  | .submit id =>
      match s.requests id with
      | none => none
      | some request =>
          if request.held = true ∧ request.sent = false ∧ s.toServer.length < channelCap then
            some { s.setRequest id { request with sent := true } with
              toServer := s.toServer ++ [requestFrame id request] }
          else none
  | .recv id =>
      match s.requests id with
      | none => none
      | some request =>
          match request.held, request.queue with
          | true, item :: queue =>
              some (s.setRequest id { request with queue := queue, taken := request.taken ++ [item] })
          | _, _ => none
  | .drop id =>
      match s.requests id with
      | none => none
      | some request =>
          if request.held then some (s.setRequest id { request with held := false }) else none
  | .serve =>
      match s.toServer with
      | [] => none
      | line :: rest => some (serve lib { s with toServer := rest } line)
  | .reply id reply =>
      match s.tasks id with
      | some (.handling _ _) => some (s.reply id reply)
      | _ => none
  | .next id item =>
      match s.tasks id with
      | some .streaming => some (s.next id item)
      | _ => none
  | .send id =>
      match s.tasks id with
      | some (.sending frame more) =>
          if s.toClient.length < channelCap then
            some { s.setTask id (if more then .streaming else .finished) with
              toClient := s.toClient ++ [frame] }
          else none
      | _ => none
  | .route =>
      match s.toClient with
      | [] => none
      | line :: rest => route lib { s with toClient := rest } line

end Connection

/-- A connection under every interleaving of its tasks, readers and callers. -/
def machine (lib : JsonLine J) : Machine (Connection J) (Action J) where
  init := fun s => s = .new
  step := fun s a => s.step lib a

end Zeron.Rpc

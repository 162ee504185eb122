import DistributedLabs.Library.GoString
import Mathlib.Logic.Function.Basic

/-!
# The key/value server

The handlers of `kvsrv/server.go`. Each runs under the server's lock, so it is a function from the
server before to the server after and the reply. A Go map is a function to `Option`; reading a
missing key gives the zero value, which for strings is `[]`.

`Put` and `Append` differ in the value that they store and in the value that they record for
retries: `Append` records the old value that it replied, `Put` records the new one. `handle_ack`,
`handle_retry` and `handle_fresh` are what each does in its three cases.
-/

namespace DistributedLabs.Kvsrv

/-- The state of a request: the modification itself, or the notice that its reply has arrived. -/
inductive AppendState where
  | modify
  | ack
  deriving DecidableEq

/-- The arguments of `Put` and `Append`. -/
structure PutAppendArgs where
  key : GoString
  value : GoString
  id : Int64
  state : AppendState
  deriving DecidableEq

/-- The store, and the replies recorded for requests that may be retried. -/
structure KVServer where
  storeMap : GoString → Option GoString
  idMap : Int64 → Option GoString

/-- A server with two empty maps. -/
def startKVServer : KVServer where
  storeMap := fun _ => none
  idMap := fun _ => none

/-- The `Get` handler: the reply value. It changes nothing. -/
def get (kv : KVServer) (key : GoString) : GoString :=
  match kv.storeMap key with
  | some value => value
  | none => []

/-- Whether the request has to be executed. An ack clears the record of its request. -/
def checkIfNeedChange (kv : KVServer) (args : PutAppendArgs) : KVServer × Bool :=
  match args.state with
  -- after this a late copy of the request looks like a new one
  | .ack => ({ kv with idMap := Function.update kv.idMap args.id none }, false)
  | .modify => (kv, (kv.idMap args.id).isNone)

/-- The `Put` handler and its reply value. -/
def put (kv : KVServer) (args : PutAppendArgs) : KVServer × GoString :=
  match checkIfNeedChange kv args with
  | (kv, false) => (kv, (kv.idMap args.id).getD [])
  | (kv, true) =>
      -- the record for retries is the new value, although the reply is the old one
      ({ storeMap := Function.update kv.storeMap args.key (some args.value)
         idMap := Function.update kv.idMap args.id (some args.value) },
        (kv.storeMap args.key).getD [])

/-- The `Append` handler and its reply value. -/
def append (kv : KVServer) (args : PutAppendArgs) : KVServer × GoString :=
  match checkIfNeedChange kv args with
  | (kv, false) => (kv, (kv.idMap args.id).getD [])
  | (kv, true) =>
      let value := (kv.storeMap args.key).getD []
      ({ storeMap := Function.update kv.storeMap args.key
          (some (if kv.storeMap args.key = none then args.value else value ++ args.value))
         idMap := Function.update kv.idMap args.id (some value) }, value)

/-- Which of the two modifying handlers a request is for. -/
inductive Op where
  | put
  | append
  deriving DecidableEq

/-- The handler that the RPC name selects. -/
def handle : Op → KVServer → PutAppendArgs → KVServer × GoString
  | .put => put
  | .append => append

/-- The value that an operation stores over an old value. -/
def Op.stored : Op → GoString → GoString → GoString
  | .put, _, value => value
  | .append, old, value => old ++ value

/-- The value that an operation records for its retries. -/
def Op.recorded : Op → GoString → GoString → GoString
  | .put, _, value => value
  | .append, old, _ => old

/-- Reading a key gives the stored value, or the empty string. -/
theorem get_eq (kv : KVServer) (key : GoString) : get kv key = (kv.storeMap key).getD [] := by
  unfold get
  cases kv.storeMap key <;> rfl

/-- An ack clears the record and replies the empty string. -/
theorem handle_ack (op : Op) (kv : KVServer) {args : PutAppendArgs} (h : args.state = .ack) :
    handle op kv args = ({ kv with idMap := Function.update kv.idMap args.id none }, []) := by
  cases op <;> simp [handle, put, append, checkIfNeedChange, h]

/-- A retry of a recorded request replies the record and changes nothing. -/
theorem handle_retry (op : Op) {kv : KVServer} {args : PutAppendArgs} {record : GoString}
    (h : args.state = .modify) (hid : kv.idMap args.id = some record) :
    handle op kv args = (kv, record) := by
  cases op <;> simp [handle, put, append, checkIfNeedChange, h, hid]

/-- The first execution of a request stores its value, records its reply for retries, and replies
the old value. -/
theorem handle_fresh (op : Op) {kv : KVServer} {args : PutAppendArgs} (h : args.state = .modify)
    (hid : kv.idMap args.id = none) :
    handle op kv args =
      ({ storeMap := Function.update kv.storeMap args.key
          (some (op.stored (get kv args.key) args.value))
         idMap := Function.update kv.idMap args.id
          (some (op.recorded (get kv args.key) args.value)) }, get kv args.key) := by
  rw [get_eq]
  cases op with
  | put => simp [handle, put, checkIfNeedChange, h, hid, Op.stored, Op.recorded]
  | append =>
      cases hkey : kv.storeMap args.key <;>
        simp [handle, append, checkIfNeedChange, h, hid, hkey, Op.stored, Op.recorded]

/-! ## Requests -/

/-- A Put or Append operation of a client. -/
structure Operation where
  op : Op
  key : GoString
  value : GoString
  id : Int64
  deriving DecidableEq

/-- A request for an operation, as it arrives at the server. -/
structure Request where
  operation : Operation
  state : AppendState
  deriving DecidableEq

/-- The RPC arguments of a request. -/
def Request.args (request : Request) : PutAppendArgs where
  key := request.operation.key
  value := request.operation.value
  id := request.operation.id
  state := request.state

/-- The request that asks for the modification. -/
def Operation.modify (operation : Operation) : Request := ⟨operation, .modify⟩

/-- The request that acknowledges the reply. -/
def Operation.ack (operation : Operation) : Request := ⟨operation, .ack⟩

/-- The server after a request. -/
def serve (kv : KVServer) (request : Request) : KVServer :=
  (handle request.operation.op kv request.args).1

/-- A request leaves the records of other identifiers alone. -/
theorem serve_id_map_of_ne {kv : KVServer} {request : Request} {id : Int64}
    (hne : request.operation.id ≠ id) : (serve kv request).idMap id = kv.idMap id := by
  cases hstate : request.state with
  | ack =>
      rw [serve, handle_ack _ _ hstate]
      exact Function.update_of_ne hne.symm _ _
  | modify =>
      cases hid : kv.idMap request.operation.id with
      | some record => rw [serve, handle_retry _ hstate hid]
      | none =>
          rw [serve, handle_fresh _ hstate hid]
          exact Function.update_of_ne hne.symm _ _

/-- After a modify request its operation is recorded. -/
theorem serve_modify_recorded (kv : KVServer) {request : Request}
    (hstate : request.state = .modify) :
    (serve kv request).idMap request.operation.id ≠ none := by
  cases hid : kv.idMap request.operation.id with
  | some record =>
      rw [serve, handle_retry _ hstate hid]
      simp [hid]
  | none =>
      rw [serve, handle_fresh _ hstate hid]
      simp [Request.args]

/-- After an ack its operation is not recorded. -/
theorem serve_ack_cleared (kv : KVServer) (operation : Operation) :
    (serve kv operation.ack).idMap operation.id = none := by
  rw [serve, handle_ack _ _ rfl]
  exact Function.update_self _ _ _

/-! ## Handler calls -/

/-- A call of one of the handlers. -/
inductive Call where
  | get (key : GoString)
  | putAppend (request : Request)
  deriving DecidableEq

/-- The server after a call, and the reply value. -/
def Call.execute (kv : KVServer) : Call → KVServer × GoString
  | .get key => (kv, Kvsrv.get kv key)
  | .putAppend request => handle request.operation.op kv request.args

/-- The server that a list of calls leaves behind. -/
def afterCalls (calls : List Call) : KVServer :=
  calls.foldl (fun kv call => (call.execute kv).1) startKVServer

/-- One more call is executed by the server that the earlier ones have left. -/
theorem after_calls_concat (calls : List Call) (call : Call) :
    afterCalls (calls ++ [call]) = (call.execute (afterCalls calls)).1 := by
  simp [afterCalls]

end DistributedLabs.Kvsrv

import Mkmq.MercuryProc
import Mkmq.Transition

/-!
# Incoming calls of a Mercury shard (`src/mercury_shard.cpp`)

Mercury calls `dispatch_cb` with a handle for each call that comes in.  `handle_rpc` looks up
the RPC, loads the input and has the payload, or starts to pull it into a buffer of its own;
`bulk_pull_cb` goes on when the pull is over.  The handler gets the payload and returns a
future, and what comes of it is the reply.  The `ServerRpcState` is owned by one after another
of Mercury's pull, the continuation of the handler, and Mercury's response; it has the handle,
and until the payload is there also the input and the local buffer.

As for outgoing calls, Mercury is outside: what its functions return, which input it hands over
and when a callback is called are parts of an event.  So are the handlers.  An exception that
leaves `handle_rpc` or `bulk_pull_cb` destroys the state on its way, which frees no handle,
no input and no buffer: `lost` has these states as they were.
-/

namespace Mkmq

open ByteCodec

/-! ### State -/

/-- One registered RPC; `handler` tells whether there is one. -/
structure RpcEntry where
  name : String
  id : Nat := 0
  handler : Bool := false
deriving DecidableEq, Repr

structure ServerRpcState where
  handle : Nat
  rpc : RpcEntry
  input : HgRequest := {}
  inputLoaded : Bool := false
  localBulk : Option Nat := none
  request : Bytes := []
  response : Bytes := []
  output : HgReply := {}
deriving DecidableEq

/-- A handler has been called with a payload. -/
structure HandlerCall where
  handle : Nat
  rpc : RpcEntry
  request : Bytes
deriving DecidableEq

structure MercuryServer where
  rpcsById : List (Nat × RpcEntry) := []
  -- where the state of a call can be
  pulling : List ServerRpcState := []
  running : List ServerRpcState := []
  responding : List ServerRpcState := []
  lost : List ServerRpcState := []
  -- how many there have been; the next one gets this number
  handles : Nat := 0
  bulks : Nat := 0
  -- what has been done, in order
  destroyed : List Nat := []
  inputsLoaded : List Nat := []
  inputsFreed : List Nat := []
  bulksFreed : List Nat := []
  handled : List HandlerCall := []
  answered : List (Nat × Option Bytes) := []
  replies : List (Nat × HgReply) := []
  -- metrics
  rpcReceives : Nat := 0
  rpcErrors : Nat := 0
  bulkTransfers : Nat := 0
  bulkBytes : Nat := 0
  bulkErrors : Nat := 0
deriving DecidableEq

/-- A call that comes in, and what the functions return that are called for it at once:
    `HG_Get_info` twice, `HG_Registered_data`, `HG_Get_input`, `HG_Bulk_create`,
    `HG_Bulk_transfer` and `HG_Respond`; whether there is memory for the payload; and whether
    the handler throws instead of returning a future. -/
structure IncomingRpc where
  rpcId : Nat
  input : Except HgReturn HgRequest := .error .noMem
  info : Bool := true
  registered : Bool := true
  infoAgain : Bool := true
  resized : Bool := true
  bulkCreate : Bool := true
  bulkTransfer : Bool := true
  throws : Bool := false
  respond : Bool := true
deriving DecidableEq

namespace MercuryServer

def onRpcError (m : MercuryServer) : MercuryServer := { m with rpcErrors := m.rpcErrors + 1 }

def onBulkError (m : MercuryServer) : MercuryServer := { m with bulkErrors := m.bulkErrors + 1 }

def onBulkTransfer (m : MercuryServer) (bytes : Nat) : MercuryServer :=
  { m with bulkTransfers := m.bulkTransfers + 1, bulkBytes := m.bulkBytes + bytes }

/-- `HG_Destroy`. -/
def destroy (m : MercuryServer) (handle : Nat) : MercuryServer :=
  { m with destroyed := m.destroyed ++ [handle] }

def findRpcById (m : MercuryServer) (id : Nat) : Option RpcEntry :=
  (m.rpcsById.find? fun entry => entry.1 = id).map Prod.snd

/-! ### Functions -/

def cleanupServerBulk (m : MercuryServer) (state : ServerRpcState) :
    MercuryServer × ServerRpcState :=
  ({ m with
      bulksFreed := m.bulksFreed ++ state.localBulk.toList
      inputsFreed := m.inputsFreed ++ if state.inputLoaded then [state.handle] else [] },
    { state with localBulk := none, inputLoaded := false })

/-- `accepted` is what `HG_Respond` returns. -/
def respondServer (m : MercuryServer) (accepted : Bool) (state : ServerRpcState) : MercuryServer :=
  let state := { state with output := { state.output with payload := .ofVector state.response } }
  if accepted then
    { m with
      replies := m.replies ++ [(state.handle, state.output)]
      responding := m.responding ++ [state] }
  else m.destroy state.handle

/-- The handler is called with the payload, which is moved out of the state. -/
def runServerHandler (m : MercuryServer) (throws : Bool) (state : ServerRpcState) : MercuryServer :=
  let call : HandlerCall := { handle := state.handle, rpc := state.rpc, request := state.request }
  let m := { m with handled := m.handled ++ [call] }
  let state := { state with request := [] }
  if throws then { m with lost := m.lost ++ [state] }
  else { m with running := m.running ++ [state] }

/-- The branches of `handle_rpc` that answer a bulk request without a pull. -/
def refuseBulk (m : MercuryServer) (accepted : Bool) (state : ServerRpcState) : MercuryServer :=
  let cleaned := m.onRpcError.onBulkError.cleanupServerBulk state
  cleaned.1.respondServer accepted
    { cleaned.2 with output := { cleaned.2.output with status := -1 } }

/-- `handle_rpc` once the input is loaded and is a bulk request. -/
def pullBulk (m : MercuryServer) (d : IncomingRpc) (state : ServerRpcState) : MercuryServer :=
  if state.input.bulkSize = 0 ∨ state.input.bulkHandle = none then m.refuseBulk d.respond state
  else if d.resized = false then { m with lost := m.lost ++ [state] }
  else
    let state := { state with request := List.replicate state.input.bulkSize.toNat 0 }
    if d.bulkCreate = false then m.refuseBulk d.respond state
    else
      let state := { state with localBulk := some m.bulks }
      let m := { m with bulks := m.bulks + 1 }
      if d.bulkTransfer = false then m.refuseBulk d.respond state
      else { m with pulling := m.pulling ++ [state] }

/-- `handle_rpc` once the RPC is found. -/
def acceptRpc (m : MercuryServer) (handle : Nat) (rpc : RpcEntry) (d : IncomingRpc) :
    MercuryServer :=
  match d.input with
  | .error _ => m.onRpcError.destroy handle
  | .ok input =>
    let state : ServerRpcState := { handle, rpc, input, inputLoaded := true }
    let m := { m with inputsLoaded := m.inputsLoaded ++ [handle] }
    if input.mode ≠ HgTransferMode.bulk.code then
      let cleaned := m.cleanupServerBulk { state with request := input.eager.toVector }
      cleaned.1.runServerHandler d.throws cleaned.2
    else m.pullBulk d state

def handleRpc (m : MercuryServer) (handle : Nat) (d : IncomingRpc) : MercuryServer :=
  let m := { m with rpcReceives := m.rpcReceives + 1 }
  if d.infoAgain = false then m.onRpcError.destroy handle
  else
    match m.findRpcById d.rpcId with
    | none => m.onRpcError.destroy handle
    | some rpc =>
      if rpc.handler = false then m.onRpcError.destroy handle else m.acceptRpc handle rpc d

def dispatchCb (m : MercuryServer) (d : IncomingRpc) : MercuryServer :=
  let handle := m.handles
  let m := { m with handles := m.handles + 1 }
  if d.info = false ∨ d.registered = false then m.destroy handle else m.handleRpc handle d

/-- `pulled` has the bytes that were transferred, if the transfer succeeded. -/
def bulkPullCb (m : MercuryServer) (pulled : Option Bytes) (throws accepted : Bool)
    (state : ServerRpcState) : MercuryServer :=
  match pulled with
  | some bytes =>
    let cleaned := (m.onBulkTransfer bytes.length).cleanupServerBulk { state with request := bytes }
    if cleaned.2.rpc.handler then cleaned.1.runServerHandler throws cleaned.2
    else cleaned.1.respondServer accepted cleaned.2
  | none =>
    let cleaned := m.onRpcError.onBulkError.cleanupServerBulk
      { state with request := [], response := [], output := { state.output with status := -1 } }
    cleaned.1.respondServer accepted cleaned.2

/-- The continuation of `run_server_handler`; `none` is a future that failed. -/
def handlerDone (m : MercuryServer) (result : Option Bytes) (accepted : Bool)
    (state : ServerRpcState) : MercuryServer :=
  let m := { m with answered := m.answered ++ [(state.handle, result)] }
  match result with
  | some response =>
    m.respondServer accepted
      { state with response := response, output := { state.output with status := 0 } }
  | none =>
    m.onRpcError.respondServer accepted
      { state with response := [], output := { state.output with status := -1 } }

def respondCb (m : MercuryServer) (state : ServerRpcState) : MercuryServer := m.destroy state.handle

/-! ### Events -/

inductive Event where
  | dispatch (d : IncomingRpc)
  | bulkPulled (handle : Nat) (pulled : Option Bytes) (throws accepted : Bool)
  | handlerDone (handle : Nat) (result : Option Bytes) (accepted : Bool)
  | responded (handle : Nat)
deriving DecidableEq

/-- The state with this handle, among these. -/
def withHandle (handle : Nat) (state : ServerRpcState) : Bool := state.handle = handle

/-- A transfer that succeeds fills the buffer. -/
def step (m : MercuryServer) : Event → Option MercuryServer
  | .dispatch d => some (m.dispatchCb d)
  | .bulkPulled handle pulled throws accepted =>
    match m.pulling.find? (withHandle handle) with
    | none => none
    | some state =>
      if pulled.all (fun bytes => bytes.length = state.request.length) then
        some (bulkPullCb { m with pulling := m.pulling.eraseP (withHandle handle) } pulled
          throws accepted state)
      else none
  | .handlerDone handle result accepted =>
    (m.running.find? (withHandle handle)).map
      (handlerDone { m with running := m.running.eraseP (withHandle handle) } result accepted)
  | .responded handle =>
    (m.responding.find? (withHandle handle)).map
      (respondCb { m with responding := m.responding.eraseP (withHandle handle) })

/-- What an event does to a shard. -/
inductive Steps (m : MercuryServer) : Event → MercuryServer → Prop where
  | dispatch (d : IncomingRpc) : Steps m (.dispatch d) (m.dispatchCb d)
  | bulkPulled {handle : Nat} {pulled : Option Bytes} {state : ServerRpcState}
      (throws accepted : Bool) (hfind : m.pulling.find? (withHandle handle) = some state)
      (hsize : ∀ bytes, pulled = some bytes → bytes.length = state.request.length) :
      Steps m (.bulkPulled handle pulled throws accepted)
        (bulkPullCb { m with pulling := m.pulling.eraseP (withHandle handle) } pulled throws
          accepted state)
  | handlerDone {handle : Nat} {state : ServerRpcState} (result : Option Bytes) (accepted : Bool)
      (hfind : m.running.find? (withHandle handle) = some state) :
      Steps m (.handlerDone handle result accepted)
        (MercuryServer.handlerDone { m with running := m.running.eraseP (withHandle handle) } result
          accepted state)
  | responded {handle : Nat} {state : ServerRpcState}
      (hfind : m.responding.find? (withHandle handle) = some state) :
      Steps m (.responded handle)
        (respondCb { m with responding := m.responding.eraseP (withHandle handle) } state)

theorem steps_of_step {m m' : MercuryServer} {e : Event} (h : m.step e = some m') :
    Steps m e m' := by
  cases e with
  | dispatch d =>
    obtain rfl := Option.some.inj h
    exact .dispatch d
  | bulkPulled handle pulled throws accepted =>
    cases hfind : m.pulling.find? (withHandle handle) with
    | none => simp [step, hfind] at h
    | some state =>
      simp only [step, hfind, Option.all_eq_true, decide_eq_true_eq] at h
      split at h
      · next hsize =>
          obtain rfl := Option.some.inj h
          exact .bulkPulled throws accepted hfind hsize
      · cases h
  | handlerDone handle result accepted =>
    obtain ⟨state, hfind, rfl⟩ := Option.map_eq_some_iff.mp h
    exact .handlerDone result accepted hfind
  | responded handle =>
    obtain ⟨state, hfind, rfl⟩ := Option.map_eq_some_iff.mp h
    exact .responded hfind

/-- A shard with the RPCs `rpcs`, after any events. -/
def Reached (rpcs : List (Nat × RpcEntry)) (m : MercuryServer) : Prop :=
  Transition.Reachable (· = { rpcsById := rpcs }) step (fun _ _ => True) m

end MercuryServer

end Mkmq

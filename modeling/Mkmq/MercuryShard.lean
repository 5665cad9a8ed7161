import Mathlib.Data.List.AList
import Mkmq.Transition

/-!
# Outgoing calls of a Mercury shard (`src/mercury_shard.cpp`)

A call to another broker is a `ClientRpcState` that passes through many hands: `forward`
starts it or leaves it with the waiters of an address lookup, `lookup_cb` starts the waiters,
Mercury has it until `forward_cb`, and a timer may answer it before.  It owns a promise and,
once it is started, a handle, which comes from the pool of its peer and goes back there, or
is destroyed.  A peer's record is made when it is first needed and erased when one of its
calls fails.

Mercury itself is outside: which of its functions fail is part of an event, and so is the
order of its callbacks.  It makes handles and addresses that are new, and calls each callback
that was registered at most once.  Payloads, bulk buffers, counters and the table of RPC
names play no part in who owns what.
-/

namespace Mkmq

def kHandlePoolLimitPerPeerRpc : Nat := 128

/-! ### State -/

/-- What the promise of a call can be failed with. -/
inductive RpcError where
  | timedOut
  | stopped
  | addrLookup
  | create
  | forward
  | getOutput
  | handler
deriving DecidableEq, Repr

inductive Completion where
  | value
  | error (error : RpcError)
deriving DecidableEq, Repr

structure ClientRpcState where
  id : Nat
  peer : String
  rpcId : Nat
  addr : Option Nat := none
  handle : Option Nat := none
  promiseDone : Bool := false
  recycleHandle : Bool := false
  dropPeerOnCleanup : Bool := false
deriving DecidableEq, Repr

structure LookupState where
  id : Nat
  peer : String
  waiters : List ClientRpcState
  cancelled : Bool := false
deriving DecidableEq, Repr

structure HandlePool where
  rpcId : Nat
  handles : List Nat
deriving DecidableEq, Repr

/-- `record` tells apart the records that come to stand under one name. -/
structure PeerState where
  record : Nat
  addr : Option Nat := none
  pools : List HandlePool := []
  pendingLookup : Option LookupState := none
deriving DecidableEq, Repr

/-- The shard, and what Mercury holds of it: the calls it has been given, and the lookups
    whose callback it will call, with the name it will look up. -/
structure MercuryShard where
  running : Bool := true
  peers : AList (fun _ : String => PeerState) := ∅
  orphanedLookups : List LookupState := []
  inFlight : List ClientRpcState := []
  lookups : List (Nat × String) := []
  -- how many of each kind there have been; the next one gets this number
  calls : Nat := 0
  lookupsMade : Nat := 0
  records : Nat := 0
  handles : Nat := 0
  addrs : Nat := 0
  -- what has been done, in order
  completed : List (Nat × Completion) := []
  destroyed : List Nat := []
  freed : List Nat := []

/-- What the three functions return when a call is started. -/
structure HgResults where
  reset : Bool := true
  create : Bool := true
  forward : Bool := true
deriving DecidableEq, Repr

/-! ### Pools -/

/-- The loop of `take_cached_handle`. -/
def takeCachedHandle (rpcId : Nat) : List HandlePool → Option Nat × List HandlePool
  | [] => (none, [])
  | pool :: rest =>
    if pool.rpcId = rpcId then
      match pool.handles.getLast? with
      | none => (none, pool :: rest)
      | some handle => (some handle, { pool with handles := pool.handles.dropLast } :: rest)
    else ((takeCachedHandle rpcId rest).1, pool :: (takeCachedHandle rpcId rest).2)

/-- The loop of `recycle_handle`; `none` is a full pool. -/
def poolHandle (rpcId handle : Nat) : List HandlePool → Option (List HandlePool)
  | [] => some [⟨rpcId, [handle]⟩]
  | pool :: rest =>
    if pool.rpcId = rpcId then
      if kHandlePoolLimitPerPeerRpc ≤ pool.handles.length then none
      else some ({ pool with handles := pool.handles ++ [handle] } :: rest)
    else (poolHandle rpcId handle rest).map (pool :: ·)

/-- All handles of a peer. -/
def PeerState.pooled (peer : PeerState) : List Nat := peer.pools.flatMap HandlePool.handles

namespace MercuryShard

/-! ### Peers -/

def setPeer (m : MercuryShard) (name : String) (peer : PeerState) : MercuryShard :=
  { m with peers := m.peers.insert name peer }

/-- The record of a peer, made if there is none. -/
def peerState (m : MercuryShard) (name : String) : PeerState × MercuryShard :=
  match m.peers.lookup name with
  | some peer => (peer, m)
  | none =>
    let peer : PeerState := { record := m.records }
    (peer, { m.setPeer name peer with records := m.records + 1 })

/-- `HG_Destroy`. -/
def destroy (m : MercuryShard) (handle : Nat) : MercuryShard :=
  { m with destroyed := m.destroyed ++ [handle] }

def recycleHandle (m : MercuryShard) (name : String) (rpcId handle : Nat) : MercuryShard :=
  match m.peers.lookup name with
  | none => m.destroy handle
  | some peer =>
    match poolHandle rpcId handle peer.pools with
    | none => m.destroy handle
    | some pools => m.setPeer name { peer with pools := pools }

def dropPeer (m : MercuryShard) (name : String) : MercuryShard :=
  match m.peers.lookup name with
  | none => m
  | some peer =>
    let m := { m with
      destroyed := m.destroyed ++ peer.pooled
      freed := m.freed ++ peer.addr.toList }
    match peer.pendingLookup with
    | some _ => m.setPeer name { peer with pools := [], addr := none }
    | none => { m with peers := m.peers.erase name }

def takePendingLookup (m : MercuryShard) (name : String) : Option LookupState × MercuryShard :=
  match m.peers.lookup name with
  | none => (none, m)
  | some peer =>
    match peer.pendingLookup with
    | none => (none, m)
    | some lookup =>
      if peer.addr = none ∧ peer.pools = [] then
        (some lookup, { m with peers := m.peers.erase name })
      else (some lookup, m.setPeer name { peer with pendingLookup := none })

def takeOrphanedLookup (m : MercuryShard) (id : Nat) : Option LookupState × MercuryShard :=
  (m.orphanedLookups.find? fun lookup => lookup.id = id,
    { m with orphanedLookups := m.orphanedLookups.eraseP fun lookup => lookup.id = id })

/-! ### The end of a call -/

/-- The promise is set, unless it has been. -/
def complete (m : MercuryShard) (state : ClientRpcState) (completion : Completion) :
    MercuryShard :=
  if state.promiseDone then m
  else { m with completed := m.completed ++ [(state.id, completion)] }

def cleanupClient (m : MercuryShard) (state : ClientRpcState) : MercuryShard :=
  let m := match state.handle with
    | none => m
    | some handle =>
      if state.recycleHandle then m.recycleHandle state.peer state.rpcId handle
      else m.destroy handle
  if state.dropPeerOnCleanup then m.dropPeer state.peer else m

def failClient (m : MercuryShard) (error : RpcError) (state : ClientRpcState) : MercuryShard :=
  (m.complete state (.error error)).cleanupClient state

/-! ### The start of a call -/

/-- A handle of the pool that could be reset, or a new one, or none. -/
def obtainHandle (m : MercuryShard) (hg : HgResults) (state : ClientRpcState) :
    Option Nat × MercuryShard :=
  let (peer, m) := m.peerState state.peer
  let (cached, pools) := takeCachedHandle state.rpcId peer.pools
  let m := m.setPeer state.peer { peer with pools := pools }
  match cached, hg.reset with
  | some handle, true => (some handle, m)
  | cached, _ =>
    let m := { m with destroyed := m.destroyed ++ cached.toList }
    if hg.create then (some m.handles, { m with handles := m.handles + 1 }) else (none, m)

def startClientForward (m : MercuryShard) (hg : HgResults) (state : ClientRpcState) :
    MercuryShard :=
  if state.promiseDone then m.cleanupClient state
  else
    match m.obtainHandle hg state with
    | (none, m) => m.failClient .create { state with dropPeerOnCleanup := true }
    | (some handle, m) =>
      let state := { state with handle := some handle }
      if hg.forward then { m with inFlight := m.inFlight ++ [state] }
      else m.failClient .forward { state with dropPeerOnCleanup := true }

/-! ### Events -/

/-- `MercuryShard::forward` to another address.  A shard that is stopped, or a buffer that
    cannot be registered, is an error without a call. -/
def forward (m : MercuryShard) (name : String) (rpcId : Nat) (bulkCreated lookupStarted : Bool)
    (hg : HgResults) : MercuryShard :=
  if m.running = false ∨ bulkCreated = false then m
  else
    let state : ClientRpcState := { id := m.calls, peer := name, rpcId := rpcId }
    let (peer, m) := peerState { m with calls := m.calls + 1 } name
    match peer.addr with
    | some addr => m.startClientForward hg { state with addr := some addr }
    | none =>
      match peer.pendingLookup with
      | some lookup =>
        m.setPeer name
          { peer with
            pendingLookup := some { lookup with waiters := lookup.waiters ++ [state] } }
      | none =>
        let lookup : LookupState := { id := m.lookupsMade, peer := name, waiters := [state] }
        let m := { m.setPeer name { peer with pendingLookup := some lookup } with
          lookupsMade := m.lookupsMade + 1 }
        if lookupStarted then { m with lookups := m.lookups ++ [(lookup.id, name)] }
        else
          match m.takePendingLookup name with
          | (none, m) => m
          | (some failed, m) => failed.waiters.foldl (fun m => m.failClient .addrLookup) m

/-- `peer.addr`, read through a reference to the record of that number.  When the record is
    gone the read has no defined result, and gives anything. -/
def readAddr (m : MercuryShard) (name : String) (record : Nat) (stray : Option Nat) :
    Option Nat :=
  match m.peers.lookup name with
  | none => stray
  | some peer => if peer.record = record then peer.addr else stray

/-- One waiter of the loop in `lookup_cb`. -/
def startWaiter (name : String) (record : Nat) (hg : Nat → HgResults) (stray : Nat → Option Nat)
    (m : MercuryShard) (waiter : ClientRpcState) : MercuryShard :=
  m.startClientForward (hg waiter.id)
    { waiter with addr := m.readAddr name record (stray waiter.id) }

/-- The address is cached, or freed if another one is. -/
def cacheAddr (m : MercuryShard) (name : String) (peer : PeerState) (addr : Nat) : MercuryShard :=
  match peer.addr with
  | none => m.setPeer name { peer with addr := some addr }
  | some old => if addr ≠ old then { m with freed := m.freed ++ [addr] } else m

/-- `lookup_cb` past the search for its lookup. -/
def finishLookup (m : MercuryShard) (lookup : LookupState) (resolved : Option Nat)
    (hg : Nat → HgResults) (stray : Nat → Option Nat) : MercuryShard :=
  if lookup.cancelled then m
  else
    match resolved with
    | none => lookup.waiters.foldl (fun m => m.failClient .addrLookup) m
    | some addr =>
      let (peer, m) := m.peerState lookup.peer
      lookup.waiters.foldl (startWaiter lookup.peer peer.record hg stray)
        (m.cacheAddr lookup.peer peer addr)

/-- `lookup_cb` for the lookup `raw`; a lookup that succeeds brings a new address. -/
def lookupCb (m : MercuryShard) (raw : Nat × String) (resolved : Bool) (hg : Nat → HgResults)
    (stray : Nat → Option Nat) : MercuryShard :=
  let addr := if resolved then some m.addrs else none
  let m := { m with addrs := m.addrs + addr.toList.length }
  match m.takePendingLookup raw.2 with
  | (some lookup, m) => m.finishLookup lookup addr hg stray
  | (none, m) =>
    match m.takeOrphanedLookup raw.1 with
    | (some lookup, m) => m.finishLookup lookup addr hg stray
    | (none, m) => m

/-- How a call comes back: Mercury could not deliver it, its output cannot be read, the
    handler on the other side failed, or it brings a reply. -/
inductive ForwardResult where
  | transport
  | noOutput
  | handlerFailed
  | reply
deriving DecidableEq, Repr

/-- `forward_cb` for a call that Mercury has given back. -/
def forwardCb (m : MercuryShard) (state : ClientRpcState) : ForwardResult → MercuryShard
  | .transport =>
    (m.complete state (.error .forward)).cleanupClient { state with dropPeerOnCleanup := true }
  | .noOutput =>
    (m.complete state (.error .getOutput)).cleanupClient { state with recycleHandle := true }
  | .handlerFailed =>
    (m.complete state (.error .handler)).cleanupClient { state with recycleHandle := true }
  | .reply => (m.complete state .value).cleanupClient { state with recycleHandle := true }

/-- The timer of a call that Mercury has. -/
def timeout (m : MercuryShard) (state : ClientRpcState) : MercuryShard :=
  let m := m.complete state (.error .timedOut)
  { m with inFlight := m.inFlight ++ [{ state with promiseDone := true }] }

/-- One peer of the loop of `clear_all_peers`. -/
def clearPeer (m : MercuryShard) (peer : PeerState) : MercuryShard :=
  let m := match peer.pendingLookup with
    | none => m
    | some lookup =>
      let m := lookup.waiters.foldl
        (fun m waiter => (complete m waiter (.error .stopped)).cleanupClient waiter) m
      { m with
        orphanedLookups := m.orphanedLookups ++ [{ lookup with waiters := [], cancelled := true }] }
  { m with
    destroyed := m.destroyed ++ peer.pooled
    freed := m.freed ++ peer.addr.toList }

def clearAllPeers (m : MercuryShard) : MercuryShard :=
  { (m.peers.entries.map Sigma.snd).foldl clearPeer m with peers := ∅ }

def stop (m : MercuryShard) : MercuryShard :=
  if m.running = false then m else { m with running := false }.clearAllPeers

inductive Event where
  | forward (name : String) (rpcId : Nat) (bulkCreated lookupStarted : Bool) (hg : HgResults)
  | lookupCb (id : Nat) (resolved : Bool) (hg : Nat → HgResults) (stray : Nat → Option Nat)
  | forwardCb (id : Nat) (result : ForwardResult)
  | timeout (id : Nat)
  | stop

/-- A callback is called for what is registered, which it no longer is afterwards. -/
def step (m : MercuryShard) : Event → Option MercuryShard
  | .forward name rpcId bulkCreated lookupStarted hg =>
    some (m.forward name rpcId bulkCreated lookupStarted hg)
  | .lookupCb id resolved hg stray =>
    (m.lookups.find? fun raw => raw.1 = id).map fun raw =>
      lookupCb { m with lookups := m.lookups.eraseP fun raw => raw.1 = id } raw resolved hg stray
  | .forwardCb id result =>
    (m.inFlight.find? fun state => state.id = id).map fun state =>
      forwardCb { m with inFlight := m.inFlight.eraseP fun state => state.id = id } state result
  | .timeout id =>
    (m.inFlight.find? fun state => state.id = id).map fun state =>
      timeout { m with inFlight := m.inFlight.eraseP fun state => state.id = id } state
  | .stop => some m.stop

/-- A shard after its start, with any events since. -/
def Reached (m : MercuryShard) : Prop :=
  Transition.Reachable (· = {}) step (fun _ _ => True) m

end MercuryShard

end Mkmq

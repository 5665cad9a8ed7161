import Mkmq.RpcOwnership
import Mkmq.ServerOwnership

/-!
# A call from one shard to another

The two sides put together: a shard that calls (`MercuryShard`), a shard that is called
(`MercuryServer`), and Mercury between them.  A request that Mercury has taken is delivered at
some time, or never, or is delivered after its caller has been told that it failed or timed
out; a pull reads what is registered under the descriptor of the request, as long as the
caller has the call; a reply comes back to the call its request came from, or is lost.  Other
shards call the same server, with any bytes.

What is assumed of Mercury: its `hg_proc` functions read back what they have written
(`HgProc.RoundTrips`); it delivers a request at most once and brings a reply to the call it
belongs to (`step`); and it hands out a descriptor only once, and a pull succeeds only while
the buffer of the call is registered, and brings what is in it (`Allowed`).  Sizes fit
`hg_size_t`.
-/

namespace Mkmq

open ByteCodec Accounts ReadProgram ReadProgram.Program WriteProgram

/-! ### What a function leaves in the records of the server -/

namespace MercuryServer

variable {m : MercuryServer}

/-- Handlers are called and pulls are started; nothing else is recorded. -/
structure Adds (m m' : MercuryServer) (calls : List HandlerCall) (pulls : List ServerRpcState) :
    Prop where
  rpcsById : m'.rpcsById = m.rpcsById
  handles : m'.handles = m.handles
  pulling : m'.pulling = m.pulling ++ pulls
  handled : m'.handled = m.handled ++ calls
  answered : m'.answered = m.answered

theorem adds_nothing {m' : MercuryServer} (hrpcs : m'.rpcsById = m.rpcsById)
    (hhandles : m'.handles = m.handles) (hpulling : m'.pulling = m.pulling)
    (hhandled : m'.handled = m.handled) (hanswered : m'.answered = m.answered) : Adds m m' [] [] :=
  ⟨hrpcs, hhandles, hpulling.trans (List.append_nil _).symm,
    hhandled.trans (List.append_nil _).symm, hanswered⟩

theorem respondServer_adds (m : MercuryServer) (accepted : Bool) (state : ServerRpcState) :
    Adds m (m.respondServer accepted state) [] [] := by
  cases accepted <;> exact adds_nothing rfl rfl rfl rfl rfl

theorem runServerHandler_adds (m : MercuryServer) (throws : Bool) (state : ServerRpcState) :
    Adds m (m.runServerHandler throws state) [⟨state.handle, state.rpc, state.request⟩] [] := by
  cases throws <;> exact ⟨rfl, rfl, (List.append_nil _).symm, rfl, rfl⟩

theorem refuseBulk_adds (m : MercuryServer) (accepted : Bool) (state : ServerRpcState) :
    Adds m (m.refuseBulk accepted state) [] [] :=
  { respondServer_adds (m.onRpcError.onBulkError.cleanupServerBulk state).1 accepted _ with }

/-- A handler is called with the payload inside the request. -/
structure Read (m : MercuryServer) (d : IncomingRpc) (call : HandlerCall) : Prop where
  handle : call.handle = m.handles
  rpc : m.findRpcById d.rpcId = some call.rpc
  input : ∃ input, d.input = .ok input ∧ input.mode ≠ HgTransferMode.bulk.code ∧
    call.request = input.eager.toVector

/-- A pull is started for a request without payload. -/
structure Staged (m : MercuryServer) (d : IncomingRpc) (state : ServerRpcState) : Prop where
  handle : state.handle = m.handles
  rpc : m.findRpcById d.rpcId = some state.rpc
  input : d.input = .ok state.input
  mode : state.input.mode = HgTransferMode.bulk.code

theorem pullBulk_adds (m : MercuryServer) (d : IncomingRpc) (state : ServerRpcState) :
    ∃ pulls, Adds m (m.pullBulk d state) [] pulls ∧ ∀ state' ∈ pulls,
      state'.handle = state.handle ∧ state'.rpc = state.rpc ∧ state'.input = state.input := by
  have hnone : ∀ state' ∈ ([] : List ServerRpcState), state'.handle = state.handle ∧
      state'.rpc = state.rpc ∧ state'.input = state.input := nofun
  unfold MercuryServer.pullBulk
  split
  · exact ⟨[], refuseBulk_adds m d.respond state, hnone⟩
  · split
    · exact ⟨[], adds_nothing rfl rfl rfl rfl rfl, hnone⟩
    · simp only
      split
      · exact ⟨[], refuseBulk_adds m d.respond _, hnone⟩
      · split
        · exact ⟨[], { refuseBulk_adds { m with bulks := m.bulks + 1 } d.respond _ with }, hnone⟩
        · refine ⟨[_], ⟨rfl, rfl, rfl, (List.append_nil _).symm, rfl⟩, ?_⟩
          exact List.forall_mem_singleton.mpr ⟨rfl, rfl, rfl⟩

/-- What becomes of a call that comes in. -/
theorem dispatchCb_adds (m : MercuryServer) (d : IncomingRpc) :
    ∃ calls pulls, Adds { m with handles := m.handles + 1 } (m.dispatchCb d) calls pulls ∧
      (∀ call ∈ calls, Read m d call) ∧ ∀ state ∈ pulls, Staged m d state := by
  have hdropped : ∀ m', Adds { m with handles := m.handles + 1 } m' [] [] → ∃ calls pulls,
      Adds { m with handles := m.handles + 1 } m' calls pulls ∧
        (∀ call ∈ calls, Read m d call) ∧ ∀ state ∈ pulls, Staged m d state :=
    fun m' hm' => ⟨[], [], hm', fun _ hmem => (nomatch hmem), fun _ hmem => nomatch hmem⟩
  unfold MercuryServer.dispatchCb
  simp only
  split
  · exact hdropped _ (adds_nothing rfl rfl rfl rfl rfl)
  · unfold MercuryServer.handleRpc
    simp only
    split
    · exact hdropped _ (adds_nothing rfl rfl rfl rfl rfl)
    · split
      · exact hdropped _ (adds_nothing rfl rfl rfl rfl rfl)
      · next rpc hrpc =>
          split
          · exact hdropped _ (adds_nothing rfl rfl rfl rfl rfl)
          · unfold MercuryServer.acceptRpc
            split
            · exact hdropped _ (adds_nothing rfl rfl rfl rfl rfl)
            · next input hinput =>
                simp only
                split
                · next hmode =>
                    refine ⟨[_], [], { runServerHandler_adds _ d.throws _ with }, ?_,
                      fun _ hmem => nomatch hmem⟩
                    exact List.forall_mem_singleton.mpr ⟨rfl, hrpc, input, hinput, hmode, rfl⟩
                · next hmode =>
                    obtain ⟨pulls, hadds, hpulls⟩ := pullBulk_adds
                      { m with
                        handles := m.handles + 1
                        rpcReceives := m.rpcReceives + 1
                        inputsLoaded := m.inputsLoaded ++ [m.handles] } d
                      { handle := m.handles, rpc, input, inputLoaded := true }
                    refine ⟨[], pulls, { hadds with }, fun _ hmem => (nomatch hmem), ?_⟩
                    intro state hstate
                    obtain ⟨hhandle, hrpc', hinput'⟩ := hpulls state hstate
                    exact ⟨hhandle, hrpc' ▸ hrpc, hinput' ▸ hinput, hinput' ▸ not_not.mp hmode⟩

theorem bulkPullCb_adds (m : MercuryServer) (pulled : Option Bytes) (throws accepted : Bool)
    (state : ServerRpcState) :
    ∃ calls, Adds m (m.bulkPullCb pulled throws accepted state) calls [] ∧
      ∀ call ∈ calls, call.handle = state.handle ∧ call.rpc = state.rpc ∧
        pulled = some call.request := by
  cases pulled with
  | some bytes =>
    unfold MercuryServer.bulkPullCb
    simp only
    split
    · refine ⟨[_], { runServerHandler_adds _ throws _ with }, ?_⟩
      exact List.forall_mem_singleton.mpr ⟨rfl, rfl, rfl⟩
    · exact ⟨[], { respondServer_adds _ accepted _ with }, fun _ hmem => nomatch hmem⟩
  | none => exact ⟨[], { respondServer_adds _ accepted _ with }, fun _ hmem => nomatch hmem⟩

theorem handlerDone_adds (m : MercuryServer) (result : Option Bytes) (accepted : Bool)
    (state : ServerRpcState) : Adds { m with answered := m.answered ++ [(state.handle, result)] }
      (m.handlerDone result accepted state) [] [] := by
  cases result with
  | some response => exact { respondServer_adds _ accepted _ with }
  | none => exact { respondServer_adds _ accepted _ with }

/-- Handlers are called for handles that have come in. -/
theorem Accounted.handled_lt (h : Accounted m false []) {call : HandlerCall}
    (hcall : call ∈ m.handled) : call.handle < m.handles := by
  have hpos : 0 < (m.handled.map HandlerCall.handle).count call.handle :=
    List.count_pos_iff.mpr (List.mem_map_of_mem hcall)
  refine h.called.lt_of_pos ?_
  omega

theorem Accounted.pulling_lt (h : Accounted m false []) {state : ServerRpcState}
    (hstate : state ∈ m.pulling) : state.handle < m.handles := by
  have hpos : 0 < (handlesOf m.pulling).count state.handle :=
    List.count_pos_iff.mpr (List.mem_map_of_mem hstate)
  refine h.called.lt_of_pos ?_
  omega

end MercuryServer

/-! ### The two shards and Mercury between them -/

/-- What `forward` is called with, and the descriptor it gets when it registers the payload. -/
structure ClientCall where
  peer : String
  rpcId : Nat
  payload : Bytes
  originBulk : UInt64
deriving DecidableEq

/-- The request on the wire. -/
def ClientCall.wire (proc : HgProc) (call : ClientCall) : Except HgReturn Bytes :=
  procBytes (encodeHgRequest proc (.ofPayload call.payload call.originBulk))

/-- What the server reads is what the client has written. -/
theorem ClientCall.wire_read {proc : HgProc} (hproc : proc.RoundTrips) (call : ClientCall)
    (hpayload : call.payload.length < 2 ^ 64) :
    ∃ wire, call.wire proc = .ok wire ∧
      procValue (decodeHgRequest proc) wire = .ok (.ofPayload call.payload call.originBulk) :=
  procBytes_of_carries (carries_hgRequest hproc hpayload call.originBulk)

theorem HgRequest.toVector_ofPayload {payload : Bytes} {originBulk : UInt64}
    (h : (HgRequest.ofPayload payload originBulk).mode ≠ HgTransferMode.bulk.code) :
    (HgRequest.ofPayload payload originBulk).eager.toVector = payload := by
  unfold HgRequest.ofPayload at h ⊢
  split at h
  · exact absurd rfl h
  · next hsmall =>
      rw [if_neg hsmall]
      refine toVector_ofVector ?_
      unfold kBulkTransferThreshold at hsmall
      omega

structure RemoteCalls where
  client : MercuryShard := {}
  server : MercuryServer := {}
  -- the calls of the client, by their numbers
  calls : List ClientCall := []
  -- the calls whose request Mercury has taken
  sent : List Nat := []
  -- for each handle of the server the call it came from; others have none
  origins : List (Option Nat) := []
  -- the values that promises were completed with
  values : List (Nat × Bytes) := []

namespace RemoteCalls

/-- The client goes on; Mercury takes the requests of the calls it is given. -/
def withClient (s : RemoteCalls) (client : MercuryShard) : RemoteCalls :=
  { s with
    client := client
    sent := s.sent ++ (client.inFlight.map ClientRpcState.id).filter fun id => id ∉ s.sent }

/-- What is registered under a descriptor. -/
def memory (s : RemoteCalls) (descriptor : UInt64) : Option Bytes :=
  (s.calls.find? fun call => call.originBulk = descriptor).map ClientCall.payload

/-- The bytes a pull brings from this client, if it succeeds.  The buffer is registered until
    Mercury is through with the call. -/
def pulls (s : RemoteCalls) (id : Nat) (state : ServerRpcState) : Option Bytes :=
  if s.client.inFlight.any fun call => call.id = id then
    (state.input.bulkHandle.bind s.memory).map fun registered =>
      registered.take state.input.bulkSize.toNat
  else none

/-- A pull from this client brings what is registered there; one from another brings anything. -/
def pullAllowed (s : RemoteCalls) (handle : Nat) (bytes : Bytes) : Bool :=
  match s.origins[handle]? with
  | some (some id) =>
    match s.server.pulling.find? (MercuryServer.withHandle handle) with
    | none => false
    | some state => s.pulls id state = some bytes
  | _ => true

/-- How `forward_cb` reads a reply: what it completes the promise with, and the value. -/
def forwardResult (proc : HgProc) (getOutput : Bool) (reply : HgReply) :
    MercuryShard.ForwardResult × Option Bytes :=
  if getOutput = false then (.noOutput, none)
  else
    match procBytes (encodeHgReply proc reply) with
    | .error _ => (.noOutput, none)
    | .ok wire =>
      match procValue (decodeHgReply proc) wire with
      | .error _ => (.noOutput, none)
      | .ok output =>
        if output.status ≠ 0 then (.handlerFailed, none)
        else (.reply, some output.payload.toVector)

def replyOf (s : RemoteCalls) (handle : Nat) : Option HgReply :=
  (s.server.replies.find? fun entry => entry.1 = handle).map Prod.snd

inductive Event where
  /-- The client calls `forward`. -/
  | forward (call : ClientCall) (bulkCreated lookupStarted : Bool) (hg : HgResults)
  /-- An address is looked up, a timer expires, or the client stops. -/
  | client (e : MercuryShard.Event)
  /-- The request of a call reaches the server; `getInput` is whether `HG_Get_input` has memory
      for it. -/
  | deliver (id : Nat) (d : IncomingRpc) (getInput : Bool)
  /-- A request of another shard reaches the server. -/
  | foreign (d : IncomingRpc)
  /-- The server goes on with what has reached it. -/
  | server (e : MercuryServer.Event)
  /-- Mercury gives up a call. -/
  | transportFailed (id : Nat)
  /-- A reply reaches the client. -/
  | replied (id handle : Nat) (getOutput : Bool)

def step (proc : HgProc) (address : String) (s : RemoteCalls) : Event → Option RemoteCalls
  | .forward call bulkCreated lookupStarted hg =>
    -- a small payload needs no buffer
    let created := bulkCreated || decide (call.payload.length < kBulkTransferThreshold)
    let client := s.client.forward call.peer call.rpcId created lookupStarted hg
    some { s.withClient client with
      calls := if s.client.running && created then s.calls ++ [call] else s.calls }
  | .client (.forward ..) | .client (.forwardCb ..) => none
  | .client e => (s.client.step e).map s.withClient
  | .deliver id d getInput =>
    match s.calls[id]? with
    | none => none
    | some call =>
      if id ∈ s.sent ∧ call.peer = address ∧ some id ∉ s.origins then
        match call.wire proc with
        | .error _ => none
        | .ok wire =>
          let input := if getInput then procValue (decodeHgRequest proc) wire else .error .noMem
          some { s with
            server := s.server.dispatchCb { d with rpcId := call.rpcId, input := input }
            origins := s.origins ++ [some id] }
      else none
  | .foreign d =>
    some { s with server := s.server.dispatchCb d, origins := s.origins ++ [none] }
  | .server (.dispatch _) => none
  | .server e => (s.server.step e).map fun server => { s with server := server }
  | .transportFailed id => (s.client.step (.forwardCb id .transport)).map s.withClient
  | .replied id handle getOutput =>
    match s.client.inFlight.find? (fun state => state.id = id), s.replyOf handle with
    | some state, some reply =>
      if s.origins[handle]? = some (some id) then
        (s.client.step (.forwardCb id (forwardResult proc getOutput reply).1)).map fun client =>
          { s.withClient client with
            values := s.values ++ if state.promiseDone then []
              else ((forwardResult proc getOutput reply).2.map fun value => (id, value)).toList }
      else none
    | _, _ => none

/-- What Mercury and the machine promise: a descriptor is handed out only once, a pull from the
    client brings what is registered, and sizes fit. -/
def Allowed (s : RemoteCalls) : Event → Prop
  | .forward call .. =>
    call.payload.length < 2 ^ 64 ∧ ∀ other ∈ s.calls, other.originBulk ≠ call.originBulk
  | .server (.bulkPulled handle (some bytes) ..) => s.pullAllowed handle bytes
  | .server (.handlerDone _ (some response) _) => response.length < 2 ^ 64
  | _ => True

/-- A client and a server at `address` with the RPCs `rpcs`, after any events. -/
def Reached (proc : HgProc) (address : String) (rpcs : List (Nat × RpcEntry)) (s : RemoteCalls) :
    Prop :=
  Transition.Reachable (· = { server := { rpcsById := rpcs } }) (step proc address) Allowed s

/-! ### What holds of every call -/

/-- The call a handle of the server came from. -/
def CameFrom (s : RemoteCalls) (handle id : Nat) (call : ClientCall) : Prop :=
  s.origins[handle]? = some (some id) ∧ s.calls[id]? = some call

structure Faithful (rpcs : List (Nat × RpcEntry)) (s : RemoteCalls) : Prop where
  server : MercuryServer.Reached rpcs s.server
  handles : s.origins.length = s.server.handles
  once : ∀ id, s.origins.count (some id) ≤ 1
  made : ∀ handle id : Nat, s.origins[handle]? = some (some id) → id < s.calls.length
  sizes : ∀ call ∈ s.calls, call.payload.length < 2 ^ 64
  descriptors : (s.calls.map ClientCall.originBulk).Nodup
  pulling : ∀ state ∈ s.server.pulling, ∀ id call, s.CameFrom state.handle id call →
    state.input = .ofPayload call.payload call.originBulk ∧
      state.input.mode = HgTransferMode.bulk.code ∧
      s.server.findRpcById call.rpcId = some state.rpc
  handled : ∀ handled ∈ s.server.handled, ∀ id call, s.CameFrom handled.handle id call →
    handled.request = call.payload ∧ s.server.findRpcById call.rpcId = some handled.rpc
  answered : ∀ handle response, (handle, some response) ∈ s.server.answered →
    response.length < 2 ^ 64
  values : ∀ id value, (id, value) ∈ s.values →
    ∃ handle, s.origins[handle]? = some (some id) ∧ (handle, some value) ∈ s.server.answered

section Steps

variable {proc : HgProc} {rpcs : List (Nat × RpcEntry)} {s : RemoteCalls} {call : ClientCall}
  {handle : Nat} {server : MercuryServer}

theorem Faithful.start : Faithful rpcs { server := { rpcsById := rpcs } } where
  server := .start rfl
  handles := rfl
  once := fun _ => Nat.zero_le _
  made := fun _ _ h => nomatch h
  sizes := fun _ h => nomatch h
  descriptors := List.nodup_nil
  pulling := fun _ h => nomatch h
  handled := fun _ h => nomatch h
  answered := fun _ _ h => nomatch h
  values := fun _ _ h => nomatch h

section

variable {origin : Option Nat} {id : Nat}

/-- An old handle has the origin it had. -/
theorem CameFrom.old (hlt : handle < s.origins.length)
    (h : CameFrom { s with server, origins := s.origins ++ [origin] } handle id call) :
    s.CameFrom handle id call := by
  obtain ⟨horigin, hcall⟩ := h
  rw [List.getElem?_append_left hlt] at horigin
  exact ⟨horigin, hcall⟩

/-- The new one has the origin that was given. -/
theorem CameFrom.last
    (h : CameFrom { s with server, origins := s.origins ++ [origin] } s.origins.length id call) :
    origin = some id ∧ s.calls[id]? = some call := by
  obtain ⟨horigin, hcall⟩ := h
  rw [List.getElem?_concat_length] at horigin
  exact ⟨Option.some.inj horigin, hcall⟩

end

section

variable (h : Faithful rpcs s)

include h

/-- The client makes a call. -/
theorem Faithful.forward {client : MercuryShard} (hsizes : call.payload.length < 2 ^ 64)
    (hfresh : ∀ other ∈ s.calls, other.originBulk ≠ call.originBulk) :
    Faithful rpcs { s.withClient client with calls := s.calls ++ [call] } := by
  -- a handle comes from a call that was made before
  have hold : ∀ (handle id : Nat) found, s.origins[handle]? = some (some id) →
      (s.calls ++ [call])[id]? = some found → s.CameFrom handle id found := by
    intro handle id found horigin hfound
    rw [List.getElem?_append_left (h.made handle id horigin)] at hfound
    exact ⟨horigin, hfound⟩
  exact
    { h with
      made := fun handle id horigin => by
        have hid := h.made handle id horigin
        rw [List.length_append]
        omega
      sizes := ListRules.forall_mem_concat.mpr ⟨h.sizes, hsizes⟩
      descriptors := by
        rw [List.map_append, List.map_singleton, List.nodup_append]
        refine ⟨h.descriptors, List.nodup_singleton _, ?_⟩
        intro a ha b hb hab
        obtain ⟨other, hother, rfl⟩ := List.mem_map.mp ha
        rw [List.mem_singleton] at hb
        exact hfresh other hother (hab.trans hb)
      pulling := fun state hstate id found hfound =>
        h.pulling state hstate id found (hold _ id found hfound.1 hfound.2)
      handled := fun handled hhandled id found hfound =>
        h.handled handled hhandled id found (hold _ id found hfound.1 hfound.2) }

/-- A request reaches the server: what comes of it is what the client has asked for. -/
theorem Faithful.dispatch (d : IncomingRpc) (origin : Option Nat)
    (honce : ∀ id, origin = some id → some id ∉ s.origins ∧ ∃ call, s.calls[id]? = some call ∧
      d.rpcId = call.rpcId ∧ ∀ input, d.input = .ok input →
        input = .ofPayload call.payload call.originBulk) :
    Faithful rpcs { s with
      server := s.server.dispatchCb d, origins := s.origins ++ [origin] } := by
  obtain ⟨calls, pulls, hadds, hcalls, hpulls⟩ := MercuryServer.dispatchCb_adds s.server d
  have hserver := h.server.accounted
  have hfind : ∀ id, (s.server.dispatchCb d).findRpcById id = s.server.findRpcById id :=
    fun id => by
      unfold MercuryServer.findRpcById
      rw [hadds.rpcsById]
  have hnew : ∀ (id : Nat) call,
      CameFrom { s with server := s.server.dispatchCb d, origins := s.origins ++ [origin] }
        s.server.handles id call → d.rpcId = call.rpcId ∧ ∀ input, d.input = .ok input →
          input = .ofPayload call.payload call.originBulk := by
    intro id call hfrom
    rw [← h.handles] at hfrom
    obtain ⟨-, call', hcall', hasked⟩ := honce id hfrom.last.1
    have hsame : call' = call := Option.some.inj (hcall'.symm.trans hfrom.last.2)
    exact hsame ▸ hasked
  exact
    { h with
      server := .next (.dispatch d) h.server trivial rfl
      handles := by
        rw [List.length_append, h.handles]
        exact hadds.handles.symm
      once := fun id => by
        rw [List.count_append, List.count_singleton]
        have hid := h.once id
        by_cases horigin : origin = some id
        · have hnone := List.count_eq_zero.mpr (honce id horigin).1
          simp only [horigin, beq_self_eq_true, if_true]
          omega
        · simp only [beq_iff_eq, horigin, if_false]
          omega
      made := fun handle id horigin => by
        rcases lt_or_ge handle s.origins.length with hlt | hge
        · rw [List.getElem?_append_left hlt] at horigin
          exact h.made handle id horigin
        · rw [List.getElem?_append_right hge] at horigin
          have hmem : some id ∈ [origin] := List.mem_of_getElem? horigin
          obtain ⟨-, call, hcall, -⟩ := honce id (List.mem_singleton.mp hmem).symm
          exact (List.getElem?_eq_some_iff.mp hcall).1
      pulling := by
        intro state hstate id call hfrom
        have hmem : state ∈ s.server.pulling ++ pulls := by
          rw [← hadds.pulling]
          exact hstate
        rw [hfind]
        rcases List.mem_append.mp hmem with hpulling | hpulled
        · exact h.pulling state hpulling id call
            (hfrom.old (h.handles ▸ hserver.pulling_lt hpulling))
        · have hstaged := hpulls state hpulled
          rw [hstaged.handle] at hfrom
          obtain ⟨hrpc, hinput⟩ := hnew id call hfrom
          exact ⟨hinput _ hstaged.input, hstaged.mode, hrpc ▸ hstaged.rpc⟩
      handled := by
        intro handled hhandled id call hfrom
        have hmem : handled ∈ s.server.handled ++ calls := by
          rw [← hadds.handled]
          exact hhandled
        rw [hfind]
        rcases List.mem_append.mp hmem with hbefore | hcalled
        · exact h.handled handled hbefore id call
            (hfrom.old (h.handles ▸ hserver.handled_lt hbefore))
        · have hread := hcalls handled hcalled
          obtain ⟨input, hinput, hmode, hrequest⟩ := hread.input
          rw [hread.handle] at hfrom
          obtain ⟨hrpc, hsame⟩ := hnew id call hfrom
          obtain rfl := hsame input hinput
          exact ⟨hrequest.trans (HgRequest.toVector_ofPayload hmode), hrpc ▸ hread.rpc⟩
      answered := fun handle response hmem => h.answered handle response (by
        rw [← hadds.answered]
        exact hmem)
      values := fun id value hvalue => by
        obtain ⟨handle, horigin, hanswered⟩ := h.values id value hvalue
        refine ⟨handle, ?_, ?_⟩
        · rw [List.getElem?_append_left (List.getElem?_eq_some_iff.mp horigin).1]
          exact horigin
        · rw [hadds.answered]
          exact hanswered }

/-- The descriptor of a call leads to its payload. -/
theorem Faithful.memory (hcall : call ∈ s.calls) :
    s.memory call.originBulk = some call.payload := by
  unfold RemoteCalls.memory
  cases hfind : s.calls.find? (fun other => other.originBulk = call.originBulk) with
  | none =>
    have hnot := List.find?_eq_none.mp hfind call hcall
    simp at hnot
  | some found =>
    have heq : found.originBulk = call.originBulk := by
      simpa using List.find?_some hfind
    have hfound := List.mem_of_find?_eq_some hfind
    rw [List.inj_on_of_nodup_map h.descriptors hfound hcall heq]
    rfl

/-- What a pull from the client brings is the whole payload. -/
theorem Faithful.pulled {id : Nat} {state : ServerRpcState} {bytes : Bytes}
    (hfind : s.server.pulling.find? (MercuryServer.withHandle handle) = some state)
    (hfrom : s.CameFrom handle id call) (hallowed : s.pullAllowed handle bytes = true) :
    bytes = call.payload := by
  have hhandle : state.handle = handle := by
    simpa [MercuryServer.withHandle] using List.find?_some hfind
  have hcall := List.mem_of_getElem? hfrom.2
  obtain ⟨hinput, hmode, -⟩ := h.pulling state (List.mem_of_find?_eq_some hfind) id call
    (hhandle ▸ hfrom)
  have hpulls : s.pulls id state = some bytes := by
    simpa [pullAllowed, hfrom.1, hfind] using hallowed
  have hlarge : kBulkTransferThreshold ≤ call.payload.length := by
    by_contra hsmall
    rw [hinput, HgRequest.ofPayload, if_neg hsmall] at hmode
    have hmodes : HgTransferMode.eager.code ≠ HgTransferMode.bulk.code := by decide
    exact hmodes hmode
  unfold RemoteCalls.pulls at hpulls
  split at hpulls
  · rw [hinput, HgRequest.ofPayload, if_pos hlarge] at hpulls
    simp only [Option.bind_some, h.memory hcall, Option.map_some, Option.some.injEq] at hpulls
    rw [(size_vector (h.sizes call hcall)).1, List.take_length] at hpulls
    exact hpulls.symm
  · cases hpulls

/-- The server goes on with a call it has: what it records besides answers is `calls`. -/
theorem Faithful.goesOn {e : MercuryServer.Event} (hstep : s.server.step e = some server)
    (calls : List HandlerCall) (hrpcs : server.rpcsById = s.server.rpcsById)
    (hhandles : server.handles = s.server.handles)
    (hpulling : ∀ state ∈ server.pulling, state ∈ s.server.pulling)
    (hhandled : server.handled = s.server.handled ++ calls)
    (hcalls : ∀ handled ∈ calls, ∀ id call, s.CameFrom handled.handle id call →
      handled.request = call.payload ∧ s.server.findRpcById call.rpcId = some handled.rpc)
    (hanswered : ∀ entry ∈ s.server.answered, entry ∈ server.answered)
    (hsizes : ∀ handle response, (handle, some response) ∈ server.answered →
      response.length < 2 ^ 64) : Faithful rpcs { s with server := server } := by
  have hfind : ∀ id, server.findRpcById id = s.server.findRpcById id := fun id => by
    unfold MercuryServer.findRpcById
    rw [hrpcs]
  exact
    { h with
      server := .next e h.server trivial hstep
      handles := h.handles.trans hhandles.symm
      pulling := fun state hstate id call hfrom => by
        rw [hfind]
        exact h.pulling state (hpulling state hstate) id call hfrom
      handled := fun handled hmem id call hfrom => by
        have hmem' : handled ∈ s.server.handled ++ calls := by
          rw [← hhandled]
          exact hmem
        rw [hfind]
        rcases List.mem_append.mp hmem' with hbefore | hcalled
        · exact h.handled handled hbefore id call hfrom
        · exact hcalls handled hcalled id call hfrom
      answered := hsizes
      values := fun id value hvalue => by
        obtain ⟨handle, horigin, hmem⟩ := h.values id value hvalue
        exact ⟨handle, horigin, hanswered _ hmem⟩ }

theorem Faithful.bulkPulled {pulled : Option Bytes} {throws accepted : Bool}
    (hallowed : ∀ bytes, pulled = some bytes → s.pullAllowed handle bytes = true)
    (hstep : s.server.step (.bulkPulled handle pulled throws accepted) = some server) :
    Faithful rpcs { s with server := server } := by
  cases MercuryServer.steps_of_step hstep with
  | @bulkPulled _ _ state _ _ hfind hsize =>
    obtain ⟨calls, hadds, hcalls⟩ := MercuryServer.bulkPullCb_adds
      { s.server with pulling := s.server.pulling.eraseP (MercuryServer.withHandle handle) } pulled
      throws accepted state
    have hhandle : state.handle = handle := by
      simpa [MercuryServer.withHandle] using List.find?_some hfind
    refine h.goesOn hstep calls hadds.rpcsById hadds.handles ?_ hadds.handled ?_ ?_ ?_
    · intro other hother
      rw [hadds.pulling, List.append_nil] at hother
      exact List.mem_of_mem_eraseP hother
    · intro handled hmem id call hfrom
      obtain ⟨hsame, hrpc, rfl⟩ := hcalls handled hmem
      rw [hsame] at hfrom
      have hstate := h.pulling state (List.mem_of_find?_eq_some hfind) id call hfrom
      exact ⟨h.pulled hfind (hhandle ▸ hfrom) (hallowed _ rfl), hrpc ▸ hstate.2.2⟩
    · intro entry hentry
      rw [hadds.answered]
      exact hentry
    · intro handle response hmem
      rw [hadds.answered] at hmem
      exact h.answered handle response hmem

theorem Faithful.handlerDone {result : Option Bytes} {accepted : Bool}
    (hsize : ∀ response, result = some response → response.length < 2 ^ 64)
    (hstep : s.server.step (.handlerDone handle result accepted) = some server) :
    Faithful rpcs { s with server := server } := by
  cases MercuryServer.steps_of_step hstep with
  | @handlerDone _ state _ _ hfind =>
    have hadds := MercuryServer.handlerDone_adds
      { s.server with running := s.server.running.eraseP (MercuryServer.withHandle handle) } result
      accepted state
    refine h.goesOn hstep [] hadds.rpcsById hadds.handles ?_ hadds.handled nofun ?_ ?_
    · intro other hother
      rw [hadds.pulling, List.append_nil] at hother
      exact hother
    · intro entry hentry
      rw [hadds.answered]
      exact List.mem_append_left _ hentry
    · intro other response hmem
      rw [hadds.answered] at hmem
      rcases List.mem_append.mp hmem with hbefore | hnow
      · exact h.answered other response hbefore
      · exact hsize response (Prod.mk.inj (List.mem_singleton.mp hnow)).2.symm

/-- The value of a reply is what the handler has answered. -/
theorem Faithful.replied (hproc : proc.RoundTrips) {reply : HgReply} {value : Bytes}
    {getOutput : Bool} (hreply : s.replyOf handle = some reply)
    (hvalue : (forwardResult proc getOutput reply).2 = some value) :
    (handle, some value) ∈ s.server.answered := by
  obtain ⟨entry, hfind, rfl⟩ := Option.map_eq_some_iff.mp hreply
  have hhandle : entry.1 = handle := by simpa using List.find?_some hfind
  have hgenuine := h.server.accounted.genuine entry (List.mem_of_find?_eq_some hfind)
  unfold forwardResult at hvalue
  split at hvalue
  · cases hvalue
  · rcases hgenuine with ⟨response, hanswered, hok⟩ | hfailed
    · have hsize := h.answered entry.1 response hanswered
      obtain ⟨wire, hbytes, hread⟩ := procBytes_of_carries (carries_hgReply hproc 0 hsize)
      rw [hok, hbytes] at hvalue
      simp only [hread, ne_eq, not_true_eq_false, if_false, Option.some.injEq] at hvalue
      rw [toVector_ofVector hsize] at hvalue
      rw [← hvalue, ← hhandle]
      exact hanswered
    · obtain ⟨wire, hbytes, hread⟩ :=
        procBytes_of_carries
          (carries_hgReply hproc (-1) (show ([] : Bytes).length < 2 ^ 64 by decide))
      rw [hfailed, hbytes] at hvalue
      simp only [hread] at hvalue
      split at hvalue
      · cases hvalue
      · next hstatus => exact absurd (by decide) hstatus

theorem Faithful.step {address : String} {s' : RemoteCalls} {e : Event} (hproc : proc.RoundTrips)
    (hallowed : s.Allowed e) (hstep : step proc address s e = some s') : Faithful rpcs s' := by
  cases e with
  | forward call bulkCreated lookupStarted hg =>
    obtain ⟨hpayload, hfresh⟩ := hallowed
    obtain rfl := Option.some.inj hstep
    simp only
    split
    · exact h.forward hpayload hfresh
    · exact { h with }
  | client e =>
    cases e with
    | forward => cases hstep
    | forwardCb => cases hstep
    | lookupCb id resolved hg stray =>
      obtain ⟨client, -, rfl⟩ := Option.map_eq_some_iff.mp hstep
      exact { h with }
    | timeout id =>
      obtain ⟨client, -, rfl⟩ := Option.map_eq_some_iff.mp hstep
      exact { h with }
    | stop =>
      obtain rfl := Option.some.inj hstep
      exact { h with }
  | deliver id d getInput =>
    cases hcall : s.calls[id]? with
    | none => simp [RemoteCalls.step, hcall] at hstep
    | some call =>
      simp only [RemoteCalls.step, hcall] at hstep
      split at hstep
      · next hsent =>
          obtain ⟨wire, hwire, hread⟩ := ClientCall.wire_read hproc call
            (h.sizes call (List.mem_of_getElem? hcall))
          simp only [hwire, hread] at hstep
          obtain rfl := Option.some.inj hstep
          refine h.dispatch _ (some id) ?_
          rintro id' hid
          cases hid
          refine ⟨hsent.2.2, call, hcall, rfl, fun input hinput => ?_⟩
          cases getInput with
          | true => exact (Except.ok.inj hinput).symm
          | false => cases hinput
      · cases hstep
  | foreign d =>
    obtain rfl := Option.some.inj hstep
    exact h.dispatch d none (fun _ hid => nomatch hid)
  | server e =>
    cases e with
    | dispatch d => cases hstep
    | bulkPulled handle pulled throws accepted =>
      obtain ⟨server, hserver, rfl⟩ := Option.map_eq_some_iff.mp hstep
      refine h.bulkPulled ?_ hserver
      rintro bytes rfl
      exact hallowed
    | handlerDone handle result accepted =>
      obtain ⟨server, hserver, rfl⟩ := Option.map_eq_some_iff.mp hstep
      refine h.handlerDone ?_ hserver
      rintro response rfl
      exact hallowed
    | responded handle =>
      obtain ⟨server, hserver, rfl⟩ := Option.map_eq_some_iff.mp hstep
      cases MercuryServer.steps_of_step hserver with
      | responded hfind =>
        exact h.goesOn hserver [] rfl rfl (fun _ hmem => hmem) (List.append_nil _).symm nofun
          (fun _ hmem => hmem) h.answered
  | transportFailed id =>
    obtain ⟨client, -, rfl⟩ := Option.map_eq_some_iff.mp hstep
    exact { h with }
  | replied id handle getOutput =>
    simp only [RemoteCalls.step] at hstep
    split at hstep
    · next state reply hstate hreply =>
        split at hstep
        · next horigin =>
            obtain ⟨client, -, rfl⟩ := Option.map_eq_some_iff.mp hstep
            refine { h with values := ?_ }
            intro id' value hmem
            rcases List.mem_append.mp hmem with hbefore | hnow
            · exact h.values id' value hbefore
            · split at hnow
              · cases hnow
              · obtain ⟨found, hvalue, hpair⟩ :=
                  Option.map_eq_some_iff.mp (Option.mem_toList.mp hnow)
                cases hpair
                exact ⟨handle, horigin, h.replied hproc hreply hvalue⟩
        · cases hstep
    · cases hstep

end

theorem Reached.faithful {address : String} (hproc : proc.RoundTrips)
    (h : Reached proc address rpcs s) : Faithful rpcs s := by
  unfold Reached at h
  induction h with
  | start h0 => exact h0 ▸ Faithful.start
  | next e _ hallowed hstep ih => exact ih.step hproc hallowed hstep

end Steps

/-- The handlers that were called for a call of the client. -/
def handledFor (s : RemoteCalls) (id : Nat) : List HandlerCall :=
  s.server.handled.filter fun handled => s.origins[handled.handle]? = some (some id)

/-- Integers least significant byte first, and a mark before a descriptor. -/
def plainProc : HgProc where
  writeInt32 value := append (leBytes 4 value.toBitVec.toNat)
  readInt32 := do return .ofBitVec (.ofNat 32 (leNat (← .take 4 .overflow .done)))
  writeSize size := append (leBytes 8 size.toNat)
  readSize := do return .ofBitVec (.ofNat 64 (leNat (← .take 8 .overflow .done)))
  writeRaw bytes := append bytes
  readRaw n := .take n .overflow .done
  writeBulk
    | none => append [0]
    | some descriptor => do
        append [1]
        append (leBytes 8 descriptor.toNat)
  readBulk := do
    if (← .take 1 .overflow .done) = [0] then return none
    else return some (.ofBitVec (.ofNat 64 (leNat (← .take 8 .overflow .done))))

/-- A number of `n` bytes, read as the bit pattern it was written as. -/
theorem carries_bits {α : Type} {n w : Nat} (v : BitVec w) (hw : 2 ^ w = 256 ^ n)
    {f : BitVec w → α} {value : α} (hvalue : f v = value) :
    Carries (append (leBytes n v.toNat))
      (.take n HgReturn.overflow .done >>= fun bytes => pure (f (.ofNat w (leNat bytes))))
      value := by
  refine Carries.ends ⟨_, writes_append _, reads_take (length_leBytes n v.toNat) _⟩ ?_
  rw [leNat_leBytes, ← hw, Nat.mod_eq_of_lt v.isLt, BitVec.ofNat_toNat, BitVec.setWidth_eq, hvalue]

theorem roundTrips_plainProc : plainProc.RoundTrips where
  int32 := fun value => carries_bits value.toBitVec rfl (Int32.ofBitVec_toBitVec value)
  size := fun size => carries_bits size.toBitVec rfl (UInt64.ofBitVec_toBitVec size)
  raw := fun bytes => ⟨bytes, writes_append bytes, reads_take rfl _⟩
  bulk := by
    intro descriptor
    have hmark : Carries (append [1]) (.take 1 HgReturn.overflow .done) [1] :=
      ⟨_, writes_append [1], reads_take rfl _⟩
    refine hmark.seq ?_
    exact carries_bits (f := fun v => some (UInt64.ofBitVec v)) descriptor.toBitVec rfl
      (congrArg some (UInt64.ofBitVec_toBitVec descriptor))

def bulkCall (payload : Bytes) : ClientCall := ⟨"b", 7, payload, 9⟩

/-- The client goes through the call as it would with any payload. -/
theorem client_bulkCall :
    ∃ looked state done,
      (({} : MercuryShard).forward "b" 7 true true {}).inFlight = [] ∧
      (({} : MercuryShard).forward "b" 7 true true {}).step
        (.lookupCb 0 true (fun _ => {}) fun _ => none) = some looked ∧
      looked.inFlight = [state] ∧ state.id = 0 ∧ state.promiseDone = false ∧
      looked.step (.forwardCb 0 .reply) = some done := by
  have hruns : ((({} : MercuryShard).forward "b" 7 true true {}).step
      (.lookupCb 0 true (fun _ => {}) fun _ => none)).map (fun looked =>
        (looked.inFlight.map fun state => (state.id, state.promiseDone),
          (looked.step (.forwardCb 0 .reply)).isSome)) = some ([(0, false)], true) := by
    decide +kernel
  obtain ⟨looked, hlooked, hfacts⟩ := Option.map_eq_some_iff.mp hruns
  obtain ⟨hinFlight, hdone⟩ := Prod.mk.inj hfacts
  obtain ⟨state, hstates, hstate⟩ := List.map_eq_singleton_iff.mp hinFlight
  obtain ⟨hid, hpromise⟩ := Prod.mk.inj hstate
  obtain ⟨done, hforward⟩ := Option.isSome_iff_exists.mp hdone
  exact ⟨looked, state, done, by decide +kernel, hlooked, hstates, hid, hpromise, hforward⟩

/-- The state of the call while its payload is pulled. -/
def bulkState (payload : Bytes) : ServerRpcState :=
  { handle := 0
    rpc := { name := "replica_append", id := 7, handler := true }
    input := .ofPayload payload 9
    inputLoaded := true
    localBulk := some 0
    request := List.replicate payload.length 0 }

def bulkPulling (payload : Bytes) : MercuryServer :=
  { rpcsById := MercuryServer.sampleRpcs
    pulling := [bulkState payload]
    handles := 1
    bulks := 1
    inputsLoaded := [0]
    rpcReceives := 1 }

/-- The server pulls the payload, calls the handler with it and answers. -/
theorem server_bulkCall {payload : Bytes} (hlarge : kBulkTransferThreshold ≤ payload.length)
    (hfits : payload.length < 2 ^ 64) :
    MercuryServer.dispatchCb { rpcsById := MercuryServer.sampleRpcs }
        { rpcId := (bulkCall payload).rpcId
          input := .ok (.ofPayload (bulkCall payload).payload (bulkCall payload).originBulk) } =
      bulkPulling payload ∧
      ∃ pulled answered,
        (bulkPulling payload).step (.bulkPulled 0 (some payload) false true) = some pulled ∧
        pulled.step (.handlerDone 0 (some [42]) true) = some answered ∧
        answered.handled.map HandlerCall.request = [payload] ∧
        answered.replies = [(0, { status := 0, payload := .ofVector [42] })] := by
  obtain ⟨hsize, hzero⟩ := size_vector hfits
  have hne : payload ≠ [] := by
    rintro rfl
    exact absurd hlarge (by decide)
  have hbulk : HgRequest.ofPayload payload 9 =
      { mode := 1, bulkSize := .ofNat payload.length, bulkHandle := some 9 } := if_pos hlarge
  constructor
  · rw [bulkPulling, bulkState, bulkCall, hbulk]
    simp [MercuryServer.dispatchCb, MercuryServer.handleRpc, MercuryServer.findRpcById,
      MercuryServer.sampleRpcs, MercuryServer.acceptRpc, MercuryServer.pullBulk,
      HgTransferMode.code, hzero hne, hsize]
  · have hpulled : (bulkPulling payload).step (.bulkPulled 0 (some payload) false true) =
        some (MercuryServer.bulkPullCb { bulkPulling payload with pulling := [] } (some payload)
          false true (bulkState payload)) := by
      simp [MercuryServer.step, bulkPulling, bulkState, MercuryServer.withHandle]
    exact ⟨_, _, hpulled, rfl, rfl, rfl⟩

/-- The two sides with the call, the requests that were sent and those that have arrived. -/
def bulkStage (payload : Bytes) (client : MercuryShard) (server : MercuryServer) (sent : List Nat)
    (origins : List (Option Nat)) : RemoteCalls :=
  { client, server, calls := [bulkCall payload], sent, origins }

theorem reached_bulkCall {proc : HgProc} (hproc : proc.RoundTrips) (payload : Bytes)
    (hlarge : kBulkTransferThreshold ≤ payload.length) (hfits : payload.length < 2 ^ 64) :
    ∃ s, Reached proc "b" MercuryServer.sampleRpcs s ∧ s.values = [(0, [42])] ∧
      s.server.handled.map HandlerCall.request = [payload] := by
  obtain ⟨looked, state, done, hnone, hlooked, hinFlight, hid, hpromise, hdone⟩ := client_bulkCall
  obtain ⟨hdispatch, pulled, answered, hpulled, hanswered, hhandled, hreplies⟩ :=
    server_bulkCall hlarge hfits
  obtain ⟨wire, hwire, hread⟩ := ClientCall.wire_read hproc (bulkCall payload) hfits
  obtain ⟨reply, hreply, hvalue⟩ := procBytes_of_carries
    (carries_hgReply hproc 0 (show ([42] : Bytes).length < 2 ^ 64 by decide))
  have hcalled : Reached proc "b" MercuryServer.sampleRpcs
      (bulkStage payload (({} : MercuryShard).forward "b" 7 true true {})
        { rpcsById := MercuryServer.sampleRpcs } [] []) := by
    refine .next (.forward (bulkCall payload) true true {}) (.start rfl) ⟨hfits, by simp⟩ ?_
    simp [step, withClient, bulkStage, bulkCall, hnone]
  have hsent : Reached proc "b" MercuryServer.sampleRpcs
      (bulkStage payload looked { rpcsById := MercuryServer.sampleRpcs } [0] []) := by
    refine .next (.client (.lookupCb 0 true (fun _ => {}) fun _ => none)) hcalled trivial ?_
    simp [step, withClient, bulkStage, hlooked, hinFlight, hid]
  have hdelivered : Reached proc "b" MercuryServer.sampleRpcs
      (bulkStage payload looked (bulkPulling payload) [0] [some 0]) := by
    refine .next (.deliver 0 { rpcId := 7 } true) hsent trivial ?_
    simp [step, bulkStage, hwire, hread, ← hdispatch, show (bulkCall payload).peer = "b" from rfl]
  have htransferred : Reached proc "b" MercuryServer.sampleRpcs
      (bulkStage payload looked pulled [0] [some 0]) := by
    refine .next (.server (.bulkPulled 0 (some payload) false true)) hdelivered ?_ ?_
    · simp [Allowed, pullAllowed, pulls, memory, bulkStage, bulkPulling, bulkState, bulkCall,
        MercuryServer.withHandle, HgRequest.ofPayload, hinFlight, hid, hlarge,
        (size_vector hfits).1]
    · simp [step, bulkStage, hpulled]
  have hreturned : Reached proc "b" MercuryServer.sampleRpcs
      (bulkStage payload looked answered [0] [some 0]) := by
    refine .next (.server (.handlerDone 0 (some [42]) true)) htransferred (by simp [Allowed]) ?_
    simp [step, bulkStage, hanswered]
  have hresult : forwardResult proc true { status := 0, payload := .ofVector [42] } =
      (.reply, some [42]) := by
    simp only [forwardResult, hreply, hvalue]
    rfl
  refine ⟨{ (bulkStage payload looked answered [0] [some 0]).withClient done with
    values := [(0, [42])] }, .next (.replied 0 0 true) hreturned trivial ?_, rfl, hhandled⟩
  simp [step, bulkStage, replyOf, hinFlight, hid, hpromise, hreplies, hresult, hdone]

end RemoteCalls

end Mkmq

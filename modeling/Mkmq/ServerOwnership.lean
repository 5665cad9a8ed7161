import Mkmq.Accounts
import Mkmq.ListRules
import Mkmq.MercuryServer

/-!
# Who owns an incoming call

As on the side of outgoing calls, a function has the state of a call in hand before it leaves
it somewhere.  `Owned` counts what is in hand along with the places: the handle, the input and
the buffer of a state go where the state goes.  `Accounted` adds the history of a call: how
often its handler was called and gave an answer, and how often a reply was handed to Mercury.
A state in hand is `asked` when its handler has answered, or is not going to be called.
-/

namespace Mkmq

open Accounts ByteCodec

/-! ### What states own -/

def handlesOf (states : List ServerRpcState) : List Nat := states.map ServerRpcState.handle

/-- The handles whose input is loaded. -/
def loadedOf (states : List ServerRpcState) : List Nat :=
  (states.filter ServerRpcState.inputLoaded).map ServerRpcState.handle

def bulksOf (states : List ServerRpcState) : List Nat := states.filterMap ServerRpcState.localBulk

@[simp] theorem handlesOf_nil : handlesOf [] = [] := rfl

@[simp] theorem handlesOf_singleton (state : ServerRpcState) :
    handlesOf [state] = [state.handle] := rfl

@[simp] theorem handlesOf_append (front back : List ServerRpcState) :
    handlesOf (front ++ back) = handlesOf front ++ handlesOf back := List.map_append

@[simp] theorem loadedOf_append (front back : List ServerRpcState) :
    loadedOf (front ++ back) = loadedOf front ++ loadedOf back := by
  unfold loadedOf
  rw [List.filter_append, List.map_append]

@[simp] theorem bulksOf_append (front back : List ServerRpcState) :
    bulksOf (front ++ back) = bulksOf front ++ bulksOf back := List.filterMap_append

theorem loadedOf_singleton (state : ServerRpcState) :
    loadedOf [state] = if state.inputLoaded then [state.handle] else [] := by
  cases h : state.inputLoaded <;> simp [loadedOf, h]

theorem bulksOf_singleton (state : ServerRpcState) : bulksOf [state] = state.localBulk.toList := by
  cases h : state.localBulk <;> simp [bulksOf, h]

theorem loadedOf_eq_nil {states : List ServerRpcState}
    (h : ∀ state ∈ states, state.inputLoaded = false) : loadedOf states = [] := by
  unfold loadedOf
  rw [List.filter_eq_nil_iff.mpr (by simpa using h), List.map_nil]

theorem bulksOf_eq_nil {states : List ServerRpcState}
    (h : ∀ state ∈ states, state.localBulk = none) : bulksOf states = [] :=
  List.filterMap_eq_nil_iff.mpr h

/-- Neither an input nor a buffer is held. -/
structure ServerRpcState.Clean (state : ServerRpcState) : Prop where
  input : state.inputLoaded = false
  bulk : state.localBulk = none

namespace MercuryServer

variable {m : MercuryServer}

/-- Every state of a call that is not in hand. -/
def states (m : MercuryServer) : List ServerRpcState :=
  m.pulling ++ m.running ++ m.responding ++ m.lost

structure Owned (m : MercuryServer) (hand : List ServerRpcState) : Prop where
  handles : Conserved (fun x => (handlesOf (m.states ++ hand)).count x + m.destroyed.count x)
    m.handles
  inputs : ∀ x, m.inputsLoaded.count x =
    m.inputsFreed.count x + (loadedOf (m.states ++ hand)).count x
  bulks : Conserved (fun x => (bulksOf (m.states ++ hand)).count x + m.bulksFreed.count x) m.bulks

/-- The reply is what the handler has answered, or a failure without payload. -/
def Genuine (answered : List (Nat × Option Bytes)) (handle : Nat) (reply : HgReply) : Prop :=
  (∃ response, (handle, some response) ∈ answered ∧
      reply = { status := 0, payload := .ofVector response }) ∨
    reply = { status := -1, payload := .ofVector [] }

theorem Genuine.mono {answered more : List (Nat × Option Bytes)} {handle : Nat} {reply : HgReply}
    (h : Genuine answered handle reply) : Genuine (answered ++ more) handle reply := by
  rcases h with ⟨response, hmem, hreply⟩ | hreply
  · exact Or.inl ⟨response, List.mem_append_left more hmem, hreply⟩
  · exact Or.inr hreply

/-- The calls whose handler threw; the others that are lost still have their input. -/
def thrown (m : MercuryServer) : List Nat :=
  handlesOf (m.lost.filter fun state => !state.inputLoaded)

/-- The calls in hand whose handler may still be called. -/
def unasked : Bool → List ServerRpcState → List Nat
  | false, hand => handlesOf hand
  | true, _ => []

structure Accounted (m : MercuryServer) (asked : Bool) (hand : List ServerRpcState) : Prop
    extends Owned m hand where
  pulling : ∀ state ∈ m.pulling, state.rpc.handler = true
  running : ∀ state ∈ m.running, state.Clean
  responding : ∀ state ∈ m.responding, state.Clean
  lost : ∀ state ∈ m.lost, state.localBulk = none
  called : AtMostOnce (fun x => (m.handled.map HandlerCall.handle).count x +
    (handlesOf m.pulling).count x + (unasked asked hand).count x) m.handles
  returned : ∀ x, (m.handled.map HandlerCall.handle).count x =
    (handlesOf m.running).count x + (m.answered.map Prod.fst).count x + m.thrown.count x
  replied : AtMostOnce (fun x => (m.replies.map Prod.fst).count x + (handlesOf m.pulling).count x +
    (handlesOf m.running).count x + (handlesOf hand).count x) m.handles
  genuine : ∀ entry ∈ m.replies, Genuine m.answered entry.1 entry.2

section Functions

variable {m : MercuryServer} {state : ServerRpcState} {hand : List ServerRpcState} {asked : Bool}
  {call : HandlerCall} {p : ServerRpcState → Bool}

/-! ### States that move -/

/-- Nothing is freed and nothing is new: what was in one place is in another. -/
theorem Owned.move (h : Owned m hand) {pulling running responding lost hand' : List ServerRpcState}
    (hcount : ∀ state, (pulling ++ running ++ responding ++ lost ++ hand').count state =
      (m.states ++ hand).count state) :
    Owned { m with pulling, running, responding, lost } hand' := by
  have hperm := List.perm_iff_count.mpr hcount
  exact
    { handles := h.handles.congr fun x =>
        congrArg (· + _) ((hperm.map ServerRpcState.handle).count_eq x)
      inputs := fun x => by
        rw [h.inputs x]
        exact congrArg (_ + ·)
          (((hperm.filter ServerRpcState.inputLoaded).map ServerRpcState.handle).count_eq x).symm
      bulks := h.bulks.congr fun x =>
        congrArg (· + _) ((hperm.filterMap ServerRpcState.localBulk).count_eq x) }

/-- The fields of a state that the accounts do not see. -/
theorem Accounted.same {state' : ServerRpcState} (h : Accounted m asked [state])
    (hhandle : state'.handle = state.handle) (hinput : state'.inputLoaded = state.inputLoaded)
    (hbulk : state'.localBulk = state.localBulk) : Accounted m asked [state'] := by
  have hhandles : handlesOf [state'] = handlesOf [state] := congrArg (fun x => [x]) hhandle
  have hloaded : loadedOf [state'] = loadedOf [state] := by
    rw [loadedOf_singleton, loadedOf_singleton, hinput, hhandle]
  have hbulks : bulksOf [state'] = bulksOf [state] := by
    rw [bulksOf_singleton, bulksOf_singleton, hbulk]
  have hunasked : unasked asked [state'] = unasked asked [state] := by
    cases asked
    · exact hhandles
    · rfl
  exact
    { h with
      handles := by rw [handlesOf_append, hhandles, ← handlesOf_append]; exact h.handles
      inputs := by rw [loadedOf_append, hloaded, ← loadedOf_append]; exact h.inputs
      bulks := by rw [bulksOf_append, hbulks, ← bulksOf_append]; exact h.bulks
      called := by rw [hunasked]; exact h.called
      replied := by rw [hhandles]; exact h.replied }

/-- The handler is not going to be called. -/
theorem Accounted.skipHandler (h : Accounted m false hand) : Accounted m true hand :=
  { h with called := h.called.mono fun _ => Nat.le_add_right _ _ }

/-- The reply is handed to Mercury, and the state with it. -/
theorem Accounted.reply (h : Accounted m true [state]) (hclean : state.Clean)
    (hgenuine : Genuine m.answered state.handle state.output) :
    Accounted { m with
      replies := m.replies ++ [(state.handle, state.output)]
      responding := m.responding ++ [state] } false [] :=
  { h.toOwned.move (fun s => by
      simp only [states, List.count_append, List.count_nil]
      omega), h with
    responding := ListRules.forall_mem_concat.mpr ⟨h.responding, hclean⟩
    replied := h.replied.mono fun x => by
      simp only [List.map_append, List.map_cons, List.map_nil, handlesOf_nil, handlesOf_singleton,
        List.count_append, List.count_nil]
      omega
    genuine := ListRules.forall_mem_concat.mpr ⟨h.genuine, hgenuine⟩ }

/-- The handler is called, and its continuation has the state. -/
theorem Accounted.run (h : Accounted m false [state]) (hclean : state.Clean)
    (hcall : call.handle = state.handle) :
    Accounted { m with handled := m.handled ++ [call], running := m.running ++ [state] } false [] :=
  { h.toOwned.move (fun s => by
      simp only [states, List.count_append, List.count_nil]
      omega), h with
    running := ListRules.forall_mem_concat.mpr ⟨h.running, hclean⟩
    called := h.called.mono fun x => by
      simp only [unasked, List.map_append, List.map_cons, List.map_nil, handlesOf_nil,
        handlesOf_singleton, hcall, List.count_append, List.count_nil]
      omega
    returned := fun x => by
      have hx := h.returned x
      simp only [thrown, List.map_append, List.map_cons, List.map_nil, handlesOf_append,
        handlesOf_singleton, hcall, List.count_append] at hx ⊢
      omega
    replied := h.replied.mono fun x => by
      simp only [handlesOf_append, handlesOf_nil, List.count_append, List.count_nil]
      omega }

/-- The handler is called and throws. -/
theorem Accounted.throw (h : Accounted m false [state]) (hclean : state.Clean)
    (hcall : call.handle = state.handle) :
    Accounted { m with handled := m.handled ++ [call], lost := m.lost ++ [state] } false [] :=
  { h.toOwned.move (fun s => by
      simp only [states, List.count_append, List.count_nil]
      omega), h with
    lost := ListRules.forall_mem_concat.mpr ⟨h.lost, hclean.bulk⟩
    called := h.called.mono fun x => by
      simp only [unasked, List.map_append, List.map_cons, List.map_nil, handlesOf_nil,
        handlesOf_singleton, hcall, List.count_append, List.count_nil]
      omega
    returned := fun x => by
      have hx := h.returned x
      have hthrown : [state].filter (fun state => !state.inputLoaded) = [state] := by
        simp [hclean.input]
      simp only [thrown, List.filter_append, hthrown, List.map_append, List.map_cons, List.map_nil,
        handlesOf_append, handlesOf_singleton, hcall, List.count_append] at hx ⊢
      omega
    replied := h.replied.mono fun x => Nat.le_add_right _ _ }

/-- A state is lost with its input, before its handler is called. -/
theorem Accounted.lose (h : Accounted m false [state]) (hinput : state.inputLoaded = true)
    (hbulk : state.localBulk = none) : Accounted { m with lost := m.lost ++ [state] } false [] :=
  { h.toOwned.move (fun s => by
      simp only [states, List.count_append, List.count_nil]
      omega), h with
    lost := ListRules.forall_mem_concat.mpr ⟨h.lost, hbulk⟩
    called := h.called.mono fun x => Nat.le_add_right _ _
    returned := fun x => by
      have hthrown : [state].filter (fun state => !state.inputLoaded) = [] := by simp [hinput]
      rw [h.returned x, thrown, thrown, List.filter_append, hthrown, List.append_nil]
    replied := h.replied.mono fun x => Nat.le_add_right _ _ }

/-- Mercury has the state until the pull is over. -/
theorem Accounted.pull (h : Accounted m false [state]) (hhandler : state.rpc.handler = true) :
    Accounted { m with pulling := m.pulling ++ [state] } false [] :=
  { h.toOwned.move (fun s => by
      simp only [states, List.count_append, List.count_nil]
      omega), h with
    pulling := ListRules.forall_mem_concat.mpr ⟨h.pulling, hhandler⟩
    called := h.called.mono fun x => by
      simp only [unasked, handlesOf_append, handlesOf_nil, List.count_append, List.count_nil]
      omega
    replied := h.replied.mono fun x => by
      simp only [handlesOf_append, handlesOf_nil, List.count_append, List.count_nil]
      omega }

theorem Accounted.takePulling (h : Accounted m false []) (hfind : m.pulling.find? p = some state) :
    Accounted { m with pulling := m.pulling.eraseP p } false [state] := by
  obtain ⟨front, back, hsplit, herase⟩ := eraseP_of_find? hfind
  have hwhole : m.pulling = front ++ ([state] ++ back) := hsplit
  have hpulling := h.pulling
  rw [herase]
  exact
    { h.toOwned.move (fun s => by
        simp only [states, hwhole, List.count_append, List.count_nil]
        omega), h with
      pulling := fun s hs => hpulling s (by
        rw [hwhole]
        simp only [List.mem_append] at hs ⊢
        tauto)
      called := h.called.mono fun x => by
        simp only [unasked, hwhole, handlesOf_append, handlesOf_nil, List.count_append,
          List.count_nil]
        omega
      replied := h.replied.mono fun x => by
        simp only [hwhole, handlesOf_append, handlesOf_nil, List.count_append, List.count_nil]
        omega }

/-- The handler of a running call has answered. -/
theorem Accounted.takeRunning (h : Accounted m false []) (hfind : m.running.find? p = some state)
    (result : Option Bytes) :
    Accounted { m with
      running := m.running.eraseP p
      answered := m.answered ++ [(state.handle, result)] } true [state] := by
  obtain ⟨front, back, hsplit, herase⟩ := eraseP_of_find? hfind
  have hwhole : m.running = front ++ ([state] ++ back) := hsplit
  have hrunning := h.running
  rw [herase]
  exact
    { h.toOwned.move (fun s => by
        simp only [states, hwhole, List.count_append, List.count_nil]
        omega), h with
      running := fun s hs => hrunning s (by
        rw [hwhole]
        simp only [List.mem_append] at hs ⊢
        tauto)
      returned := fun x => by
        have hx := h.returned x
        simp only [thrown, hwhole, handlesOf_append, handlesOf_singleton, List.map_append,
          List.map_cons, List.map_nil, List.count_append] at hx ⊢
        omega
      replied := h.replied.mono fun x => by
        simp only [hwhole, handlesOf_append, handlesOf_nil, List.count_append, List.count_nil]
        omega
      genuine := fun entry hentry => (h.genuine entry hentry).mono }

/-! ### States that end -/

theorem Owned.destroy (h : Owned m [state]) (hclean : state.Clean) :
    Owned (m.destroy state.handle) [] where
  handles := h.handles.congr fun x => by
    simp only [MercuryServer.destroy, states, handlesOf_append, handlesOf_nil, handlesOf_singleton,
      List.count_append, List.count_nil]
    omega
  inputs := fun x => by
    have hx := h.inputs x
    rw [loadedOf_append, loadedOf_singleton, hclean.input] at hx
    rw [loadedOf_append]
    exact hx
  bulks := h.bulks.congr fun x => by
    rw [bulksOf_append, bulksOf_append, bulksOf_singleton, hclean.bulk]
    rfl

theorem Accounted.destroy (h : Accounted m asked [state]) (hclean : state.Clean) :
    Accounted (m.destroy state.handle) false [] :=
  { h.toOwned.destroy hclean, h with
    called := h.called.mono fun _ => Nat.le_add_right _ _
    replied := h.replied.mono fun _ => Nat.le_add_right _ _ }

/-- Mercury has sent the reply. -/
theorem Accounted.respondCb (h : Accounted m false []) (hfind : m.responding.find? p = some state) :
    Accounted (respondCb { m with responding := m.responding.eraseP p } state) false [] := by
  obtain ⟨front, back, hsplit, herase⟩ := eraseP_of_find? hfind
  have hwhole : m.responding = front ++ ([state] ++ back) := hsplit
  have hresponding := h.responding
  have hclean : state.Clean := hresponding state (List.mem_of_find?_eq_some hfind)
  rw [herase]
  have howned : Owned { m with responding := front ++ back } [state] :=
    h.toOwned.move (fun s => by
      simp only [states, hwhole, List.count_append, List.count_nil]
      omega)
  exact
    { howned.destroy hclean, h with
      responding := fun s hs => hresponding s (by
        have hmem : s ∈ front ++ back := hs
        rw [hwhole]
        simp only [List.mem_append] at hmem ⊢
        tauto) }

/-! ### States that begin -/

/-- Mercury hands over a new handle. -/
theorem Accounted.receive (h : Accounted m false []) (rpc : RpcEntry) (input : HgRequest) :
    Accounted { m with handles := m.handles + 1 } false [{ handle := m.handles, rpc, input }] where
  handles := h.handles.make fun x => by
    simp only [states, handlesOf_append, handlesOf_nil, handlesOf_singleton, List.count_append,
      List.count_nil]
    omega
  inputs := fun x => by
    have hx := h.inputs x
    simp only [states, loadedOf_append, loadedOf_singleton] at hx ⊢
    exact hx
  bulks := h.bulks.congr fun x => by
    simp only [states, bulksOf_append, bulksOf_singleton]
    rfl
  pulling := h.pulling
  running := h.running
  responding := h.responding
  lost := h.lost
  called := h.called.make fun x => by
    simp only [unasked, handlesOf_nil, handlesOf_singleton, List.count_nil]
    omega
  returned := h.returned
  replied := h.replied.make fun x => by
    simp only [handlesOf_nil, handlesOf_singleton, List.count_nil]
    omega
  genuine := h.genuine

theorem Accounted.load (h : Accounted m false [state]) (hinput : state.inputLoaded = false) :
    Accounted { m with inputsLoaded := m.inputsLoaded ++ [state.handle] } false
      [{ state with inputLoaded := true }] :=
  { h with
    handles := h.handles.congr fun x => by
      simp only [states, handlesOf_append, handlesOf_singleton]
    inputs := fun x => by
      have hx := h.inputs x
      simp only [loadedOf_append, loadedOf_singleton, hinput, states, List.count_append,
        List.count_nil, if_true, Bool.false_eq_true, if_false] at hx ⊢
      omega
    bulks := h.bulks.congr fun x => by
      simp only [states, bulksOf_append, bulksOf_singleton] }

theorem Accounted.newBulk (h : Accounted m false [state]) (hbulk : state.localBulk = none) :
    Accounted { m with bulks := m.bulks + 1 } false
      [{ state with localBulk := some m.bulks }] :=
  { h with
    handles := h.handles.congr fun x => by
      simp only [states, handlesOf_append, handlesOf_singleton]
    inputs := fun x => by
      have hx := h.inputs x
      simp only [states, loadedOf_append, loadedOf_singleton] at hx ⊢
      exact hx
    bulks := h.bulks.make fun x => by
      simp only [states, bulksOf_append, bulksOf_singleton, hbulk, Option.toList_some,
        Option.toList_none, List.count_append, List.count_nil]
      omega }

/-! ### Functions -/

theorem Accounted.onRpcError (h : Accounted m asked hand) : Accounted m.onRpcError asked hand :=
  { h with }

theorem Accounted.onBulkError (h : Accounted m asked hand) : Accounted m.onBulkError asked hand :=
  { h with }

theorem Accounted.onBulkTransfer (h : Accounted m asked hand) (bytes : Nat) :
    Accounted (m.onBulkTransfer bytes) asked hand :=
  { h with }

theorem cleanupServerBulk_clean (m : MercuryServer) (state : ServerRpcState) :
    (m.cleanupServerBulk state).2.Clean :=
  ⟨rfl, rfl⟩

theorem Accounted.cleanupServerBulk (h : Accounted m asked [state]) :
    Accounted (m.cleanupServerBulk state).1 asked [(m.cleanupServerBulk state).2] :=
  { h with
    handles := h.handles.congr fun x => by
      simp only [MercuryServer.cleanupServerBulk, states, handlesOf_append, handlesOf_singleton]
    inputs := fun x => by
      have hx := h.inputs x
      simp only [MercuryServer.cleanupServerBulk, states, loadedOf_append, loadedOf_singleton,
        List.count_append, List.count_nil, Bool.false_eq_true, if_false] at hx ⊢
      omega
    bulks := h.bulks.congr fun x => by
      simp only [MercuryServer.cleanupServerBulk, states, bulksOf_append, bulksOf_singleton,
        List.count_append, List.count_nil, Option.toList_none]
      omega
    called := by
      cases asked
      · exact h.called
      · exact h.called }

theorem Accounted.respondServer (h : Accounted m true [state]) (hclean : state.Clean)
    (hgenuine : Genuine m.answered state.handle
      { state.output with payload := .ofVector state.response }) (accepted : Bool) :
    Accounted (m.respondServer accepted state) false [] := by
  cases accepted with
  | true =>
    have hsame : Accounted m true [{ state with
        output := { state.output with payload := .ofVector state.response } }] :=
      h.same rfl rfl rfl
    exact hsame.reply ⟨hclean.input, hclean.bulk⟩ hgenuine
  | false => exact h.destroy hclean

theorem Accounted.runServerHandler (h : Accounted m false [state]) (hclean : state.Clean)
    (throws : Bool) : Accounted (m.runServerHandler throws state) false [] := by
  have hsame : Accounted m false [{ state with request := [] }] := h.same rfl rfl rfl
  cases throws with
  | true => exact hsame.throw ⟨hclean.input, hclean.bulk⟩ rfl
  | false => exact hsame.run ⟨hclean.input, hclean.bulk⟩ rfl

theorem Accounted.refuseBulk (h : Accounted m false [state]) (hresponse : state.response = [])
    (accepted : Bool) : Accounted (m.refuseBulk accepted state) false [] := by
  have hcleaned := h.onRpcError.onBulkError.cleanupServerBulk
  have hrefused : Accounted (m.onRpcError.onBulkError.cleanupServerBulk state).1 true
      [{ (m.onRpcError.onBulkError.cleanupServerBulk state).2 with
        output := { (m.onRpcError.onBulkError.cleanupServerBulk state).2.output with
          status := -1 } }] :=
    hcleaned.skipHandler.same rfl rfl rfl
  refine hrefused.respondServer ⟨rfl, rfl⟩ (Or.inr ?_) accepted
  exact congrArg (fun response => (⟨-1, HgBytes.ofVector response⟩ : HgReply)) hresponse

theorem Accounted.pullBulk (h : Accounted m false [state]) (hinput : state.inputLoaded = true)
    (hbulk : state.localBulk = none) (hhandler : state.rpc.handler = true)
    (hresponse : state.response = []) (d : IncomingRpc) :
    Accounted (m.pullBulk d state) false [] := by
  unfold MercuryServer.pullBulk
  split
  · exact h.refuseBulk hresponse d.respond
  · split
    · exact h.lose hinput hbulk
    · have hstaged : Accounted m false
          [{ state with request := List.replicate state.input.bulkSize.toNat 0 }] :=
        h.same rfl rfl rfl
      simp only
      split
      · exact hstaged.refuseBulk hresponse d.respond
      · split
        · exact (hstaged.newBulk hbulk).refuseBulk hresponse d.respond
        · exact (hstaged.newBulk hbulk).pull hhandler

theorem Accounted.acceptRpc {rpc : RpcEntry} {handle : Nat}
    (h : ∀ input, Accounted m false [{ handle, rpc, input }]) (hhandler : rpc.handler = true)
    (d : IncomingRpc) : Accounted (m.acceptRpc handle rpc d) false [] := by
  unfold MercuryServer.acceptRpc
  split
  · exact (h {}).onRpcError.destroy ⟨rfl, rfl⟩
  · next loaded _ =>
      have hloaded := (h loaded).load rfl
      simp only
      split
      · have hread : Accounted { m with inputsLoaded := m.inputsLoaded ++ [handle] } false
            [{ handle, rpc, input := loaded, inputLoaded := true,
                request := loaded.eager.toVector }] :=
          hloaded.same rfl rfl rfl
        exact hread.cleanupServerBulk.runServerHandler (cleanupServerBulk_clean _ _) d.throws
      · exact hloaded.pullBulk rfl rfl hhandler rfl d

theorem Accounted.handleRpc {handle : Nat}
    (h : ∀ rpc input, Accounted m false [{ handle, rpc, input }]) (d : IncomingRpc) :
    Accounted (m.handleRpc handle d) false [] := by
  have hreceived : ∀ rpc input, Accounted { m with rpcReceives := m.rpcReceives + 1 } false
      [{ handle, rpc, input }] := fun rpc input => { h rpc input with }
  have hrefused : Accounted (MercuryServer.destroy
      (MercuryServer.onRpcError { m with rpcReceives := m.rpcReceives + 1 }) handle) false [] :=
    (hreceived { name := "" } {}).onRpcError.destroy ⟨rfl, rfl⟩
  unfold MercuryServer.handleRpc
  simp only
  split
  · exact hrefused
  · split
    · exact hrefused
    · next rpc _ =>
        split
        · exact hrefused
        · next hhandler =>
            exact Accounted.acceptRpc (hreceived rpc) (Bool.eq_true_of_not_eq_false hhandler) d

theorem Accounted.dispatchCb (h : Accounted m false []) (d : IncomingRpc) :
    Accounted (m.dispatchCb d) false [] := by
  unfold MercuryServer.dispatchCb
  simp only
  split
  · exact (h.receive { name := "" } {}).destroy ⟨rfl, rfl⟩
  · exact Accounted.handleRpc h.receive d

theorem Accounted.bulkPullCb (h : Accounted m false [state]) (hhandler : state.rpc.handler = true)
    (pulled : Option Bytes) (throws accepted : Bool) :
    Accounted (m.bulkPullCb pulled throws accepted state) false [] := by
  cases pulled with
  | some bytes =>
    have hread : Accounted (m.onBulkTransfer bytes.length) false
        [{ state with request := bytes }] :=
      (h.onBulkTransfer bytes.length).same rfl rfl rfl
    unfold MercuryServer.bulkPullCb
    simp only
    -- the handler was there when the pull was started
    split
    · exact hread.cleanupServerBulk.runServerHandler (cleanupServerBulk_clean _ _) throws
    · next hnone => exact absurd hhandler hnone
  | none =>
    have hfailed : Accounted m.onRpcError.onBulkError false [{ state with
        request := [], response := [], output := { state.output with status := -1 } }] :=
      h.onRpcError.onBulkError.same rfl rfl rfl
    exact hfailed.cleanupServerBulk.skipHandler.respondServer (cleanupServerBulk_clean _ _)
      (Or.inr rfl) accepted

theorem Accounted.handlerDone (h : Accounted m false []) (hfind : m.running.find? p = some state)
    (result : Option Bytes) (accepted : Bool) :
    Accounted (handlerDone { m with running := m.running.eraseP p } result accepted state)
      false [] := by
  have hclean := h.running state (List.mem_of_find?_eq_some hfind)
  have hanswered := h.takeRunning hfind result
  cases result with
  | some response =>
    have hdone : Accounted _ true [{ state with
        response := response, output := { state.output with status := 0 } }] :=
      hanswered.same rfl rfl rfl
    refine hdone.respondServer ⟨hclean.input, hclean.bulk⟩ (Or.inl ⟨response, ?_, rfl⟩) accepted
    exact List.mem_append_right _ List.mem_cons_self
  | none =>
    have hfailed : Accounted _ true [{ state with
        response := [], output := { state.output with status := -1 } }] :=
      hanswered.onRpcError.same rfl rfl rfl
    exact hfailed.respondServer ⟨hclean.input, hclean.bulk⟩ (Or.inr rfl) accepted

end Functions

/-! ### Events -/

theorem Accounted.start (rpcs : List (Nat × RpcEntry)) :
    Accounted { rpcsById := rpcs } false [] where
  handles := fun _ => rfl
  inputs := fun _ => rfl
  bulks := fun _ => rfl
  pulling := fun _ hstate => nomatch hstate
  running := fun _ hstate => nomatch hstate
  responding := fun _ hstate => nomatch hstate
  lost := fun _ hstate => nomatch hstate
  called := fun _ => Nat.zero_le _
  returned := fun _ => rfl
  replied := fun _ => Nat.zero_le _
  genuine := fun _ hentry => nomatch hentry

theorem Accounted.step {m' : MercuryServer} {e : Event} (h : Accounted m false [])
    (hstep : m.step e = some m') : Accounted m' false [] := by
  cases steps_of_step hstep with
  | dispatch d => exact h.dispatchCb d
  | bulkPulled throws accepted hfind _ =>
    exact (h.takePulling hfind).bulkPullCb (h.pulling _ (List.mem_of_find?_eq_some hfind)) _ throws
      accepted
  | handlerDone result accepted hfind => exact h.handlerDone hfind result accepted
  | responded hfind => exact h.respondCb hfind

theorem Reached.accounted {rpcs : List (Nat × RpcEntry)} (h : Reached rpcs m) :
    Accounted m false [] := by
  unfold Reached at h
  induction h with
  | start h0 => exact h0 ▸ Accounted.start rpcs
  | next e _ _ hstep ih => exact ih.step hstep

/-- **An incoming call has one owner.**  After any events, whatever bytes have come in and
    whatever Mercury and the handlers have done, each handle is with one pull, one handler or one
    response, or has been destroyed once, or its state was lost to an exception; a loaded input
    has been freed once, unless its call is still being pulled or was lost with it; each local
    buffer is with one pull or has been freed once; and what waits for a handler or for Mercury
    to respond holds neither. -/
theorem incoming_calls_owned {rpcs : List (Nat × RpcEntry)} {m : MercuryServer}
    (h : Reached rpcs m) :
    (∀ x, (handlesOf m.pulling).count x + (handlesOf m.running).count x +
        (handlesOf m.responding).count x + (handlesOf m.lost).count x + m.destroyed.count x =
      if x < m.handles then 1 else 0) ∧
      (∀ x, m.inputsLoaded.count x =
        m.inputsFreed.count x + (loadedOf m.pulling).count x + (loadedOf m.lost).count x) ∧
      (∀ x, (bulksOf m.pulling).count x + m.bulksFreed.count x = if x < m.bulks then 1 else 0) ∧
      ∀ state ∈ m.running ++ m.responding, state.Clean := by
  have hm := h.accounted
  have hloaded : loadedOf m.running = [] ∧ loadedOf m.responding = [] :=
    ⟨loadedOf_eq_nil fun s hs => (hm.running s hs).input,
      loadedOf_eq_nil fun s hs => (hm.responding s hs).input⟩
  have hbulks : bulksOf m.running = [] ∧ bulksOf m.responding = [] ∧ bulksOf m.lost = [] :=
    ⟨bulksOf_eq_nil fun s hs => (hm.running s hs).bulk,
      bulksOf_eq_nil fun s hs => (hm.responding s hs).bulk, bulksOf_eq_nil hm.lost⟩
  refine ⟨fun x => ?_, fun x => ?_, fun x => ?_,
    List.forall_mem_append.mpr ⟨hm.running, hm.responding⟩⟩
  · have hx := hm.handles x
    simp only [states, handlesOf_append, List.append_nil, List.count_append] at hx
    omega
  · have hx := hm.inputs x
    simp only [states, List.append_nil, loadedOf_append, hloaded.1, hloaded.2,
      List.count_append] at hx
    omega
  · have hx := hm.bulks x
    simp only [states, List.append_nil, bulksOf_append, hbulks.1, hbulks.2.1, hbulks.2.2] at hx
    exact hx

def sampleRpcs : List (Nat × RpcEntry) :=
  [(7, { name := "replica_append", id := 7, handler := true })]

/-- The first call is answered; the second is pulled, and its handler throws; the third is not
    registered; the fourth announces a payload there is no memory for. -/
def mixedCalls : List Event :=
  [.dispatch { rpcId := 7, input := .ok (.ofPayload [1, 2] 9) },
    .dispatch { rpcId := 7, input := .ok { mode := 1, bulkSize := 3, bulkHandle := some 9 } },
    .bulkPulled 1 (some [5, 6, 7]) true true, .handlerDone 0 (some [42]) true,
    .dispatch { rpcId := 8 }, .responded 0,
    .dispatch { rpcId := 7, input := .ok { mode := 1, bulkSize := 3, bulkHandle := some 9 },
                resized := false }]

theorem incoming_calls_owned_mixed :
    ∃ m, Transition.run step { rpcsById := sampleRpcs } mixedCalls = some m ∧
      (∀ x, (handlesOf m.pulling).count x + (handlesOf m.running).count x +
          (handlesOf m.responding).count x + (handlesOf m.lost).count x + m.destroyed.count x =
        if x < m.handles then 1 else 0) ∧
      (∀ x, m.inputsLoaded.count x =
        m.inputsFreed.count x + (loadedOf m.pulling).count x + (loadedOf m.lost).count x) ∧
      (∀ x, (bulksOf m.pulling).count x + m.bulksFreed.count x = if x < m.bulks then 1 else 0) ∧
      ∀ state ∈ m.running ++ m.responding, state.Clean := by
  have hruns : (Transition.run step { rpcsById := sampleRpcs } mixedCalls).isSome := by
    decide +kernel
  obtain ⟨m, hm⟩ := Option.isSome_iff_exists.mp hruns
  refine ⟨m, hm, ?_⟩
  exact incoming_calls_owned
    (Transition.Reachable.of_run (.start rfl) mixedCalls (fun _ _ _ => trivial) hm)

/-- **A handler is called at most once, and only its answer is a reply.**  After any events, each
    call has had its handler called at most once and at most one reply; a handler that was called
    is still running, has answered, or threw; and a reply has status 0 only with the bytes the
    handler of that call has answered, and status -1 and no bytes otherwise. -/
theorem incoming_calls_answered {rpcs : List (Nat × RpcEntry)} {m : MercuryServer}
    (h : Reached rpcs m) :
    (∀ x, (m.handled.map HandlerCall.handle).count x ≤ 1 ∧ (m.replies.map Prod.fst).count x ≤ 1 ∧
      (m.handled.map HandlerCall.handle).count x =
        (handlesOf m.running).count x + (m.answered.map Prod.fst).count x + m.thrown.count x) ∧
      ∀ x reply, (x, reply) ∈ m.replies →
        (∃ call response, call ∈ m.handled ∧ call.handle = x ∧ (x, some response) ∈ m.answered ∧
          reply = { status := 0, payload := .ofVector response }) ∨
        reply = { status := -1, payload := .ofVector [] } := by
  have hm := h.accounted
  refine ⟨fun x => ⟨?_, ?_, hm.returned x⟩, fun x reply hreply => ?_⟩
  · have hx := hm.called.le_one x
    omega
  · have hx := hm.replied.le_one x
    omega
  · refine (hm.genuine (x, reply) hreply).imp_left ?_
    rintro ⟨response, hanswered, rfl⟩
    -- a handler that has answered was called
    have hpos : 0 < (m.answered.map Prod.fst).count x :=
      List.count_pos_iff.mpr (List.mem_map_of_mem hanswered)
    have hcalled : 0 < (m.handled.map HandlerCall.handle).count x := by
      rw [hm.returned x]
      omega
    obtain ⟨call, hcall, hhandle⟩ := List.mem_map.mp (List.count_pos_iff.mp hcalled)
    exact ⟨call, response, hcall, hhandle, hanswered, rfl⟩

theorem incoming_calls_answered_mixed :
    ∃ m, Transition.run step { rpcsById := sampleRpcs } mixedCalls = some m ∧ m.replies.length = 1 ∧
      (∀ x, (m.handled.map HandlerCall.handle).count x ≤ 1 ∧ (m.replies.map Prod.fst).count x ≤ 1 ∧
        (m.handled.map HandlerCall.handle).count x =
          (handlesOf m.running).count x + (m.answered.map Prod.fst).count x + m.thrown.count x) ∧
      ∀ x reply, (x, reply) ∈ m.replies →
        (∃ call response, call ∈ m.handled ∧ call.handle = x ∧ (x, some response) ∈ m.answered ∧
          reply = { status := 0, payload := .ofVector response }) ∨
        reply = { status := -1, payload := .ofVector [] } := by
  have hruns : (Transition.run step { rpcsById := sampleRpcs } mixedCalls).map
      (fun m => m.replies.length) = some 1 := by decide +kernel
  obtain ⟨m, hm, hreplies⟩ := Option.map_eq_some_iff.mp hruns
  refine ⟨m, hm, hreplies, ?_⟩
  exact incoming_calls_answered
    (Transition.Reachable.of_run (.start rfl) mixedCalls (fun _ _ _ => trivial) hm)

/-! ### Metrics -/

/-- The calls that count as received and are accounted for: by an error, by a handler that
    succeeded, or because they are under way or lost. -/
def settled (m : MercuryServer) : Nat :=
  m.rpcErrors + (m.answered.filter fun answer => answer.2.isSome).length + m.pulling.length +
    m.running.length + m.lost.length

/-- So many more have been received than are settled. -/
def Due (m : MercuryServer) (due : Nat) : Prop := m.rpcReceives = m.settled + due

section Metrics

variable {m : MercuryServer} {due : Nat} {state : ServerRpcState}

theorem Due.respondServer (h : Due m due) (accepted : Bool) (state : ServerRpcState) :
    Due (m.respondServer accepted state) due := by
  cases accepted <;> exact h

theorem Due.onRpcError (h : Due m (due + 1)) : Due m.onRpcError due := by
  unfold Due at h ⊢
  simp only [settled, MercuryServer.onRpcError] at h ⊢
  omega

theorem Due.runServerHandler (h : Due m (due + 1)) (throws : Bool) (state : ServerRpcState) :
    Due (m.runServerHandler throws state) due := by
  unfold Due at h ⊢
  cases throws <;>
    simp only [settled, MercuryServer.runServerHandler, List.length_append, List.length_singleton,
      if_true, if_false, Bool.false_eq_true] at h ⊢ <;>
    omega

theorem Due.refuseBulk (h : Due m 1) (accepted : Bool) (state : ServerRpcState) :
    Due (m.refuseBulk accepted state) 0 := by
  refine Due.respondServer ?_ accepted _
  exact h.onRpcError

theorem Due.pullBulk (h : Due m 1) (d : IncomingRpc) (state : ServerRpcState) :
    Due (m.pullBulk d state) 0 := by
  unfold MercuryServer.pullBulk
  split
  · exact h.refuseBulk d.respond state
  · split
    · unfold Due at h ⊢
      simp only [settled, List.length_append, List.length_singleton] at h ⊢
      omega
    · simp only
      split
      · exact h.refuseBulk d.respond _
      · split
        · refine Due.refuseBulk ?_ d.respond _
          exact h
        · unfold Due at h ⊢
          simp only [settled, List.length_append, List.length_singleton] at h ⊢
          omega

theorem Due.acceptRpc (h : Due m 1) (handle : Nat) (rpc : RpcEntry) (d : IncomingRpc) :
    Due (m.acceptRpc handle rpc d) 0 := by
  unfold MercuryServer.acceptRpc
  split
  · exact h.onRpcError
  · simp only
    split
    · refine Due.runServerHandler ?_ d.throws _
      exact h
    · refine Due.pullBulk ?_ d _
      exact h

theorem Due.dispatchCb (h : Due m 0) (d : IncomingRpc) : Due (m.dispatchCb d) 0 := by
  have hreceived : Due { m with handles := m.handles + 1, rpcReceives := m.rpcReceives + 1 } 1 :=
    congrArg (· + 1) h
  unfold MercuryServer.dispatchCb
  simp only
  split
  · exact h
  · unfold MercuryServer.handleRpc
    simp only
    split
    · exact hreceived.onRpcError
    · split
      · exact hreceived.onRpcError
      · split
        · exact hreceived.onRpcError
        · exact hreceived.acceptRpc m.handles _ d

theorem length_eraseP_of_find? {p : ServerRpcState → Bool} {states : List ServerRpcState}
    (h : states.find? p = some state) : states.length = (states.eraseP p).length + 1 := by
  obtain ⟨front, back, hsplit, herase⟩ := eraseP_of_find? h
  rw [herase, hsplit]
  simp only [List.length_append, List.length_cons]
  omega

theorem Due.bulkPullCb (h : Due m 1) (hhandler : state.rpc.handler = true) (pulled : Option Bytes)
    (throws accepted : Bool) : Due (m.bulkPullCb pulled throws accepted state) 0 := by
  cases pulled with
  | some bytes =>
    unfold MercuryServer.bulkPullCb
    simp only
    split
    · refine Due.runServerHandler ?_ throws _
      exact h
    · next hnone => exact absurd hhandler hnone
  | none =>
    refine Due.respondServer ?_ accepted _
    exact h.onRpcError

theorem Due.handlerDone (h : Due m 1) (result : Option Bytes) (accepted : Bool)
    (state : ServerRpcState) : Due (m.handlerDone result accepted state) 0 := by
  cases result with
  | some response =>
    refine Due.respondServer ?_ accepted _
    unfold Due at h ⊢
    simp only [settled, List.filter_append, List.length_append, List.filter_cons,
      Option.isSome_some, if_true, List.filter_nil, List.length_singleton] at h ⊢
    omega
  | none =>
    refine Due.respondServer ?_ accepted _
    refine Due.onRpcError ?_
    unfold Due at h ⊢
    simp only [settled, List.filter_append, List.filter_cons, Option.isSome_none,
      Bool.false_eq_true, if_false, List.filter_nil, List.append_nil] at h ⊢
    exact h

theorem Due.step {m' : MercuryServer} {e : Event} (h : Due m 0) (hm : Accounted m false [])
    (hstep : m.step e = some m') : Due m' 0 := by
  cases steps_of_step hstep with
  | dispatch d => exact h.dispatchCb d
  | bulkPulled throws accepted hfind _ =>
    have hlength := length_eraseP_of_find? hfind
    refine Due.bulkPullCb ?_ (hm.pulling _ (List.mem_of_find?_eq_some hfind)) _ throws accepted
    unfold Due at h ⊢
    simp only [settled] at h ⊢
    omega
  | handlerDone result accepted hfind =>
    have hlength := length_eraseP_of_find? hfind
    refine Due.handlerDone ?_ result accepted _
    unfold Due at h ⊢
    simp only [settled] at h ⊢
    omega
  | responded hfind => exact h

end Metrics

/-- **Every received call is counted once.**  After any events, the calls counted as received are
    those counted as errors, those whose handler has succeeded, those being pulled or handled, and
    those lost to an exception: no call adds two errors, and none ends without either an error
    or an answer. -/
theorem received_calls_counted {rpcs : List (Nat × RpcEntry)} {m : MercuryServer}
    (h : Reached rpcs m) :
    m.rpcReceives = m.rpcErrors + (m.answered.filter fun answer => answer.2.isSome).length +
      m.pulling.length + m.running.length + m.lost.length := by
  unfold Reached at h
  induction h with
  | start h0 => exact h0 ▸ rfl
  | next e hprev _ hstep ih => exact Due.step ih (Reached.accounted hprev) hstep

theorem received_calls_counted_mixed :
    ∃ m, Transition.run step { rpcsById := sampleRpcs } mixedCalls = some m ∧ m.rpcReceives = 4 ∧
      m.rpcReceives = m.rpcErrors + (m.answered.filter fun answer => answer.2.isSome).length +
        m.pulling.length + m.running.length + m.lost.length := by
  have hruns : (Transition.run step { rpcsById := sampleRpcs } mixedCalls).map
      (fun m => m.rpcReceives) = some 4 := by decide +kernel
  obtain ⟨m, hm, hreceives⟩ := Option.map_eq_some_iff.mp hruns
  refine ⟨m, hm, hreceives, ?_⟩
  exact received_calls_counted
    (Transition.Reachable.of_run (.start rfl) mixedCalls (fun _ _ _ => trivial) hm)

end MercuryServer

end Mkmq

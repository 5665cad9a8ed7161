import Mkmq.Accounts
import Mkmq.MercuryShard

/-!
# Who owns a call's promise and its handle

Each function of the shard takes calls, handles and addresses from where they are and leaves
them somewhere.  In between it has some of them in hand; `Accounted` counts these along, so
that what a function does to the accounts is said by what it finds in hand and what it leaves
there.  Between events the hand is empty, and the accounts say that a handle is with one call,
in one pool or destroyed, and that a promise is open or completed.
-/

namespace Mkmq

open Accounts

variable {pools : List HandlePool}

/-! ### Pools -/

theorem count_takeCachedHandle (rpcId : Nat) (pools : List HandlePool) (x : Nat) :
    ((takeCachedHandle rpcId pools).2.flatMap HandlePool.handles).count x +
        (takeCachedHandle rpcId pools).1.toList.count x =
      (pools.flatMap HandlePool.handles).count x := by
  induction pools with
  | nil => rfl
  | cons pool rest ih =>
    rw [takeCachedHandle]
    split
    · split
      · rfl
      · next handle hlast =>
          have hsplit := List.dropLast_append_getLast? handle hlast
          have hcount :
              pool.handles.count x = pool.handles.dropLast.count x + [handle].count x := by
            rw [← List.count_append, hsplit]
          simp only [List.flatMap_cons, List.count_append, Option.toList_some]
          omega
    · simp only [List.flatMap_cons, List.count_append]
      omega

theorem takeCachedHandle_bounded {limit : Nat} (rpcId : Nat)
    (h : ∀ pool ∈ pools, pool.handles.length ≤ limit) :
    ∀ pool ∈ (takeCachedHandle rpcId pools).2, pool.handles.length ≤ limit := by
  induction pools with
  | nil => exact h
  | cons pool rest ih =>
    obtain ⟨hpool, hrest⟩ := List.forall_mem_cons.mp h
    rw [takeCachedHandle]
    split
    · split
      · exact h
      · refine List.forall_mem_cons.mpr ⟨?_, hrest⟩
        rw [List.length_dropLast]
        omega
    · exact List.forall_mem_cons.mpr ⟨hpool, ih hrest⟩

theorem poolHandle_spec {rpcId handle : Nat} {pools' : List HandlePool}
    (h : poolHandle rpcId handle pools = some pools')
    (hbound : ∀ pool ∈ pools, pool.handles.length ≤ kHandlePoolLimitPerPeerRpc) :
    (∀ x, (pools'.flatMap HandlePool.handles).count x =
        (pools.flatMap HandlePool.handles).count x + [handle].count x) ∧
      ∀ pool ∈ pools', pool.handles.length ≤ kHandlePoolLimitPerPeerRpc := by
  induction pools generalizing pools' with
  | nil =>
    obtain rfl := Option.some.inj h
    refine ⟨fun x => ?_, ?_⟩
    · simp only [List.flatMap_cons, List.flatMap_nil, List.append_nil, List.count_nil, zero_add]
    · rw [List.forall_mem_singleton]
      exact Nat.succ_le_succ (Nat.zero_le _)
  | cons pool rest ih =>
    obtain ⟨hpool, hrest⟩ := List.forall_mem_cons.mp hbound
    rw [poolHandle] at h
    split at h
    · split at h
      · cases h
      · next hroom =>
          obtain rfl := Option.some.inj h
          refine ⟨fun x => ?_, List.forall_mem_cons.mpr ⟨?_, hrest⟩⟩
          · simp only [List.flatMap_cons, List.count_append]
            omega
          · rw [List.length_append, List.length_singleton]
            omega
    · obtain ⟨rest', hrest', rfl⟩ := Option.map_eq_some_iff.mp h
      obtain ⟨hcount, hbounded⟩ := ih hrest' hrest
      refine ⟨fun x => ?_, List.forall_mem_cons.mpr ⟨hpool, hbounded⟩⟩
      have hx := hcount x
      simp only [List.flatMap_cons, List.count_append]
      omega

/-! ### Places -/

/-- The calls among these whose promise is open. -/
def openCalls (calls : List ClientRpcState) : List Nat :=
  (calls.filter fun state => !state.promiseDone).map ClientRpcState.id

@[simp] theorem openCalls_append (front back : List ClientRpcState) :
    openCalls (front ++ back) = openCalls front ++ openCalls back := by
  unfold openCalls
  rw [List.filter_append, List.map_append]

theorem openCalls_cons (state : ClientRpcState) (calls : List ClientRpcState) :
    openCalls (state :: calls) = openCalls [state] ++ openCalls calls :=
  openCalls_append [state] calls

theorem openCalls_same {state state' : ClientRpcState} (hid : state'.id = state.id)
    (hdone : state'.promiseDone = state.promiseDone) : openCalls [state'] = openCalls [state] := by
  cases h : state.promiseDone <;> simp [openCalls, hid, hdone, h]

/-- The calls that wait for a peer's address. -/
def PeerState.waiting (peer : PeerState) : List ClientRpcState :=
  match peer.pendingLookup with
  | none => []
  | some lookup => lookup.waiters

/-- A call as `forward` leaves it with a lookup. -/
def ClientRpcState.Waiting (state : ClientRpcState) (name : String) : Prop :=
  state = { id := state.id, peer := name, rpcId := state.rpcId }

/-- What holds of a peer's record whenever a function returns. -/
structure PeerState.Ok (peer : PeerState) (name : String) : Prop where
  pools : ∀ pool ∈ peer.pools, pool.handles.length ≤ kHandlePoolLimitPerPeerRpc
  pending : ∀ lookup, peer.pendingLookup = some lookup →
    peer.addr = none ∧ lookup.cancelled = false ∧ lookup.peer = name ∧
      ∀ waiter ∈ lookup.waiters, waiter.Waiting name

namespace MercuryShard

/-- The handles of the calls that Mercury has. -/
def held (m : MercuryShard) : List Nat := m.inFlight.filterMap ClientRpcState.handle

/-- The handles in all pools of all peers. -/
def pooled (m : MercuryShard) : List Nat := (m.peers.entries.map Sigma.snd).flatMap PeerState.pooled

/-- How often a handle is found, over all places. -/
def handleFound (m : MercuryShard) (handle : Nat) : Nat :=
  m.held.count handle + total (fun peer => peer.pooled.count handle) m.peers +
    m.destroyed.count handle

/-- How often a promise is found: open, or completed. -/
def callFound (m : MercuryShard) (id : Nat) : Nat :=
  (openCalls m.inFlight).count id + total (fun peer => (openCalls peer.waiting).count id) m.peers +
    (m.completed.map Prod.fst).count id

def addrFound (m : MercuryShard) (addr : Nat) : Nat :=
  total (fun peer => peer.addr.toList.count addr) m.peers + m.freed.count addr

theorem count_pooled (m : MercuryShard) (handle : Nat) :
    m.pooled.count handle = total (fun peer => peer.pooled.count handle) m.peers :=
  count_flatMap_entries PeerState.pooled m.peers handle

/-- What a function has taken and not yet left anywhere. -/
structure Hand where
  handles : List Nat := []
  calls : List Nat := []
  addrs : List Nat := []

/-- The accounts of a shard, with what is in hand.  An address can be lost: a lookup that was
    cancelled does not free the one it brings. -/
structure Accounted (m : MercuryShard) (hand : Hand) : Prop where
  handles : Conserved (fun x => m.handleFound x + hand.handles.count x) m.handles
  calls : Conserved (fun x => m.callFound x + hand.calls.count x) m.calls
  addrs : ∀ x, m.addrFound x + hand.addrs.count x ≤ if x < m.addrs then 1 else 0
  peers : ∀ name peer, m.peers.lookup name = some peer → peer.Ok name
  orphaned : ∀ lookup ∈ m.orphanedLookups, lookup.cancelled = true

/-! ### Leaving things somewhere -/

section Leaving

variable {m : MercuryShard} {handles calls addrs : List Nat} {state : ClientRpcState} {hand : Hand}
  {name : String} {peer : PeerState}

theorem Accounted.destroyAll {list : List Nat} (h : Accounted m ⟨list ++ handles, calls, addrs⟩) :
    Accounted { m with destroyed := m.destroyed ++ list } ⟨handles, calls, addrs⟩ :=
  { h with
    handles := h.handles.congr fun x => by
      simp only [handleFound, held, List.count_append]
      omega }

theorem Accounted.freeAll {list : List Nat} (h : Accounted m ⟨handles, calls, list ++ addrs⟩) :
    Accounted { m with freed := m.freed ++ list } ⟨handles, calls, addrs⟩ :=
  { h with
    addrs := fun x => by
      have hle := h.addrs x
      simp only [addrFound, List.count_append] at hle ⊢
      omega }

theorem Accounted.complete (h : Accounted m ⟨handles, openCalls [state] ++ calls, addrs⟩)
    (completion : Completion) :
    Accounted (m.complete state completion) ⟨handles, calls, addrs⟩ := by
  unfold MercuryShard.complete
  cases hdone : state.promiseDone with
  | true =>
    have hnone : openCalls [state] = [] := by simp [openCalls, hdone]
    rwa [hnone] at h
  | false =>
    have hone : openCalls [state] = [state.id] := by simp [openCalls, hdone]
    rw [hone] at h
    exact
      { h with
        calls := h.calls.congr fun x => by
          simp only [callFound, List.map_append, List.count_append, List.map_cons, List.map_nil,
            Bool.false_eq_true, if_false]
          omega }

theorem Accounted.give
    (h : Accounted m ⟨state.handle.toList ++ handles, openCalls [state] ++ calls, addrs⟩) :
    Accounted { m with inFlight := m.inFlight ++ [state] } ⟨handles, calls, addrs⟩ :=
  { h with
    handles := h.handles.congr fun x => by
      have hlast : ([state].filterMap ClientRpcState.handle) = state.handle.toList := by
        cases hstate : state.handle <;> simp [hstate]
      simp only [handleFound, held, List.filterMap_append, hlast, List.count_append]
      omega
    calls := h.calls.congr fun x => by
      simp only [callFound, openCalls_append, List.count_append]
      omega }

/-- A record is written: what it has less than the one before comes to hand, and what it has
    more was in hand. -/
theorem Accounted.setPeer {hand' : Hand} (h : Accounted m hand) (hok : peer.Ok name)
    (hhandles : ∀ x, peer.pooled.count x + hand'.handles.count x =
      weightOf (fun peer => peer.pooled.count x) (m.peers.lookup name) + hand.handles.count x)
    (hcalls : ∀ x, (openCalls peer.waiting).count x + hand'.calls.count x =
      weightOf (fun peer => (openCalls peer.waiting).count x) (m.peers.lookup name) +
        hand.calls.count x) (haddrs : ∀ x, peer.addr.toList.count x + hand'.addrs.count x ≤
      weightOf (fun peer => peer.addr.toList.count x) (m.peers.lookup name) +
        hand.addrs.count x) :
    Accounted (m.setPeer name peer) hand' where
  handles := h.handles.congr fun x => by
    have htotal := total_insert (fun peer : PeerState => peer.pooled.count x) name peer m.peers
    have hhand := hhandles x
    simp only [handleFound, held, MercuryShard.setPeer]
    omega
  calls := h.calls.congr fun x => by
    have htotal := total_insert (fun peer : PeerState => (openCalls peer.waiting).count x) name peer
      m.peers
    have hhand := hcalls x
    simp only [callFound, MercuryShard.setPeer]
    omega
  addrs := fun x => by
    have htotal := total_insert (fun peer : PeerState => peer.addr.toList.count x) name peer m.peers
    have hhand := haddrs x
    refine le_trans ?_ (h.addrs x)
    simp only [addrFound, MercuryShard.setPeer]
    omega
  peers := by
    intro other found hfound
    by_cases hname : other = name
    · subst hname
      rw [MercuryShard.setPeer, AList.lookup_insert] at hfound
      rw [← Option.some.inj hfound]
      exact hok
    · rw [MercuryShard.setPeer, AList.lookup_insert_ne hname] at hfound
      exact h.peers other found hfound
  orphaned := h.orphaned

/-- The same for a record that was there before. -/
theorem Accounted.replacePeer {hand' : Hand} (h : Accounted m hand) {old : PeerState}
    (hold : m.peers.lookup name = some old) (hok : peer.Ok name)
    (hhandles : ∀ x, peer.pooled.count x + hand'.handles.count x =
      old.pooled.count x + hand.handles.count x)
    (hcalls : ∀ x, (openCalls peer.waiting).count x + hand'.calls.count x =
      (openCalls old.waiting).count x + hand.calls.count x)
    (haddrs : ∀ x, peer.addr.toList.count x + hand'.addrs.count x ≤
      old.addr.toList.count x + hand.addrs.count x) : Accounted (m.setPeer name peer) hand' := by
  refine h.setPeer hok ?_ ?_ ?_
  · intro x
    rw [hold, weightOf_some]
    exact hhandles x
  · intro x
    rw [hold, weightOf_some]
    exact hcalls x
  · intro x
    rw [hold, weightOf_some]
    exact haddrs x

/-- A record is erased: all it has comes to hand. -/
theorem Accounted.erasePeer (h : Accounted m ⟨handles, calls, addrs⟩)
    (hpeer : m.peers.lookup name = some peer) : Accounted { m with peers := m.peers.erase name }
      ⟨peer.pooled ++ handles, openCalls peer.waiting ++ calls, peer.addr.toList ++ addrs⟩ where
  handles := h.handles.congr fun x => by
    have htotal := total_erase (fun peer : PeerState => peer.pooled.count x) name m.peers
    rw [hpeer, weightOf_some] at htotal
    simp only [handleFound, held, List.count_append]
    omega
  calls := h.calls.congr fun x => by
    have htotal := total_erase (fun peer : PeerState => (openCalls peer.waiting).count x) name
      m.peers
    rw [hpeer, weightOf_some] at htotal
    simp only [callFound, List.count_append]
    omega
  addrs := fun x => by
    have htotal := total_erase (fun peer : PeerState => peer.addr.toList.count x) name m.peers
    rw [hpeer, weightOf_some] at htotal
    have hle := h.addrs x
    simp only [addrFound, List.count_append] at hle ⊢
    omega
  peers := by
    intro other found hfound
    by_cases hname : other = name
    · subst hname
      rw [AList.lookup_erase] at hfound
      cases hfound
    · rw [AList.lookup_erase_ne hname] at hfound
      exact h.peers other found hfound
  orphaned := h.orphaned

/-! ### Taking things -/

theorem Accounted.newHandle (h : Accounted m ⟨handles, calls, addrs⟩) :
    Accounted { m with handles := m.handles + 1 } ⟨m.handles :: handles, calls, addrs⟩ :=
  { h with
    handles := h.handles.make fun x => by
      simp only [handleFound, held, List.count_cons, List.count_nil]
      omega }

theorem Accounted.newCall (h : Accounted m ⟨handles, calls, addrs⟩) :
    Accounted { m with calls := m.calls + 1 } ⟨handles, m.calls :: calls, addrs⟩ :=
  { h with
    calls := h.calls.make fun x => by
      simp only [callFound, List.count_cons, List.count_nil]
      omega }

theorem Accounted.newAddr (h : Accounted m ⟨handles, calls, addrs⟩) :
    Accounted { m with addrs := m.addrs + 1 } ⟨handles, calls, m.addrs :: addrs⟩ :=
  { h with
    addrs := fun x => by
      have hle := h.addrs x
      simp only [addrFound, List.count_cons, beq_iff_eq] at hle ⊢
      by_cases hx : m.addrs = x
      · subst hx
        rw [if_neg (lt_irrefl _)] at hle
        rw [if_pos rfl, if_pos (Nat.lt_succ_self _)]
        omega
      · rw [if_neg hx]
        split at hle
        · rw [if_pos (by omega)]
          omega
        · omega }

/-- What is in hand may be lost, if it is an address. -/
theorem Accounted.loseAddrs (h : Accounted m ⟨handles, calls, addrs⟩) :
    Accounted m ⟨handles, calls, []⟩ :=
  { h with addrs := fun x => le_trans (by simp) (h.addrs x) }

/-- The lookups that Mercury has are no part of the accounts. -/
theorem Accounted.lookupsSet (h : Accounted m hand) (lookupsMade : Nat)
    (lookups : List (Nat × String)) :
    Accounted { m with lookupsMade := lookupsMade, lookups := lookups } hand :=
  ⟨h.handles, h.calls, h.addrs, h.peers, h.orphaned⟩

theorem Accounted.takeInFlight {p : ClientRpcState → Bool} (h : Accounted m ⟨handles, calls, addrs⟩)
    (hfind : m.inFlight.find? p = some state) : Accounted { m with inFlight := m.inFlight.eraseP p }
      ⟨state.handle.toList ++ handles, openCalls [state] ++ calls, addrs⟩ := by
  obtain ⟨front, back, hsplit, herase⟩ := eraseP_of_find? hfind
  have hone : ([state].filterMap ClientRpcState.handle) = state.handle.toList := by
    cases hstate : state.handle <;> simp [hstate]
  have hwhole : m.inFlight = front ++ ([state] ++ back) := hsplit
  rw [herase]
  exact
    { h with
      handles := h.handles.congr fun x => by
        simp only [handleFound, held, hwhole, List.filterMap_append, hone, List.count_append]
        omega
      calls := h.calls.congr fun x => by
        simp only [callFound, hwhole, openCalls_append, List.count_append]
        omega }

end Leaving

/-! ### The functions of the shard -/

section Functions

variable {m m' : MercuryShard} {handles calls addrs : List Nat} {name : String} {peer : PeerState}
  {lookup : LookupState} {state : ClientRpcState} {waiters : List ClientRpcState}

theorem Accounted.destroy {handle : Nat} (h : Accounted m ⟨handle :: handles, calls, addrs⟩) :
    Accounted (m.destroy handle) ⟨handles, calls, addrs⟩ := by
  have hfront : Accounted m ⟨[handle] ++ handles, calls, addrs⟩ := h
  exact hfront.destroyAll

theorem Accounted.recycleHandle {handle : Nat}
    (h : Accounted m ⟨handle :: handles, calls, addrs⟩) (name : String) (rpcId : Nat) :
    Accounted (m.recycleHandle name rpcId handle) ⟨handles, calls, addrs⟩ := by
  unfold MercuryShard.recycleHandle
  split
  · exact h.destroy
  next peer hpeer =>
    have hok := h.peers name peer hpeer
    split
    · exact h.destroy
    next pools hpools =>
      obtain ⟨hcount, hbounded⟩ := poolHandle_spec hpools hok.pools
      have hok' : PeerState.Ok { peer with pools := pools } name := ⟨hbounded, hok.pending⟩
      refine h.replacePeer hpeer hok' ?_ (fun _ => rfl) (fun _ => le_refl _)
      intro x
      have hx := hcount x
      simp only [PeerState.pooled, List.count_cons, List.count_nil] at hx ⊢
      omega

/-- A record without a lookup is erased, and what it has is given back. -/
theorem dropPeer_of_idle (hpeer : m.peers.lookup name = some peer)
    (hidle : peer.pendingLookup = none) :
    m.dropPeer name = { m with
      peers := m.peers.erase name
      destroyed := m.destroyed ++ peer.pooled
      freed := m.freed ++ peer.addr.toList } := by
  unfold MercuryShard.dropPeer
  rw [hpeer]
  simp only [hidle]

/-- A record with a lookup stays for it. -/
theorem dropPeer_of_pending (hpeer : m.peers.lookup name = some peer)
    (hpending : peer.pendingLookup = some lookup) :
    m.dropPeer name = { m.setPeer name { peer with pools := [], addr := none } with
      destroyed := m.destroyed ++ peer.pooled
      freed := m.freed ++ peer.addr.toList } := by
  unfold MercuryShard.dropPeer
  rw [hpeer]
  simp only [hpending]
  rfl

theorem Accounted.dropPeer (h : Accounted m ⟨handles, calls, addrs⟩) (name : String) :
    Accounted (m.dropPeer name) ⟨handles, calls, addrs⟩ := by
  cases hpeer : m.peers.lookup name with
  | none =>
    unfold MercuryShard.dropPeer
    rw [hpeer]
    exact h
  | some peer =>
    have hok := h.peers name peer hpeer
    cases hpending : peer.pendingLookup with
    | none =>
      have herased := h.erasePeer hpeer
      have hnone : peer.waiting = [] := by rw [PeerState.waiting, hpending]
      rw [hnone] at herased
      rw [dropPeer_of_idle hpeer hpending]
      exact herased.destroyAll.freeAll
    | some lookup =>
      have hok' : PeerState.Ok { peer with pools := [], addr := none } name :=
        ⟨fun pool hpool => absurd hpool List.not_mem_nil,
          fun other hother => ⟨rfl, (hok.pending other hother).2⟩⟩
      have hemptied : Accounted (m.setPeer name { peer with pools := [], addr := none })
          ⟨peer.pooled ++ handles, calls, peer.addr.toList ++ addrs⟩ := by
        refine h.replacePeer hpeer hok' ?_ (fun _ => rfl) ?_
        · intro x
          simp only [List.count_append, PeerState.pooled, List.flatMap_nil, List.count_nil]
          omega
        · intro x
          simp only [List.count_append, Option.toList_none, List.count_nil]
          omega
      rw [dropPeer_of_pending hpeer hpending]
      exact hemptied.destroyAll.freeAll

theorem Accounted.cleanupClient (h : Accounted m ⟨state.handle.toList ++ handles, calls, addrs⟩) :
    Accounted (m.cleanupClient state) ⟨handles, calls, addrs⟩ := by
  have hdropped : ∀ m' : MercuryShard, Accounted m' ⟨handles, calls, addrs⟩ →
      Accounted (if state.dropPeerOnCleanup then m'.dropPeer state.peer else m')
        ⟨handles, calls, addrs⟩ := by
    intro m' h'
    split
    · exact h'.dropPeer state.peer
    · exact h'
  unfold MercuryShard.cleanupClient
  apply hdropped
  cases hhandle : state.handle with
  | none =>
    rw [hhandle] at h
    exact h
  | some handle =>
    rw [hhandle] at h
    cases state.recycleHandle with
    | true => exact h.recycleHandle state.peer state.rpcId
    | false => exact h.destroy

/-- The flags that are set in between decide where the handle goes, not whose it is. -/
theorem Accounted.finish
    (h : Accounted m ⟨state.handle.toList ++ handles, openCalls [state] ++ calls, addrs⟩)
    (state' : ClientRpcState) (hhandle : state'.handle = state.handle) (completion : Completion) :
    Accounted ((m.complete state completion).cleanupClient state') ⟨handles, calls, addrs⟩ := by
  have hcompleted := h.complete completion
  rw [← hhandle] at hcompleted
  exact hcompleted.cleanupClient

theorem Accounted.failClient
    (h : Accounted m ⟨state.handle.toList ++ handles, openCalls [state] ++ calls, addrs⟩)
    (error : RpcError) : Accounted (m.failClient error state) ⟨handles, calls, addrs⟩ :=
  h.finish state rfl (.error error)

/-- The record that is returned stands in the table, and is new or was there before. -/
theorem peerState_spec (m : MercuryShard) (name : String) :
    (m.peerState name).2.peers.lookup name = some (m.peerState name).1 ∧
      (m.peers.lookup name = some (m.peerState name).1 ∨
        (m.peerState name).1 = { record := m.records }) := by
  unfold peerState
  cases hpeer : m.peers.lookup name with
  | none => exact ⟨AList.lookup_insert _, Or.inr rfl⟩
  | some peer => exact ⟨hpeer, Or.inl rfl⟩

theorem Accounted.peerState (h : Accounted m ⟨handles, calls, addrs⟩) (name : String) :
    Accounted (m.peerState name).2 ⟨handles, calls, addrs⟩ := by
  unfold MercuryShard.peerState
  cases hpeer : m.peers.lookup name with
  | some peer => exact h
  | none =>
    have hok : PeerState.Ok { record := m.records } name :=
      ⟨fun pool hpool => absurd hpool List.not_mem_nil, fun _ hpending => nomatch hpending⟩
    have hset : Accounted (m.setPeer name { record := m.records }) ⟨handles, calls, addrs⟩ := by
      refine h.setPeer hok ?_ ?_ ?_
      · intro x
        rw [hpeer]
        rfl
      · intro x
        rw [hpeer]
        rfl
      · intro x
        rw [hpeer]
        exact le_refl _
    exact ⟨hset.handles, hset.calls, hset.addrs, hset.peers, hset.orphaned⟩

theorem Accounted.obtainHandle (h : Accounted m ⟨handles, calls, addrs⟩) (hg : HgResults)
    (state : ClientRpcState) :
    Accounted (m.obtainHandle hg state).2
      ⟨(m.obtainHandle hg state).1.toList ++ handles, calls, addrs⟩ := by
  obtain ⟨hfound, -⟩ := peerState_spec m state.peer
  have hpeer := h.peerState state.peer
  have hok := hpeer.peers _ _ hfound
  have hok' : PeerState.Ok { (m.peerState state.peer).1 with
      pools := (takeCachedHandle state.rpcId (m.peerState state.peer).1.pools).2 } state.peer :=
    ⟨takeCachedHandle_bounded state.rpcId hok.pools, hok.pending⟩
  -- what the pool gives is in hand from here on
  have htaken : Accounted ((m.peerState state.peer).2.setPeer state.peer
      { (m.peerState state.peer).1 with
        pools := (takeCachedHandle state.rpcId (m.peerState state.peer).1.pools).2 })
      ⟨(takeCachedHandle state.rpcId (m.peerState state.peer).1.pools).1.toList ++ handles, calls,
        addrs⟩ := by
    refine hpeer.replacePeer hfound hok' ?_ (fun _ => rfl) (fun _ => le_refl _)
    intro x
    have hcount := count_takeCachedHandle state.rpcId (m.peerState state.peer).1.pools x
    simp only [PeerState.pooled, List.count_append] at hcount ⊢
    omega
  unfold MercuryShard.obtainHandle
  simp only
  split
  · next handle hcached hreset =>
      rw [hcached] at htaken
      exact htaken
  · next cached reset hreset =>
      have hdestroyed := htaken.destroyAll
      split
      · exact hdestroyed.newHandle
      · exact hdestroyed

/-- A call stays the same call when its other fields are set. -/
theorem Accounted.sameCall {state' : ClientRpcState}
    (h : Accounted m ⟨handles, openCalls [state] ++ calls, addrs⟩) (hid : state'.id = state.id)
    (hdone : state'.promiseDone = state.promiseDone) :
    Accounted m ⟨handles, openCalls [state'] ++ calls, addrs⟩ := by
  rwa [openCalls_same hid hdone]

theorem Accounted.startClientForward (h : Accounted m ⟨handles, openCalls [state] ++ calls, addrs⟩)
    (hnew : state.handle = none) (hg : HgResults) :
    Accounted (m.startClientForward hg state) ⟨handles, calls, addrs⟩ := by
  unfold MercuryShard.startClientForward
  split
  · next hdone =>
      have hnone : openCalls [state] = [] := by simp [openCalls, hdone]
      have hclean : Accounted m ⟨state.handle.toList ++ handles, calls, addrs⟩ := by
        rw [hnone] at h
        rw [hnew]
        exact h
      exact hclean.cleanupClient
  · have hobtained := h.obtainHandle hg state
    split
    · next m' hresult =>
        rw [hresult] at hobtained
        refine Accounted.failClient ?_ .create
        simp only [hnew]
        exact hobtained.sameCall rfl rfl
    · next handle m' hresult =>
        rw [hresult] at hobtained
        simp only
        split
        · refine Accounted.give ?_
          exact hobtained.sameCall rfl rfl
        · refine Accounted.failClient ?_ .forward
          exact hobtained.sameCall rfl rfl

/-- A function that leaves one call somewhere does so with a list of them. -/
theorem Accounted.foldl {body : MercuryShard → ClientRpcState → MercuryShard}
    (hbody : ∀ m handles calls addrs, ∀ waiter ∈ waiters,
      Accounted m ⟨handles, openCalls [waiter] ++ calls, addrs⟩ →
      Accounted (body m waiter) ⟨handles, calls, addrs⟩)
    (h : Accounted m ⟨handles, openCalls waiters ++ calls, addrs⟩) :
    Accounted (waiters.foldl body m) ⟨handles, calls, addrs⟩ := by
  induction waiters generalizing m with
  | nil => exact h
  | cons waiter waiters ih =>
    rw [openCalls_cons, List.append_assoc] at h
    refine ih (fun m handles calls addrs other hother =>
      hbody m handles calls addrs other (List.mem_cons_of_mem _ hother)) ?_
    exact hbody m _ _ _ waiter List.mem_cons_self h

theorem Accounted.failAll (h : Accounted m ⟨handles, openCalls waiters ++ calls, addrs⟩)
    (hwaiting : ∀ waiter ∈ waiters, waiter.Waiting name) (error : RpcError) :
    Accounted (waiters.foldl (fun m => m.failClient error) m) ⟨handles, calls, addrs⟩ := by
  refine Accounted.foldl ?_ h
  intro m handles calls addrs waiter hwaiter hm
  have hnone : waiter.handle = none := by rw [hwaiting waiter hwaiter]
  refine Accounted.failClient ?_ error
  rw [hnone]
  exact hm

theorem Accounted.startAll (h : Accounted m ⟨handles, openCalls waiters ++ calls, addrs⟩)
    (hwaiting : ∀ waiter ∈ waiters, waiter.Waiting name) (record : Nat) (hg : Nat → HgResults)
    (stray : Nat → Option Nat) :
    Accounted (waiters.foldl (startWaiter name record hg stray) m) ⟨handles, calls, addrs⟩ := by
  refine Accounted.foldl ?_ h
  intro m handles calls addrs waiter hwaiter hm
  have hnone : waiter.handle = none := by rw [hwaiting waiter hwaiter]
  unfold startWaiter
  refine Accounted.startClientForward ?_ ?_ (hg waiter.id)
  · exact hm.sameCall rfl rfl
  · exact hnone

/-- A lookup that is taken was pending, and its record has no other and no address. -/
theorem takePendingLookup_spec (h : m.takePendingLookup name = (some lookup, m')) :
    ∃ peer, m.peers.lookup name = some peer ∧ peer.pendingLookup = some lookup ∧
      ((peer.addr = none ∧ peer.pools = [] ∧ m' = { m with peers := m.peers.erase name }) ∨
        m' = m.setPeer name { peer with pendingLookup := none }) := by
  unfold MercuryShard.takePendingLookup at h
  split at h
  · cases h
  next peer hpeer =>
    split at h
    · cases h
    next found hfound =>
      split at h
      · next hempty =>
          obtain ⟨hlookup, hm⟩ := Prod.mk.inj h
          cases hlookup
          exact ⟨peer, hpeer, hfound, Or.inl ⟨hempty.1, hempty.2, hm.symm⟩⟩
      · obtain ⟨hlookup, hm⟩ := Prod.mk.inj h
        cases hlookup
        exact ⟨peer, hpeer, hfound, Or.inr hm.symm⟩

theorem takePendingLookup_none (h : m.takePendingLookup name = (none, m')) : m' = m := by
  unfold MercuryShard.takePendingLookup at h
  split at h
  · exact (Prod.mk.inj h).2.symm
  · split at h
    · exact (Prod.mk.inj h).2.symm
    · split at h
      · cases (Prod.mk.inj h).1
      · cases (Prod.mk.inj h).1

theorem Accounted.takePendingLookup (h : Accounted m ⟨handles, calls, addrs⟩)
    (htake : m.takePendingLookup name = (some lookup, m')) :
    Accounted m' ⟨handles, openCalls lookup.waiters ++ calls, addrs⟩ ∧
      (∀ waiter ∈ lookup.waiters, waiter.Waiting name) ∧ lookup.cancelled = false ∧
      lookup.peer = name ∧
      ∀ peer, m'.peers.lookup name = some peer → peer.pendingLookup = none := by
  obtain ⟨peer, hpeer, hpending, hend⟩ := takePendingLookup_spec htake
  obtain ⟨haddr, hcancelled, hname, hwaiting⟩ := (h.peers name peer hpeer).pending lookup hpending
  have hwaiters : peer.waiting = lookup.waiters := by rw [PeerState.waiting, hpending]
  refine ⟨?_, hwaiting, hcancelled, hname, ?_⟩
  · rcases hend with ⟨-, hpools, rfl⟩ | rfl
    · have herased := h.erasePeer hpeer
      have hnone : peer.pooled = [] := by rw [PeerState.pooled, hpools, List.flatMap_nil]
      rw [hwaiters, hnone, haddr] at herased
      exact herased
    · have hok : PeerState.Ok { peer with pendingLookup := none } name :=
        ⟨(h.peers name peer hpeer).pools, fun _ hother => nomatch hother⟩
      refine h.replacePeer hpeer hok (fun _ => rfl) ?_ (fun _ => le_refl _)
      intro x
      simp only [hwaiters, List.count_append]
      exact Nat.zero_add _
  · intro found hfound
    rcases hend with ⟨-, -, rfl⟩ | rfl
    · rw [AList.lookup_erase] at hfound
      cases hfound
    · rw [MercuryShard.setPeer, AList.lookup_insert] at hfound
      rw [← Option.some.inj hfound]

theorem Accounted.cacheAddr {addr : Nat} (h : Accounted m ⟨handles, calls, [addr]⟩)
    (hpeer : m.peers.lookup name = some peer) (hidle : peer.pendingLookup = none) :
    Accounted (m.cacheAddr name peer addr) ⟨handles, calls, []⟩ := by
  unfold MercuryShard.cacheAddr
  split
  · next hnone =>
      have hok : PeerState.Ok { peer with addr := some addr } name := by
        refine ⟨(h.peers name peer hpeer).pools, fun other hother => ?_⟩
        rw [hidle] at hother
        cases hother
      refine h.replacePeer hpeer hok (fun _ => rfl) (fun _ => rfl) ?_
      intro x
      simp only [hnone, Option.toList_some, Option.toList_none, List.count_nil]
      omega
  · split
    · have hfront : Accounted m ⟨handles, calls, [addr] ++ []⟩ := h
      exact hfront.freeAll
    · exact h.loseAddrs

end Functions

/-! ### Events -/

section Events

variable {m : MercuryShard} {p : ClientRpcState → Bool} {state : ClientRpcState} {name : String}
  {waiters : List ClientRpcState}

/-- The accounts between events. -/
def Settled (m : MercuryShard) : Prop := Accounted m ⟨[], [], []⟩

theorem Settled.start : Settled {} where
  handles := fun _ => rfl
  calls := fun _ => rfl
  addrs := fun _ => Nat.zero_le _
  peers := fun _ _ hpeer => nomatch hpeer
  orphaned := fun _ hlookup => nomatch hlookup

theorem Settled.forward (h : Settled m) (name : String) (rpcId : Nat)
    (bulkCreated lookupStarted : Bool) (hg : HgResults) :
    Settled (m.forward name rpcId bulkCreated lookupStarted hg) := by
  unfold MercuryShard.forward
  split
  · exact h
  have hcall := h.newCall.peerState name
  obtain ⟨hfound, -⟩ := peerState_spec { m with calls := m.calls + 1 } name
  have hok := hcall.peers _ _ hfound
  simp only
  split
  · next addr haddr =>
      refine Accounted.startClientForward ?_ rfl hg
      exact hcall
  next haddr =>
    split
    · next lookup hpending =>
        obtain ⟨-, hcancelled, hname, hwaiting⟩ := hok.pending lookup hpending
        have hwaiters :
            (peerState { m with calls := m.calls + 1 } name).1.waiting = lookup.waiters := by
          rw [PeerState.waiting, hpending]
        refine hcall.replacePeer hfound ⟨hok.pools, ?_⟩ (fun _ => rfl) ?_ (fun _ => le_refl _)
        · intro other hother
          cases hother
          refine ⟨haddr, hcancelled, hname, List.forall_mem_append.mpr ⟨hwaiting, ?_⟩⟩
          rw [List.forall_mem_singleton]
          rfl
        · intro x
          rw [hwaiters]
          simp only [PeerState.waiting, openCalls_append, List.count_append]
          rfl
    · next hidle =>
        have hnone : (peerState { m with calls := m.calls + 1 } name).1.waiting = [] := by
          rw [PeerState.waiting, hidle]
        have hset : Accounted ((peerState { m with calls := m.calls + 1 } name).2.setPeer name
            { (peerState { m with calls := m.calls + 1 } name).1 with
              pendingLookup := some
                { id := (peerState { m with calls := m.calls + 1 } name).2.lookupsMade
                  peer := name
                  waiters := [{ id := m.calls, peer := name, rpcId := rpcId }] } })
            ⟨[], [], []⟩ := by
          refine hcall.replacePeer hfound ⟨hok.pools, ?_⟩ (fun _ => rfl) ?_ (fun _ => le_refl _)
          · intro other hother
            cases hother
            refine ⟨haddr, rfl, rfl, ?_⟩
            rw [List.forall_mem_singleton]
            rfl
          · intro x
            rw [hnone]
            exact Nat.add_comm _ _
        split
        · exact hset.lookupsSet _ _
        · split
          · next m' htake =>
              rw [takePendingLookup_none htake]
              exact hset.lookupsSet _ _
          · next failed m' htake =>
              obtain ⟨htaken, hwaiting, -⟩ := (hset.lookupsSet _ _).takePendingLookup htake
              exact htaken.failAll hwaiting .addrLookup

theorem Settled.lookupCb (h : Settled m) (raw : Nat × String) (resolved : Bool)
    (hg : Nat → HgResults) (stray : Nat → Option Nat) :
    Settled (m.lookupCb raw resolved hg stray) := by
  unfold MercuryShard.lookupCb
  simp only
  -- the address the lookup brings is in hand first
  have haddr : Accounted
      { m with addrs := m.addrs + (if resolved then some m.addrs else none).toList.length }
      ⟨[], [], (if resolved then some m.addrs else none).toList⟩ := by
    cases resolved with
    | true => exact h.newAddr
    | false => exact h
  split
  · next lookup m' htake =>
      obtain ⟨htaken, hwaiting, hcancelled, hname, hidle⟩ := haddr.takePendingLookup htake
      unfold finishLookup
      rw [hcancelled, if_neg Bool.false_ne_true]
      cases resolved with
      | false => exact htaken.failAll hwaiting .addrLookup
      | true =>
        obtain ⟨hfound, hold⟩ := peerState_spec m' lookup.peer
        have hpending : (m'.peerState lookup.peer).1.pendingLookup = none := by
          rcases hold with hold | hnew
          · rw [hname] at hold
            rw [hname]
            exact hidle _ hold
          · rw [hnew]
        simp only [if_true]
        refine Accounted.startAll ?_ (hname ▸ hwaiting) _ hg stray
        exact (htaken.peerState lookup.peer).cacheAddr hfound hpending
  · next m' htake =>
      obtain rfl := takePendingLookup_none htake
      split
      · next lookup m' horphaned =>
          obtain ⟨hlookup, rfl⟩ := Prod.mk.inj horphaned
          have hcancelled : lookup.cancelled = true :=
            h.orphaned lookup (List.mem_of_find?_eq_some hlookup)
          unfold finishLookup
          rw [hcancelled, if_pos rfl]
          exact ⟨haddr.loseAddrs.handles, haddr.loseAddrs.calls, haddr.loseAddrs.addrs,
            haddr.loseAddrs.peers,
            fun other hother => h.orphaned other (List.mem_of_mem_eraseP hother)⟩
      · next m' horphaned =>
          obtain ⟨-, rfl⟩ := Prod.mk.inj horphaned
          exact ⟨haddr.loseAddrs.handles, haddr.loseAddrs.calls, haddr.loseAddrs.addrs,
            haddr.loseAddrs.peers,
            fun other hother => h.orphaned other (List.mem_of_mem_eraseP hother)⟩

theorem Settled.forwardCb (h : Settled m) (hfind : m.inFlight.find? p = some state)
    (result : ForwardResult) :
    Settled (forwardCb { m with inFlight := m.inFlight.eraseP p } state result) := by
  have htaken := h.takeInFlight hfind
  unfold Settled
  cases result with
  | transport => exact htaken.finish { state with dropPeerOnCleanup := true } rfl _
  | noOutput => exact htaken.finish { state with recycleHandle := true } rfl _
  | handlerFailed => exact htaken.finish { state with recycleHandle := true } rfl _
  | reply => exact htaken.finish { state with recycleHandle := true } rfl _

theorem Settled.timeout (h : Settled m) (hfind : m.inFlight.find? p = some state) :
    Settled (timeout { m with inFlight := m.inFlight.eraseP p } state) := by
  have htaken := (h.takeInFlight hfind).complete (.error .timedOut)
  unfold MercuryShard.timeout
  refine Accounted.give ?_
  exact htaken

/-! ### The end of the shard -/

/-- Calls that wait have no handle and drop no peer, so nothing is done for them but to fail
    them. -/
theorem foldl_stopped (hwaiting : ∀ waiter ∈ waiters, waiter.Waiting name) (m : MercuryShard) :
    waiters.foldl (fun m waiter => (complete m waiter (.error .stopped)).cleanupClient waiter) m =
      { m with
        completed := m.completed ++ waiters.map fun waiter => (waiter.id, .error .stopped) } := by
  induction waiters generalizing m with
  | nil => rw [List.foldl_nil, List.map_nil, List.append_nil]
  | cons waiter waiters ih =>
    obtain ⟨hfirst, hrest⟩ := List.forall_mem_cons.mp hwaiting
    rw [List.foldl_cons, ih hrest, List.map_cons, ← List.singleton_append, ← List.append_assoc]
    rw [hfirst]
    rfl

theorem openCalls_of_waiting (hwaiting : ∀ waiter ∈ waiters, waiter.Waiting name) :
    openCalls waiters = waiters.map ClientRpcState.id := by
  unfold openCalls
  rw [List.filter_eq_self.mpr]
  intro waiter hwaiter
  rw [hwaiting waiter hwaiter]
  rfl

/-- What becomes of a peer's lookup when the shard is stopped. -/
def orphanOf (peer : PeerState) : List LookupState :=
  peer.pendingLookup.toList.map fun lookup => { lookup with waiters := [], cancelled := true }

theorem clearPeer_eq {peer : PeerState} (hok : peer.Ok name) (m : MercuryShard) :
    m.clearPeer peer = { m with
      completed := m.completed ++ peer.waiting.map fun waiter => (waiter.id, .error .stopped)
      orphanedLookups := m.orphanedLookups ++ orphanOf peer
      destroyed := m.destroyed ++ peer.pooled
      freed := m.freed ++ peer.addr.toList } := by
  unfold MercuryShard.clearPeer PeerState.waiting orphanOf
  cases hpending : peer.pendingLookup with
  | none => simp only [List.map_nil, List.append_nil, Option.toList_none]
  | some lookup =>
    obtain ⟨-, -, -, hwaiting⟩ := hok.pending lookup hpending
    simp only [foldl_stopped hwaiting, Option.toList_some, List.map_cons, List.map_nil]

theorem foldl_clearPeer {peers : List PeerState} (hok : ∀ peer ∈ peers, ∃ name, peer.Ok name)
    (m : MercuryShard) :
    peers.foldl clearPeer m = { m with
      completed := m.completed ++ peers.flatMap fun peer =>
        peer.waiting.map fun waiter => (waiter.id, .error .stopped)
      orphanedLookups := m.orphanedLookups ++ peers.flatMap orphanOf
      destroyed := m.destroyed ++ peers.flatMap PeerState.pooled
      freed := m.freed ++ peers.flatMap fun peer => peer.addr.toList } := by
  induction peers generalizing m with
  | nil => simp only [List.foldl_nil, List.flatMap_nil, List.append_nil]
  | cons peer peers ih =>
    obtain ⟨⟨name, hfirst⟩, hrest⟩ := List.forall_mem_cons.mp hok
    rw [List.foldl_cons, ih hrest, clearPeer_eq hfirst]
    simp only [List.flatMap_cons, List.append_assoc]

theorem Settled.entries_ok (h : Settled m) :
    ∀ peer ∈ m.peers.entries.map Sigma.snd, ∃ name, PeerState.Ok peer name := by
  intro peer hpeer
  obtain ⟨entry, hentry, rfl⟩ := List.mem_map.mp hpeer
  exact ⟨entry.1, h.peers entry.1 entry.2 (AList.mem_lookup_iff.mpr hentry)⟩

theorem Settled.clearAllPeers (h : Settled m) : Settled m.clearAllPeers := by
  unfold MercuryShard.clearAllPeers
  rw [foldl_clearPeer h.entries_ok]
  exact
    { handles := h.handles.congr fun x => by
        simp only [handleFound, held, total_empty, List.count_append, count_flatMap_entries]
        omega
      calls := h.calls.congr fun x => by
        have hwaiting : total (fun peer => (openCalls peer.waiting).count x) m.peers =
            total (fun peer => (peer.waiting.map ClientRpcState.id).count x) m.peers := by
          refine total_congr fun name peer hpeer => ?_
          unfold PeerState.waiting
          split
          · rfl
          · next lookup hpending =>
              rw [openCalls_of_waiting ((h.peers name peer hpeer).pending lookup hpending).2.2.2]
        have hids : (Prod.fst ∘ fun waiter : ClientRpcState =>
            (waiter.id, Completion.error .stopped)) = ClientRpcState.id := rfl
        simp only [callFound, total_empty, List.map_append, List.map_flatMap, List.map_map, hids,
          List.count_append, hwaiting, ← count_flatMap_entries]
        omega
      addrs := fun x => by
        refine le_trans ?_ (h.addrs x)
        simp only [addrFound, total_empty, List.count_append, count_flatMap_entries]
        omega
      peers := fun _ _ hpeer => nomatch hpeer
      orphaned := by
        intro lookup hlookup
        rcases List.mem_append.mp hlookup with hold | hnew
        · exact h.orphaned lookup hold
        · obtain ⟨peer, -, hpeer⟩ := List.mem_flatMap.mp hnew
          obtain ⟨pending, -, rfl⟩ := List.mem_map.mp hpeer
          rfl }

theorem Settled.stop (h : Settled m) : Settled m.stop := by
  unfold MercuryShard.stop
  split
  · exact h
  · have hstopped : Settled { m with running := false } :=
      ⟨h.handles, h.calls, h.addrs, h.peers, h.orphaned⟩
    exact hstopped.clearAllPeers

/-! ### Runs -/

theorem Settled.step {m' : MercuryShard} (h : Settled m) (event : Event)
    (hstep : m.step event = some m') : Settled m' := by
  cases event with
  | forward name rpcId bulkCreated lookupStarted hg =>
    obtain rfl := Option.some.inj hstep
    exact h.forward name rpcId bulkCreated lookupStarted hg
  | lookupCb id resolved hg stray =>
    obtain ⟨raw, -, rfl⟩ := Option.map_eq_some_iff.mp hstep
    exact Settled.lookupCb (h.lookupsSet _ _) raw resolved hg stray
  | forwardCb id result =>
    obtain ⟨state, hfind, rfl⟩ := Option.map_eq_some_iff.mp hstep
    exact h.forwardCb hfind result
  | timeout id =>
    obtain ⟨state, hfind, rfl⟩ := Option.map_eq_some_iff.mp hstep
    exact h.timeout hfind
  | stop =>
    obtain rfl := Option.some.inj hstep
    exact h.stop

theorem Reached.settled (h : Reached m) : Settled m := by
  refine Transition.Reachable.invariant ?_ ?_ h
  · rintro _ rfl
    exact Settled.start
  · exact fun _ event _ hsettled _ hstep => hsettled.step event hstep

/-- **A promise is completed at most once, and a handle has one owner.**  After any events, each
    call has completed its promise at most once; each handle that was made is with one call that
    Mercury has, or once in one pool, or has been destroyed once; and no pool is over its
    limit. -/
theorem promises_and_handles_owned (h : Reached m) :
    (∀ id, (m.completed.map Prod.fst).count id ≤ 1) ∧
      (∀ handle < m.handles,
        m.held.count handle + m.pooled.count handle + m.destroyed.count handle = 1) ∧
      ∀ name peer, m.peers.lookup name = some peer →
        ∀ pool ∈ peer.pools, pool.handles.length ≤ kHandlePoolLimitPerPeerRpc := by
  have hsettled := h.settled
  refine ⟨?_, ?_, ?_⟩
  · intro id
    have hfound := hsettled.calls id
    simp only [callFound] at hfound
    split at hfound <;> omega
  · intro handle hmade
    have hfound := hsettled.handles handle
    rw [if_pos hmade] at hfound
    simp only [handleFound, List.count_nil] at hfound
    rw [count_pooled]
    omega
  · exact fun name peer hpeer => (hsettled.peers name peer hpeer).pools

end Events

/-- Two calls wait for one address; the second cannot be created, and drops the peer.  The
    first times out, and comes back all the same while a third is waiting: its handle goes to
    the pool of the new record. -/
def lateReply : List Event :=
  [.forward "p" 1 true true {}, .forward "p" 1 true true {},
    .lookupCb 0 true (fun id => { create := id = 0 }) (fun _ => none), .timeout 0,
    .forward "p" 1 true true {}, .forwardCb 0 .reply]

theorem promises_and_handles_owned_late :
    ∃ m, Transition.run step {} lateReply = some m ∧
      (∀ id, (m.completed.map Prod.fst).count id ≤ 1) ∧
      (∀ handle < m.handles,
        m.held.count handle + m.pooled.count handle + m.destroyed.count handle = 1) ∧
      ∀ name peer, m.peers.lookup name = some peer →
        ∀ pool ∈ peer.pools, pool.handles.length ≤ kHandlePoolLimitPerPeerRpc := by
  have hruns : (Transition.run step {} lateReply).isSome := by decide +kernel
  obtain ⟨m, hm⟩ := Option.isSome_iff_exists.mp hruns
  refine ⟨m, hm, ?_⟩
  exact promises_and_handles_owned
    (Transition.Reachable.of_run (.start rfl) lateReply (fun _ _ _ => trivial) hm)

end MercuryShard

end Mkmq

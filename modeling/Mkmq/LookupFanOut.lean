import Mkmq.RpcOwnership

/-!
# The waiters of a lookup

`lookup_cb` takes a reference to the record of the peer and starts the waiters one after
another, each with `peer.addr` as it is read through the reference.  A waiter that cannot be
started drops the peer: the address is freed, and since no lookup is pending any more the
record is erased.  The loop goes on with a reference to nothing.  So the waiters are served as
they should be exactly when none but the last fails to start.
-/

namespace Mkmq

namespace MercuryShard

/-! ### What is asked of the loop -/

/-- The record and the shard that the loop starts with, when the lookup has succeeded. -/
def fanOutStart (m : MercuryShard) (lookup : LookupState) : Nat × MercuryShard :=
  let m' := (takePendingLookup { m with addrs := m.addrs + 1 } lookup.peer).2
  ((m'.peerState lookup.peer).1.record,
    (m'.peerState lookup.peer).2.cacheAddr lookup.peer (m'.peerState lookup.peer).1 m.addrs)

section Loop

variable (name : String) (record : Nat) (hg : Nat → HgResults) (stray : Nat → Option Nat)

/-- A waiter is started through a record that exists, and then either Mercury has it with an
    address that is not freed, or it is failed with an error.  The address is given to
    `HG_Reset` or `HG_Create` before a waiter can fail, so one that is read from a record that
    is gone has been used in either case. -/
structure ServedLive (m : MercuryShard) (waiter : ClientRpcState) : Prop where
  exists_record : ∃ peer, m.peers.lookup name = some peer ∧ peer.record = record
  served :
    (∃ state ∈ (startWaiter name record hg stray m waiter).inFlight, state.id = waiter.id ∧
      ∃ addr, state.addr = some addr ∧ addr ∉ (startWaiter name record hg stray m waiter).freed) ∨
    ∃ error, (waiter.id, .error error) ∈ (startWaiter name record hg stray m waiter).completed

/-- Every waiter is, in the state the ones before it have left. -/
def FanOutLive : MercuryShard → List ClientRpcState → Prop
  | _, [] => True
  | m, waiter :: rest =>
    ServedLive name record hg stray m waiter ∧
      FanOutLive (startWaiter name record hg stray m waiter) rest

end Loop

/-! ### What decides it -/

/-- The waiter gets no handle, or cannot be forwarded. -/
def StartFails (hg : Nat → HgResults) (pools : List HandlePool) (waiter : ClientRpcState) : Prop :=
  (((takeCachedHandle waiter.rpcId pools).1 = none ∨ (hg waiter.id).reset = false) ∧
      (hg waiter.id).create = false) ∨
    (hg waiter.id).forward = false

instance (hg : Nat → HgResults) (pools : List HandlePool) (waiter : ClientRpcState) :
    Decidable (StartFails hg pools waiter) := by
  unfold StartFails
  infer_instance

/-- No waiter but the last fails to start, with the handles the ones before it have left in
    the pools. -/
def OnlyLastFails (hg : Nat → HgResults) : List HandlePool → List ClientRpcState → Prop
  | _, [] => True
  | pools, waiter :: rest =>
    (rest = [] ∨ ¬ StartFails hg pools waiter) ∧
      OnlyLastFails hg (takeCachedHandle waiter.rpcId pools).2 rest

/-! ### One waiter -/

section Waiter

variable {m : MercuryShard} {name : String} {peer : PeerState} {hg : Nat → HgResults}
  {waiter : ClientRpcState} {waiters : List ClientRpcState}

/-- What the search for a handle leaves as it was, and when it comes back without one. -/
theorem obtainHandle_of_found (state : ClientRpcState) (results : HgResults)
    (hpeer : m.peers.lookup state.peer = some peer) :
    (m.obtainHandle results state).2.peers =
        m.peers.insert state.peer
          { peer with pools := (takeCachedHandle state.rpcId peer.pools).2 } ∧
      (m.obtainHandle results state).2.freed = m.freed ∧
      ((m.obtainHandle results state).1 = none ↔
        ((takeCachedHandle state.rpcId peer.pools).1 = none ∨ results.reset = false) ∧
          results.create = false) := by
  unfold obtainHandle peerState
  rw [hpeer]
  simp only
  split
  · next handle hcached hreset =>
      refine ⟨rfl, rfl, ?_⟩
      simp only [hcached, hreset, reduceCtorEq, Bool.true_eq_false, or_self, false_and]
  · next cached reset hreset =>
      have hno : (takeCachedHandle state.rpcId peer.pools).1 = none ∨ results.reset = false := by
        cases hcached : (takeCachedHandle state.rpcId peer.pools).1 with
        | none => exact Or.inl rfl
        | some handle =>
          cases hres : results.reset with
          | false => exact Or.inr rfl
          | true => exact absurd hres (hreset handle hcached)
      split
      · next hcreate => exact ⟨rfl, rfl, by simp [hcreate]⟩
      · next hcreate => exact ⟨rfl, rfl, by simp [hno, hcreate]⟩

/-- A call that is failed and drops its peer leaves no record, and its error. -/
theorem failClient_of_drop (state : ClientRpcState) (hpeer : m.peers.lookup state.peer = some peer)
    (hidle : peer.pendingLookup = none) (hopen : state.promiseDone = false)
    (hkeep : state.recycleHandle = false) (hdrop : state.dropPeerOnCleanup = true)
    (error : RpcError) :
    (m.failClient error state).peers.lookup state.peer = none ∧
      (state.id, .error error) ∈ (m.failClient error state).completed := by
  have hdropped : ∀ m' : MercuryShard, m'.peers = m.peers →
      (state.id, .error error) ∈ m'.completed →
      (m'.dropPeer state.peer).peers.lookup state.peer = none ∧
        (state.id, .error error) ∈ (m'.dropPeer state.peer).completed := by
    intro m' hpeers hcompleted
    have hpeer' : m'.peers.lookup state.peer = some peer := by rw [hpeers, hpeer]
    rw [dropPeer_of_idle hpeer' hidle]
    exact ⟨AList.lookup_erase _ _, hcompleted⟩
  have hlast : (state.id, Completion.error error) ∈ m.completed ++ [(state.id, .error error)] :=
    List.mem_append_right _ List.mem_cons_self
  unfold failClient complete cleanupClient
  simp only [hopen, hkeep, hdrop, Bool.false_eq_true, if_false, if_true]
  split
  · exact hdropped _ rfl hlast
  · exact hdropped _ rfl hlast

/-- While the record exists, a waiter is given the address that stands in it. -/
theorem startWaiter_of_record (hpeer : m.peers.lookup name = some peer) (stray : Nat → Option Nat) :
    startWaiter name peer.record hg stray m waiter =
      m.startClientForward (hg waiter.id) { waiter with addr := peer.addr } := by
  unfold startWaiter readAddr
  simp only [hpeer, if_true]

theorem startWaiter_of_starts (hpeer : m.peers.lookup name = some peer)
    (hwaiting : waiter.Waiting name) (hstarts : ¬ StartFails hg peer.pools waiter)
    (stray : Nat → Option Nat) :
    (startWaiter name peer.record hg stray m waiter).peers.lookup name =
        some { peer with pools := (takeCachedHandle waiter.rpcId peer.pools).2 } ∧
      (startWaiter name peer.record hg stray m waiter).freed = m.freed ∧
      ∃ state ∈ (startWaiter name peer.record hg stray m waiter).inFlight,
        state.id = waiter.id ∧ state.addr = peer.addr := by
  have hname : waiter.peer = name := by rw [hwaiting]
  have hopen : waiter.promiseDone = false := by rw [hwaiting]
  subst hname
  obtain ⟨hpeers, hfreed, hnone⟩ := obtainHandle_of_found
    { waiter with addr := peer.addr } (hg waiter.id) hpeer
  unfold StartFails at hstarts
  push Not at hstarts
  rw [startWaiter_of_record hpeer, startClientForward, if_neg (by simp [hopen])]
  split
  · next m' hresult =>
      rw [hresult] at hnone
      obtain ⟨hcached, hcreate⟩ := hnone.mp rfl
      exact absurd hcreate (hstarts.1 hcached)
  · next handle m' hresult =>
      rw [hresult] at hpeers hfreed
      have hforward : (hg waiter.id).forward = true := by simpa using hstarts.2
      simp only [hforward, if_true]
      refine ⟨?_, hfreed, _, List.mem_append_right _ List.mem_cons_self, rfl, rfl⟩
      rw [hpeers, AList.lookup_insert]

theorem startWaiter_of_fails (hpeer : m.peers.lookup name = some peer)
    (hidle : peer.pendingLookup = none) (hwaiting : waiter.Waiting name)
    (hfails : StartFails hg peer.pools waiter) (stray : Nat → Option Nat) :
    (startWaiter name peer.record hg stray m waiter).peers.lookup name = none ∧
      ∃ error, (waiter.id, .error error) ∈
        (startWaiter name peer.record hg stray m waiter).completed := by
  have hname : waiter.peer = name := by rw [hwaiting]
  have hopen : waiter.promiseDone = false := by rw [hwaiting]
  have hkeep : waiter.recycleHandle = false := by rw [hwaiting]
  subst hname
  obtain ⟨hpeers, -, hnone⟩ := obtainHandle_of_found
    { waiter with addr := peer.addr } (hg waiter.id) hpeer
  rw [startWaiter_of_record hpeer, startClientForward, if_neg (by simp [hopen])]
  split
  · next m' hresult =>
      rw [hresult] at hpeers
      have hfound : m'.peers.lookup waiter.peer =
          some { peer with pools := (takeCachedHandle waiter.rpcId peer.pools).2 } := by
        rw [hpeers, AList.lookup_insert]
      obtain ⟨hgone, herror⟩ := failClient_of_drop
        { waiter with addr := peer.addr, dropPeerOnCleanup := true } hfound hidle hopen hkeep rfl
        .create
      exact ⟨hgone, .create, herror⟩
  · next handle m' hresult =>
      rw [hresult] at hpeers hnone
      have hfound : m'.peers.lookup waiter.peer =
          some { peer with pools := (takeCachedHandle waiter.rpcId peer.pools).2 } := by
        rw [hpeers, AList.lookup_insert]
      have hforward : (hg waiter.id).forward = false := by
        rcases hfails with hno | hforward
        · exact absurd (hnone.mpr hno) (by simp)
        · exact hforward
      simp only [hforward, Bool.false_eq_true, if_false]
      obtain ⟨hgone, herror⟩ := failClient_of_drop
        { waiter with addr := peer.addr, handle := some handle, dropPeerOnCleanup := true }
        hfound hidle hopen hkeep rfl .forward
      exact ⟨hgone, .forward, herror⟩

/-- Through a record that exists, a waiter is served one way or the other. -/
theorem servedLive_of_record {addr : Nat} (hpeer : m.peers.lookup name = some peer)
    (hidle : peer.pendingLookup = none) (haddr : peer.addr = some addr) (hlive : addr ∉ m.freed)
    (hwaiting : waiter.Waiting name) (stray : Nat → Option Nat) :
    ServedLive name peer.record hg stray m waiter := by
  refine ⟨⟨peer, hpeer, rfl⟩, ?_⟩
  by_cases hfails : StartFails hg peer.pools waiter
  · exact Or.inr (startWaiter_of_fails hpeer hidle hwaiting hfails stray).2
  · obtain ⟨-, hfreed, state, hstate, hid, hgiven⟩ :=
      startWaiter_of_starts hpeer hwaiting hfails stray
    refine Or.inl ⟨state, hstate, hid, addr, hgiven.trans haddr, ?_⟩
    rw [hfreed]
    exact hlive

/-! ### The loop -/

/-- Without the record, nothing more is served. -/
theorem not_fanOutLive_of_gone {record : Nat} {stray : Nat → Option Nat}
    (hgone : m.peers.lookup name = none) (hne : waiters ≠ []) :
    ¬ FanOutLive name record hg stray m waiters := by
  cases waiters with
  | nil => exact absurd rfl hne
  | cons waiter rest =>
    rintro ⟨⟨⟨peer, hpeer, -⟩, -⟩, -⟩
    rw [hgone] at hpeer
    cases hpeer

/-- **The loop serves all its waiters exactly when none but the last fails to start.** -/
theorem fanOutLive_iff_of_record {addr : Nat} (hpeer : m.peers.lookup name = some peer)
    (hidle : peer.pendingLookup = none) (haddr : peer.addr = some addr) (hlive : addr ∉ m.freed)
    (hwaiting : ∀ waiter ∈ waiters, waiter.Waiting name) (stray : Nat → Option Nat) :
    FanOutLive name peer.record hg stray m waiters ↔ OnlyLastFails hg peer.pools waiters := by
  induction waiters generalizing m peer with
  | nil => exact Iff.rfl
  | cons waiter rest ih =>
    obtain ⟨hfirst, hrest⟩ := List.forall_mem_cons.mp hwaiting
    have hserved : ServedLive name peer.record hg stray m waiter :=
      servedLive_of_record hpeer hidle haddr hlive hfirst stray
    rw [FanOutLive, OnlyLastFails]
    by_cases hfails : StartFails hg peer.pools waiter
    · obtain ⟨hgone, -⟩ := startWaiter_of_fails hpeer hidle hfirst hfails stray
      cases rest with
      | nil => exact iff_of_true ⟨hserved, trivial⟩ ⟨Or.inl rfl, trivial⟩
      | cons next later =>
        refine iff_of_false ?_ ?_
        · rintro ⟨-, hlater⟩
          exact not_fanOutLive_of_gone hgone (List.cons_ne_nil _ _) hlater
        · rintro ⟨hlast | hstarts, -⟩
          · exact List.cons_ne_nil _ _ hlast
          · exact hstarts hfails
    · obtain ⟨hpeer', hfreed, -⟩ := startWaiter_of_starts hpeer hfirst hfails stray
      have hlater := ih hpeer' hidle haddr (by rwa [hfreed]) hrest
      constructor
      · rintro ⟨-, hlive'⟩
        exact ⟨Or.inr hfails, hlater.mp hlive'⟩
      · rintro ⟨-, honly⟩
        exact ⟨hserved, hlater.mpr honly⟩

end Waiter

/-! ### The callback -/

section Callback

variable {m : MercuryShard} {peer : PeerState} {lookup : LookupState}

/-- When the loop starts, the record has the new address and the handles it had. -/
theorem fanOutStart_spec (h : Settled m) (hpeer : m.peers.lookup lookup.peer = some peer)
    (hpending : peer.pendingLookup = some lookup) :
    ∃ started : PeerState,
      (fanOutStart m lookup).2.peers.lookup lookup.peer = some started ∧
        started.record = (fanOutStart m lookup).1 ∧ started.pendingLookup = none ∧
        started.addr = some m.addrs ∧ started.pools = peer.pools ∧
        (fanOutStart m lookup).2.freed = m.freed := by
  obtain ⟨haddr, -⟩ := (h.peers _ _ hpeer).pending lookup hpending
  unfold fanOutStart takePendingLookup
  simp only [hpeer, hpending]
  split
  · next hempty =>
      unfold peerState cacheAddr setPeer
      simp only [AList.lookup_erase]
      exact ⟨_, AList.lookup_insert _, rfl, rfl, rfl, hempty.2.symm, trivial⟩
  · unfold peerState cacheAddr setPeer
    simp only [AList.lookup_insert, haddr]
    exact ⟨_, rfl, rfl, rfl, rfl, rfl, trivial⟩

theorem lookupCb_eq_fanOut (h : Settled m) {raw : Nat × String} (hraw : raw.2 = lookup.peer)
    (hpeer : m.peers.lookup lookup.peer = some peer) (hpending : peer.pendingLookup = some lookup)
    (hg : Nat → HgResults) (stray : Nat → Option Nat) :
    m.lookupCb raw true hg stray =
      lookup.waiters.foldl (startWaiter lookup.peer (fanOutStart m lookup).1 hg stray)
        (fanOutStart m lookup).2 := by
  obtain ⟨-, hcancelled, -⟩ := (h.peers _ _ hpeer).pending lookup hpending
  have htake : (takePendingLookup { m with addrs := m.addrs + 1 } lookup.peer).1 = some lookup := by
    unfold takePendingLookup
    simp only [hpeer, hpending]
    split
    · rfl
    · rfl
  unfold lookupCb fanOutStart
  simp only [hraw, if_true, Option.toList_some, List.length_singleton]
  split
  · next found m' hresult =>
      rw [hresult] at htake
      obtain rfl := Option.some.inj htake
      rw [hresult, finishLookup, if_neg (by simp [hcancelled])]
  · next m' hresult =>
      rw [hresult] at htake
      cases htake

theorem fanOutLive_iff (h : Settled m) (hpeer : m.peers.lookup lookup.peer = some peer)
    (hpending : peer.pendingLookup = some lookup) (hg : Nat → HgResults)
    (stray : Nat → Option Nat) :
    FanOutLive lookup.peer (fanOutStart m lookup).1 hg stray (fanOutStart m lookup).2
        lookup.waiters ↔ OnlyLastFails hg peer.pools lookup.waiters := by
  obtain ⟨started, hstarted, hrecord, hidle, haddr, hpools, hfreed⟩ :=
    fanOutStart_spec h hpeer hpending
  obtain ⟨-, -, -, hwaiting⟩ := (h.peers _ _ hpeer).pending lookup hpending
  -- the address is new, so it has not been freed
  have hlive : m.addrs ∉ m.freed := by
    have hnew := h.addrs m.addrs
    rw [if_neg (lt_irrefl _)] at hnew
    refine List.count_eq_zero.mp ?_
    simp only [addrFound] at hnew
    omega
  rw [← hrecord, ← hpools]
  exact fanOutLive_iff_of_record hstarted hidle haddr (by rwa [hfreed]) hwaiting stray

theorem Settled.nodup_freed (h : Settled m) : m.freed.Nodup := by
  rw [List.nodup_iff_count_le_one]
  intro addr
  have hfound := h.addrs addr
  simp only [addrFound] at hfound
  split at hfound <;> omega

/-- **Coalesced calls are served through live addresses exactly when none but the last fails to
    start.**  After any events, when a lookup with waiters succeeds, its callback is the loop
    over them; each is started through a record that exists and either forwarded with an
    address that is not freed or failed, and no address has been freed twice, if and only if
    no waiter but the last fails to start.  Only the first of these can go wrong. -/
theorem coalesced_calls_live_iff (h : Reached m) {id : Nat} {raw : Nat × String}
    (hraw : m.lookups.find? (fun raw => raw.1 = id) = some raw)
    (hpeer : m.peers.lookup raw.2 = some peer) (hpending : peer.pendingLookup = some lookup)
    (hg : Nat → HgResults) (stray : Nat → Option Nat) :
    let called := { m with lookups := m.lookups.eraseP fun raw => raw.1 = id }
    let start := fanOutStart called lookup
    let final := lookup.waiters.foldl (startWaiter raw.2 start.1 hg stray) start.2
    m.step (.lookupCb id true hg stray) = some final ∧
      (FanOutLive raw.2 start.1 hg stray start.2 lookup.waiters ∧ final.freed.Nodup ↔
        OnlyLastFails hg peer.pools lookup.waiters) := by
  intro called start final
  have hsettled := h.settled
  have hcalled : Settled called := hsettled.lookupsSet _ _
  obtain ⟨-, -, hname, -⟩ := (hsettled.peers _ _ hpeer).pending lookup hpending
  have hstep : m.step (.lookupCb id true hg stray) = some (called.lookupCb raw true hg stray) := by
    rw [step, hraw]
    rfl
  have hfinal : called.lookupCb raw true hg stray = final := by
    have hloop := lookupCb_eq_fanOut hcalled hname.symm (hname ▸ hpeer) hpending hg stray
    rw [hname] at hloop
    exact hloop
  have hnodup : final.freed.Nodup :=
    (hsettled.step _ (hstep.trans (congrArg some hfinal))).nodup_freed
  have hiff := fanOutLive_iff hcalled (hname ▸ hpeer) hpending hg stray
  rw [hname] at hiff
  refine ⟨hstep.trans (congrArg some hfinal), ?_⟩
  rw [← hiff]
  exact and_iff_left hnodup

end Callback

/-! ### Two calls to one peer -/

/-- The lookup that two calls wait for. -/
def sharedLookup : LookupState :=
  { id := 0
    peer := "p"
    waiters := [{ id := 0, peer := "p", rpcId := 1 }, { id := 1, peer := "p", rpcId := 1 }] }

def sharedPeer : PeerState := { record := 0, pendingLookup := some sharedLookup }

/-- A shard that has just taken two calls to `p`. -/
def twoWaiting : MercuryShard :=
  { peers := AList.singleton "p" sharedPeer
    lookups := [(0, "p")]
    calls := 2
    lookupsMade := 1
    records := 1 }

theorem reached_twoWaiting : Reached twoWaiting := by
  have hrun : Transition.run step {}
      [.forward "p" 1 true true {}, .forward "p" 1 true true {}] = some twoWaiting := rfl
  exact Transition.Reachable.of_run (.start rfl) _ (fun _ _ _ => trivial) hrun

theorem lookup_twoWaiting : twoWaiting.peers.lookup sharedLookup.peer = some sharedPeer := rfl

/-- The second call cannot be forwarded: it is failed, after the first has been served. -/
theorem coalesced_calls_live_second :
    let start := fanOutStart { twoWaiting with lookups := [] } sharedLookup
    FanOutLive "p" start.1 (fun id => { forward := id = 0 }) (fun _ => none) start.2
      sharedLookup.waiters := by
  have hraw : twoWaiting.lookups.find? (fun raw => raw.1 = 0) = some (0, "p") := rfl
  have hiff := (coalesced_calls_live_iff reached_twoWaiting hraw lookup_twoWaiting rfl
    (fun id => { forward := id = 0 }) (fun _ => none)).2
  exact (hiff.mpr ⟨Or.inr (by decide), Or.inl rfl, trivial⟩).1

/-- The first call cannot be created: the second is started through a record that is gone,
    say with the address that still stands in its memory. -/
theorem coalesced_calls_not_always_live :
    ¬ ∀ (m : MercuryShard) (raw : Nat × String) (peer : PeerState) (lookup : LookupState)
        (hg : Nat → HgResults) (stray : Nat → Option Nat),
        Reached m → raw ∈ m.lookups → m.peers.lookup raw.2 = some peer →
        peer.pendingLookup = some lookup →
        FanOutLive raw.2 (fanOutStart m lookup).1 hg stray (fanOutStart m lookup).2
          lookup.waiters := by
  intro hall
  have hlive := hall twoWaiting (0, "p") sharedPeer sharedLookup (fun id => { create := id = 1 })
    (fun _ => some 0) reached_twoWaiting List.mem_cons_self rfl rfl
  have hiff := fanOutLive_iff reached_twoWaiting.settled lookup_twoWaiting rfl
    (fun id => { create := id = 1 }) (fun _ => some 0)
  obtain ⟨hlast | hstarts, -⟩ := hiff.mp hlive
  · cases hlast
  · exact hstarts (by decide)

-- Mercury then has the second call, with an address that is freed.
example : ∃ m state, twoWaiting.step
    (.lookupCb 0 true (fun id => { create := id = 1 }) fun _ => some 0) = some m ∧
      state ∈ m.inFlight ∧ state.id = 1 ∧ state.addr = some 0 ∧ 0 ∈ m.freed :=
  ⟨_, _, rfl, List.mem_cons_self, rfl, rfl, List.mem_cons_self⟩

end MercuryShard

end Mkmq

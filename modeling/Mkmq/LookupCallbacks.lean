import Mkmq.RpcOwnership

/-!
# The lookup a callback is called for

Mercury has the bare pointer of a `LookupState` whose owner is the record of the peer.
`lookup_cb` reads the name through the pointer before it has the owner back, so the lookup must
still exist then.  It does: it is pending under its own name, or `stop` has moved it to the
orphans.  Calls come and go meanwhile, and drop the peer; none of this touches the lookup.
-/

namespace Mkmq

open Accounts

namespace MercuryShard

/-- The lookup that is pending under a name. -/
def pendingId (m : MercuryShard) (name : String) : Option Nat :=
  (m.peers.lookup name).bind fun peer => peer.pendingLookup.map LookupState.id

/-- What starting and ending calls leaves alone. -/
structure LookupsKept (m m' : MercuryShard) : Prop where
  running : m'.running = m.running
  lookups : m'.lookups = m.lookups
  orphaned : m'.orphanedLookups = m.orphanedLookups
  made : m.lookupsMade ≤ m'.lookupsMade
  pending : ∀ name, m'.pendingId name = m.pendingId name

/-- Every lookup that Mercury has still exists, and there are orphans only after a stop. -/
structure LookupsAlive (m : MercuryShard) : Prop where
  nodup : (m.lookups.map Prod.fst).Nodup
  made : ∀ raw ∈ m.lookups, raw.1 < m.lookupsMade
  alive : ∀ raw ∈ m.lookups, m.pendingId raw.2 = some raw.1 ∨
    ∃ lookup ∈ m.orphanedLookups, lookup.id = raw.1 ∧ lookup.peer = raw.2
  running : m.running = true → m.orphanedLookups = []
  stopped : m.running = false → ∀ name, m.pendingId name = none

section Kept

variable {m m' m'' : MercuryShard} {name : String} {peer : PeerState}

theorem LookupsKept.refl (m : MercuryShard) : LookupsKept m m :=
  ⟨rfl, rfl, rfl, le_refl _, fun _ => rfl⟩

theorem LookupsKept.trans (h : LookupsKept m m') (h' : LookupsKept m' m'') :
    LookupsKept m m'' where
  running := h'.running.trans h.running
  lookups := h'.lookups.trans h.lookups
  orphaned := h'.orphaned.trans h.orphaned
  made := h.made.trans h'.made
  pending := fun name => (h'.pending name).trans (h.pending name)

theorem LookupsKept.foldl {α : Type} {body : MercuryShard → α → MercuryShard}
    (hbody : ∀ m x, LookupsKept m (body m x)) (items : List α) (m : MercuryShard) :
    LookupsKept m (items.foldl body m) := by
  induction items generalizing m with
  | nil => exact LookupsKept.refl m
  | cons x items ih => exact (hbody m x).trans (ih (body m x))

theorem LookupsAlive.of_kept (h : LookupsAlive m) (hkept : LookupsKept m m') : LookupsAlive m' where
  nodup := by
    rw [hkept.lookups]
    exact h.nodup
  made := by
    intro raw hraw
    rw [hkept.lookups] at hraw
    exact (h.made raw hraw).trans_le hkept.made
  alive := by
    intro raw hraw
    rw [hkept.lookups] at hraw
    rw [hkept.pending, hkept.orphaned]
    exact h.alive raw hraw
  running := by
    intro hrunning
    rw [hkept.running] at hrunning
    rw [hkept.orphaned]
    exact h.running hrunning
  stopped := by
    intro hstopped name
    rw [hkept.running] at hstopped
    rw [hkept.pending]
    exact h.stopped hstopped name

/-! ### Records -/

theorem pendingId_of_found (hpeer : m.peers.lookup name = some peer) :
    m.pendingId name = peer.pendingLookup.map LookupState.id := by
  rw [pendingId, hpeer, Option.bind_some]

@[simp] theorem pendingId_setPeer (m : MercuryShard) (name : String) (peer : PeerState) :
    (m.setPeer name peer).pendingId name = peer.pendingLookup.map LookupState.id :=
  pendingId_of_found (AList.lookup_insert m.peers)

theorem pendingId_setPeer_ne {other : String} (hother : other ≠ name) (peer : PeerState) :
    (m.setPeer name peer).pendingId other = m.pendingId other := by
  rw [pendingId, pendingId, setPeer, AList.lookup_insert_ne hother]

theorem LookupsKept.setPeer (hpending : peer.pendingLookup.map LookupState.id = m.pendingId name) :
    LookupsKept m (m.setPeer name peer) where
  running := rfl
  lookups := rfl
  orphaned := rfl
  made := le_refl _
  pending := by
    intro other
    by_cases hother : other = name
    · subst hother
      rw [pendingId_setPeer, hpending]
    · exact pendingId_setPeer_ne hother peer

/-- What it changes to take the lookup of a name. -/
structure LookupTaken (m : MercuryShard) (name : String) (id : Nat) (m' : MercuryShard) : Prop where
  running : m'.running = m.running
  lookups : m'.lookups = m.lookups
  orphaned : m'.orphanedLookups = m.orphanedLookups
  made : m'.lookupsMade = m.lookupsMade
  was : m.pendingId name = some id
  gone : m'.pendingId name = none
  others : ∀ other, other ≠ name → m'.pendingId other = m.pendingId other

theorem lookupTaken_of_take {lookup : LookupState}
    (h : m.takePendingLookup name = (some lookup, m')) : LookupTaken m name lookup.id m' := by
  obtain ⟨peer, hpeer, hpending, hend⟩ := takePendingLookup_spec h
  have hwas : m.pendingId name = some lookup.id := by
    rw [pendingId_of_found hpeer, hpending, Option.map_some]
  rcases hend with ⟨-, -, rfl⟩ | rfl
  · refine ⟨rfl, rfl, rfl, rfl, hwas, ?_, ?_⟩
    · rw [pendingId, AList.lookup_erase, Option.bind_none]
    · intro other hother
      rw [pendingId, pendingId, AList.lookup_erase_ne hother]
  · refine ⟨rfl, rfl, rfl, rfl, hwas, ?_, ?_⟩
    · rw [pendingId_setPeer, Option.map_none]
    · intro other hother
      exact pendingId_setPeer_ne hother _

theorem pendingId_of_take_none (h : m.takePendingLookup name = (none, m')) :
    m.pendingId name = none := by
  unfold takePendingLookup at h
  split at h
  · next hpeer => rw [pendingId, hpeer, Option.bind_none]
  · next peer hpeer =>
      split at h
      · next hidle => rw [pendingId_of_found hpeer, hidle, Option.map_none]
      · split at h
        · cases (Prod.mk.inj h).1
        · cases (Prod.mk.inj h).1

/-- A record is erased that has no lookup. -/
theorem LookupsKept.erasePeer (hidle : m.pendingId name = none) :
    LookupsKept m { m with peers := m.peers.erase name } where
  running := rfl
  lookups := rfl
  orphaned := rfl
  made := le_refl _
  pending := by
    intro other
    by_cases hother : other = name
    · subst hother
      rw [hidle, pendingId, AList.lookup_erase, Option.bind_none]
    · rw [pendingId, pendingId, AList.lookup_erase_ne hother]

theorem LookupsKept.peerState (m : MercuryShard) (name : String) :
    LookupsKept m (m.peerState name).2 := by
  unfold MercuryShard.peerState
  cases hpeer : m.peers.lookup name with
  | some peer => exact LookupsKept.refl m
  | none =>
    have hidle : m.pendingId name = none := by rw [pendingId, hpeer, Option.bind_none]
    have hset : LookupsKept m (m.setPeer name { record := m.records }) :=
      LookupsKept.setPeer hidle.symm
    exact hset.trans ⟨rfl, rfl, rfl, le_refl _, fun _ => rfl⟩

theorem LookupsKept.dropPeer (m : MercuryShard) (name : String) :
    LookupsKept m (m.dropPeer name) := by
  cases hpeer : m.peers.lookup name with
  | none =>
    rw [MercuryShard.dropPeer, hpeer]
    exact LookupsKept.refl m
  | some peer =>
    have hfound := pendingId_of_found hpeer
    cases hpending : peer.pendingLookup with
    | none =>
      rw [hpending, Option.map_none] at hfound
      have herased := LookupsKept.erasePeer hfound
      rw [dropPeer_of_idle hpeer hpending]
      exact herased.trans ⟨rfl, rfl, rfl, le_refl _, fun _ => rfl⟩
    | some lookup =>
      have hset : LookupsKept m (m.setPeer name { peer with pools := [], addr := none }) :=
        LookupsKept.setPeer hfound.symm
      rw [dropPeer_of_pending hpeer hpending]
      exact hset.trans ⟨rfl, rfl, rfl, le_refl _, fun _ => rfl⟩

/-! ### Calls -/

theorem LookupsKept.recycleHandle (m : MercuryShard) (name : String) (rpcId handle : Nat) :
    LookupsKept m (m.recycleHandle name rpcId handle) := by
  unfold MercuryShard.recycleHandle
  split
  · exact ⟨rfl, rfl, rfl, le_refl _, fun _ => rfl⟩
  · next peer hpeer =>
      split
      · exact ⟨rfl, rfl, rfl, le_refl _, fun _ => rfl⟩
      · exact LookupsKept.setPeer (pendingId_of_found hpeer).symm

theorem LookupsKept.complete (m : MercuryShard) (state : ClientRpcState) (completion : Completion) :
    LookupsKept m (m.complete state completion) := by
  unfold MercuryShard.complete
  split
  · exact LookupsKept.refl m
  · exact ⟨rfl, rfl, rfl, le_refl _, fun _ => rfl⟩

theorem LookupsKept.cleanupClient (m : MercuryShard) (state : ClientRpcState) :
    LookupsKept m (m.cleanupClient state) := by
  have hdropped : ∀ m', LookupsKept m m' →
      LookupsKept m (if state.dropPeerOnCleanup then m'.dropPeer state.peer else m') := by
    intro m' hm'
    split
    · exact hm'.trans (LookupsKept.dropPeer m' state.peer)
    · exact hm'
  unfold MercuryShard.cleanupClient
  apply hdropped
  split
  · exact LookupsKept.refl m
  · split
    · exact LookupsKept.recycleHandle m _ _ _
    · exact ⟨rfl, rfl, rfl, le_refl _, fun _ => rfl⟩

theorem LookupsKept.finish (m : MercuryShard) (state state' : ClientRpcState)
    (completion : Completion) :
    LookupsKept m ((m.complete state completion).cleanupClient state') :=
  (LookupsKept.complete m state completion).trans (LookupsKept.cleanupClient _ state')

theorem LookupsKept.obtainHandle (m : MercuryShard) (hg : HgResults) (state : ClientRpcState) :
    LookupsKept m (m.obtainHandle hg state).2 := by
  obtain ⟨hfound, -⟩ := peerState_spec m state.peer
  have htaken : LookupsKept m ((m.peerState state.peer).2.setPeer state.peer
      { (m.peerState state.peer).1 with
        pools := (takeCachedHandle state.rpcId (m.peerState state.peer).1.pools).2 }) :=
    (LookupsKept.peerState m state.peer).trans
      (LookupsKept.setPeer (pendingId_of_found hfound).symm)
  unfold MercuryShard.obtainHandle
  simp only
  split
  · exact htaken
  · split
    · exact htaken.trans ⟨rfl, rfl, rfl, le_refl _, fun _ => rfl⟩
    · exact htaken.trans ⟨rfl, rfl, rfl, le_refl _, fun _ => rfl⟩

theorem LookupsKept.startClientForward (m : MercuryShard) (hg : HgResults)
    (state : ClientRpcState) : LookupsKept m (m.startClientForward hg state) := by
  have hobtained := LookupsKept.obtainHandle m hg state
  unfold MercuryShard.startClientForward
  split
  · exact LookupsKept.cleanupClient m state
  · split
    · next m' hresult =>
        rw [hresult] at hobtained
        exact hobtained.trans (LookupsKept.finish _ _ _ _)
    · next handle m' hresult =>
        rw [hresult] at hobtained
        simp only
        split
        · exact hobtained.trans ⟨rfl, rfl, rfl, le_refl _, fun _ => rfl⟩
        · exact hobtained.trans (LookupsKept.finish _ _ _ _)

theorem LookupsKept.failAll (m : MercuryShard) (error : RpcError) (waiters : List ClientRpcState) :
    LookupsKept m (waiters.foldl (fun m => m.failClient error) m) :=
  LookupsKept.foldl (fun m waiter => LookupsKept.finish m waiter waiter _) waiters m

theorem LookupsKept.cacheAddr (hpeer : m.peers.lookup name = some peer) (addr : Nat) :
    LookupsKept m (m.cacheAddr name peer addr) := by
  unfold MercuryShard.cacheAddr
  split
  · exact LookupsKept.setPeer (pendingId_of_found hpeer).symm
  · split
    · exact ⟨rfl, rfl, rfl, le_refl _, fun _ => rfl⟩
    · exact LookupsKept.refl m

/-- Whatever a lookup brings, what is done for its waiters keeps the other lookups. -/
theorem LookupsKept.finishLookup (m : MercuryShard) (lookup : LookupState) (resolved : Option Nat)
    (hg : Nat → HgResults) (stray : Nat → Option Nat) :
    LookupsKept m (m.finishLookup lookup resolved hg stray) := by
  unfold MercuryShard.finishLookup
  split
  · exact LookupsKept.refl m
  · split
    · exact LookupsKept.failAll m .addrLookup lookup.waiters
    · next addr =>
        obtain ⟨hfound, -⟩ := peerState_spec m lookup.peer
        have hcached := (LookupsKept.peerState m lookup.peer).trans
          (LookupsKept.cacheAddr hfound addr)
        exact hcached.trans (LookupsKept.foldl
          (fun m waiter => LookupsKept.startClientForward m _ _) lookup.waiters _)

end Kept

/-! ### Events -/

section Events

variable {m m' : MercuryShard}

theorem LookupsAlive.start : LookupsAlive {} where
  nodup := List.nodup_nil
  made := fun _ hraw => nomatch hraw
  alive := fun _ hraw => nomatch hraw
  running := fun _ => rfl
  stopped := fun hstopped => nomatch hstopped

/-- A lookup is left under a name that has none, and Mercury is given it. -/
theorem LookupsAlive.register {name : String} (h : LookupsAlive m) (hidle : m.pendingId name = none)
    (hrunning : m.running = true) (hstill : m'.running = m.running)
    (horphaned : m'.orphanedLookups = m.orphanedLookups)
    (hmade : m'.lookupsMade = m.lookupsMade + 1)
    (hlookups : m'.lookups = m.lookups ++ [(m.lookupsMade, name)])
    (hpending : m'.pendingId name = some m.lookupsMade)
    (hothers : ∀ other, other ≠ name → m'.pendingId other = m.pendingId other) :
    LookupsAlive m' where
  nodup := by
    rw [hlookups, List.map_append, List.nodup_append]
    refine ⟨h.nodup, List.nodup_singleton _, ?_⟩
    intro id hold id' hnew
    obtain ⟨raw, hraw, rfl⟩ := List.mem_map.mp hold
    rw [List.map_singleton, List.mem_singleton] at hnew
    rw [hnew]
    exact (h.made raw hraw).ne
  made := by
    intro raw hraw
    rw [hlookups] at hraw
    rw [hmade]
    rcases List.mem_append.mp hraw with hold | hnew
    · exact (h.made raw hold).trans (Nat.lt_succ_self _)
    · rw [List.mem_singleton.mp hnew]
      exact Nat.lt_succ_self _
  alive := by
    intro raw hraw
    rw [hlookups] at hraw
    left
    rcases List.mem_append.mp hraw with hold | hnew
    · rcases h.alive raw hold with halive | ⟨orphan, horphan, -⟩
      · have hne : raw.2 ≠ name := by
          rintro rfl
          rw [hidle] at halive
          cases halive
        rw [hothers raw.2 hne, halive]
      · rw [h.running hrunning] at horphan
        cases horphan
    · rw [List.mem_singleton.mp hnew]
      exact hpending
  running := by
    intro _
    rw [horphaned, h.running hrunning]
  stopped := by
    intro hstopped
    rw [hstill, hrunning] at hstopped
    cases hstopped

theorem LookupsAlive.forward (h : LookupsAlive m) (name : String) (rpcId : Nat)
    (bulkCreated lookupStarted : Bool) (hg : HgResults) :
    LookupsAlive (m.forward name rpcId bulkCreated lookupStarted hg) := by
  unfold MercuryShard.forward
  split
  · exact h
  next hready =>
  have hnumbered : LookupsKept m { m with calls := m.calls + 1 } :=
    ⟨rfl, rfl, rfl, le_refl _, fun _ => rfl⟩
  have hcall := hnumbered.trans (LookupsKept.peerState _ name)
  obtain ⟨hfound, -⟩ := peerState_spec { m with calls := m.calls + 1 } name
  have hpending := pendingId_of_found hfound
  have hrunning : (peerState { m with calls := m.calls + 1 } name).2.running = true := by
    rw [hcall.running]
    simpa using fun hstopped => hready (Or.inl hstopped)
  simp only
  split
  · exact h.of_kept (hcall.trans (LookupsKept.startClientForward _ hg _))
  split
  · next lookup hlookup =>
      refine h.of_kept (hcall.trans (LookupsKept.setPeer ?_))
      rw [hpending, hlookup]
      rfl
  · next hidle =>
      rw [hidle, Option.map_none] at hpending
      split
      · exact (h.of_kept hcall).register hpending hrunning rfl rfl rfl rfl
          (pendingId_setPeer _ name _) (fun other hother => pendingId_setPeer_ne hother _)
      · split
        · next m' htake =>
            -- the lookup has just been left there
            have hgone := pendingId_of_take_none htake
            cases hgone.symm.trans (pendingId_setPeer _ name _)
        · next failed m' htake =>
            have htaken := lookupTaken_of_take htake
            have hback : LookupsKept (peerState { m with calls := m.calls + 1 } name).2 m' :=
              { running := htaken.running
                lookups := htaken.lookups
                orphaned := htaken.orphaned
                made := by
                  rw [htaken.made]
                  exact Nat.le_succ _
                pending := by
                  intro other
                  by_cases hother : other = name
                  · rw [hother, htaken.gone, hpending]
                  · exact (htaken.others other hother).trans (pendingId_setPeer_ne hother _) }
            exact h.of_kept ((hcall.trans hback).trans
              (LookupsKept.failAll m' .addrLookup failed.waiters))

section

variable {id : Nat} {raw : Nat × String} (h : LookupsAlive m)
  (hraw : m.lookups.find? (fun raw => raw.1 = id) = some raw)

include h hraw

/-- What Mercury has afterwards it had before, under another number. -/
theorem LookupsAlive.mem_rest {other : Nat × String}
    (hother : other ∈ m.lookups.eraseP fun raw => raw.1 = id) :
    other ∈ m.lookups ∧ other.1 ≠ raw.1 := by
  obtain ⟨front, back, hsplit, herase⟩ := eraseP_of_find? hraw
  have hnodup := h.nodup
  rw [hsplit, List.map_append, List.map_cons, List.nodup_middle, List.nodup_cons] at hnodup
  refine ⟨List.mem_of_mem_eraseP hother, ?_⟩
  rw [herase] at hother
  intro hsame
  apply hnodup.1
  rw [← hsame, ← List.map_append]
  exact List.mem_map_of_mem hother

theorem LookupsAlive.taken {addrs k : Nat} (htaken : LookupTaken { m with
    lookups := m.lookups.eraseP fun raw => raw.1 = id, addrs } raw.2 k m') : LookupsAlive m' := by
  have hrunning : m.running = true := by
    by_contra hstopped
    have hnone := h.stopped (by simpa using hstopped) raw.2
    cases hnone.symm.trans htaken.was
  have hpending : ∀ other ∈ m.lookups, m.pendingId other.2 = some other.1 := by
    intro other hother
    rcases h.alive other hother with halive | ⟨orphan, horphan, -⟩
    · exact halive
    · rw [h.running hrunning] at horphan
      cases horphan
  exact
    { nodup := by
        rw [htaken.lookups]
        exact h.nodup.sublist (List.eraseP_sublist.map Prod.fst)
      made := by
        intro other hother
        rw [htaken.lookups] at hother
        rw [htaken.made]
        exact h.made other (h.mem_rest hraw hother).1
      alive := by
        intro other hother
        rw [htaken.lookups] at hother
        obtain ⟨hold, hne⟩ := h.mem_rest hraw hother
        -- two lookups under one name would be the same one
        have hname : other.2 ≠ raw.2 := by
          intro hname
          have hother := hpending other hold
          rw [hname, hpending raw (List.mem_of_find?_eq_some hraw)] at hother
          exact hne (Option.some.inj hother).symm
        left
        exact (htaken.others other.2 hname).trans (hpending other hold)
      running := by
        intro _
        rw [htaken.orphaned]
        exact h.running hrunning
      stopped := by
        intro hstopped
        rw [htaken.running] at hstopped
        cases hstopped.symm.trans hrunning }

theorem LookupsAlive.orphanTaken (addrs : Nat) : LookupsAlive (takeOrphanedLookup { m with
    lookups := m.lookups.eraseP fun raw => raw.1 = id, addrs } raw.1).2 where
  nodup := h.nodup.sublist (List.eraseP_sublist.map Prod.fst)
  made := fun other hother => h.made other (h.mem_rest hraw hother).1
  alive := by
    intro other hother
    obtain ⟨hold, hne⟩ := h.mem_rest hraw hother
    rcases h.alive other hold with halive | ⟨orphan, horphan, hid, hname⟩
    · exact Or.inl halive
    · refine Or.inr ⟨orphan, ?_, hid, hname⟩
      refine (List.mem_eraseP_of_neg ?_).mpr horphan
      simpa [hid] using hne
  running := by
    intro hrunning
    rw [takeOrphanedLookup, h.running hrunning]
    rfl
  stopped := h.stopped

/-- The callback of a lookup takes that lookup, and no other that Mercury has. -/
theorem LookupsAlive.lookupCb (resolved : Bool) (hg : Nat → HgResults)
    (stray : Nat → Option Nat) :
    LookupsAlive (lookupCb { m with lookups := m.lookups.eraseP fun raw => raw.1 = id } raw
      resolved hg stray) := by
  unfold MercuryShard.lookupCb
  simp only
  split
  · next lookup m' htake =>
      exact (h.taken hraw (lookupTaken_of_take htake)).of_kept
        (LookupsKept.finishLookup m' lookup _ hg stray)
  · next m' htake =>
      obtain rfl := takePendingLookup_none htake
      have hleft := h.orphanTaken hraw
        (m.addrs + (if resolved then some m.addrs else none).toList.length)
      split
      · next lookup m' horphaned =>
          rw [horphaned] at hleft
          exact hleft.of_kept (LookupsKept.finishLookup m' lookup _ hg stray)
      · next m' horphaned =>
          rw [horphaned] at hleft
          exact hleft

end

theorem LookupsAlive.forwardCb (h : LookupsAlive m) (inFlight : List ClientRpcState)
    (state : ClientRpcState) (result : ForwardResult) :
    LookupsAlive (forwardCb { m with inFlight := inFlight } state result) := by
  have htaken : LookupsKept m { m with inFlight := inFlight } :=
    ⟨rfl, rfl, rfl, le_refl _, fun _ => rfl⟩
  cases result with
  | transport =>
    exact h.of_kept (htaken.trans
      (LookupsKept.finish _ state { state with dropPeerOnCleanup := true } _))
  | noOutput | handlerFailed | reply =>
    exact h.of_kept (htaken.trans
      (LookupsKept.finish _ state { state with recycleHandle := true } _))

theorem LookupsAlive.timeout (h : LookupsAlive m) (inFlight : List ClientRpcState)
    (state : ClientRpcState) : LookupsAlive (timeout { m with inFlight := inFlight } state) := by
  have htaken : LookupsKept m { m with inFlight := inFlight } :=
    ⟨rfl, rfl, rfl, le_refl _, fun _ => rfl⟩
  have hcompleted := htaken.trans (LookupsKept.complete _ state (.error .timedOut))
  exact h.of_kept (hcompleted.trans ⟨rfl, rfl, rfl, le_refl _, fun _ => rfl⟩)

/-- A lookup that was pending is an orphan of its name afterwards. -/
theorem LookupsAlive.stop (h : LookupsAlive m) (hsettled : Settled m) : LookupsAlive m.stop := by
  unfold MercuryShard.stop
  split
  · exact h
  next hrunning =>
  unfold MercuryShard.clearAllPeers
  rw [foldl_clearPeer hsettled.entries_ok]
  exact
    { nodup := h.nodup
      made := h.made
      alive := by
        intro raw hraw
        right
        rcases h.alive raw hraw with halive | ⟨orphan, horphan, hid⟩
        · obtain ⟨peer, hpeer, hpending⟩ := Option.bind_eq_some_iff.mp halive
          obtain ⟨lookup, hlookup, hid⟩ := Option.map_eq_some_iff.mp hpending
          obtain ⟨-, -, hname, -⟩ := (hsettled.peers _ _ hpeer).pending lookup hlookup
          refine ⟨{ lookup with waiters := [], cancelled := true },
            List.mem_append_right _ (List.mem_flatMap.mpr ⟨peer, ?_, ?_⟩), hid, hname⟩
          · exact List.mem_map.mpr ⟨_, AList.mem_lookup_iff.mp hpeer, rfl⟩
          · rw [orphanOf, hlookup]
            exact List.mem_cons_self
        · exact ⟨orphan, List.mem_append_left _ horphan, hid⟩
      running := fun hstill => nomatch hstill
      stopped := fun _ _ => rfl }

/-! ### Runs -/

theorem LookupsAlive.step (h : LookupsAlive m) (hsettled : Settled m) (event : Event)
    (hstep : m.step event = some m') : LookupsAlive m' := by
  cases event with
  | forward name rpcId bulkCreated lookupStarted hg =>
    obtain rfl := Option.some.inj hstep
    exact h.forward name rpcId bulkCreated lookupStarted hg
  | lookupCb id resolved hg stray =>
    obtain ⟨raw, hraw, rfl⟩ := Option.map_eq_some_iff.mp hstep
    exact h.lookupCb hraw resolved hg stray
  | forwardCb id result =>
    obtain ⟨state, -, rfl⟩ := Option.map_eq_some_iff.mp hstep
    exact h.forwardCb _ state result
  | timeout id =>
    obtain ⟨state, -, rfl⟩ := Option.map_eq_some_iff.mp hstep
    exact h.timeout _ state
  | stop =>
    obtain rfl := Option.some.inj hstep
    exact h.stop hsettled

theorem Reached.lookupsAlive (h : Reached m) : LookupsAlive m := by
  unfold Reached at h
  induction h with
  | start hstart =>
    obtain rfl := hstart
    exact LookupsAlive.start
  | next event hbefore _ hstep ih => exact ih.step (Reached.settled hbefore) event hstep

/-- **A callback takes the lookup it was registered with.**  After any events, for each lookup
    that Mercury has, `lookup_cb` finds that very lookup: in the record of its peer while the
    shard is running, and after a stop among the orphans.  It never reads through a pointer
    whose lookup is gone, never takes another, and never finds none. -/
theorem lookup_callback_takes_its_own (h : Reached m) {raw : Nat × String}
    (hraw : raw ∈ m.lookups) :
    ∃ lookup, lookup.id = raw.1 ∧
      (m.running = true →
        (∃ peer, m.peers.lookup raw.2 = some peer ∧ peer.pendingLookup = some lookup ∧
          lookup.peer = raw.2) ∧
        (m.takePendingLookup raw.2).1 = some lookup) ∧
      (m.running = false → lookup ∈ m.orphanedLookups ∧ (m.takePendingLookup raw.2).1 = none ∧
        (m.takeOrphanedLookup raw.1).1 = some lookup) := by
  have hlookups := h.lookupsAlive
  cases hrunning : m.running with
  | true =>
    rcases hlookups.alive raw hraw with halive | ⟨orphan, horphan, -⟩
    · obtain ⟨peer, hpeer, hpending⟩ := Option.bind_eq_some_iff.mp halive
      obtain ⟨lookup, hlookup, hid⟩ := Option.map_eq_some_iff.mp hpending
      obtain ⟨-, -, hname, -⟩ := (h.settled.peers _ _ hpeer).pending lookup hlookup
      refine ⟨lookup, hid, fun _ => ⟨⟨peer, hpeer, hlookup, hname⟩, ?_⟩,
        fun hstopped => absurd hstopped (by decide)⟩
      simp only [takePendingLookup, hpeer, hlookup]
      split <;> rfl
    · rw [hlookups.running hrunning] at horphan
      cases horphan
  | false =>
    have hnone := hlookups.stopped hrunning raw.2
    rcases hlookups.alive raw hraw with halive | ⟨orphan, horphan, hid, -⟩
    · cases hnone.symm.trans halive
    · obtain ⟨found, hfound⟩ := Option.isSome_iff_exists.mp
        (List.find?_isSome.mpr ⟨orphan, horphan, by simpa using hid⟩ :
          (m.orphanedLookups.find? fun lookup => lookup.id = raw.1).isSome)
      refine ⟨found, by simpa using List.find?_some hfound,
        fun hrunning => absurd hrunning (by decide), fun _ =>
        ⟨List.mem_of_find?_eq_some hfound, ?_, hfound⟩⟩
      cases htake : m.takePendingLookup raw.2 with
      | mk taken m' =>
        cases taken with
        | none => rfl
        | some lookup => cases hnone.symm.trans (lookupTaken_of_take htake).was

/-- A lookup is under way when the shard stops. -/
theorem lookup_callback_takes_its_own_stopped :
    ∃ m, Transition.run step {} [.forward "b" 7 true true {}, .stop] = some m ∧
      m.running = false ∧ m.lookups = [(0, "b")] ∧
      ∃ lookup ∈ m.orphanedLookups, lookup.id = 0 ∧ (m.takePendingLookup "b").1 = none ∧
        (m.takeOrphanedLookup 0).1 = some lookup := by
  have hruns : (Transition.run step {} [.forward "b" 7 true true {}, .stop]).map
      (fun m => (m.running, m.lookups)) = some (false, [(0, "b")]) := by decide +kernel
  obtain ⟨m, hm, hends⟩ := Option.map_eq_some_iff.mp hruns
  obtain ⟨hstopped, hlookups⟩ := Prod.mk.inj hends
  have hreached : Reached m :=
    Transition.Reachable.of_run (.start rfl) _ (fun _ _ _ => trivial) hm
  have hraw : (0, "b") ∈ m.lookups := hlookups ▸ List.mem_singleton_self _
  obtain ⟨lookup, hid, -, hafter⟩ := lookup_callback_takes_its_own hreached hraw
  obtain ⟨hmem, htaken⟩ := hafter hstopped
  exact ⟨m, hm, hstopped, hlookups, lookup, hmem, hid, htaken⟩

end Events

end MercuryShard

end Mkmq

import Mkmq.Accounts
import Mkmq.ListRules
import Mkmq.ReadPath
import Mkmq.Recency
import Mkmq.Transition

/-!
# Open segment files (`src/partition_log_shard.cpp`)

A read gets its file from `get_segment_file_for_read`.  For the active segment that is a copy
of `file_`, which does not keep the file open.  For a sealed one it is a shared handle, which
the cache of recently used files and all its readers hold together, and which closes the file
when the last of them lets go.  A file that is not cached is opened first; other reads, a
change of segment or the end of the shard may come in between.  When the active segment is
sealed its file goes to the cache; what the cache has no room for falls out of it.

`PartitionLogShard.getSegmentFileForRead` is the same function for one read at a time, without
the files themselves.
-/

namespace Mkmq

open Accounts

/-- A handle that a read has been given. -/
structure SegmentReader where
  reader : Nat
  base : Int
  file : Nat
  aliasing : Bool
deriving DecidableEq, Repr

/-- Files are numbered in the order they are opened; `files` has the segments they are of. -/
structure SegmentHandles where
  activeSegmentBaseOffset : Int
  file : Option Nat := none
  segmentCache : List (Int × Nat) := []
  closeGateClosed : Bool := false
  -- what is under way: segments to become active, and reads of segments not cached
  opens : List Int := []
  opening : List (Nat × Int) := []
  readers : List SegmentReader := []
  -- what has been done
  files : List Int := []
  closed : List Nat := []
  -- files whose last handle was dropped when the gate was closed, or that `file_` lost
  leaked : List Nat := []
  -- the files of sealed segments, with the number of moves in the cache until then
  sealed : List (Nat × Nat) := []
  moves : Nat := 0
deriving DecidableEq, Repr

namespace SegmentHandles

/-- The files that shared handles keep open. -/
def shared (s : SegmentHandles) : List Nat :=
  s.segmentCache.map Prod.snd ++
    (s.readers.filter fun reader => !reader.aliasing).map SegmentReader.file

/-- A reference to the handle of a file is gone; the destructor runs with the last one. -/
def dropRef (s : SegmentHandles) (file : Nat) : SegmentHandles :=
  if file ∈ s.shared then s
  else if s.closeGateClosed then { s with leaked := s.leaked ++ [file] }
  else { s with closed := s.closed ++ [file] }

def popBack (s : SegmentHandles) : SegmentHandles :=
  match s.segmentCache.getLast? with
  | none => s
  | some entry => dropRef { s with segmentCache := s.segmentCache.dropLast } entry.2

/-- `while (segment_cache_.size() >= kSegmentCacheMax)`, with so many rounds at most. -/
def evict : Nat → SegmentHandles → SegmentHandles
  | 0, s => s
  | rounds + 1, s =>
    if kSegmentCacheMax ≤ s.segmentCache.length then evict rounds s.popBack else s

/-- Make room and put an entry in front. -/
def install (s : SegmentHandles) (base : Int) (file : Nat) : SegmentHandles :=
  let s := evict s.segmentCache.length s
  { s with segmentCache := (base, file) :: s.segmentCache, moves := s.moves + 1 }

def getSegmentFileForRead (s : SegmentHandles) (reader : Nat) (base : Int) : SegmentHandles :=
  match s.file, decide (base = s.activeSegmentBaseOffset) with
  | some file, true => { s with readers := s.readers ++ [⟨reader, base, file, true⟩] }
  | _, _ =>
    match s.segmentCache.find? fun cached => cached.1 = base with
    | some cached =>
      { s with
        segmentCache := Recency.touch cached s.segmentCache
        moves := if s.segmentCache.head? = some cached then s.moves else s.moves + 1
        readers := s.readers ++ [⟨reader, base, cached.2, false⟩] }
    | none => { s with opening := s.opening ++ [(reader, base)] }

/-- `open_file_dma` for a read has completed. -/
def openedForRead (s : SegmentHandles) (reader : Nat) (base : Int) : SegmentHandles :=
  let file := s.files.length
  let s := install { s with files := s.files ++ [base] } base file
  { s with readers := s.readers ++ [⟨reader, base, file, false⟩] }

/-- The segment change of `ensure_segment_for_write`, behind the flush barrier. -/
def rollover (s : SegmentHandles) (base : Int) : SegmentHandles :=
  match s.file with
  | none => s
  | some old =>
    let s := install { s with file := none } s.activeSegmentBaseOffset old
    { s with
      sealed := s.sealed ++ [(old, s.moves)]
      activeSegmentBaseOffset := base
      opens := s.opens ++ [base] }

/-- `open_active_segment` has completed. -/
def openedActive (s : SegmentHandles) (base : Int) : SegmentHandles :=
  { s with
    file := some s.files.length
    files := s.files ++ [base]
    leaked := s.leaked ++ s.file.toList }

/-- `segment_cache_.clear()`; in which order the entries go makes no difference. -/
def clear : Nat → SegmentHandles → SegmentHandles
  | 0, s => s
  | rounds + 1, s => clear rounds s.popBack

inductive Event where
  | read (reader : Nat) (base : Int)
  | openedForRead (reader : Nat) (ok : Bool)
  | release (reader : Nat)
  /-- `ensure_segment_for_write` without an open file. -/
  | begin (base : Int)
  | rollover (base : Int)
  | openedActive (base : Int) (ok : Bool)
  /-- `stop` clears the cache and closes the gate, and then closes `file_`. -/
  | stopCache
  | stopFile
deriving DecidableEq, Repr

def step (s : SegmentHandles) : Event → Option SegmentHandles
  | .read reader base => some (s.getSegmentFileForRead reader base)
  | .openedForRead reader ok =>
    (s.opening.find? fun waiting => waiting.1 = reader).map fun waiting =>
      let s := { s with opening := s.opening.eraseP fun waiting => waiting.1 = reader }
      if ok then s.openedForRead reader waiting.2 else s
  | .release reader =>
    (s.readers.find? fun held => held.reader = reader).map fun held =>
      let s := { s with readers := s.readers.eraseP fun held => held.reader = reader }
      if held.aliasing then s else s.dropRef held.file
  | .begin base =>
    if s.file = none then
      some { s with activeSegmentBaseOffset := base, opens := s.opens ++ [base] }
    else none
  | .rollover base => some (s.rollover base)
  | .openedActive base ok =>
    if base ∈ s.opens then
      let s := { s with opens := s.opens.erase base }
      some (if ok then s.openedActive base else s)
    else none
  | .stopCache => some { clear s.segmentCache.length s with closeGateClosed := true }
  | .stopFile =>
    if s.closeGateClosed then some { s with file := none, closed := s.closed ++ s.file.toList }
    else none

/-- A log that opens its first segment, after any events. -/
def Reached (guard : SegmentHandles → Event → Prop) (s : SegmentHandles) : Prop :=
  Transition.Reachable
    (fun s => ∃ base, s = { activeSegmentBaseOffset := base, opens := [base] }) step guard s

/-! ### What making room changes -/

/-- The cache is another one, and more files are closed or lost. -/
structure Evicts (s : SegmentHandles) (cache : List (Int × Nat)) (s' : SegmentHandles) : Prop where
  eq : ∃ closed leaked, s' =
    { s with
      segmentCache := cache, closed := s.closed ++ closed, leaked := s.leaked ++ leaked }

section Frames

variable (s : SegmentHandles) {cache : List (Int × Nat)} {s' : SegmentHandles}

theorem dropRef_evicts (file : Nat) : Evicts s s.segmentCache (s.dropRef file) := by
  unfold dropRef
  split
  · exact ⟨[], [], by rw [List.append_nil, List.append_nil]⟩
  · split
    · exact ⟨[], [file], by rw [List.append_nil]⟩
    · exact ⟨[file], [], by rw [List.append_nil]⟩

theorem Evicts.segmentCache {s : SegmentHandles} (h : Evicts s cache s') :
    s'.segmentCache = cache := by
  obtain ⟨closed, leaked, rfl⟩ := h.eq
  rfl

theorem Evicts.trans {s s'' : SegmentHandles} {cache' : List (Int × Nat)} (h : Evicts s cache s')
    (h' : Evicts s' cache' s'') : Evicts s cache' s'' := by
  obtain ⟨closed, leaked, rfl⟩ := h.eq
  obtain ⟨closed', leaked', rfl⟩ := h'.eq
  exact ⟨closed ++ closed', leaked ++ leaked', by rw [List.append_assoc, List.append_assoc]⟩

theorem popBack_evicts : Evicts s s.segmentCache.dropLast s.popBack := by
  unfold popBack
  split
  · next hnone =>
      have hempty : s.segmentCache = [] := List.getLast?_eq_none_iff.mp hnone
      refine ⟨[], [], ?_⟩
      rw [List.append_nil, List.append_nil, hempty, List.dropLast_nil, ← hempty]
  · next entry _ =>
      exact ⟨(dropRef_evicts { s with segmentCache := s.segmentCache.dropLast } entry.2).eq⟩

theorem evicts_nothing (h : s.segmentCache.length < kSegmentCacheMax) :
    Evicts s (s.segmentCache.take (kSegmentCacheMax - 1)) s :=
  ⟨[], [], by rw [List.take_of_length_le (by omega), List.append_nil, List.append_nil]⟩

/-- The least recently used entries fall out, as many as there are too many. -/
theorem evict_evicts (rounds : Nat) (hrounds : s.segmentCache.length < kSegmentCacheMax + rounds) :
    Evicts s (s.segmentCache.take (kSegmentCacheMax - 1)) (evict rounds s) := by
  have hpos : 0 < kSegmentCacheMax := by decide
  induction rounds generalizing s with
  | zero => exact evicts_nothing s hrounds
  | succ rounds ih =>
    rw [evict]
    split
    · next hfull =>
        have hpop := popBack_evicts s
        have hcache := hpop.segmentCache
        have hrest := ih s.popBack (by rw [hcache, List.length_dropLast]; omega)
        rw [hcache, List.dropLast_eq_take, List.take_take, Nat.min_eq_left (by omega)] at hrest
        exact hpop.trans hrest
    · next hroom => exact evicts_nothing s (by omega)

theorem install_evicts (base : Int) (file : Nat) : Evicts { s with moves := s.moves + 1 }
      (Recency.push kSegmentCacheMax (base, file) s.segmentCache) (s.install base file) := by
  obtain ⟨closed, leaked, heq⟩ :=
    (evict_evicts s s.segmentCache.length (by unfold kSegmentCacheMax; omega)).eq
  refine ⟨closed, leaked, ?_⟩
  rw [install, heq]
  rfl

theorem clear_evicts (rounds : Nat) (hrounds : s.segmentCache.length ≤ rounds) :
    Evicts s [] (clear rounds s) := by
  induction rounds generalizing s with
  | zero =>
    have hempty : s.segmentCache = [] := List.eq_nil_of_length_eq_zero (Nat.le_zero.mp hrounds)
    refine ⟨[], [], ?_⟩
    rw [List.append_nil, List.append_nil, ← hempty]
    rfl
  | succ rounds ih =>
    have hpop := popBack_evicts s
    exact hpop.trans (ih s.popBack (by rw [hpop.segmentCache, List.length_dropLast]; omega))

end Frames

/-! ### Who keeps a file open -/

/-- Each file is `file_`, or kept open by shared handles, or closed, or lost. -/
def found (s : SegmentHandles) (file : Nat) : Nat :=
  s.file.toList.count file + min 1 (s.shared.count file) + s.closed.count file +
    s.leaked.count file

def Owned (s : SegmentHandles) (hand : List Nat) : Prop :=
  Conserved (fun x => s.found x + hand.count x) s.files.length

section Ownership

variable {s s' : SegmentHandles} {hand : List Nat}

/-- A reference is dropped; with the last one the file is closed or lost. -/
theorem Owned.dropRef (h : Owned s hand) {cache : List (Int × Nat)} {readers : List SegmentReader}
    {file : Nat} (hcount : ∀ x, s.shared.count x =
      (shared { s with segmentCache := cache, readers := readers }).count x + [file].count x) :
    Owned (SegmentHandles.dropRef { s with segmentCache := cache, readers := readers } file)
      hand := by
  have hself : [file].count file = 1 := List.count_singleton_self
  have hother : ∀ x, x ≠ file → [file].count x = 0 := fun x hx =>
    List.count_eq_zero.mpr (by simpa using hx)
  unfold SegmentHandles.dropRef
  split
  · next hshared =>
      have hpos := List.count_pos_iff.mpr hshared
      refine Conserved.congr h fun x => ?_
      have hx := hcount x
      by_cases hfile : x = file
      · subst hfile
        simp only [found]
        omega
      · rw [hother x hfile] at hx
        simp only [found]
        omega
  · next hlast =>
      have hzero := List.count_eq_zero.mpr hlast
      have hmoved : ∀ x, min 1 (s.shared.count x) =
          min 1 ((shared { s with segmentCache := cache, readers := readers }).count x) +
            [file].count x := by
        intro x
        have hx := hcount x
        by_cases hfile : x = file
        · subst hfile
          omega
        · rw [hother x hfile] at hx ⊢
          omega
      split
      all_goals
        refine Conserved.congr h fun x => ?_
        have hx := hmoved x
        simp only [found, shared, List.count_append] at hx ⊢
        omega

theorem Owned.popBack (h : Owned s hand) : Owned s.popBack hand := by
  unfold SegmentHandles.popBack
  split
  · exact h
  · next entry hlast =>
      have hsplit := List.dropLast_append_getLast? entry hlast
      refine Owned.dropRef h fun x => ?_
      have hcache : (s.segmentCache.map Prod.snd).count x =
          (s.segmentCache.dropLast.map Prod.snd).count x + [entry.2].count x := by
        rw [← List.count_append, ← List.map_singleton, ← List.map_append, hsplit]
      simp only [shared, List.count_append]
      omega

theorem Owned.evict (h : Owned s hand) (rounds : Nat) : Owned (evict rounds s) hand := by
  induction rounds generalizing s with
  | zero => exact h
  | succ rounds ih =>
    rw [SegmentHandles.evict]
    split
    · exact ih h.popBack
    · exact h

theorem Owned.clear (h : Owned s hand) (rounds : Nat) : Owned (clear rounds s) hand := by
  induction rounds generalizing s with
  | zero => exact h
  | succ rounds ih => exact ih h.popBack

/-- What is in hand goes to the cache. -/
theorem Owned.install {file : Nat} (h : Owned s [file]) (base : Int) :
    Owned (s.install base file) [] := by
  have hevicted := h.evict s.segmentCache.length
  refine Conserved.congr hevicted fun x => ?_
  have hx := hevicted x
  have hle :
      (if x < (SegmentHandles.evict s.segmentCache.length s).files.length then 1 else 0) ≤ 1 := by
    split <;> omega
  simp only [SegmentHandles.install, found, shared, List.map_cons, List.count_append,
    List.count_cons, List.count_nil] at hx ⊢
  omega

/-- Nothing is opened or closed, and the same files are shared. -/
theorem Owned.sameShared (h : Owned s hand) (hfile : s'.file = s.file) (hfiles : s'.files = s.files)
    (hclosed : s'.closed = s.closed) (hleaked : s'.leaked = s.leaked)
    (hshared : ∀ x, x ∈ s'.shared ↔ x ∈ s.shared) : Owned s' hand := by
  unfold Owned at h ⊢
  rw [hfiles]
  refine h.congr fun x => ?_
  have hiff : 0 < s'.shared.count x ↔ 0 < s.shared.count x := by
    rw [List.count_pos_iff, List.count_pos_iff]
    exact hshared x
  simp only [found, hfile, hclosed, hleaked]
  omega

/-- A copy of the active file shares nothing, and a handle that is there already is shared by
    one more. -/
theorem Owned.addReader (h : Owned s hand) {held : SegmentReader}
    (hheld : held.aliasing = true ∨ held.file ∈ s.shared) :
    Owned { s with readers := s.readers ++ [held] } hand := by
  refine h.sameShared rfl rfl rfl rfl fun x => ?_
  have hadded : x ∈ shared { s with readers := s.readers ++ [held] } ↔
      x ∈ s.shared ∨ (held.aliasing = false ∧ x = held.file) := by
    cases halias : held.aliasing <;> simp [shared, halias, or_assoc]
  rw [hadded, or_iff_left_of_imp]
  rintro ⟨howning, rfl⟩
  rcases hheld with halias | hshared
  · rw [halias] at howning
    cases howning
  · exact hshared

theorem Owned.getSegmentFileForRead (h : Owned s []) (reader : Nat) (base : Int) :
    Owned (s.getSegmentFileForRead reader base) [] := by
  unfold SegmentHandles.getSegmentFileForRead
  split
  · exact h.addReader (Or.inl rfl)
  · split
    · next cached hfind =>
        have hmem := List.mem_of_find?_eq_some hfind
        have hperm := (Recency.touch_perm hmem).map Prod.snd
        have htouched : Owned { s with
            segmentCache := Recency.touch cached s.segmentCache
            moves := if s.segmentCache.head? = some cached then s.moves else s.moves + 1 } [] := by
          refine h.sameShared rfl rfl rfl rfl fun x => ?_
          simp only [shared, List.mem_append, hperm.mem_iff]
        exact htouched.addReader (Or.inr (List.mem_append_left _ List.mem_cons_self))
    · exact h.sameShared rfl rfl rfl rfl fun x => Iff.rfl

theorem Owned.openedForRead (h : Owned s []) (reader : Nat) (base : Int) :
    Owned (s.openedForRead reader base) [] := by
  have hnew : Owned { s with files := s.files ++ [base] } [s.files.length] := by
    unfold Owned
    rw [List.length_append]
    exact Conserved.make h fun x => rfl
  exact (hnew.install base).addReader (Or.inr (List.mem_append_left _ List.mem_cons_self))

theorem Owned.rollover (h : Owned s []) (base : Int) : Owned (s.rollover base) [] := by
  unfold SegmentHandles.rollover
  split
  · exact h
  · next old hfile =>
      have hmoved : Owned { s with file := none } [old] := by
        refine Conserved.congr h fun x => ?_
        simp only [found, shared, hfile, Option.toList_none, Option.toList_some, List.count_nil]
        omega
      exact (hmoved.install s.activeSegmentBaseOffset).sameShared rfl rfl rfl rfl fun x => Iff.rfl

theorem Owned.openedActive (h : Owned s []) (base : Int) : Owned (s.openedActive base) [] := by
  unfold Owned SegmentHandles.openedActive
  rw [List.length_append]
  refine Conserved.make h fun x => ?_
  simp only [found, shared, Option.toList_some, List.count_append, List.count_nil]
  omega

theorem Owned.step {e : Event} (h : Owned s []) (hstep : s.step e = some s') : Owned s' [] := by
  cases e with
  | read reader base =>
    obtain rfl := Option.some.inj hstep
    exact h.getSegmentFileForRead reader base
  | openedForRead reader ok =>
    obtain ⟨waiting, -, rfl⟩ := Option.map_eq_some_iff.mp hstep
    have hsame : Owned { s with
        opening := s.opening.eraseP fun waiting => waiting.1 = reader } [] :=
      h.sameShared rfl rfl rfl rfl fun x => Iff.rfl
    simp only
    split
    · exact hsame.openedForRead reader waiting.2
    · exact hsame
  | release reader =>
    obtain ⟨held, hfind, rfl⟩ := Option.map_eq_some_iff.mp hstep
    obtain ⟨front, back, hsplit, herase⟩ := eraseP_of_find? hfind
    have hwhole : s.readers = front ++ ([held] ++ back) := hsplit
    simp only [herase]
    split
    · next halias =>
        refine h.sameShared rfl rfl rfl rfl fun x => ?_
        simp [shared, hwhole, halias]
    · next howning =>
        refine Owned.dropRef h fun x => ?_
        simp only [shared, hwhole, List.filter_append, List.map_append, List.count_append,
          List.filter_cons, Bool.eq_false_of_not_eq_true howning, Bool.not_false, if_true,
          List.filter_nil, List.map_cons, List.map_nil]
        omega
  | begin base =>
    simp only [SegmentHandles.step] at hstep
    split at hstep
    · obtain rfl := Option.some.inj hstep
      exact h.sameShared rfl rfl rfl rfl fun x => Iff.rfl
    · cases hstep
  | rollover base =>
    obtain rfl := Option.some.inj hstep
    exact h.rollover base
  | openedActive base ok =>
    simp only [SegmentHandles.step] at hstep
    split at hstep
    · obtain rfl := Option.some.inj hstep
      have hsame : Owned { s with opens := s.opens.erase base } [] :=
        h.sameShared rfl rfl rfl rfl fun x => Iff.rfl
      split
      · exact hsame.openedActive base
      · exact hsame
    · cases hstep
  | stopCache =>
    obtain rfl := Option.some.inj hstep
    exact (h.clear s.segmentCache.length).sameShared rfl rfl rfl rfl fun x => Iff.rfl
  | stopFile =>
    simp only [SegmentHandles.step] at hstep
    split at hstep
    · obtain rfl := Option.some.inj hstep
      refine Conserved.congr h fun x => ?_
      simp only [found, shared, Option.toList_none, List.count_append, List.count_nil]
      omega
    · cases hstep

end Ownership

/-! ### How long a sealed file stays in the cache -/

/-- The file is still among the entries that can be in front of it after so many moves, or there
    have been enough moves to drop it. -/
def Recent (s : SegmentHandles) (file since : Nat) : Prop :=
  since ≤ s.moves ∧
    ((∃ base, (base, file) ∈ s.segmentCache.take (s.moves - since + 1)) ∨
      since + kSegmentCacheMax ≤ s.moves)

/-- Until the shard stops. -/
structure Aged (s : SegmentHandles) : Prop where
  cache : s.segmentCache.length ≤ kSegmentCacheMax
  sealed : s.closeGateClosed = false → ∀ entry ∈ s.sealed, s.Recent entry.1 entry.2
  aliases : s.closeGateClosed = false → ∀ held ∈ s.readers, held.aliasing = true →
    s.file = some held.file ∨ held.file ∈ s.sealed.map Prod.fst ∨ held.file ∈ s.leaked

section Ages

variable {s : SegmentHandles}

theorem Recent.touch {file since : Nat} (h : s.Recent file since) (cached : Int × Nat)
    (readers : List SegmentReader) :
    Recent { s with
      segmentCache := Recency.touch cached s.segmentCache
      moves := if s.segmentCache.head? = some cached then s.moves else s.moves + 1
      readers := readers } file since := by
  obtain ⟨hsince, hplace⟩ := h
  unfold Recent
  split
  · next hhead =>
      obtain ⟨rest, hcache⟩ := List.head?_eq_some_iff.mp hhead
      have hsame : Recency.touch cached s.segmentCache = s.segmentCache := by
        rw [hcache, Recency.touch, List.erase_cons_head]
      simp only [hsame]
      exact ⟨hsince, hplace⟩
  · refine ⟨Nat.le_succ_of_le hsince, hplace.imp ?_ fun h => Nat.le_succ_of_le h⟩
    rintro ⟨base, hbase⟩
    have hnext := Recency.mem_take_touch (x := cached) hbase
    exact ⟨base, by rwa [Nat.succ_sub hsince]⟩

theorem Recent.install {file since : Nat} (h : s.Recent file since) (base : Int) (new : Nat) :
    (s.install base new).Recent file since := by
  obtain ⟨closed, leaked, heq⟩ := (install_evicts s base new).eq
  obtain ⟨hsince, hplace⟩ := h
  rw [heq]
  refine ⟨Nat.le_succ_of_le hsince, ?_⟩
  simp only [Nat.succ_sub hsince]
  by_cases hroom : s.moves - since + 1 < kSegmentCacheMax
  · refine hplace.imp ?_ fun h => Nat.le_succ_of_le h
    rintro ⟨base', hbase⟩
    exact ⟨base', Recency.mem_take_push hbase hroom⟩
  · exact Or.inr (by omega)

/-- An entry is put in front. -/
theorem Aged.install (h : Aged s) (base : Int) (file : Nat) : Aged (s.install base file) := by
  have hrecent := fun entry hentry hgate =>
    (h.sealed hgate entry hentry).install base file
  obtain ⟨closed, leaked, heq⟩ := (install_evicts s base file).eq
  rw [heq] at hrecent ⊢
  exact
    { cache := Recency.length_push_le (by decide) _ _
      sealed := fun hgate entry hentry => hrecent entry hentry hgate
      aliases := fun hgate held hheld halias =>
        (h.aliases hgate held hheld halias).imp_right (Or.imp_right (List.mem_append_left _)) }

theorem Aged.addReader (h : Aged s) {held : SegmentReader}
    (hheld : held.aliasing = true → s.file = some held.file) :
    Aged { s with readers := s.readers ++ [held] } where
  cache := h.cache
  sealed := h.sealed
  aliases := fun hgate => ListRules.forall_mem_concat.mpr
    ⟨h.aliases hgate, fun halias => Or.inl (hheld halias)⟩

theorem Aged.getSegmentFileForRead (h : Aged s) (reader : Nat) (base : Int) :
    Aged (s.getSegmentFileForRead reader base) := by
  unfold SegmentHandles.getSegmentFileForRead
  split
  · next file hfile _ => exact h.addReader fun _ => hfile
  · split
    · next cached hfind =>
        have hperm := Recency.touch_perm (List.mem_of_find?_eq_some hfind)
        exact
          { cache := hperm.length_eq ▸ h.cache
            sealed := fun hgate entry hentry => (h.sealed hgate entry hentry).touch cached _
            aliases := fun hgate => ListRules.forall_mem_concat.mpr
              ⟨h.aliases hgate, fun halias => nomatch halias⟩ }
    · exact ⟨h.cache, h.sealed, h.aliases⟩

theorem Aged.openedForRead (h : Aged s) (reader : Nat) (base : Int) :
    Aged (s.openedForRead reader base) := by
  have hfiles : Aged { s with files := s.files ++ [base] } := ⟨h.cache, h.sealed, h.aliases⟩
  exact (hfiles.install base s.files.length).addReader fun halias => nomatch halias

theorem Aged.rollover (h : Aged s) (base : Int) : Aged (s.rollover base) := by
  unfold SegmentHandles.rollover
  split
  · exact h
  · next old hfile =>
      have hkept : ∀ entry ∈ s.sealed, s.closeGateClosed = false →
          (SegmentHandles.install { s with file := none } s.activeSegmentBaseOffset old).Recent
            entry.1 entry.2 := fun entry hentry hgate => by
        have hbefore : Recent { s with file := none } entry.1 entry.2 := h.sealed hgate entry hentry
        exact hbefore.install _ _
      obtain ⟨closed, leaked, heq⟩ :=
        (install_evicts { s with file := none } s.activeSegmentBaseOffset old).eq
      rw [heq] at hkept ⊢
      refine ⟨Recency.length_push_le (by decide) _ _, fun hgate => ?_,
        fun hgate held hheld halias => ?_⟩
      · -- the sealed file is in front
        refine ListRules.forall_mem_concat.mpr ⟨fun entry hentry => hkept entry hentry hgate, ?_⟩
        refine ⟨le_refl _, Or.inl ⟨s.activeSegmentBaseOffset, ?_⟩⟩
        rw [Nat.sub_self]
        exact List.mem_cons_self
      · right
        rw [List.map_append, List.mem_append]
        rcases h.aliases hgate held hheld halias with hactive | hsealed | hleaked
        · have hold : held.file = old := Option.some.inj (hactive.symm.trans hfile)
          exact Or.inl (Or.inr (by simp [hold]))
        · exact Or.inl (Or.inl hsealed)
        · exact Or.inr (List.mem_append_left _ hleaked)

theorem Aged.step {s' : SegmentHandles} {e : Event} (h : Aged s) (hstep : s.step e = some s') :
    Aged s' := by
  cases e with
  | read reader base =>
    obtain rfl := Option.some.inj hstep
    exact h.getSegmentFileForRead reader base
  | openedForRead reader ok =>
    obtain ⟨waiting, -, rfl⟩ := Option.map_eq_some_iff.mp hstep
    have hsame : Aged { s with
        opening := s.opening.eraseP fun waiting => waiting.1 = reader } :=
      ⟨h.cache, h.sealed, h.aliases⟩
    simp only
    split
    · exact hsame.openedForRead reader waiting.2
    · exact hsame
  | release reader =>
    obtain ⟨held, -, rfl⟩ := Option.map_eq_some_iff.mp hstep
    have hsame : Aged { s with
        readers := s.readers.eraseP fun held => held.reader = reader } :=
      ⟨h.cache, h.sealed, fun hgate other hother =>
        h.aliases hgate other (List.mem_of_mem_eraseP hother)⟩
    simp only
    split
    · exact hsame
    · obtain ⟨closed, leaked, heq⟩ := (dropRef_evicts { s with
        readers := s.readers.eraseP fun held => held.reader = reader } held.file).eq
      rw [heq]
      exact ⟨hsame.cache, hsame.sealed, fun hgate other hother halias =>
        (hsame.aliases hgate other hother halias).imp_right
          (Or.imp_right (List.mem_append_left _))⟩
  | begin base =>
    simp only [SegmentHandles.step] at hstep
    split at hstep
    · obtain rfl := Option.some.inj hstep
      exact ⟨h.cache, h.sealed, h.aliases⟩
    · cases hstep
  | rollover base =>
    obtain rfl := Option.some.inj hstep
    exact h.rollover base
  | openedActive base ok =>
    simp only [SegmentHandles.step] at hstep
    split at hstep
    · obtain rfl := Option.some.inj hstep
      split
      · refine ⟨h.cache, h.sealed, fun hgate held hheld halias => ?_⟩
        rcases h.aliases hgate held hheld halias with hactive | hsealed | hleaked
        · -- a file that `file_` still had is not closed
          refine Or.inr (Or.inr (List.mem_append_right _ ?_))
          exact Option.mem_toList.mpr hactive
        · exact Or.inr (Or.inl hsealed)
        · exact Or.inr (Or.inr (List.mem_append_left _ hleaked))
      · exact ⟨h.cache, h.sealed, h.aliases⟩
    · cases hstep
  | stopCache =>
    obtain rfl := Option.some.inj hstep
    have hempty := (clear_evicts s s.segmentCache.length (le_refl _)).segmentCache
    exact ⟨by simp [hempty], fun hgate => (nomatch hgate), fun hgate => nomatch hgate⟩
  | stopFile =>
    simp only [SegmentHandles.step] at hstep
    split at hstep
    · next hclosed =>
        obtain rfl := Option.some.inj hstep
        exact ⟨h.cache, fun hgate => absurd hclosed (by rw [hgate]; decide),
          fun hgate => absurd hclosed (by rw [hgate]; decide)⟩
    · cases hstep

end Ages

theorem Reached.owned {guard : SegmentHandles → Event → Prop} {s : SegmentHandles}
    (h : Reached guard s) : Owned s [] ∧ Aged s := by
  unfold Reached at h
  induction h with
  | start h0 =>
    obtain ⟨base, rfl⟩ := h0
    exact ⟨fun _ => rfl, Nat.zero_le _, fun _ _ hentry => (nomatch hentry),
      fun _ _ hheld => nomatch hheld⟩
  | next e _ _ hstep ih => exact ⟨ih.1.step hstep, ih.2.step hstep⟩

/-- **A segment file is closed once, and not under those who share it.**  In any order of reads,
    opens that succeed or fail, changes of segment and the end of the shard: the cache is within
    its limit; each file that was opened is `file_`, or shared by the cache and readers, or was
    closed once, or was lost without being closed (dropped behind the closed gate, or `file_`
    was set over it), and only one of these; so a file that is cached, or that a reader got from
    the cache, is open. -/
theorem segment_files_closed_once {guard : SegmentHandles → Event → Prop} {s : SegmentHandles}
    (h : Reached guard s) :
    s.segmentCache.length ≤ kSegmentCacheMax ∧
      (∀ file, s.file.toList.count file + min 1 (s.shared.count file) + s.closed.count file +
        s.leaked.count file = if file < s.files.length then 1 else 0) ∧
      (∀ cached ∈ s.segmentCache, cached.2 ∉ s.closed) ∧
      ∀ held ∈ s.readers, held.aliasing = false → held.file ∉ s.closed := by
  obtain ⟨howned, haged⟩ := h.owned
  have hopen : ∀ file ∈ s.shared, file ∉ s.closed := by
    intro file hshared hclosed
    have hx := howned file
    have hpos := List.count_pos_iff.mpr hshared
    have hpos' := List.count_pos_iff.mpr hclosed
    simp only [found] at hx
    split at hx <;> omega
  refine ⟨haged.cache, howned, fun cached hcached => ?_, fun held hheld howning => ?_⟩
  · exact hopen _ (List.mem_append_left _ (List.mem_map_of_mem hcached))
  · refine hopen _ (List.mem_append_right _ (List.mem_map_of_mem ?_))
    exact List.mem_filter.mpr ⟨hheld, by rw [howning]; rfl⟩

/-- A read that is given up with the file it got, another that fails, and a third that shares the
    file of the second while the segment changes and the shard stops. -/
def sharedReads : List Event :=
  [.openedActive 0 true, .read 1 0, .rollover 10, .openedActive 10 true, .read 2 0, .read 3 5,
    .openedForRead 3 false, .read 4 7, .openedForRead 4 true, .read 5 7, .release 2, .release 4,
    .stopCache, .release 5, .stopFile]

theorem segment_files_closed_once_stop :
    ∃ s, Transition.run step { activeSegmentBaseOffset := 0, opens := [0] } sharedReads = some s ∧
      s.closed = [0, 1] ∧ s.leaked = [2] ∧ s.segmentCache.length ≤ kSegmentCacheMax ∧
      (∀ file, s.file.toList.count file + min 1 (s.shared.count file) + s.closed.count file +
        s.leaked.count file = if file < s.files.length then 1 else 0) ∧
      (∀ cached ∈ s.segmentCache, cached.2 ∉ s.closed) ∧
      ∀ held ∈ s.readers, held.aliasing = false → held.file ∉ s.closed := by
  have hruns : (Transition.run step { activeSegmentBaseOffset := 0, opens := [0] } sharedReads).map
      (fun s => (s.closed, s.leaked)) = some ([0, 1], [2]) := by decide +kernel
  obtain ⟨s, hs, hends⟩ := Option.map_eq_some_iff.mp hruns
  obtain ⟨hclosed, hleaked⟩ := Prod.mk.inj hends
  refine ⟨s, hs, hclosed, hleaked, ?_⟩
  have hreached : Reached (fun _ _ => True) s :=
    Transition.Reachable.of_run (.start ⟨0, rfl⟩) sharedReads (fun _ _ _ => trivial) hs
  exact segment_files_closed_once hreached

/-- **How long a copy of the active file can be read.**  Until the shard stops, the file of a read
    of the active segment is closed only when that segment has been sealed and since then the
    cache has been changed as often as it has places: so a read that is over before that has an
    open file all along. -/
theorem aliased_file_open_until {guard : SegmentHandles → Event → Prop} {s : SegmentHandles}
    (h : Reached guard s) (hrunning : s.closeGateClosed = false) {held : SegmentReader}
    (hheld : held ∈ s.readers) (halias : held.aliasing = true) (hclosed : held.file ∈ s.closed) :
    ∃ since, (held.file, since) ∈ s.sealed ∧ since + kSegmentCacheMax ≤ s.moves := by
  obtain ⟨howned, haged⟩ := h.owned
  have hx := howned held.file
  have hpos := List.count_pos_iff.mpr hclosed
  simp only [found, List.count_nil] at hx
  -- a closed file is in no other place
  have hone : (if held.file < s.files.length then 1 else 0) ≤ 1 := by split <;> omega
  rcases haged.aliases hrunning held hheld halias with hactive | hsealed | hleaked
  · rw [hactive, Option.toList_some, List.count_singleton_self] at hx
    omega
  · obtain ⟨entry, hentry, hfile⟩ := List.mem_map.mp hsealed
    refine ⟨entry.2, hfile ▸ hentry, ?_⟩
    rcases (haged.sealed hrunning entry hentry).2 with ⟨base, hcached⟩ | hmoves
    · have hshared : held.file ∈ s.shared := List.mem_append_left _
        (List.mem_map.mpr ⟨(base, entry.1), List.mem_of_mem_take hcached, hfile⟩)
      have hpos' := List.count_pos_iff.mpr hshared
      omega
    · exact hmoves
  · have hpos' := List.count_pos_iff.mpr hleaked
    omega

/-- A read of the active segment that is still going on when the segment is sealed and 32 other
    segments have been read. -/
def longRead : List Event :=
  [.openedActive 0 true, .read 0 0, .rollover 100, .openedActive 100 true] ++
    (List.range 32).flatMap fun i => [.read (i + 1) (i + 1), .openedForRead (i + 1) true]

theorem aliased_file_open_until_last :
    ∃ s, Transition.run step { activeSegmentBaseOffset := 0, opens := [0] } longRead = some s ∧
      ⟨0, 0, 0, true⟩ ∈ s.readers ∧ 0 ∈ s.closed ∧ s.moves = 33 ∧
      ∃ since, (0, since) ∈ s.sealed ∧ since + kSegmentCacheMax ≤ s.moves := by
  have hruns : (Transition.run step { activeSegmentBaseOffset := 0, opens := [0] } longRead).map
      (fun s => (decide (⟨0, 0, 0, true⟩ ∈ s.readers), s.closed, s.moves, s.closeGateClosed)) =
        some (true, [0], 33, false) := by decide +kernel
  obtain ⟨s, hs, hends⟩ := Option.map_eq_some_iff.mp hruns
  simp only [Prod.mk.injEq, decide_eq_true_eq] at hends
  obtain ⟨hheld, hclosed, hmoves, hrunning⟩ := hends
  have hmem : 0 ∈ s.closed := by rw [hclosed]; exact List.mem_cons_self
  have hreached : Reached (fun _ _ => True) s :=
    Transition.Reachable.of_run (.start ⟨0, rfl⟩) longRead (fun _ _ _ => trivial) hs
  exact ⟨s, hs, hheld, hmem, hmoves, aliased_file_open_until hreached hrunning hheld rfl hmem⟩

/-! ### Which file a read gets -/

/-- An append that finds no open file does not open one while another open is under way. -/
def OneOpen (s : SegmentHandles) : Event → Prop
  | .begin _ => s.opens = []
  | _ => True

instance (s : SegmentHandles) (e : Event) : Decidable (s.OneOpen e) :=
  match e with
  | .begin _ => inferInstanceAs (Decidable (s.opens = []))
  | .read .. | .openedForRead .. | .release _ | .rollover _ | .openedActive .. | .stopCache
  | .stopFile => .isTrue trivial

structure Right (s : SegmentHandles) : Prop where
  cache : ∀ cached ∈ s.segmentCache, s.files[cached.2]? = some cached.1
  readers : ∀ held ∈ s.readers, s.files[held.file]? = some held.base
  file : ∀ file, s.file = some file →
    s.files[file]? = some s.activeSegmentBaseOffset ∧ s.opens = []
  opens : s.opens = [] ∨ s.opens = [s.activeSegmentBaseOffset]

section Rights

variable {s s' : SegmentHandles}

/-- One more file does not change the others. -/
theorem getElem?_files {files : List Int} {file : Nat} {base : Int} (h : files[file]? = some base)
    (new : Int) : (files ++ [new])[file]? = some base := by
  rw [List.getElem?_append_left (List.getElem?_eq_some_iff.mp h).1]
  exact h

theorem Right.evicts {cache : List (Int × Nat)} (h : Right s) (hevicts : Evicts s cache s')
    (hcache : ∀ cached ∈ cache, s.files[cached.2]? = some cached.1) : Right s' := by
  obtain ⟨closed, leaked, rfl⟩ := hevicts.eq
  exact ⟨hcache, h.readers, h.file, h.opens⟩

theorem Right.install (h : Right s) {base : Int} {file : Nat} (hfile : s.files[file]? = some base) :
    Right (s.install base file) := by
  have hmoved : Right { s with moves := s.moves + 1 } := ⟨h.cache, h.readers, h.file, h.opens⟩
  refine hmoved.evicts (install_evicts s base file) ?_
  exact List.forall_mem_cons.mpr
    ⟨hfile, fun cached hcached => h.cache cached (List.mem_of_mem_take hcached)⟩

theorem Right.addReader (h : Right s) {held : SegmentReader}
    (hheld : s.files[held.file]? = some held.base) :
    Right { s with readers := s.readers ++ [held] } :=
  ⟨h.cache, ListRules.forall_mem_concat.mpr ⟨h.readers, hheld⟩, h.file, h.opens⟩

theorem Right.getSegmentFileForRead (h : Right s) (reader : Nat) (base : Int) :
    Right (s.getSegmentFileForRead reader base) := by
  unfold SegmentHandles.getSegmentFileForRead
  split
  · next file hfile hactive =>
      refine h.addReader ?_
      rw [of_decide_eq_true hactive]
      exact (h.file file hfile).1
  · split
    · next cached hfind =>
        have hmem := List.mem_of_find?_eq_some hfind
        have hbase : cached.1 = base := by simpa using List.find?_some hfind
        have htouched : Right { s with
            segmentCache := Recency.touch cached s.segmentCache
            moves := if s.segmentCache.head? = some cached then s.moves else s.moves + 1 } :=
          ⟨fun other hother => h.cache other ((Recency.touch_perm hmem).mem_iff.mp hother),
            h.readers, h.file, h.opens⟩
        exact htouched.addReader (hbase ▸ h.cache cached hmem)
    · exact ⟨h.cache, h.readers, h.file, h.opens⟩

/-- A file is opened. -/
theorem Right.newFile (h : Right s) (base : Int) : Right { s with files := s.files ++ [base] } :=
  ⟨fun cached hcached => getElem?_files (h.cache cached hcached) base,
    fun held hheld => getElem?_files (h.readers held hheld) base,
    fun file hfile => ⟨getElem?_files (h.file file hfile).1 base, (h.file file hfile).2⟩, h.opens⟩

theorem Right.openedForRead (h : Right s) (reader : Nat) (base : Int) :
    Right (s.openedForRead reader base) := by
  have hfile : (s.files ++ [base])[s.files.length]? = some base := List.getElem?_concat_length
  have hinstalled := (h.newFile base).install hfile
  refine hinstalled.addReader ?_
  obtain ⟨closed, leaked, heq⟩ :=
    (install_evicts { s with files := s.files ++ [base] } base s.files.length).eq
  rw [heq]
  exact hfile

theorem Right.rollover (h : Right s) (base : Int) : Right (s.rollover base) := by
  unfold SegmentHandles.rollover
  split
  · exact h
  · next old hfile =>
      obtain ⟨hold, hopens⟩ := h.file old hfile
      have hsealed : Right { s with file := none } :=
        ⟨h.cache, h.readers, fun _ hnone => (nomatch hnone), h.opens⟩
      have hinstalled := hsealed.install hold
      obtain ⟨closed, leaked, heq⟩ :=
        (install_evicts { s with file := none } s.activeSegmentBaseOffset old).eq
      rw [heq] at hinstalled ⊢
      exact ⟨hinstalled.cache, hinstalled.readers, fun _ hnone => (nomatch hnone),
        Or.inr (by simp [hopens])⟩

theorem Right.step {e : Event} (h : Right s) (hone : s.OneOpen e) (hstep : s.step e = some s') :
    Right s' := by
  cases e with
  | read reader base =>
    obtain rfl := Option.some.inj hstep
    exact h.getSegmentFileForRead reader base
  | openedForRead reader ok =>
    obtain ⟨waiting, -, rfl⟩ := Option.map_eq_some_iff.mp hstep
    have hsame : Right { s with
        opening := s.opening.eraseP fun waiting => waiting.1 = reader } :=
      ⟨h.cache, h.readers, h.file, h.opens⟩
    simp only
    split
    · exact hsame.openedForRead reader waiting.2
    · exact hsame
  | release reader =>
    obtain ⟨held, -, rfl⟩ := Option.map_eq_some_iff.mp hstep
    have hsame : Right { s with
        readers := s.readers.eraseP fun held => held.reader = reader } :=
      ⟨h.cache, fun other hother => h.readers other (List.mem_of_mem_eraseP hother), h.file,
        h.opens⟩
    simp only
    split
    · exact hsame
    · exact hsame.evicts (dropRef_evicts _ held.file) h.cache
  | begin base =>
    simp only [SegmentHandles.step] at hstep
    split at hstep
    · next hnone =>
        obtain rfl := Option.some.inj hstep
        have hopens : s.opens = [] := hone
        refine ⟨h.cache, h.readers, fun file hfile => ?_, Or.inr (by simp [hopens])⟩
        rw [hnone] at hfile
        cases hfile
    · cases hstep
  | rollover base =>
    obtain rfl := Option.some.inj hstep
    exact h.rollover base
  | openedActive base ok =>
    simp only [SegmentHandles.step] at hstep
    split at hstep
    · next hmem =>
        obtain rfl := Option.some.inj hstep
        -- the one open under way is that of the active segment
        have hopens : s.opens = [s.activeSegmentBaseOffset] :=
          h.opens.resolve_left (List.ne_nil_of_mem hmem)
        have hbase : base = s.activeSegmentBaseOffset := by simpa [hopens] using hmem
        have hnone : s.file = none := by
          cases hfile : s.file with
          | none => rfl
          | some file => rw [(h.file file hfile).2] at hmem; cases hmem
        have hleft : s.opens.erase base = [] := by simp [hopens, hbase]
        simp only [hleft]
        split
        · have hnew := h.newFile base
          refine ⟨hnew.cache, hnew.readers, fun file hfile => ?_, Or.inl rfl⟩
          have hlast : file = s.files.length := (Option.some.inj hfile).symm
          rw [hlast, ← hbase]
          exact ⟨List.getElem?_concat_length, rfl⟩
        · exact ⟨h.cache, h.readers, fun file hfile => ⟨(h.file file hfile).1, rfl⟩, Or.inl rfl⟩
    · cases hstep
  | stopCache =>
    obtain rfl := Option.some.inj hstep
    have hcleared := h.evicts (clear_evicts s s.segmentCache.length (le_refl _))
      (fun _ hnone => nomatch hnone)
    exact ⟨hcleared.cache, hcleared.readers, hcleared.file, hcleared.opens⟩
  | stopFile =>
    simp only [SegmentHandles.step] at hstep
    split at hstep
    · obtain rfl := Option.some.inj hstep
      exact ⟨h.cache, h.readers, fun _ hnone => (nomatch hnone), h.opens⟩
    · cases hstep

theorem Reached.right (h : Reached OneOpen s) : Right s := by
  unfold Reached at h
  induction h with
  | start h0 =>
    obtain ⟨base, rfl⟩ := h0
    exact ⟨fun _ hmem => (nomatch hmem), fun _ hmem => (nomatch hmem),
      fun _ hnone => (nomatch hnone), Or.inr rfl⟩
  | next e _ hone hstep ih => exact ih.step hone hstep

end Rights

/-- **A read gets a file of the segment it asked for.**  In any order of events in which appends
    open one segment at a time, each handle that a read has is of a file of its segment, also
    when the segment has been sealed, evicted or opened twice in the meantime, and `file_` is a
    file of the active segment with no other open under way. -/
theorem reads_get_their_segment {s : SegmentHandles} (h : Reached OneOpen s) :
    (∀ held ∈ s.readers, s.files[held.file]? = some held.base) ∧
      (∀ cached ∈ s.segmentCache, s.files[cached.2]? = some cached.1) ∧
      ∀ file, s.file = some file →
        s.files[file]? = some s.activeSegmentBaseOffset ∧ s.opens = [] :=
  ⟨h.right.readers, h.right.cache, h.right.file⟩

theorem reads_get_their_segment_sealed :
    ∃ s, Transition.guardedRun step OneOpen { activeSegmentBaseOffset := 0, opens := [0] }
        [.openedActive 0 true, .read 1 0, .rollover 10, .read 2 0, .read 3 10,
          .openedActive 10 true, .openedForRead 3 true, .read 4 10] = some s ∧
      s.readers.map (fun held => (held.reader, held.file)) = [(1, 0), (2, 0), (3, 2), (4, 1)] ∧
      s.files = [0, 10, 10] ∧ (∀ held ∈ s.readers, s.files[held.file]? = some held.base) ∧
      (∀ cached ∈ s.segmentCache, s.files[cached.2]? = some cached.1) ∧
      ∀ file, s.file = some file →
        s.files[file]? = some s.activeSegmentBaseOffset ∧ s.opens = [] := by
  have hruns : (Transition.guardedRun step OneOpen { activeSegmentBaseOffset := 0, opens := [0] }
      [.openedActive 0 true, .read 1 0, .rollover 10, .read 2 0, .read 3 10, .openedActive 10 true,
        .openedForRead 3 true, .read 4 10]).map
      (fun s => (s.readers.map fun held => (held.reader, held.file), s.files)) =
        some ([(1, 0), (2, 0), (3, 2), (4, 1)], [0, 10, 10]) := by decide +kernel
  obtain ⟨s, hs, hends⟩ := Option.map_eq_some_iff.mp hruns
  obtain ⟨hreaders, hfiles⟩ := Prod.mk.inj hends
  exact ⟨s, hs, hreaders, hfiles, reads_get_their_segment
    (Transition.Reachable.of_guardedRun (.start ⟨0, rfl⟩) _ hs)⟩

-- Two appends that find no open file both open one, and reads of segment 10 go to segment 11's.
example : (Transition.run step { activeSegmentBaseOffset := 0, opens := [0] }
    [.openedActive 0 false, .begin 11, .begin 10, .openedActive 10 true, .openedActive 11 true,
      .read 1 10]).map (fun s => s.readers.map fun held => (held.base, s.files[held.file]?)) =
    some [(10, some 11)] := by
  decide +kernel

/-! ### One read at a time -/

/-- The log of `PartitionLogShard`, where a file is named by the segment it is of. -/
structure View (s : SegmentHandles) (p : PartitionLogShard) : Prop where
  active : p.activeSegmentBaseOffset = s.activeSegmentBaseOffset
  file : p.file = s.file.bind fun file => s.files[file]?
  cache : p.segmentCache.map (fun cached => (cached.1, some cached.2)) =
    s.segmentCache.map fun cached => (cached.1, s.files[cached.2]?)

/-- A read with nothing in between; `onDisk` says whether an open succeeds. -/
def readAtOnce (s : SegmentHandles) (reader : Nat) (base : Int) (onDisk : Bool) : SegmentHandles :=
  let s := s.getSegmentFileForRead reader base
  (s.step (.openedForRead reader onDisk)).getD s

/-- The segment whose file a read has got. -/
def segmentRead (s : SegmentHandles) (reader : Nat) : Option Int :=
  (s.readers.find? fun held => held.reader = reader).bind fun held => s.files[held.file]?

section AtOnce

variable {s : SegmentHandles} {p : PartitionLogShard} {file reader : Nat} {cached : Int × Nat}
  {base : Int}

/-- A file that is in use has been opened. -/
theorem Owned.lt_length (h : Owned s []) (hpos : 0 < s.found file) : file < s.files.length := by
  have hx := h file
  simp only [List.count_nil, Nat.add_zero] at hx
  split at hx
  · assumption
  · omega

theorem Owned.file_lt (h : Owned s []) (hfile : s.file = some file) : file < s.files.length := by
  refine h.lt_length ?_
  rw [found, hfile, Option.toList_some, List.count_singleton_self]
  omega

theorem Owned.cached_lt (h : Owned s []) (hcached : cached ∈ s.segmentCache) :
    cached.2 < s.files.length := by
  have hshared : cached.2 ∈ s.shared := List.mem_append_left _ (List.mem_map_of_mem hcached)
  have hpos := List.count_pos_iff.mpr hshared
  refine h.lt_length ?_
  unfold found
  omega

theorem View.find? (h : View s p) (base : Int) :
    (p.segmentCache.find? fun cached => decide (cached.1 = base)).map
        (fun cached => (cached.1, some cached.2)) =
      (s.segmentCache.find? fun cached => decide (cached.1 = base)).map
        fun cached => (cached.1, s.files[cached.2]?) := by
  have hfind := congrArg (List.find? fun cached => decide (cached.1 = base)) h.cache
  rwa [List.find?_map, List.find?_map] at hfind

theorem View.eraseP (h : View s p) (base : Int) :
    (p.segmentCache.eraseP fun cached => decide (cached.1 = base)).map
        (fun cached => (cached.1, some cached.2)) =
      (s.segmentCache.eraseP fun cached => decide (cached.1 = base)).map
        fun cached => (cached.1, s.files[cached.2]?) := by
  have herase := congrArg (List.eraseP fun cached => decide (cached.1 = base)) h.cache
  rwa [List.eraseP_map, List.eraseP_map] at herase

/-- A read that got its file at once. -/
theorem readAtOnce_eq (onDisk : Bool) (hfresh : ∀ waiting ∈ s.opening, waiting.1 ≠ reader)
    (hopening : (s.getSegmentFileForRead reader base).opening = s.opening) :
    s.readAtOnce reader base onDisk = s.getSegmentFileForRead reader base := by
  have hnone : (s.opening.find? fun waiting => decide (waiting.1 = reader)) = none := by
    rw [List.find?_eq_none]
    simpa using hfresh
  unfold readAtOnce SegmentHandles.step
  simp only [hopening, hnone, Option.map_none, Option.getD_none]

theorem segmentRead_concat {readers : List SegmentReader} {aliasing : Bool}
    (hfresh : ∀ other ∈ readers, other.reader ≠ reader)
    (hreaders : s.readers = readers ++ [⟨reader, base, file, aliasing⟩]) :
    s.segmentRead reader = s.files[file]? := by
  have hnone : (readers.find? fun other => decide (other.reader = reader)) = none := by
    rw [List.find?_eq_none]
    simpa using hfresh
  simp [segmentRead, hreaders, List.find?_append, hnone]

theorem View.hit (h : View s p)
    (hfind : (s.segmentCache.find? fun cached => decide (cached.1 = base)) = some cached) :
    ∃ cached', (p.segmentCache.find? fun cached => decide (cached.1 = base)) = some cached' ∧
      some cached'.2 = s.files[cached.2]? ∧
      (Recency.touch cached' p.segmentCache).map (fun cached => (cached.1, some cached.2)) =
        (Recency.touch cached s.segmentCache).map fun cached => (cached.1, s.files[cached.2]?) := by
  have hmapped := h.find? base
  rw [hfind, Option.map_some, Option.map_eq_some_iff] at hmapped
  obtain ⟨cached', hfind', heq⟩ := hmapped
  refine ⟨cached', hfind', congrArg Prod.snd heq, ?_⟩
  rw [Recency.touch, Recency.touch, Recency.erase_eq_eraseP hfind, Recency.erase_eq_eraseP hfind',
    List.map_cons, List.map_cons, heq, h.eraseP base]

theorem View.miss (h : View s p)
    (hfind : (s.segmentCache.find? fun cached => decide (cached.1 = base)) = none) :
    (p.segmentCache.find? fun cached => decide (cached.1 = base)) = none := by
  have hmapped := h.find? base
  rwa [hfind, Option.map_none, Option.map_eq_none_iff] at hmapped

/-- The file that a read opens, at the front of the cache. -/
theorem View.push (h : View s p) (howned : Owned s []) (base : Int) :
    (Recency.push kSegmentCacheMax (base, base) p.segmentCache).map
        (fun cached => (cached.1, some cached.2)) =
      (Recency.push kSegmentCacheMax (base, s.files.length) s.segmentCache).map
        fun cached => (cached.1, (s.files ++ [base])[cached.2]?) := by
  have hold : s.segmentCache.map (fun cached => (cached.1, (s.files ++ [base])[cached.2]?)) =
      s.segmentCache.map fun cached => (cached.1, s.files[cached.2]?) := by
    refine List.map_congr_left fun cached hcached => ?_
    rw [List.getElem?_append_left (howned.cached_lt hcached)]
  rw [Recency.push, Recency.push, List.map_cons, List.map_cons, List.map_take, List.map_take, hold,
    h.cache, List.getElem?_concat_length]

/-- A read that has to open its file. -/
theorem readAtOnce_miss (onDisk : Bool) (hfresh : ∀ waiting ∈ s.opening, waiting.1 ≠ reader)
    (hmiss : s.getSegmentFileForRead reader base =
      { s with opening := s.opening ++ [(reader, base)] }) :
    s.readAtOnce reader base onDisk = if onDisk then s.openedForRead reader base else s := by
  have hnone : (s.opening.find? fun waiting => decide (waiting.1 = reader)) = none := by
    rw [List.find?_eq_none]
    simpa using hfresh
  have hfind : ((s.opening ++ [(reader, base)]).find? fun waiting => decide (waiting.1 = reader)) =
      some (reader, base) := by
    simp [List.find?_append, hnone]
  have hleft : ((s.opening ++ [(reader, base)]).eraseP fun waiting => decide (waiting.1 = reader)) =
      s.opening := by
    rw [List.eraseP_append_right _ (by simpa using hfresh)]
    simp
  unfold readAtOnce SegmentHandles.step
  simp only [hmiss, hfind, hleft, Option.map_some, Option.getD_some]

theorem openedForRead_eq (reader : Nat) (base : Int) :
    ∃ closed leaked, s.openedForRead reader base =
      { s with
        segmentCache := Recency.push kSegmentCacheMax (base, s.files.length) s.segmentCache
        moves := s.moves + 1
        files := s.files ++ [base]
        closed := s.closed ++ closed
        leaked := s.leaked ++ leaked
        readers := s.readers ++ [⟨reader, base, s.files.length, false⟩] } := by
  obtain ⟨closed, leaked, heq⟩ :=
    (install_evicts { s with files := s.files ++ [base] } base s.files.length).eq
  refine ⟨closed, leaked, ?_⟩
  rw [openedForRead, heq]

/-- A read that does not get a copy of `file_`, of a cached file. -/
theorem getSegmentFileForRead_hit (reader : Nat)
    (h : ¬(base = s.activeSegmentBaseOffset ∧ s.file.isSome))
    (hfind : (s.segmentCache.find? fun cached => decide (cached.1 = base)) = some cached) :
    s.getSegmentFileForRead reader base =
      { s with
        segmentCache := Recency.touch cached s.segmentCache
        moves := if s.segmentCache.head? = some cached then s.moves else s.moves + 1
        readers := s.readers ++ [⟨reader, base, cached.2, false⟩] } := by
  unfold SegmentHandles.getSegmentFileForRead
  split
  · next hfile hactive => exact absurd ⟨of_decide_eq_true hactive, by rw [hfile]; rfl⟩ h
  · rw [hfind]

theorem getSegmentFileForRead_miss (reader : Nat)
    (h : ¬(base = s.activeSegmentBaseOffset ∧ s.file.isSome))
    (hfind : (s.segmentCache.find? fun cached => decide (cached.1 = base)) = none) :
    s.getSegmentFileForRead reader base = { s with opening := s.opening ++ [(reader, base)] } := by
  unfold SegmentHandles.getSegmentFileForRead
  split
  · next hfile hactive => exact absurd ⟨of_decide_eq_true hactive, by rw [hfile]; rfl⟩ h
  · rw [hfind]

/-- **One read at a time, the log's own model of its cache is right.**  From any reachable state,
    a read whose open, if it needs one, completes before anything else happens leaves the cache
    that `PartitionLogShard.getSegmentFileForRead` leaves, and gets a file of the segment that
    this says, or none. -/
theorem read_at_once_refines {guard : SegmentHandles → Event → Prop} (h : Reached guard s)
    (hview : View s p) {reader : Nat} (hopening : ∀ waiting ∈ s.opening, waiting.1 ≠ reader)
    (hreaders : ∀ held ∈ s.readers, held.reader ≠ reader) (base : Int) :
    View (s.readAtOnce reader base (OrderedStore.find base p.root.segments).isSome)
        (p.getSegmentFileForRead base).1 ∧
      (s.readAtOnce reader base (OrderedStore.find base p.root.segments).isSome).segmentRead
        reader = (p.getSegmentFileForRead base).2 := by
  have howned := h.owned.1
  by_cases hactive : base = s.activeSegmentBaseOffset ∧ s.file.isSome
  · obtain ⟨hbase, hsome⟩ := hactive
    obtain ⟨file, hfile⟩ := Option.isSome_iff_exists.mp hsome
    have hread : s.getSegmentFileForRead reader base =
        { s with readers := s.readers ++ [⟨reader, base, file, true⟩] } := by
      simp [SegmentHandles.getSegmentFileForRead, hfile, hbase]
    have hp : p.file = s.files[file]? := by rw [hview.file, hfile, Option.bind_some]
    have hpsome : p.file.isSome := by simp [hp, howned.file_lt hfile]
    have hpread : p.getSegmentFileForRead base = (p, p.file) := by
      rw [PartitionLogShard.getSegmentFileForRead, if_pos ⟨by rw [hview.active, hbase], hpsome⟩]
    rw [readAtOnce_eq _ hopening (by rw [hread]), hread, hpread, hp]
    exact ⟨⟨hview.active, hview.file, hview.cache⟩,
      segmentRead_concat hreaders rfl⟩
  · have hpactive : ¬(base = p.activeSegmentBaseOffset ∧ p.file.isSome) := by
      rintro ⟨hbase, hsome⟩
      refine hactive ⟨by rw [hbase, hview.active], ?_⟩
      rw [hview.file] at hsome
      exact Option.isSome_of_isSome_bind hsome
    have hpread : p.getSegmentFileForRead base = _ := if_neg hpactive
    cases hfind : s.segmentCache.find? fun cached => decide (cached.1 = base) with
    | some cached =>
      obtain ⟨cached', hfind', hfile, hcache⟩ := hview.hit hfind
      have hread := getSegmentFileForRead_hit reader hactive hfind
      simp only [hfind'] at hpread
      rw [readAtOnce_eq _ hopening (by rw [hread]), hread, hpread, hfile]
      exact ⟨⟨hview.active, hview.file, hcache⟩,
        segmentRead_concat hreaders rfl⟩
    | none =>
      simp only [hview.miss hfind] at hpread
      rw [readAtOnce_miss _ hopening (getSegmentFileForRead_miss reader hactive hfind), hpread]
      split
      · obtain ⟨closed, leaked, hopened⟩ := s.openedForRead_eq reader base
        rw [hopened]
        refine ⟨⟨hview.active, ?_, hview.push howned base⟩, ?_⟩
        · rw [hview.file]
          cases hfile : s.file with
          | none => rfl
          | some file =>
            exact (List.getElem?_append_left (howned.file_lt hfile)).symm
        · rw [← List.getElem?_concat_length (l := s.files) (a := base)]
          exact segmentRead_concat hreaders rfl
      · refine ⟨hview, ?_⟩
        have hnone : (s.readers.find? fun held => decide (held.reader = reader)) = none := by
          rw [List.find?_eq_none]
          simpa using hreaders
        rw [segmentRead, hnone, Option.bind_none]

/-- A log in segment 10 with segment 0 cached and segment 5 on disk. -/
def thirdSegment : SegmentHandles :=
  { activeSegmentBaseOffset := 10, file := some 1, segmentCache := [(0, 0)], files := [0, 10],
    sealed := [(0, 1)], moves := 1 }

def thirdSegmentLog : PartitionLogShard :=
  { PartitionLogShard.fresh {} 4096 1 Nat.one_pos with
    activeSegmentBaseOffset := 10
    file := some 10
    segmentCache := [(0, 0)]
    root := { segments := [(0, []), (5, []), (10, [])] } }

theorem read_at_once_refines_third :
    View (thirdSegment.readAtOnce 1 5 true) (thirdSegmentLog.getSegmentFileForRead 5).1 ∧
      (thirdSegmentLog.getSegmentFileForRead 5).1.segmentCache = [(5, 5), (0, 0)] ∧
      (thirdSegment.readAtOnce 1 5 true).segmentRead 1 = some 5 := by
  have hreached : Reached (fun _ _ => True) thirdSegment :=
    Transition.Reachable.of_run (.start ⟨0, rfl⟩)
      [.openedActive 0 true, .rollover 10, .openedActive 10 true] (fun _ _ _ => trivial)
      (by decide +kernel)
  have hview : View thirdSegment thirdSegmentLog := ⟨rfl, rfl, rfl⟩
  have hopening : ∀ waiting ∈ thirdSegment.opening, waiting.1 ≠ 1 := fun _ hmem => nomatch hmem
  have hreaders : ∀ held ∈ thirdSegment.readers, held.reader ≠ 1 := fun _ hmem => nomatch hmem
  obtain ⟨hcache, hfile⟩ := read_at_once_refines hreached hview hopening hreaders 5
  exact ⟨hcache, by decide +kernel, hfile⟩

end AtOnce

end SegmentHandles

end Mkmq

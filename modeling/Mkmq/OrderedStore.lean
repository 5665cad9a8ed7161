import Mathlib.Data.List.Basic
import Mathlib.Order.Lattice

/-!
# A store of named values, listed in key order

A directory of files, seen from a program that lists it sorted by name: an
association list whose keys ascend.  `put` replaces or inserts, `find` looks up, and
the list itself is what a sorted listing returns.
-/

namespace OrderedStore

variable {κ ν : Type} [LinearOrder κ] {key : κ} {store front back : List (κ × ν)} {value : ν}

/-- Keys ascend, so the list is its own sorted listing and no key occurs twice. -/
def Ascending (store : List (κ × ν)) : Prop := store.Pairwise fun a b => a.1 < b.1

def find (key : κ) : List (κ × ν) → Option ν
  | [] => none
  | (k, v) :: rest => if k = key then some v else find key rest

def put (key : κ) (value : ν) : List (κ × ν) → List (κ × ν)
  | [] => [(key, value)]
  | (k, v) :: rest =>
    if key < k then (key, value) :: (k, v) :: rest
    else if key = k then (key, value) :: rest
    else (k, v) :: put key value rest

theorem mem_put {k : κ} {v : ν} (h : (k, v) ∈ put key value store) :
    (k, v) = (key, value) ∨ (k, v) ∈ store := by
  induction store with
  | nil => exact Or.inl (by simpa [put] using h)
  | cons head rest ih =>
    obtain ⟨k0, v0⟩ := head
    unfold put at h
    by_cases hlt : key < k0
    · rw [if_pos hlt] at h
      rcases List.mem_cons.mp h with h | h
      · exact Or.inl h
      · exact Or.inr h
    · rw [if_neg hlt] at h
      by_cases heq : key = k0
      · rw [if_pos heq] at h
        rcases List.mem_cons.mp h with h | h
        · exact Or.inl h
        · exact Or.inr (List.mem_cons_of_mem _ h)
      · rw [if_neg heq] at h
        rcases List.mem_cons.mp h with h | h
        · exact Or.inr (by rw [h]; exact List.mem_cons_self)
        · rcases ih h with h | h
          · exact Or.inl h
          · exact Or.inr (List.mem_cons_of_mem _ h)

theorem Ascending.put (h : Ascending store) (key : κ) (value : ν) :
    Ascending (put key value store) := by
  induction store with
  | nil => exact List.pairwise_singleton _ _
  | cons head rest ih =>
    obtain ⟨k0, v0⟩ := head
    obtain ⟨hhead, hrest⟩ := List.pairwise_cons.mp h
    unfold OrderedStore.put
    by_cases hlt : key < k0
    · rw [if_pos hlt]
      refine List.pairwise_cons.mpr ⟨?_, h⟩
      intro b hb
      rcases List.mem_cons.mp hb with rfl | hb
      · exact hlt
      · exact lt_trans hlt (hhead b hb)
    · rw [if_neg hlt]
      by_cases heq : key = k0
      · rw [if_pos heq]
        exact List.pairwise_cons.mpr ⟨fun b hb => heq ▸ hhead b hb, hrest⟩
      · rw [if_neg heq]
        refine List.pairwise_cons.mpr ⟨?_, ih hrest⟩
        rintro ⟨k, v⟩ hb
        rcases mem_put hb with hb | hb
        · obtain ⟨rfl, rfl⟩ := Prod.mk.inj hb
          exact lt_of_le_of_ne (not_lt.mp hlt) (Ne.symm heq)
        · exact hhead (k, v) hb

@[simp] theorem find_put_self (key : κ) (value : ν) (store : List (κ × ν)) :
    find key (put key value store) = some value := by
  induction store with
  | nil => simp [put, find]
  | cons head rest ih =>
    obtain ⟨k0, v0⟩ := head
    unfold put
    by_cases hlt : key < k0
    · rw [if_pos hlt, find, if_pos rfl]
    · rw [if_neg hlt]
      by_cases heq : key = k0
      · rw [if_pos heq, find, if_pos rfl]
      · rw [if_neg heq, find, if_neg (Ne.symm heq), ih]

theorem find_put_of_ne {other : κ} (h : other ≠ key) (value : ν) (store : List (κ × ν)) :
    find other (put key value store) = find other store := by
  induction store with
  | nil => simp [put, find, h.symm]
  | cons head rest ih =>
    obtain ⟨k0, v0⟩ := head
    unfold put
    by_cases hlt : key < k0
    · rw [if_pos hlt, find, if_neg (Ne.symm h)]
    · rw [if_neg hlt]
      by_cases heq : key = k0
      · rw [if_pos heq, find, if_neg (Ne.symm h), find, if_neg (heq ▸ Ne.symm h)]
      · rw [if_neg heq, find, find, ih]

theorem find_put (key other : κ) (value : ν) (store : List (κ × ν)) :
    find other (put key value store) = if other = key then some value else find other store := by
  by_cases h : other = key
  · rw [if_pos h, h, find_put_self]
  · rw [if_neg h, find_put_of_ne h]

/-- A key past all others goes to the end. -/
theorem put_eq_append (h : ∀ entry ∈ store, entry.1 < key) (value : ν) :
    put key value store = store ++ [(key, value)] := by
  induction store with
  | nil => rfl
  | cons head rest ih =>
    obtain ⟨k0, v0⟩ := head
    have hk := h (k0, v0) List.mem_cons_self
    rw [put, if_neg (not_lt.mpr (le_of_lt hk)), if_neg (ne_of_gt hk),
      ih (fun entry he => h entry (List.mem_cons_of_mem _ he)), List.cons_append]

/-- Writing the last key replaces the last value. -/
theorem put_last (h : ∀ entry ∈ store, entry.1 < key) (old value : ν) :
    put key value (store ++ [(key, old)]) = store ++ [(key, value)] := by
  induction store with
  | nil => simp [put]
  | cons head rest ih =>
    obtain ⟨k0, v0⟩ := head
    have hk := h (k0, v0) List.mem_cons_self
    rw [List.cons_append, put, if_neg (not_lt.mpr (le_of_lt hk)), if_neg (ne_of_gt hk),
      ih (fun entry he => h entry (List.mem_cons_of_mem _ he)), List.cons_append]

theorem find_eq_none (h : ∀ entry ∈ store, entry.1 ≠ key) : find key store = none := by
  induction store with
  | nil => rfl
  | cons head rest ih =>
    obtain ⟨k0, v0⟩ := head
    rw [find, if_neg (h (k0, v0) List.mem_cons_self),
      ih (fun entry he => h entry (List.mem_cons_of_mem _ he))]

theorem mem_of_find (h : find key store = some value) : (key, value) ∈ store := by
  induction store with
  | nil => simp [find] at h
  | cons head rest ih =>
    obtain ⟨k0, v0⟩ := head
    rw [find] at h
    split at h
    · next heq =>
        obtain rfl := Option.some.inj h
        rw [heq]
        exact List.mem_cons_self
    · exact List.mem_cons_of_mem _ (ih h)

theorem Ascending.find_of_mem (hs : Ascending store) (h : (key, value) ∈ store) :
    find key store = some value := by
  induction store with
  | nil => cases h
  | cons head rest ih =>
    obtain ⟨k0, v0⟩ := head
    obtain ⟨hhead, hrest⟩ := List.pairwise_cons.mp hs
    rcases List.mem_cons.mp h with h | h
    · obtain ⟨rfl, rfl⟩ := Prod.mk.inj h
      rw [find, if_pos rfl]
    · rw [find, if_neg (ne_of_lt (hhead _ h)), ih hrest h]

/-! ### The place of a key -/

theorem Ascending.exists_split (hs : Ascending store) (key : κ) :
    ∃ front back, store = front ++ back ∧ (∀ entry ∈ front, entry.1 < key) ∧
      ∀ entry ∈ back, key ≤ entry.1 := by
  induction store with
  | nil => exact ⟨[], [], rfl, by simp, by simp⟩
  | cons head rest ih =>
    obtain ⟨hhead, hrest⟩ := List.pairwise_cons.mp hs
    by_cases hlt : head.1 < key
    · obtain ⟨front, back, rfl, hfront, hback⟩ := ih hrest
      exact ⟨head :: front, back, rfl, List.forall_mem_cons.mpr ⟨hlt, hfront⟩, hback⟩
    · refine ⟨[], head :: rest, rfl, by simp, List.forall_mem_cons.mpr ⟨not_lt.mp hlt, ?_⟩⟩
      intro entry hentry
      exact le_of_lt (lt_of_le_of_lt (not_lt.mp hlt) (hhead entry hentry))

theorem find_append_of_lt (h : ∀ entry ∈ front, entry.1 < key) (back : List (κ × ν)) :
    find key (front ++ back) = find key back := by
  induction front with
  | nil => rfl
  | cons head rest ih =>
    obtain ⟨hhead, hrest⟩ := List.forall_mem_cons.mp h
    obtain ⟨k0, v0⟩ := head
    rw [List.cons_append, find, if_neg (ne_of_lt hhead), ih hrest]

theorem put_append_of_lt (h : ∀ entry ∈ front, entry.1 < key) (value : ν) (back : List (κ × ν)) :
    put key value (front ++ back) = front ++ put key value back := by
  induction front with
  | nil => rfl
  | cons head rest ih =>
    obtain ⟨hhead, hrest⟩ := List.forall_mem_cons.mp h
    obtain ⟨k0, v0⟩ := head
    rw [List.cons_append, put, if_neg (not_lt.mpr (le_of_lt hhead)), if_neg (ne_of_gt hhead),
      ih hrest, List.cons_append]

/-- Among entries that are not below a key, only the first can be the key's. -/
theorem Ascending.find_of_le (hs : Ascending back) (h : ∀ entry ∈ back, key ≤ entry.1) :
    find key back = match back with
      | [] => none
      | (k, v) :: _ => if k = key then some v else none := by
  cases back with
  | nil => rfl
  | cons head rest =>
    obtain ⟨k0, v0⟩ := head
    obtain ⟨hhead, -⟩ := List.pairwise_cons.mp hs
    have hfirst : key ≤ k0 := h _ List.mem_cons_self
    have hrest : find key rest = none :=
      find_eq_none fun entry hentry => ne_of_gt (lt_of_le_of_lt hfirst (hhead entry hentry))
    rw [find, hrest]

/-- A new key goes before all entries that are not below it. -/
theorem put_of_lt (h : ∀ entry ∈ back, key < entry.1) (value : ν) :
    put key value back = (key, value) :: back := by
  cases back with
  | nil => rfl
  | cons head rest =>
    obtain ⟨k0, v0⟩ := head
    have hlt : key < k0 := h (k0, v0) List.mem_cons_self
    rw [put, if_pos hlt]

/-- Going through the whole store is going through any ascending list of keys that has
    all those with something to find. -/
theorem Ascending.flatMap_eq {β : Type} {g : κ → ν → List β} (hs : Ascending store) (keys : List κ)
    (hkeys : keys.Pairwise (· < ·))
    (hfound : ∀ entry ∈ store, g entry.1 entry.2 ≠ [] → entry.1 ∈ keys) :
    store.flatMap (fun entry => g entry.1 entry.2) =
      keys.flatMap fun key => ((find key store).map (g key)).getD [] := by
  induction store generalizing keys with
  | nil => simp [find]
  | cons head rest ih =>
    obtain ⟨k0, v0⟩ := head
    obtain ⟨hhead, hrest⟩ := List.pairwise_cons.mp hs
    rw [List.flatMap_cons]
    have hnone : find k0 rest = none := find_eq_none fun entry he => ne_of_gt (hhead entry he)
    by_cases hempty : g k0 v0 = []
    · rw [hempty, List.nil_append,
        ih hrest _ hkeys fun entry he => hfound entry (List.mem_cons_of_mem _ he)]
      refine List.flatMap_congr fun key _ => ?_
      rw [find]
      split
      · next heq => rw [← heq, hnone, Option.map_none, Option.map_some, hempty]; rfl
      · rfl
    · -- the keys before this one find nothing, those after it look in the rest
      obtain ⟨before, after, rfl⟩ :=
        List.append_of_mem (hfound (k0, v0) List.mem_cons_self hempty)
      obtain ⟨-, hafter, hbefore⟩ := List.pairwise_append.mp hkeys
      obtain ⟨hlater, hsorted⟩ := List.pairwise_cons.mp hafter
      have hskip : before.flatMap (fun key =>
          ((find key ((k0, v0) :: rest)).map (g key)).getD []) = [] := by
        refine List.flatMap_eq_nil_iff.mpr fun key hkey => ?_
        have hlt := hbefore key hkey k0 List.mem_cons_self
        have hmissing : find key ((k0, v0) :: rest) = none := by
          refine find_eq_none fun entry he => ne_of_gt ?_
          rcases List.mem_cons.mp he with rfl | he
          · exact hlt
          · exact lt_trans hlt (hhead entry he)
        rw [hmissing]
        rfl
      have htail : rest.flatMap (fun entry => g entry.1 entry.2) =
          after.flatMap fun key => ((find key rest).map (g key)).getD [] := by
        refine ih hrest _ hsorted fun entry he hne => ?_
        have hmem := hfound entry (List.mem_cons_of_mem _ he) hne
        rcases List.mem_append.mp hmem with hmem | hmem
        · exact absurd (hhead entry he) (not_lt.mpr (le_of_lt
            (hbefore entry.1 hmem k0 List.mem_cons_self)))
        · rcases List.mem_cons.mp hmem with heq | hmem
          · exact absurd (hhead entry he) (by rw [heq]; exact lt_irrefl _)
          · exact hmem
      rw [List.flatMap_append, hskip, List.nil_append, List.flatMap_cons, htail, find, if_pos rfl,
        Option.map_some, Option.getD_some]
      refine congrArg _ (List.flatMap_congr fun key hkey => ?_)
      rw [find, if_neg (ne_of_lt (hlater key hkey))]

end OrderedStore

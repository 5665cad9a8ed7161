import Mkmq.ReadProgram

/-!
# Programs that write a buffer

An encoder appends to a growing buffer and may give up with an error.  `Writes w bytes` says
what it appends, `Grows w k` only how much at least.  `Carries w p value` is the round trip:
whatever `w` appends, the reader `p` turns it back into `value`, in any surroundings.
`Opens limit w p value` is the round trip for a reader that stops after a first part.
-/

namespace WriteProgram

open ByteCodec ReadProgram ReadProgram.Program

abbrev Writer (ε α : Type) := StateT Bytes (Except ε) α

variable {ε α β γ : Type} {bytes : Bytes} {k limit : Nat} {w w' : Writer ε Unit}
  {write : γ → Writer ε Unit} {a value : α} {b : β} {f : α → Program ε β} {p : Program ε α}

def append (bytes : Bytes) : Writer ε Unit := fun data => .ok ((), data ++ bytes)

def fails (error : ε) : Writer ε α := fun _ => .error error

/-! ### What is written -/

def Writes (w : Writer ε Unit) (bytes : Bytes) : Prop :=
  ∀ data : Bytes, w data = .ok ((), data ++ bytes)

theorem writes_append (bytes : Bytes) : Writes (append bytes : Writer ε Unit) bytes :=
  fun _ => rfl

theorem Writes.run (h : Writes w bytes) (w' : Writer ε Unit) (data : Bytes) :
    (do w; w' : Writer ε Unit) data = w' (data ++ bytes) := by
  change (w data >>= fun result => w' result.2) = _
  rw [h data]
  rfl

theorem Writes.seq {first second : Bytes} (h : Writes w first) (h' : Writes w' second) :
    Writes (do w; w') (first ++ second) := by
  intro data
  rw [h.run, ← List.append_assoc]
  exact h' (data ++ first)

theorem Writes.unique {bytes' : Bytes} (h : Writes w bytes) (h' : Writes w bytes') :
    bytes = bytes' := by
  have heq := (h []).symm.trans (h' [])
  simpa using heq

/-- The program never gives up. -/
def Succeeds (w : Writer ε Unit) : Prop := ∃ bytes, Writes w bytes

theorem Succeeds.seq (h : Succeeds w) (h' : Succeeds w') : Succeeds (do w; w') := by
  obtain ⟨first, hfirst⟩ := h
  obtain ⟨second, hsecond⟩ := h'
  exact ⟨first ++ second, hfirst.seq hsecond⟩

/-! ### How much is written -/

/-- When the program does not give up, it leaves what is there and appends `k` bytes or more. -/
def Grows (w : Writer ε Unit) (k : Nat) : Prop :=
  ∀ data data' : Bytes, w data = .ok ((), data') → ∃ more, data' = data ++ more ∧ k ≤ more.length

theorem grows_append (bytes : Bytes) : Grows (append bytes : Writer ε Unit) bytes.length := by
  intro data data' h
  exact ⟨bytes, (Prod.mk.inj (Except.ok.inj h)).2.symm, le_refl _⟩

theorem grows_fails (error : ε) (k : Nat) : Grows (fails error) k := by
  intro data data' h
  cases h

theorem Grows.mono {k' : Nat} (h : Grows w k) (hle : k' ≤ k) : Grows w k' := by
  intro data data' hw
  obtain ⟨more, hmore, hk⟩ := h data data' hw
  exact ⟨more, hmore, le_trans hle hk⟩

theorem Grows.length_le (h : Grows w k) (hw : Writes w bytes) : k ≤ bytes.length := by
  obtain ⟨more, hmore, hk⟩ := h [] _ (hw [])
  rw [List.nil_append, List.nil_append] at hmore
  exact hmore ▸ hk

/-- A run of two programs is a run of the first, then of the second. -/
theorem seq_eq_ok {data data' : Bytes} (h : (do w; w' : Writer ε Unit) data = .ok ((), data')) :
    ∃ middle, w data = .ok ((), middle) ∧ w' middle = .ok ((), data') := by
  change (w data >>= fun result => w' result.2) = _ at h
  cases hfirst : w data with
  | error error =>
    rw [hfirst] at h
    cases h
  | ok result =>
    rw [hfirst] at h
    exact ⟨result.2, rfl, h⟩

theorem Grows.seq {k' : Nat} (h : Grows w k) (h' : Grows w' k') : Grows (do w; w') (k + k') := by
  intro data data' hw
  obtain ⟨middle, hfirst, hsecond⟩ := seq_eq_ok hw
  obtain ⟨more, rfl, hk⟩ := h data middle hfirst
  obtain ⟨more', rfl, hk'⟩ := h' _ data' hsecond
  refine ⟨more ++ more', List.append_assoc _ _ _, ?_⟩
  rw [List.length_append]
  exact Nat.add_le_add hk hk'

theorem Grows.forM {items : List γ} {size : γ → Nat} (h : ∀ x ∈ items, Grows (write x) (size x)) :
    Grows (items.forM write) (items.map size).sum := by
  induction items with
  | nil =>
    intro data data' hw
    obtain rfl := (Prod.mk.inj (Except.ok.inj hw)).2
    exact ⟨[], (List.append_nil _).symm, le_refl _⟩
  | cons x items ih =>
    rw [List.forM, List.map_cons, List.sum_cons]
    exact (h x List.mem_cons_self).seq (ih fun y hy => h y (List.mem_cons_of_mem _ hy))

/-! ### Round trips -/

def Carries (w : Writer ε Unit) (p : Program ε α) (value : α) : Prop :=
  ∃ bytes, Writes w bytes ∧ Reads p bytes value

theorem carries_pure (value : α) : Carries (pure () : Writer ε Unit) (pure value) value :=
  ⟨[], fun data => by rw [List.append_nil]; rfl, reads_pure value⟩

theorem Carries.seq (h : Carries w p a) (h' : Carries w' (f a) b) :
    Carries (do w; w') (p >>= f) b := by
  obtain ⟨first, hwrites, hreads⟩ := h
  obtain ⟨second, hwrites', hreads'⟩ := h'
  exact ⟨first ++ second, hwrites.seq hwrites', hreads.bind hreads'⟩

/-- Nothing more is read. -/
theorem Carries.ends (h : Carries w p a) (hf : f a = pure b) : Carries w (p >>= f) b := by
  obtain ⟨bytes, hwrites, hreads⟩ := h
  exact ⟨bytes, hwrites, hreads.ends hf⟩

theorem Carries.making {f : Unit → Program ε α} (h : Carries w (f ()) a) :
    Carries w (making >>= f) a := by
  obtain ⟨bytes, hwrites, hreads⟩ := h
  exact ⟨bytes, hwrites, reads_making.bind hreads⟩

theorem Carries.repeated {items : List γ} {body : Program ε α} {value : γ → α}
    (h : ∀ x ∈ items, Carries (write x) body (value x)) :
    Carries (items.forM write) (repeated items.length body) (items.map value) := by
  induction items with
  | nil => exact carries_pure []
  | cons x items ih =>
    rw [List.forM]
    exact (h x List.mem_cons_self).seq
      ((ih fun y hy => h y (List.mem_cons_of_mem _ hy)).ends rfl)

theorem Carries.succeeds (h : Carries w p value) : Succeeds w := by
  obtain ⟨bytes, hwrites, -⟩ := h
  exact ⟨bytes, hwrites⟩

/-! ### Round trips of bounded size -/

/-- `w` never gives up, and if it writes less than `limit` bytes, `p` reads them back. -/
structure Delivers (limit : Nat) (w : Writer ε Unit) (p : Program ε α) (value : α) : Prop where
  succeeds : Succeeds w
  carries : ∃ k, Grows w k ∧ (k < limit → Carries w p value)

theorem Carries.delivers (h : Carries w p value) (hgrows : Grows w k) : Delivers limit w p value :=
  ⟨h.succeeds, k, hgrows, fun _ => h⟩

theorem Delivers.seq (h : Delivers limit w p a) (h' : Delivers limit w' (f a) b) :
    Delivers limit (do w; w') (p >>= f) b := by
  obtain ⟨k, hgrows, hcarries⟩ := h.carries
  obtain ⟨k', hgrows', hcarries'⟩ := h'.carries
  exact ⟨h.succeeds.seq h'.succeeds, k + k', hgrows.seq hgrows',
    fun hlimit => (hcarries (by omega)).seq (hcarries' (by omega))⟩

theorem Delivers.ends (h : Delivers limit w p a) (hf : f a = pure b) :
    Delivers limit w (p >>= f) b := by
  obtain ⟨k, hgrows, hcarries⟩ := h.carries
  exact ⟨h.succeeds, k, hgrows, fun hlimit => (hcarries hlimit).ends hf⟩

theorem Delivers.making {f : Unit → Program ε α} (h : Delivers limit w (f ()) a) :
    Delivers limit w (making >>= f) a := by
  obtain ⟨k, hgrows, hcarries⟩ := h.carries
  exact ⟨h.succeeds, k, hgrows, fun hlimit => (hcarries hlimit).making⟩

/-! ### Reading only the beginning -/

/-- In whatever `w` appends, if it is less than `limit` bytes, a first part reads as `value`. -/
structure Opens (limit : Nat) (w : Writer ε Unit) (p : Program ε α) (value : α) : Prop where
  grows : Grows w 0
  reads : ∀ data data' : Bytes, w data = .ok ((), data') → data'.length < data.length + limit →
    ∃ first rest, data' = data ++ first ++ rest ∧ Reads p first value

/-- What is written behind does not matter. -/
theorem Opens.before (h : Opens limit w p value) (hw' : Grows w' 0) :
    Opens limit (do w; w') p value := by
  refine ⟨h.grows.seq hw', fun data data' hw hlimit => ?_⟩
  obtain ⟨middle, hfirst, hsecond⟩ := seq_eq_ok hw
  obtain ⟨more, rfl, -⟩ := hw' middle data' hsecond
  rw [List.length_append] at hlimit
  obtain ⟨first, rest, rfl, hreads⟩ := h.reads data middle hfirst (by omega)
  exact ⟨first, rest ++ more, List.append_assoc _ _ _, hreads⟩

theorem opens_of_carries (hgrows : Grows w k) (h : k < limit → Carries w p value) :
    Opens limit w p value := by
  refine ⟨hgrows.mono (Nat.zero_le k), fun data data' hw hlimit => ?_⟩
  obtain ⟨more, hmore, hk⟩ := hgrows data data' hw
  rw [hmore, List.length_append] at hlimit
  obtain ⟨bytes, hwrites, hreads⟩ := h (by omega)
  have hdata := (Prod.mk.inj (Except.ok.inj (hw.symm.trans (hwrites data)))).2
  exact ⟨bytes, [], by rw [hdata, List.append_nil], hreads⟩

/-- The first field is read whole; its length may be bounded by all that is written. -/
theorem opens_seq_of_grows (hgrows : Grows (do w; w') k) (hw' : Grows w' 0)
    (h : k < limit → Carries w p a ∧ Opens limit w' (f a) b) :
    Opens limit (do w; w') (p >>= f) b := by
  refine ⟨hgrows.mono (Nat.zero_le k), fun data data' hw hlimit => ?_⟩
  obtain ⟨all, hall, hk⟩ := hgrows data data' hw
  have hlength := congrArg List.length hall
  rw [List.length_append] at hlength
  obtain ⟨⟨bytes, hwrites, hreads⟩, hopens⟩ := h (by omega)
  rw [hwrites.run] at hw
  obtain ⟨more, hmore, -⟩ := hw' _ data' hw
  have hlength' := congrArg List.length hmore
  rw [List.length_append] at hlength'
  obtain ⟨first, rest, hrest, hreads'⟩ := hopens.reads _ data' hw (by
    rw [List.length_append]
    omega)
  refine ⟨bytes ++ first, rest, ?_, hreads.bind hreads'⟩
  rw [hrest, List.append_assoc data bytes first]

theorem Opens.seq (hgrows : Grows w k) (h : k < limit → Carries w p a) (h' : Opens limit w'
    (f a) b) : Opens limit (do w; w') (p >>= f) b :=
  opens_seq_of_grows (hgrows.seq h'.grows) h'.grows fun hk => ⟨h hk, h'⟩

end WriteProgram

import Mkmq.ByteCodec
import Mkmq.Transition

/-!
# Programs that read a buffer

A decoder takes some bytes, looks at them, and decides what to take next.  It is written here
as a tree: `take n` asks for `n` bytes and goes on with them, `make` notes that an element of
the result is constructed, and a leaf returns or fails.  What holds of every such program is
proved once, by induction on the tree; what a particular program returns or costs is put
together from its parts.

* `exec` runs a program from a position of a buffer to its end.
* `Running` is the same run one step at a time, for what has to hold all along it.
* `Reads p bytes value` says that `p` turns exactly `bytes` into `value`, wherever they stand.
* `Pays p credit left` bounds the elements made by the bytes taken, `Makes p made size` counts
  them by the value returned.
-/

namespace ReadProgram

open ByteCodec

/-- `short` is the error when the buffer ends before `n` bytes. -/
inductive Program (ε α : Type) where
  | done (value : α)
  | fail (error : ε)
  | take (n : Nat) (short : ε) (next : Bytes → Program ε α)
  | make (next : Program ε α)

namespace Program

variable {ε α β : Type} {data bytes : Bytes} {pos n credit left : Nat} {p body : Program ε α}
  {value : α} {f : α → Program ε β}

def bind : Program ε α → (α → Program ε β) → Program ε β
  | .done value, f => f value
  | .fail error, _ => .fail error
  | .take n short next, f => .take n short fun bytes => (next bytes).bind f
  | .make next, f => .make (next.bind f)

instance : Monad (Program ε) where
  pure := .done
  bind := bind

theorem bind_assoc' {γ : Type} (p : Program ε α) (f : α → Program ε β) (g : β → Program ε γ) :
    p >>= f >>= g = p >>= fun a => f a >>= g := by
  induction p with
  | done value => rfl
  | fail error => rfl
  | take n short next ih => exact congrArg (Program.take n short) (funext ih)
  | make next ih => exact congrArg Program.make ih

theorem bind_pure' (p : Program ε α) : p >>= pure = p := by
  induction p with
  | done value => rfl
  | fail error => rfl
  | take n short next ih => exact congrArg (Program.take n short) (funext ih)
  | make next ih => exact congrArg Program.make ih

instance : LawfulMonad (Program ε) :=
  LawfulMonad.mk' (Program ε) bind_pure' (fun _ _ => rfl) bind_assoc'

/-- Note the construction of an element. -/
def making : Program ε Unit := .make (.done ())

/-- `n` times the same, with all results. -/
def repeated : Nat → Program ε α → Program ε (List α)
  | 0, _ => pure []
  | n + 1, body => do
      let first ← body
      let others ← repeated n body
      return first :: others

/-! ### Runs -/

/-- Run from position `pos` of `data`: the value and the position behind what was taken. -/
def exec (data : Bytes) : Program ε α → Nat → Except ε (α × Nat)
  | .done value, pos => .ok (value, pos)
  | .fail error, _ => .error error
  | .take n short next, pos =>
    if n > data.length - pos then .error short
    else (next (slice data pos n)).exec data (pos + n)
  | .make next, pos => next.exec data pos

theorem exec_bind (data : Bytes) (p : Program ε α) (f : α → Program ε β) (pos : Nat) :
    (p >>= f).exec data pos = p.exec data pos >>= fun result =>
      (f result.1).exec data result.2 := by
  induction p generalizing pos with
  | done value => rfl
  | fail error => rfl
  | take n short next ih =>
    change (if n > data.length - pos then Except.error short
      else ((next (slice data pos n)) >>= f).exec data (pos + n)) = _
    rw [ih, exec]
    split <;> rfl
  | make next ih => exact ih pos

/-- A run ends in the buffer. -/
theorem le_of_exec {pos' : Nat} (h : p.exec data pos = .ok (value, pos'))
    (hpos : pos ≤ data.length) : pos' ≤ data.length := by
  induction p generalizing pos with
  | done _ =>
    obtain ⟨-, rfl⟩ := Prod.mk.inj (Except.ok.inj h)
    exact hpos
  | fail _ => cases h
  | take n short next ih =>
    rw [exec] at h
    split at h
    · cases h
    · exact ih _ h (by omega)
  | make next ih => exact ih h hpos

/-- More bytes behind the buffer do not change a run that ended well. -/
theorem exec_append {pos' : Nat} (h : p.exec data pos = .ok (value, pos'))
    (hpos : pos ≤ data.length) (more : Bytes) : p.exec (data ++ more) pos = .ok (value, pos') := by
  induction p generalizing pos with
  | done _ => exact h
  | fail _ => cases h
  | take n short next ih =>
    rw [exec] at h ⊢
    split at h
    · cases h
    · next hfits =>
        rw [List.length_append, if_neg (by omega), slice_append_left (by omega)]
        exact ih _ h (by omega)
  | make next ih => exact ih h hpos

/-! ### Exact reads -/

def Reads (p : Program ε α) (bytes : Bytes) (value : α) : Prop :=
  ∀ before after : Bytes, p.exec (before ++ bytes ++ after) before.length =
    .ok (value, before.length + bytes.length)

theorem reads_pure (value : α) : Reads (pure value : Program ε α) [] value :=
  fun _ _ => rfl

theorem reads_take (hn : bytes.length = n) (short : ε) :
    Reads (.take n short .done) bytes bytes := by
  intro before after
  rw [exec, if_neg (by simp only [List.length_append]; omega), ← hn, slice_append_exact, exec]

theorem reads_making : Reads (making : Program ε Unit) [] () :=
  fun _ _ => rfl

theorem Reads.bind {first second : Bytes} {a : α} {b : β} (hp : Reads p first a)
    (hf : Reads (f a) second b) : Reads (p >>= f) (first ++ second) b := by
  intro before after
  have hfirst := hp before (second ++ after)
  have hsecond := hf (before ++ first) after
  have hdata : before ++ (first ++ second) ++ after = before ++ first ++ (second ++ after) := by
    simp only [List.append_assoc]
  rw [hdata, exec_bind, hfirst]
  rw [List.append_assoc (before ++ first), List.length_append] at hsecond
  rw [List.length_append, ← Nat.add_assoc]
  exact hsecond

/-- Nothing more is read. -/
theorem Reads.ends {a : α} {b : β} (hp : Reads p bytes a) (hf : f a = pure b) :
    Reads (p >>= f) bytes b := by
  have h := hp.bind (hf ▸ reads_pure b : Reads (f a) [] b)
  rwa [List.append_nil] at h

/-- Read from the beginning of a buffer that goes on behind the bytes. -/
theorem Reads.exec (h : Reads p bytes value) (after : Bytes) :
    p.exec (bytes ++ after) 0 = .ok (value, bytes.length) := by
  have hstart := h [] after
  rwa [List.nil_append, List.length_nil, Nat.zero_add] at hstart

/-- **No truncated input is accepted.** -/
theorem Reads.error_of_cut {cut missing : Bytes} (h : Reads p (cut ++ missing) value)
    (hmissing : missing ≠ []) : ∃ error, p.exec cut 0 = .error error := by
  cases hcut : p.exec cut 0 with
  | error error => exact ⟨error, rfl⟩
  | ok result =>
    exfalso
    have hwhole := h.exec []
    rw [List.append_nil, exec_append hcut (Nat.zero_le _) missing] at hwhole
    have hend := (Prod.mk.inj (Except.ok.inj hwhole)).2
    have hin := le_of_exec hcut (Nat.zero_le _)
    have hpos := List.length_pos_of_ne_nil hmissing
    rw [List.length_append] at hend
    omega

/-! ### The errors of a program -/

/-- Every error the program can end with is one of `P`. -/
def FailsWith (P : ε → Prop) : Program ε α → Prop
  | .done _ => True
  | .fail error => P error
  | .take _ short next => P short ∧ ∀ bytes, (next bytes).FailsWith P
  | .make next => next.FailsWith P

theorem FailsWith.bind {P : ε → Prop} (hp : p.FailsWith P) (hf : ∀ a, (f a).FailsWith P) :
    (p >>= f).FailsWith P := by
  induction p with
  | done value => exact hf value
  | fail error => exact hp
  | take n short next ih => exact ⟨hp.1, fun bytes => ih bytes (hp.2 bytes)⟩
  | make next ih => exact ih hp

theorem FailsWith.of_exec {P : ε → Prop} (h : p.FailsWith P) {error : ε}
    (hexec : p.exec data pos = .error error) : P error := by
  induction p generalizing pos with
  | done value => cases hexec
  | fail e =>
    obtain rfl := Except.error.inj hexec
    exact h
  | take n short next ih =>
    rw [exec] at hexec
    split at hexec
    · obtain rfl := Except.error.inj hexec
      exact h.1
    · exact ih _ (h.2 _) hexec
  | make next ih => exact ih h hexec

/-! ### Elements made and bytes taken -/

/-- Begun with `credit` bytes taken that no element has used up, the program never makes an
    element without a byte for it, and returns with at least `left` such bytes. -/
def Pays : Program ε α → Nat → Nat → Prop
  | .done _, credit, left => left ≤ credit
  | .fail _, _, _ => True
  | .take n _ next, credit, left => ∀ bytes, (next bytes).Pays (credit + n) left
  | .make next, credit, left => 0 < credit ∧ next.Pays (credit - 1) left

theorem Pays.mono {credit' left' : Nat} (h : p.Pays credit left) (hcredit : credit ≤ credit')
    (hleft : left' ≤ left) : p.Pays credit' left' := by
  induction p generalizing credit credit' with
  | done value => exact le_trans (le_trans hleft h) hcredit
  | fail error => trivial
  | take n short next ih => exact fun bytes => ih bytes (h bytes) (by omega)
  | make next ih => exact ⟨lt_of_lt_of_le h.1 hcredit, ih h.2 (by omega)⟩

theorem Pays.bind {middle : Nat} (hp : p.Pays credit middle) (hf : ∀ a, (f a).Pays middle left) :
    (p >>= f).Pays credit left := by
  induction p generalizing credit with
  | done value => exact (hf value).mono hp (le_refl _)
  | fail error => trivial
  | take n short next ih => exact fun bytes => ih bytes (hp bytes)
  | make next ih => exact ⟨hp.1, ih hp.2⟩

theorem pays_pure (value : α) (h : left ≤ credit) : (pure value : Program ε α).Pays credit left :=
  h

theorem pays_making (credit : Nat) : (making : Program ε Unit).Pays (credit + 1) credit :=
  ⟨Nat.succ_pos _, le_refl _⟩

/-- A body that leaves as much as it was given can be repeated. -/
theorem Pays.repeated (h : body.Pays credit credit) (n : Nat) :
    (repeated n body).Pays credit credit := by
  induction n with
  | zero => exact pays_pure [] (le_refl credit)
  | succ n ih => exact h.bind fun _ => ih.bind fun _ => pays_pure _ (le_refl credit)

/-! ### What a program takes and makes on every path -/

/-- The program takes `n` bytes or more before it returns, and makes nothing. -/
def Takes : Program ε α → Nat → Prop
  | .done _, n => n = 0
  | .fail _, _ => True
  | .take m _ next, n => ∀ bytes, (next bytes).Takes (n - m)
  | .make _, _ => False

theorem Takes.mono {n' : Nat} (h : p.Takes n) (hle : n' ≤ n) : p.Takes n' := by
  induction p generalizing n n' with
  | done value =>
    change n' = 0
    have : n = 0 := h
    omega
  | fail error => trivial
  | take m short next ih => exact fun bytes => ih bytes (h bytes) (by omega)
  | make next ih => exact h.elim

theorem takes_pure (value : α) : (pure value : Program ε α).Takes 0 := rfl

theorem Takes.bind {m : Nat} (hp : p.Takes n) (hf : ∀ a, (f a).Takes m) :
    (p >>= f).Takes (n + m) := by
  induction p generalizing n with
  | done value =>
    have hn : n = 0 := hp
    rw [hn, Nat.zero_add]
    exact hf value
  | fail error => trivial
  | take k short next ih => exact fun bytes => (ih bytes (hp bytes)).mono (by omega)
  | make next ih => exact hp.elim

/-- What comes after the first part may take nothing. -/
theorem Takes.followed (hp : p.Takes n) (hf : ∀ a, (f a).Takes 0) : (p >>= f).Takes n :=
  hp.bind hf

theorem Takes.none (h : p.Takes n) : p.Takes 0 :=
  h.mono (Nat.zero_le n)

theorem Takes.repeated (h : body.Takes 0) (n : Nat) : (repeated n body).Takes 0 := by
  induction n with
  | zero => exact takes_pure []
  | succ n ih => exact h.bind fun _ => ih.bind fun _ => takes_pure _

theorem Takes.pays (h : p.Takes n) (credit : Nat) : p.Pays credit (credit + n) := by
  induction p generalizing credit n with
  | done value =>
    have hn : n = 0 := h
    rw [hn]
    exact le_refl credit
  | fail error => trivial
  | take m short next ih =>
    intro bytes
    exact (ih bytes (h bytes) (credit + m)).mono (le_refl _) (by omega)
  | make next ih => exact h.elim

/-- Begun with `made` elements made, the program has made `size value` when it returns `value`. -/
def Makes : Program ε α → Nat → (α → Nat) → Prop
  | .done value, made, size => size value = made
  | .fail _, _, _ => True
  | .take _ _ next, made, size => ∀ bytes, (next bytes).Makes made size
  | .make next, made, size => next.Makes (made + 1) size

theorem makes_pure (value : α) {made : Nat} {size : α → Nat} (h : size value = made) :
    (pure value : Program ε α).Makes made size :=
  h

theorem Makes.bind {made : Nat} {middle : α → Nat} {size : β → Nat} (hp : p.Makes made middle)
    (hf : ∀ a, (f a).Makes (middle a) size) : (p >>= f).Makes made size := by
  induction p generalizing made with
  | done value =>
    have hvalue : middle value = made := hp
    exact hvalue ▸ hf value
  | fail error => trivial
  | take n short next ih => exact fun bytes => ih bytes (hp bytes)
  | make next ih => exact ih hp

theorem Takes.makes (h : p.Takes n) (made : Nat) : p.Makes made fun _ => made := by
  induction p generalizing n with
  | done value => rfl
  | fail error => trivial
  | take m short next ih => exact fun bytes => ih bytes (h bytes)
  | make next ih => exact h.elim

theorem makes_making (made : Nat) : (making : Program ε Unit).Makes made fun _ => made + 1 :=
  rfl

theorem Makes.repeated {size : α → Nat} (h : ∀ made, body.Makes made fun a => made + size a)
    (n made : Nat) : (repeated n body).Makes made fun items => made + (items.map size).sum := by
  induction n generalizing made with
  | zero => exact makes_pure [] rfl
  | succ n ih =>
    refine (h made).bind fun first => (ih (made + size first)).bind fun others => makes_pure _ ?_
    rw [List.map_cons, List.sum_cons, Nat.add_assoc]

end Program

/-! ### Step by step -/

/-- A run under way: what is left to do, the position, and the elements made so far. -/
structure Running (ε α : Type) where
  program : Program ε α
  pos : Nat := 0
  made : Nat := 0

namespace Running

variable {ε α : Type} {data : Bytes} {s : Running ε α} {p : Program ε α}

def step (data : Bytes) (s : Running ε α) : Option (Running ε α) :=
  match s.program with
  | .done _ | .fail _ => none
  | .take n short next =>
    if n > data.length - s.pos then some { s with program := .fail short }
    else some { s with program := next (slice data s.pos n), pos := s.pos + n }
  | .make next => some { s with program := next, made := s.made + 1 }

/-- The states of the run of `p` on `data`. -/
def Reached (data : Bytes) (p : Program ε α) : Running ε α → Prop :=
  Transition.Reachable (fun s => s = ⟨p, 0, 0⟩) (fun s (_ : Unit) => s.step data) fun _ _ => True

/-- What a step can do. -/
inductive Steps (data : Bytes) (s : Running ε α) : Running ε α → Prop where
  | short {n : Nat} {error : ε} {next : Bytes → Program ε α}
      (at_take : s.program = .take n error next) :
      Steps data s { s with program := .fail error }
  | taken {n : Nat} {error : ε} {next : Bytes → Program ε α}
      (at_take : s.program = .take n error next) (fits : n ≤ data.length - s.pos) :
      Steps data s { s with program := next (slice data s.pos n), pos := s.pos + n }
  | made {next : Program ε α} (at_make : s.program = .make next) :
      Steps data s { s with program := next, made := s.made + 1 }

theorem steps_of_step {s' : Running ε α} (h : s.step data = some s') : Steps data s s' := by
  unfold step at h
  split at h
  · cases h
  · cases h
  · next n error next hprogram =>
      split at h
      · obtain rfl := Option.some.inj h
        exact .short hprogram
      · next hfits =>
          obtain rfl := Option.some.inj h
          exact .taken hprogram (by omega)
  · next next hprogram =>
      obtain rfl := Option.some.inj h
      exact .made hprogram

/-- **The position never leaves the buffer.** -/
theorem Reached.pos_le (h : Reached data p s) : s.pos ≤ data.length := by
  unfold Reached at h
  induction h with
  | start hstart =>
    obtain rfl := hstart
    exact Nat.zero_le _
  | next _ _ _ hstep ih =>
    cases steps_of_step hstep with
    | short => exact ih
    | taken _ hfits =>
      simp only
      omega
    | made => exact ih

/-- What is left to do can be paid for. -/
def Solvent (left : Nat) (s : Running ε α) : Prop :=
  ∃ credit, s.program.Pays credit left ∧ s.made + credit ≤ s.pos

theorem Solvent.step {left : Nat} {s' : Running ε α} (h : s.Solvent left)
    (hstep : Steps data s s') : s'.Solvent left := by
  obtain ⟨credit, hpays, hle⟩ := h
  cases hstep with
  | short => exact ⟨credit, trivial, hle⟩
  | @taken n error next hprogram _ =>
    rw [hprogram] at hpays
    exact ⟨credit + n, hpays _, by simp only; omega⟩
  | made hprogram =>
    rw [hprogram] at hpays
    have hpos := hpays.1
    exact ⟨credit - 1, hpays.2, by simp only; omega⟩

/-- **No more elements than bytes**, for a program that pays from the start. -/
theorem Reached.made_le_pos {left : Nat} (hp : p.Pays 0 left) (h : Reached data p s) :
    s.made ≤ s.pos := by
  have hsolvent : s.Solvent left := by
    refine Transition.Reachable.invariant ?_ ?_ h
    · rintro s rfl
      exact ⟨0, hp, le_refl _⟩
    · exact fun s _ s' hs _ hstep => hs.step (steps_of_step hstep)
  obtain ⟨credit, -, hle⟩ := hsolvent
  exact le_trans (Nat.le_add_right _ _) hle

theorem Reached.makes {size : α → Nat} (hp : p.Makes 0 size) (h : Reached data p s) :
    s.program.Makes s.made size := by
  unfold Reached at h
  induction h with
  | start hstart =>
    obtain rfl := hstart
    exact hp
  | next _ _ _ hstep ih =>
    cases steps_of_step hstep with
    | short => trivial
    | taken hprogram _ =>
      rw [hprogram] at ih
      exact ih _
    | made hprogram =>
      rw [hprogram] at ih
      exact ih

/-- **The elements made are those of the result.** -/
theorem Reached.made_eq {size : α → Nat} (hp : p.Makes 0 size) (h : Reached data p s) {value : α}
    (hdone : s.program = .done value) : s.made = size value := by
  have hmakes := h.makes hp
  rw [hdone] at hmakes
  exact hmakes.symm

/-- **Every run ends**, as `exec` says. -/
theorem exists_end (data : Bytes) (p : Program ε α) :
    ∃ s, Reached data p s ∧
      ((∃ value, s.program = .done value ∧ p.exec data 0 = .ok (value, s.pos)) ∨
        ∃ error, s.program = .fail error ∧ p.exec data 0 = .error error) := by
  have hrest : ∀ (q : Program ε α) (pos made : Nat), Reached data p ⟨q, pos, made⟩ →
      ∃ s, Reached data p s ∧
        ((∃ value, s.program = .done value ∧ q.exec data pos = .ok (value, s.pos)) ∨
          ∃ error, s.program = .fail error ∧ q.exec data pos = .error error) := by
    intro q
    induction q with
    | done value => exact fun pos made h => ⟨_, h, Or.inl ⟨value, rfl, rfl⟩⟩
    | fail error => exact fun pos made h => ⟨_, h, Or.inr ⟨error, rfl, rfl⟩⟩
    | take n short next ih =>
      intro pos made h
      by_cases hfits : n > data.length - pos
      · refine ⟨_, .next () h trivial (if_pos hfits), Or.inr ⟨short, rfl, ?_⟩⟩
        rw [Program.exec, if_pos hfits]
      · obtain ⟨s, hs, hend⟩ := ih _ _ _ (.next () h trivial (if_neg hfits))
        refine ⟨s, hs, ?_⟩
        rw [Program.exec, if_neg hfits]
        exact hend
    | make next ih =>
      intro pos made h
      exact ih _ _ (.next () h trivial rfl)
  exact hrest p 0 0 (.start rfl)

end Running

end ReadProgram

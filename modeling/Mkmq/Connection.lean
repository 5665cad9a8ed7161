import Mkmq.Broker
import Mkmq.Framing
import Mkmq.Transition
import Mathlib.Data.List.Forall2

/-!
# A client's connection (`BrokerShard::handle_connection`)

One fiber for each connection: it reads four bytes, then as many as they say, gives the frame
to `handle_kafka_frame` (`src/broker_shard.cpp`), writes the response if there is one, and
begins again.  A read resolves when all its bytes are there, or with fewer at the end of the
input; anything that is not a frame, and anything that throws, ends the loop.  What the peer
sends arrives in pieces of any size while the fiber is anywhere in its loop.
-/

namespace Mkmq

open ByteCodec

def decodeFrameSize (bytes : Bytes) : Int := signed 32 (beNat bytes)

/-- What `handle_kafka_frame` comes to. -/
inductive FrameOutcome where
  /-- `handle_frame` throws before it returns a future. -/
  | threw
  /-- The future that it returned fails. -/
  | failed
  | answered (response : Option Bytes)
deriving DecidableEq, Repr

/-- Where the loop is: at its top, in one of the two reads, in the handler, in the write, or
    at its end. -/
inductive Connection.Phase where
  | top
  | size
  | frame (frameSize : Int)
  | handling
  | writing (response : Bytes)
  | closed
deriving DecidableEq, Repr

structure Connection where
  phase : Connection.Phase := .top
  unread : Bytes := []
  eof : Bool := false
  stopping : Bool := false
  -- this connection's part of the shard's counters
  kafkaRequests : Nat := 0
  kafkaErrors : Nat := 0
  -- what has been done
  received : Bytes := []
  requests : List Bytes := []
  answers : List (Option Bytes) := []
  out : Bytes := []
deriving DecidableEq, Repr

namespace Connection

variable {frame : Bytes} {c : Connection}

/-- `in.read_exactly(n)`, with what is left to read. -/
def readExactly (c : Connection) (n : Nat) : Option (Bytes × Bytes) :=
  if n ≤ c.unread.length then some (c.unread.take n, c.unread.drop n)
  else if c.eof then some (c.unread, [])
  else none

/-- The four bytes have been read. -/
def sizeRead (c : Connection) (sizeBuf rest : Bytes) : Connection :=
  let frameSize := decodeFrameSize sizeBuf
  if sizeBuf.length ≠ 4 then { c with phase := .closed, unread := rest }
  else if frameSize ≤ 0 ∨ frameSize > kMaxKafkaFrameBytes then
    { c with phase := .closed, unread := rest }
  else { c with phase := .frame frameSize, unread := rest }

/-- The frame has been read, and `handle_kafka_frame` is called. -/
def frameRead (c : Connection) (frameSize : Int) (frame rest : Bytes) : Connection :=
  if frame.length ≠ frameSize.toNat then { c with phase := .closed, unread := rest }
  else
    { c with
      phase := .handling
      unread := rest
      kafkaRequests := c.kafkaRequests + 1
      requests := c.requests ++ [frame] }

/-- The response is written if there is one. -/
def afterAnswer : Option Bytes → Phase
  | none => .top
  | some response => .writing response

/-- The call has come to an end.  What `handle_frame` throws itself does not get to the
    `handle_exception` behind it. -/
def handled (c : Connection) : FrameOutcome → Connection
  | .threw => { c with phase := .closed }
  | .failed => { c with phase := .closed, kafkaErrors := c.kafkaErrors + 1 }
  | .answered answer => { c with phase := afterAnswer answer, answers := c.answers ++ [answer] }

inductive Event where
  | receive (chunk : Bytes)
  | endOfInput
  | stop
  | turn
  | read
  | readFails
  | handled (outcome : FrameOutcome)
  | written
  /-- Some of the response may be out. -/
  | writeFails (sent : Nat)
deriving DecidableEq, Repr

def step (c : Connection) : Event → Option Connection
  | .receive chunk =>
    if c.eof then none
    else some { c with unread := c.unread ++ chunk, received := c.received ++ chunk }
  | .endOfInput => some { c with eof := true }
  | .stop => some { c with stopping := true }
  | .turn =>
    match c.phase with
    | .top => some { c with phase := if c.stopping then .closed else .size }
    | _ => none
  | .read =>
    match c.phase with
    | .size => (c.readExactly 4).map fun read => c.sizeRead read.1 read.2
    | .frame frameSize =>
      (c.readExactly frameSize.toNat).map fun read => c.frameRead frameSize read.1 read.2
    | _ => none
  | .readFails =>
    match c.phase with
    | .size | .frame _ => some { c with phase := .closed }
    | _ => none
  | .handled outcome =>
    match c.phase with
    | .handling => some (c.handled outcome)
    | _ => none
  | .written =>
    match c.phase with
    | .writing response => some { c with phase := .top, out := c.out ++ response }
    | _ => none
  | .writeFails sent =>
    match c.phase with
    | .writing response => some { c with phase := .closed, out := c.out ++ response.take sent }
    | _ => none

/-- The handler may do with a frame only what `Handles` says. -/
def Handled (Handles : Bytes → FrameOutcome → Prop) (c : Connection) : Event → Prop
  | .handled outcome => ∀ frame ∈ c.requests.getLast?, Handles frame outcome
  | _ => True

instance (Handles : Bytes → FrameOutcome → Prop)
    [∀ frame outcome, Decidable (Handles frame outcome)] (c : Connection) (e : Event) :
    Decidable (Handled Handles c e) :=
  match e with
  | .handled outcome =>
    inferInstanceAs (Decidable (∀ frame ∈ c.requests.getLast?, Handles frame outcome))
  | .receive _ | .endOfInput | .stop | .turn | .read | .readFails | .written | .writeFails _ =>
    .isTrue trivial

def Reached (Handles : Bytes → FrameOutcome → Prop) (c : Connection) : Prop :=
  Transition.Reachable (· = {}) step (Handled Handles) c

/-! ### Frames in a stream -/

/-- The frame at the front of a stream, as the two reads take it. -/
def nextFrame (stream : Bytes) : Option (Bytes × Bytes) :=
  let frameSize := decodeFrameSize (stream.take 4)
  if stream.length < 4 then none
  else if frameSize ≤ 0 ∨ frameSize > kMaxKafkaFrameBytes then none
  else if stream.length < 4 + frameSize.toNat then none
  else some ((stream.drop 4).take frameSize.toNat, (stream.drop 4).drop frameSize.toNat)

/-- A frame as it is sent. -/
def sized (frame : Bytes) : Bytes := i32be frame.length ++ frame

/-- The sizes that a reader takes. -/
def Fits (frame : Bytes) : Prop := 0 < frame.length ∧ frame.length ≤ kMaxKafkaFrameBytes

theorem decodeFrameSize_i32be {n : Int} (hlo : -2 ^ 31 ≤ n) (hhi : n < 2 ^ 31) :
    decodeFrameSize (i32be n) = n := by
  have hlt := unsigned_lt 32 n
  rw [decodeFrameSize, i32be, beNat_beBytes, Nat.mod_eq_of_lt (by simpa using hlt)]
  exact signed_unsigned (by omega) (by omega)

/-- A frame is at the front when its size is there before it. -/
theorem nextFrame_eq_some {stream rest : Bytes} :
    nextFrame stream = some (frame, rest) ↔
      ∃ head, stream = head ++ (frame ++ rest) ∧ head.length = 4 ∧
        decodeFrameSize head = frame.length ∧ Fits frame := by
  constructor
  · intro h
    simp only [nextFrame] at h
    split at h
    · cases h
    · next hlength =>
        split at h
        · cases h
        · next hsize =>
            split at h
            · cases h
            · next hframe =>
                obtain ⟨rfl, rfl⟩ := Prod.mk.inj (Option.some.inj h)
                have hlong : ((stream.drop 4).take (decodeFrameSize (stream.take 4)).toNat).length =
                    (decodeFrameSize (stream.take 4)).toNat := by
                  rw [List.length_take, List.length_drop]
                  omega
                refine ⟨stream.take 4, ?_, ?_, ?_, ?_, ?_⟩
                · rw [List.take_append_drop, List.take_append_drop]
                · rw [List.length_take]
                  omega
                all_goals omega
  · rintro ⟨head, rfl, hhead, hsize, hpos, hmax⟩
    simp only [nextFrame]
    rw [List.take_left' hhead, List.drop_left' hhead, hsize, List.length_append, hhead,
      List.length_append, if_neg (by omega), if_neg (by omega), if_neg (by omega),
      Int.toNat_natCast, List.take_left, List.drop_left]

theorem nextFrame_stable : Framing.Stable nextFrame := by
  intro stream frame rest more h
  obtain ⟨head, rfl, hhead⟩ := nextFrame_eq_some.mp h
  refine nextFrame_eq_some.mpr ⟨head, ?_, hhead⟩
  rw [List.append_assoc, List.append_assoc]

theorem nextFrame_nil : nextFrame [] = none := rfl

theorem nextFrame_sized (h : Fits frame) (more : Bytes) :
    nextFrame (sized frame ++ more) = some (frame, more) := by
  have hmax : frame.length ≤ 100 * 1024 * 1024 := h.2
  refine nextFrame_eq_some.mpr ⟨i32be frame.length, ?_, length_beBytes 4 _, ?_, h⟩
  · rw [sized, List.append_assoc]
  · exact decodeFrameSize_i32be (by omega) (by omega)

/-- A frame that is too long, or empty, is not taken. -/
theorem nextFrame_sized_or (h : frame.length < 2 ^ 31) (more : Bytes) :
    nextFrame (sized frame ++ more) = some (frame, more) ∨
      nextFrame (sized frame ++ more) = none := by
  by_cases hfits : Fits frame
  · exact Or.inl (nextFrame_sized hfits more)
  · refine Or.inr (Option.eq_none_iff_forall_ne_some.mpr ?_)
    rintro ⟨other, rest⟩ hnext
    obtain ⟨head, hstream, hfour, hsize, hpos, hmax⟩ := nextFrame_eq_some.mp hnext
    rw [sized, List.append_assoc] at hstream
    have hfour' : (i32be frame.length).length = 4 := length_beBytes 4 _
    obtain ⟨hhead, -⟩ := List.append_inj hstream (by rw [hfour, hfour'])
    rw [← hhead, decodeFrameSize_i32be (by omega) (by omega)] at hsize
    exact hfits ⟨by omega, by omega⟩

/-! ### What a connection has done -/

/-- What is written when all that was answered is written. -/
def replies (answers : List (Option Bytes)) : Bytes := answers.flatMap fun answer => answer.getD []

def Phase.busy : Phase → Nat
  | .handling => 1
  | _ => 0

def Phase.inHand : Phase → Bytes
  | .writing response => response
  | _ => []

/-- What has been read of the frame that is not read completely. -/
def Phase.HasRead (head : Bytes) : Phase → Prop
  | .frame frameSize =>
    head.length = 4 ∧ decodeFrameSize head = frameSize ∧ 0 < frameSize ∧
      frameSize ≤ kMaxKafkaFrameBytes
  | _ => head = []

/-- While the loop runs. -/
structure Live (c : Connection) : Prop where
  cuts : ∃ head, Framing.Cuts nextFrame c.received c.requests (head ++ c.unread) ∧
    c.phase.HasRead head
  requests : c.requests.length = c.answers.length + c.phase.busy
  out : c.out ++ c.phase.inHand = replies c.answers
  errors : c.kafkaErrors = 0

/-- At any time. -/
structure Served (Handles : Bytes → FrameOutcome → Prop) (c : Connection) : Prop where
  cuts : ∃ rest, Framing.Cuts nextFrame c.received c.requests rest
  answered : List.Forall₂ (fun frame answer => Handles frame (.answered answer))
    (c.requests.take c.answers.length) c.answers
  counted : c.kafkaRequests = c.requests.length
  pending : c.requests.length ≤ c.answers.length + 1
  errors : c.kafkaErrors + c.answers.length ≤ c.requests.length
  out : c.out <+: replies c.answers
  live : c.phase ≠ .closed → Live c

section Steps

variable {Handles : Bytes → FrameOutcome → Prop} {c : Connection} {rest : Bytes}

theorem replies_concat (answers : List (Option Bytes)) (answer : Option Bytes) :
    replies (answers ++ [answer]) = replies answers ++ answer.getD [] := by
  rw [replies, replies, List.flatMap_append, List.flatMap_singleton]

/-- The loop ends. -/
theorem Served.close (h : Served Handles c) (unread : Bytes) :
    Served Handles { c with phase := .closed, unread := unread } :=
  { h with live := fun hlive => absurd rfl hlive }

theorem Served.receive (h : Served Handles c) (chunk : Bytes) :
    Served Handles { c with unread := c.unread ++ chunk, received := c.received ++ chunk } := by
  obtain ⟨rest, hrest⟩ := h.cuts
  refine { h with cuts := ⟨_, hrest.append nextFrame_stable chunk⟩, live := fun hlive => ?_ }
  have hold := h.live hlive
  obtain ⟨head, hcuts, hhead⟩ := hold.cuts
  have hmore := hcuts.append nextFrame_stable chunk
  rw [List.append_assoc] at hmore
  exact { hold with cuts := ⟨head, hmore, hhead⟩ }

theorem readExactly_eq {n : Nat} {read : Bytes} (h : c.readExactly n = some (read, rest)) :
    c.unread = read ++ rest := by
  unfold readExactly at h
  split at h
  · obtain ⟨rfl, rfl⟩ := Prod.mk.inj (Option.some.inj h)
    exact (List.take_append_drop n c.unread).symm
  · split at h
    · obtain ⟨rfl, rfl⟩ := Prod.mk.inj (Option.some.inj h)
      exact (List.append_nil _).symm
    · cases h

theorem Served.liveIn (h : Served Handles c) {phase : Phase} (hphase : c.phase = phase)
    (hrunning : phase ≠ .closed) :
    (∃ head, Framing.Cuts nextFrame c.received c.requests (head ++ c.unread) ∧
        phase.HasRead head) ∧ c.requests.length = c.answers.length + phase.busy ∧
      c.out ++ phase.inHand = replies c.answers ∧ c.kafkaErrors = 0 := by
  subst hphase
  have hold := h.live hrunning
  exact ⟨hold.cuts, hold.requests, hold.out, hold.errors⟩

theorem Served.sizeRead (h : Served Handles c) (hphase : c.phase = .size) {sizeBuf : Bytes}
    (hread : c.unread = sizeBuf ++ rest) : Served Handles (c.sizeRead sizeBuf rest) := by
  simp only [Connection.sizeRead]
  split
  · exact h.close rest
  · next hlength =>
      split
      · exact h.close rest
      · next hsize =>
          obtain ⟨⟨head, hcuts, rfl⟩, hlive⟩ := h.liveIn hphase nofun
          rw [List.nil_append, hread] at hcuts
          refine { h with
            live := fun _ => ⟨⟨sizeBuf, hcuts, ?_⟩, hlive.1, hlive.2.1, hlive.2.2⟩ }
          exact ⟨not_not.mp hlength, rfl, by omega, by omega⟩

theorem Served.frameRead (h : Served Handles c) {frameSize : Int}
    (hphase : c.phase = .frame frameSize) {frame : Bytes} (hread : c.unread = frame ++ rest) :
    Served Handles (c.frameRead frameSize frame rest) := by
  unfold Connection.frameRead
  split
  · exact h.close rest
  · next hlength =>
      obtain ⟨⟨head, hcuts, hfour, hsize, hpos, hmax⟩, hrequests, hout, hnoErrors⟩ :=
        h.liveIn hphase nofun
      have hfits : Fits frame := ⟨by omega, by omega⟩
      have hframe : nextFrame (head ++ c.unread) = some (frame, rest) :=
        nextFrame_eq_some.mpr ⟨head, by rw [hread], hfour, by omega, hfits⟩
      have hcut := hcuts.concat hframe
      -- the new frame has no answer yet
      have htake : (c.requests ++ [frame]).take c.answers.length =
          c.requests.take c.answers.length :=
        List.take_append_of_le_length (by rw [hrequests]; exact Nat.le_add_right _ _)
      have hlong : (c.requests ++ [frame]).length = c.requests.length + 1 := by
        rw [List.length_append, List.length_singleton]
      have hanswered := h.answered
      rw [← htake] at hanswered
      have hequal : c.requests.length = c.answers.length := hrequests
      have hpending : (c.requests ++ [frame]).length ≤ c.answers.length + 1 := by omega
      have herrors : c.kafkaErrors + c.answers.length ≤ (c.requests ++ [frame]).length := by
        have := h.errors
        omega
      exact
        { cuts := ⟨rest, hcut⟩
          answered := hanswered
          counted := by rw [hlong, h.counted]
          pending := hpending
          errors := herrors
          out := h.out
          live := fun _ => ⟨⟨[], hcut, rfl⟩, by rw [hlong, hequal]; rfl, hout, hnoErrors⟩ }

theorem Served.answer (h : Served Handles c) (hphase : c.phase = .handling) {answer : Option Bytes}
    (hhandles : ∀ frame ∈ c.requests.getLast?, Handles frame (.answered answer)) :
    Served Handles (c.handled (.answered answer)) := by
  obtain ⟨⟨head, hcuts, rfl⟩, hone, hout, hnoErrors⟩ := h.liveIn hphase nofun
  -- the frame in the handler is the last one
  obtain ⟨earlier, frame, hconcat, hearlier⟩ : ∃ earlier frame,
      c.requests = earlier ++ [frame] ∧ earlier.length = c.answers.length := by
    rcases List.eq_nil_or_concat' c.requests with hnil | ⟨earlier, frame, hconcat⟩
    · rw [hnil] at hone
      cases hone
    · refine ⟨earlier, frame, hconcat, ?_⟩
      rw [hconcat, List.length_append] at hone
      exact Nat.succ.inj hone
  have hhandled := hhandles frame (by rw [hconcat, List.getLast?_concat]; rfl)
  have hreplies : c.out ++ (afterAnswer answer).inHand = replies (c.answers ++ [answer]) := by
    rw [replies_concat, ← hout]
    cases answer with
    | none => exact (List.append_nil _).symm
    | some response => exact congrArg (· ++ response) (List.append_nil _).symm
  have hlong : (c.answers ++ [answer]).length = c.requests.length := by
    rw [hconcat, List.length_append, List.length_append, hearlier]
    rfl
  have hanswered : List.Forall₂ (fun frame answer => Handles frame (.answered answer))
      (c.requests.take (c.answers ++ [answer]).length) (c.answers ++ [answer]) := by
    have hearly := h.answered
    rw [hconcat, ← hearlier, List.take_left] at hearly
    rw [hlong, List.take_length, hconcat]
    exact List.rel_append hearly (.cons hhandled .nil)
  have hrequests : c.requests.length =
      (c.answers ++ [answer]).length + (afterAnswer answer).busy := by
    rw [hlong]
    cases answer <;> rfl
  have herrors : c.kafkaErrors + (c.answers ++ [answer]).length ≤ c.requests.length := by
    rw [hnoErrors, hlong, Nat.zero_add]
  have hread : (afterAnswer answer).HasRead [] := by cases answer <;> rfl
  exact
    { cuts := h.cuts
      answered := hanswered
      counted := h.counted
      pending := hlong ▸ Nat.le_succ _
      errors := herrors
      out := ⟨_, hreplies⟩
      live := fun _ => ⟨⟨[], hcuts, hread⟩, hrequests, hreplies, hnoErrors⟩ }

theorem Served.handled (h : Served Handles c) (hphase : c.phase = .handling)
    {outcome : FrameOutcome} (hhandles : ∀ frame ∈ c.requests.getLast?, Handles frame outcome) :
    Served Handles (c.handled outcome) := by
  cases outcome with
  | threw => exact h.close c.unread
  | failed =>
    obtain ⟨-, hlength, -, hnoErrors⟩ := h.liveIn hphase nofun
    have herrors : c.kafkaErrors + 1 + c.answers.length ≤ c.requests.length := by
      rw [hnoErrors, hlength, Phase.busy, Nat.zero_add, Nat.add_comm]
    exact { h with errors := herrors, live := fun hlive => absurd rfl hlive }
  | answered answer => exact h.answer hphase hhandles

/-- Of the response, all or some is written. -/
theorem Served.written (h : Served Handles c) {response : Bytes}
    (hphase : c.phase = .writing response) (sent : Nat) :
    Served Handles { c with phase := .top, out := c.out ++ response } ∧
      Served Handles { c with phase := .closed, out := c.out ++ response.take sent } := by
  obtain ⟨⟨head, hcuts, hhead⟩, hrequests, hall, hnoErrors⟩ := h.liveIn hphase nofun
  have hsome : c.out ++ response.take sent <+: replies c.answers := by
    rw [← hall]
    exact List.prefix_append_right_inj c.out |>.mpr (List.take_prefix sent response)
  have htop : c.out ++ response ++ [] = replies c.answers := (List.append_nil _).trans hall
  exact ⟨{ h with
      out := ⟨[], htop⟩
      live := fun _ => ⟨⟨head, hcuts, hhead⟩, hrequests, htop, hnoErrors⟩ },
    { h with out := hsome, live := fun hlive => absurd rfl hlive }⟩

theorem Served.step {c' : Connection} {e : Event} (h : Served Handles c)
    (hhandled : Handled Handles c e) (hstep : c.step e = some c') : Served Handles c' := by
  cases e with
  | receive chunk =>
    simp only [Connection.step] at hstep
    split at hstep
    · cases hstep
    · obtain rfl := Option.some.inj hstep
      exact h.receive chunk
  | endOfInput =>
    obtain rfl := Option.some.inj hstep
    exact { h with live := fun hlive => { h.live hlive with } }
  | stop =>
    obtain rfl := Option.some.inj hstep
    exact { h with live := fun hlive => { h.live hlive with } }
  | turn =>
    simp only [Connection.step] at hstep
    split at hstep
    · next hphase =>
        obtain rfl := Option.some.inj hstep
        obtain ⟨hcuts, hrequests, hout, hnoErrors⟩ := h.liveIn hphase nofun
        split
        · exact h.close c.unread
        · exact { h with live := fun _ => ⟨hcuts, hrequests, hout, hnoErrors⟩ }
    · cases hstep
  | read =>
    simp only [Connection.step] at hstep
    split at hstep
    · next hphase =>
        obtain ⟨read, hread, rfl⟩ := Option.map_eq_some_iff.mp hstep
        exact h.sizeRead hphase (readExactly_eq hread)
    · next frameSize hphase =>
        obtain ⟨read, hread, rfl⟩ := Option.map_eq_some_iff.mp hstep
        exact h.frameRead hphase (readExactly_eq hread)
    · cases hstep
  | readFails =>
    simp only [Connection.step] at hstep
    split at hstep
    · obtain rfl := Option.some.inj hstep
      exact h.close c.unread
    · obtain rfl := Option.some.inj hstep
      exact h.close c.unread
    · cases hstep
  | handled outcome =>
    simp only [Connection.step] at hstep
    split at hstep
    · next hphase =>
        obtain rfl := Option.some.inj hstep
        exact h.handled hphase hhandled
    · cases hstep
  | written =>
    simp only [Connection.step] at hstep
    split at hstep
    · next response hphase =>
        obtain rfl := Option.some.inj hstep
        exact (h.written hphase 0).1
    · cases hstep
  | writeFails sent =>
    simp only [Connection.step] at hstep
    split at hstep
    · next response hphase =>
        obtain rfl := Option.some.inj hstep
        exact (h.written hphase sent).2
    · cases hstep

end Steps

theorem Reached.served {Handles : Bytes → FrameOutcome → Prop} (h : Reached Handles c) :
    Served Handles c := by
  unfold Reached at h
  induction h with
  | start h0 =>
    subst h0
    exact
      { cuts := ⟨[], .done []⟩
        answered := .nil
        counted := rfl
        pending := Nat.zero_le _
        errors := le_refl _
        out := List.prefix_rfl
        live := fun _ => ⟨⟨[], .done [], rfl⟩, rfl, rfl, rfl⟩ }
  | next e _ hhandled hstep ih => exact ih.step hhandled hstep

theorem readExactly_none {n : Nat} (h : c.readExactly n = none) : c.unread.length < n := by
  unfold readExactly at h
  split at h
  · cases h
  · omega

/-- A read that waits has not got a complete frame. -/
theorem Live.blocked (h : Live c)
    (hreading : c.phase = .size ∨ ∃ frameSize, c.phase = .frame frameSize)
    (hblocked : c.step .read = none) :
    ∃ rest, Framing.Cuts nextFrame c.received c.requests rest ∧ nextFrame rest = none := by
  obtain ⟨head, hcuts, hhead⟩ := h.cuts
  refine ⟨_, hcuts, ?_⟩
  rw [Option.eq_none_iff_forall_ne_some]
  rintro ⟨frame, rest⟩ hnext
  obtain ⟨head', hstream, hfour, hsize, hfits⟩ := nextFrame_eq_some.mp hnext
  have hlength := congrArg List.length hstream
  simp only [List.length_append] at hlength
  rcases hreading with hphase | ⟨frameSize, hphase⟩
  · rw [hphase] at hhead
    obtain rfl : head = [] := hhead
    simp only [Connection.step, hphase, Option.map_eq_none_iff] at hblocked
    have hshort := readExactly_none hblocked
    rw [List.length_nil] at hlength
    omega
  · rw [hphase] at hhead
    obtain ⟨hfour', hsize', -⟩ := hhead
    simp only [Connection.step, hphase, Option.map_eq_none_iff] at hblocked
    have hshort := readExactly_none hblocked
    obtain ⟨rfl, -⟩ := List.append_inj hstream (by rw [hfour, hfour'])
    omega

/-- **Frames are served one at a time, in the order they arrive.**  However the input is divided
    and delayed, and whatever fails: the frames given to the handler are the first frames of what
    was received, each once; all but at most the last have got an answer that the handler may
    give to them; what was sent is a first part of these answers, one after another; it is all of
    them whenever the loop waits for input, and then no complete frame is left waiting with it. -/
theorem frames_served_in_order {Handles : Bytes → FrameOutcome → Prop} {c : Connection}
    (h : Reached Handles c) :
    (∃ rest, Framing.Cuts nextFrame c.received c.requests rest) ∧
      List.Forall₂ (fun frame answer => Handles frame (.answered answer))
        (c.requests.take c.answers.length) c.answers ∧
      c.answers.length ≤ c.requests.length ∧ c.requests.length ≤ c.answers.length + 1 ∧
      c.out <+: replies c.answers ∧
      (c.phase = .size ∨ (∃ frameSize, c.phase = .frame frameSize) → c.step .read = none →
        c.answers.length = c.requests.length ∧ c.out = replies c.answers ∧
          ∀ frames rest, Framing.Cuts nextFrame c.received frames rest →
            frames <+: c.requests) := by
  have hserved := h.served
  refine ⟨hserved.cuts, hserved.answered, ?_, hserved.pending, hserved.out, ?_⟩
  · have := hserved.errors
    omega
  · intro hreading hblocked
    have hlive := hserved.live (by
      rcases hreading with hphase | ⟨frameSize, hphase⟩ <;> rw [hphase] <;>
        exact fun hclosed => nomatch hclosed)
    obtain ⟨rest, hcuts, hnone⟩ := hlive.blocked hreading hblocked
    have hrequests := hlive.requests
    have hout := hlive.out
    refine ⟨?_, ?_, fun frames left hframes => hframes.isPrefix hcuts hnone⟩
    · rcases hreading with hphase | ⟨frameSize, hphase⟩ <;> rw [hphase] at hrequests <;>
        exact hrequests.symm
    · rcases hreading with hphase | ⟨frameSize, hphase⟩ <;> rw [hphase] at hout <;>
        exact (List.append_nil _).symm.trans hout

/-- A frame is sent back, but one that begins with a zero is not answered. -/
def Echoes (frame : Bytes) (outcome : FrameOutcome) : Prop :=
  outcome = .answered (if frame.head? = some 0 then none else some (sized frame))

instance (frame : Bytes) (outcome : FrameOutcome) : Decidable (Echoes frame outcome) :=
  inferInstanceAs (Decidable (_ = _))

/-- Two frames in pieces, with the first bytes of a third. -/
def piecewise : List Event :=
  [.receive [0, 0, 0], .turn, .receive [1, 7, 0, 0], .read, .read,
    .handled (.answered (some [0, 0, 0, 1, 7])), .written, .turn, .receive [0, 2, 0], .read,
    .receive [9, 0, 0], .read, .handled (.answered none), .turn]

theorem frames_served_in_order_piecewise :
    ∃ c, Transition.guardedRun step (Handled Echoes) {} piecewise = some c ∧
      c.requests = [[7], [0, 9]] ∧ c.unread = [0, 0] ∧ c.out = [0, 0, 0, 1, 7] ∧
      (∃ rest, Framing.Cuts nextFrame c.received c.requests rest) ∧
      List.Forall₂ (fun frame answer => Echoes frame (.answered answer))
        (c.requests.take c.answers.length) c.answers ∧
      c.answers.length ≤ c.requests.length ∧ c.requests.length ≤ c.answers.length + 1 ∧
      c.out <+: replies c.answers ∧
      (c.phase = .size ∨ (∃ frameSize, c.phase = .frame frameSize) → c.step .read = none →
        c.answers.length = c.requests.length ∧ c.out = replies c.answers ∧
          ∀ frames rest, Framing.Cuts nextFrame c.received frames rest →
            frames <+: c.requests) := by
  have hruns : (Transition.guardedRun step (Handled Echoes) {} piecewise).map
      (fun c => (c.requests, c.unread, c.out)) =
        some ([[7], [0, 9]], [0, 0], [0, 0, 0, 1, 7]) := by decide +kernel
  obtain ⟨c, hc, hends⟩ := Option.map_eq_some_iff.mp hruns
  obtain ⟨hrequests, hends⟩ := Prod.mk.inj hends
  obtain ⟨hunread, hout⟩ := Prod.mk.inj hends
  exact ⟨c, hc, hrequests, hunread, hout,
    frames_served_in_order (Transition.Reachable.of_guardedRun (.start rfl) piecewise hc)⟩

end Connection

end Mkmq

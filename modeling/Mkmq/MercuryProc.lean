import Mkmq.WriteProgram

/-!
# The envelope of a remote call (`src/mercury_shard.cpp`)

A payload travels inside the request when it is small, and stays where it is when it is
large: the request then has the descriptor of a registered buffer, from which the other side
pulls.  A reply has a status and its payload inside.  A vector is handed to Mercury as a size
and a pointer, which is null for an empty vector, and made again from what Mercury hands over.

Mercury's own part of the format, how its `hg_proc` functions encode an integer, a size, plain
bytes and a descriptor, is a parameter: `HgProc`.
-/

namespace Mkmq

open ByteCodec ReadProgram ReadProgram.Program WriteProgram

def kBulkTransferThreshold : Nat := 64 * 1024

/-- The results of Mercury functions that the program gives itself, and `overflow` for a
    buffer that ends too early. -/
inductive HgReturn where
  | success
  | invalidArg
  | noEntry
  | noMem
  | protocolError
  | overflow
deriving DecidableEq, Repr

inductive HgTransferMode where
  | eager
  | bulk
deriving DecidableEq, Repr

def HgTransferMode.code : HgTransferMode → Int32
  | eager => 0
  | bulk => 1

structure HgBytes where
  size : UInt64 := 0
  data : Option Bytes := none
deriving DecidableEq

structure HgRequest where
  mode : Int32 := HgTransferMode.eager.code
  eager : HgBytes := {}
  bulkSize : UInt64 := 0
  -- a descriptor is known here by a number; `none` is `HG_BULK_NULL`
  bulkHandle : Option UInt64 := none
deriving DecidableEq

structure HgReply where
  status : Int32 := 0
  payload : HgBytes := {}
deriving DecidableEq

/-! ### Vectors -/

/-- How `forward` and `respond_server` hand a vector to Mercury. -/
def HgBytes.ofVector (bytes : Bytes) : HgBytes :=
  { size := .ofNat bytes.length, data := if bytes.isEmpty then none else some bytes }

/-- How `handle_rpc` and `forward_cb` make a vector of what Mercury hands over. -/
def HgBytes.toVector (bytes : HgBytes) : Bytes :=
  match bytes.data with
  | none => []
  | some data => if bytes.size > 0 then data.take bytes.size.toNat else []

/-- The request `forward` builds; `originBulk` is the descriptor of the registered payload. -/
def HgRequest.ofPayload (payload : Bytes) (originBulk : UInt64) : HgRequest :=
  if kBulkTransferThreshold ≤ payload.length then
    { mode := HgTransferMode.bulk.code
      bulkSize := .ofNat payload.length
      bulkHandle := some originBulk }
  else { mode := HgTransferMode.eager.code, eager := .ofVector payload }

/-! ### Encoding and decoding -/

abbrev ProcWriter := WriteProgram.Writer HgReturn Unit

abbrev ProcReader (α : Type) := Program HgReturn α

/-- The `hg_proc` functions of Mercury that the program calls, under `HG_ENCODE` and
    `HG_DECODE`. -/
structure HgProc where
  writeInt32 : Int32 → ProcWriter
  readInt32 : ProcReader Int32
  writeSize : UInt64 → ProcWriter
  readSize : ProcReader UInt64
  writeRaw : Bytes → ProcWriter
  readRaw : Nat → ProcReader Bytes
  writeBulk : Option UInt64 → ProcWriter
  readBulk : ProcReader (Option UInt64)

/-- What is assumed of them: a value is read back from what was written for it. -/
structure HgProc.RoundTrips (proc : HgProc) : Prop where
  int32 : ∀ value, Carries (proc.writeInt32 value) proc.readInt32 value
  size : ∀ size, Carries (proc.writeSize size) proc.readSize size
  raw : ∀ bytes, Carries (proc.writeRaw bytes) (proc.readRaw bytes.length) bytes
  bulk : ∀ descriptor,
    Carries (proc.writeBulk (some descriptor)) proc.readBulk (some descriptor)

section Proc

variable (proc : HgProc)

/-- `proc_hg_bytes` under `HG_ENCODE`. -/
def encodeHgBytes (bytes : HgBytes) : ProcWriter := do
  proc.writeSize bytes.size
  match bytes.data with
  | none => if bytes.size > 0 then fails .invalidArg else pure ()
  | some data => if bytes.size = 0 then pure () else proc.writeRaw (data.take bytes.size.toNat)

/-- `proc_hg_bytes` under `HG_DECODE`, with memory for what the size says. -/
def decodeHgBytes : ProcReader HgBytes := do
  let size ← proc.readSize
  if size = 0 then return { size := size, data := none }
  else
    let data ← proc.readRaw size.toNat
    return { size := size, data := some data }

def encodeHgReply (reply : HgReply) : ProcWriter := do
  proc.writeInt32 reply.status
  encodeHgBytes proc reply.payload

def decodeHgReply : ProcReader HgReply := do
  let status ← proc.readInt32
  let payload ← decodeHgBytes proc
  return { status := status, payload := payload }

def encodeHgRequest (request : HgRequest) : ProcWriter := do
  proc.writeInt32 request.mode
  encodeHgBytes proc request.eager
  proc.writeSize request.bulkSize
  if request.mode = HgTransferMode.bulk.code then proc.writeBulk request.bulkHandle else pure ()

def decodeHgRequest : ProcReader HgRequest := do
  let mode ← proc.readInt32
  let eager ← decodeHgBytes proc
  let bulkSize ← proc.readSize
  if mode = HgTransferMode.bulk.code then
    let bulkHandle ← proc.readBulk
    return { mode := mode, eager := eager, bulkSize := bulkSize, bulkHandle := bulkHandle }
  else return { mode := mode, eager := eager, bulkSize := bulkSize, bulkHandle := none }

end Proc

/-- What Mercury sends for a structure. -/
def procBytes (w : ProcWriter) : Except HgReturn Bytes := (w []).map Prod.snd

/-- What Mercury makes of the bytes it receives. -/
def procValue {α : Type} (p : ProcReader α) (wire : Bytes) : Except HgReturn α :=
  (p.exec wire 0).map Prod.fst

/-! ### There and back -/

/-- The size of a vector, which is never 0 when there are bytes. -/
theorem size_vector {bytes : Bytes} (h : bytes.length < 2 ^ 64) :
    (UInt64.ofNat bytes.length).toNat = bytes.length ∧
      (bytes ≠ [] → UInt64.ofNat bytes.length ≠ 0) := by
  have hnat : (UInt64.ofNat bytes.length).toNat = bytes.length := UInt64.toNat_ofNat_of_lt' h
  refine ⟨hnat, fun hbytes hzero => hbytes ?_⟩
  rw [hzero] at hnat
  exact List.eq_nil_of_length_eq_zero hnat.symm

theorem toVector_ofVector {bytes : Bytes} (h : bytes.length < 2 ^ 64) :
    (HgBytes.ofVector bytes).toVector = bytes := by
  cases bytes with
  | nil => rfl
  | cons b rest =>
    obtain ⟨hsize, hzero⟩ := size_vector h
    have hpos : UInt64.ofNat (b :: rest).length > 0 :=
      UInt64.pos_iff_ne_zero.mpr (hzero (List.cons_ne_nil b rest))
    simp only [HgBytes.ofVector, HgBytes.toVector, List.isEmpty_cons, Bool.false_eq_true, if_false,
      if_pos hpos, hsize, List.take_length]

section RoundTrip

variable {proc : HgProc}

theorem carries_hgBytes (hproc : proc.RoundTrips) {bytes : Bytes} (h : bytes.length < 2 ^ 64) :
    Carries (encodeHgBytes proc (.ofVector bytes)) (decodeHgBytes proc) (.ofVector bytes) := by
  refine (hproc.size _).seq ?_
  cases bytes with
  | nil => exact carries_pure _
  | cons b rest =>
    obtain ⟨hsize, hzero⟩ := size_vector h
    have hne := hzero (List.cons_ne_nil b rest)
    simp only [HgBytes.ofVector, List.isEmpty_cons, Bool.false_eq_true, if_false, if_neg hne, hsize,
      List.take_length]
    exact (hproc.raw (b :: rest)).ends rfl

theorem carries_hgReply (hproc : proc.RoundTrips) (status : Int32) {response : Bytes}
    (h : response.length < 2 ^ 64) :
    Carries (encodeHgReply proc { status := status, payload := .ofVector response })
      (decodeHgReply proc) { status := status, payload := .ofVector response } :=
  (hproc.int32 status).seq ((carries_hgBytes hproc h).ends rfl)

theorem carries_hgRequest (hproc : proc.RoundTrips) {payload : Bytes}
    (h : payload.length < 2 ^ 64) (originBulk : UInt64) :
    Carries (encodeHgRequest proc (.ofPayload payload originBulk)) (decodeHgRequest proc)
      (.ofPayload payload originBulk) := by
  have hempty : Carries (encodeHgBytes proc (.ofVector [])) (decodeHgBytes proc) (.ofVector []) :=
    carries_hgBytes hproc (by simp)
  unfold HgRequest.ofPayload
  split
  · refine (hproc.int32 _).seq (hempty.seq ((hproc.size _).seq ?_))
    simp only [if_true]
    exact (hproc.bulk originBulk).ends rfl
  · refine (hproc.int32 _).seq ((carries_hgBytes hproc h).seq ((hproc.size _).seq ?_))
    simp only [show HgTransferMode.eager.code ≠ HgTransferMode.bulk.code by decide, if_false]
    exact carries_pure _

end RoundTrip

theorem procBytes_of_carries {α : Type} {w : ProcWriter} {p : ProcReader α} {value : α}
    (h : Carries w p value) : ∃ wire, procBytes w = .ok wire ∧ procValue p wire = .ok value := by
  obtain ⟨wire, hwrites, hreads⟩ := h
  refine ⟨wire, ?_, ?_⟩
  · rw [procBytes, hwrites [], List.nil_append]
    rfl
  · have hwhole := hreads.exec []
    rw [List.append_nil] at hwhole
    rw [procValue, hwhole]
    rfl

end Mkmq

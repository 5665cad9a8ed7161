import Mkmq.PartitionReactor

/-!
# Where concurrent appends put their frames

An append reads the open file, the active base offset and the write position when it
issues its write.  The three belong together as long as no two segment opens are in
flight at once and no open returns to a file that already has frames.  Under that
condition every index entry locates its own frame and no two frames overlap, in every
state any interleaving reaches; without it they need not, as the run at the end shows:
an append that finds no open file while a rollover is opening its segment moves the
active base offset under the other's feet.
-/

namespace Mkmq

open ByteCodec PartitionLogShard

/-- The append's write has been issued and is over. -/
def AppendPhase.Late : AppendPhase → Prop
  | .written | .flushing _ | .done | .failed => True
  | .barrier _ | .opening _ | .ready | .writing => False

/-- The append waits for `open_file_dma`. -/
def AppendPhase.isOpening : AppendPhase → Bool
  | .opening _ => true
  | _ => false

theorem AppendPhase.ne_opening {phase : AppendPhase} (h : phase.isOpening = false) (base : Int) :
    phase ≠ .opening base := by
  rintro rfl
  cases h

namespace Reactor

variable {r r' : Reactor} {recordSet : RecordSet} {n : Nat} {op : AppendOp} {a : ReactorAction}

/-! ### The two properties -/

/-- Each index entry is that of the append it was noted for, and the file it names holds
    that append's frame at the position it names. -/
def IndexLocatesFrames (r : Reactor) : Prop :=
  List.Forall₂ (fun n entry => ∃ op, r.ops[n]? = some op ∧
    Locates r.shard.root r.shard.logFrameAlignment op.recordSet entry) r.noted r.shard.indexEntries

/-- No two frames issued to one file overlap. -/
def FramesDisjoint (r : Reactor) : Prop :=
  ∀ (m n : Nat) (opm opn : AppendOp) (pm pn : Placement), r.ops[m]? = some opm →
    r.ops[n]? = some opn → m ≠ n → opm.placement = some pm → opn.placement = some pn →
    pm.file = pn.file →
    pm.position + opm.recordSet.frameSize r.shard.logFrameAlignment ≤ pn.position ∨
      pn.position + opn.recordSet.frameSize r.shard.logFrameAlignment ≤ pm.position

/-! ### The condition -/

/-- The segment an action starts to open, if any. -/
def startsOpening (r : Reactor) : ReactorAction → Option Int
  | .barrierPassed n =>
    match r.ops[n]? with
    | some op =>
      if r.shard.file ≠ none ∧ r.shard.writePosition ≠ 0 then some op.recordSet.baseOffset
      else none
    | none => none
  | a =>
    match r.admission a with
    | some admission =>
      if r.shard.file = none then admission.recordSet.map RecordSet.baseOffset else none
    | none => none

/-- A segment is opened only when no other open is in flight and no frame has been issued
    to the file of that name. -/
def OpensFreshSegment (r : Reactor) (a : ReactorAction) : Prop :=
  ∀ base ∈ r.startsOpening a, ∀ op ∈ r.ops,
    op.phase.isOpening = false ∧ op.placement.map Placement.file ≠ some base

instance (r : Reactor) (a : ReactorAction) : Decidable (r.OpensFreshSegment a) := by
  unfold OpensFreshSegment
  infer_instance

/-! ### The invariant -/

structure PlacementInv (r : Reactor) : Prop where
  file : ∀ f, r.shard.file = some f → f = r.shard.activeSegmentBaseOffset
  opening : ∀ (n : Nat) (op : AppendOp) (base : Int), r.ops[n]? = some op →
    op.phase = .opening base → r.shard.file = none ∧ base = r.shard.activeSegmentBaseOffset
  opening_unique : ∀ (m n : Nat) (opm opn : AppendOp) (bm bn : Int), r.ops[m]? = some opm →
    r.ops[n]? = some opn → opm.phase = .opening bm → opn.phase = .opening bn → m = n
  placed : ∀ (n : Nat) (op : AppendOp) (p : Placement), r.ops[n]? = some op →
    op.placement = some p → p.segmentBase = p.file ∧
    (p.file = r.shard.activeSegmentBaseOffset →
      p.position + op.recordSet.frameSize r.shard.logFrameAlignment ≤ r.shard.writePosition)
  disjoint : r.FramesDisjoint
  late : ∀ (n : Nat) (op : AppendOp), r.ops[n]? = some op → op.writtenAt ≠ none → op.phase.Late
  noted : List.Forall₂ (fun n entry => ∃ op p, r.ops[n]? = some op ∧ op.writtenAt ≠ none ∧
    op.placement = some p ∧ entry.segmentBase = p.file ∧ entry.segmentPosition = p.position ∧
    Locates r.shard.root r.shard.logFrameAlignment op.recordSet entry)
    r.noted r.shard.indexEntries

theorem PlacementInv.locates (h : r.PlacementInv) : r.IndexLocatesFrames :=
  h.noted.imp fun _ _ ⟨op, _, hop, _, _, _, _, hlocates⟩ => ⟨op, hop, hlocates⟩

/-- What the invariant reads of the shard is the same, up to a larger write position. -/
structure SameLayout (s s' : PartitionLogShard) : Prop where
  file : s'.file = s.file
  active : s'.activeSegmentBaseOffset = s.activeSegmentBaseOffset
  alignment : s'.logFrameAlignment = s.logFrameAlignment
  entries : s'.indexEntries = s.indexEntries
  contents : ∀ base, s'.root.contents base = s.root.contents base
  position : s.writePosition ≤ s'.writePosition

theorem SameLayout.refl (s : PartitionLogShard) : SameLayout s s :=
  ⟨rfl, rfl, rfl, rfl, fun _ => rfl, le_refl _⟩

theorem SameLayout.locates {s s' : PartitionLogShard} (h : SameLayout s s') {entry : IndexEntry}
    (hl : Locates s.root s.logFrameAlignment recordSet entry) :
    Locates s'.root s'.logFrameAlignment recordSet entry := by
  refine ⟨hl.entry_eq, ?_⟩
  rw [h.contents, h.alignment]
  exact hl.frame

/-- Frames that were issued are where they were. -/
theorem FramesDisjoint.of_placements (h : r.FramesDisjoint)
    (halign : r'.shard.logFrameAlignment = r.shard.logFrameAlignment)
    (hback : ∀ (m : Nat) (other : AppendOp) (p : Placement), r'.ops[m]? = some other →
      other.placement = some p → ∃ before, r.ops[m]? = some before ∧
        other.recordSet = before.recordSet ∧ before.placement = some p) : r'.FramesDisjoint := by
  intro m n opm opn pm pn hm hn hne hpm hpn hsame
  obtain ⟨beforeM, hbeforeM, hsetM, hplaceM⟩ := hback m opm pm hm hpm
  obtain ⟨beforeN, hbeforeN, hsetN, hplaceN⟩ := hback n opn pn hn hpn
  rw [hsetM, hsetN, halign]
  exact h m n beforeM beforeN pm pn hbeforeM hbeforeN hne hplaceM hplaceN hsame

section Moved

variable {k : Nat} {phase : AppendPhase} (h : r.PlacementInv)
  (hmoved : OpsMoved r.ops r'.ops k phase)

include h hmoved

theorem PlacementInv.late_moved
    (hlate : ∀ op, r.ops[k]? = some op → op.writtenAt ≠ none → phase.Late) (m : Nat)
    (other : AppendOp) (hm : r'.ops[m]? = some other) (hw : other.writtenAt ≠ none) :
    other.phase.Late := by
  rcases hmoved.back m other hm with
    ⟨before, hbefore, -, -, hwritten, hsame | ⟨rfl, hnew⟩⟩ | ⟨-, -, -, hnone, -⟩
  · rw [hsame]
    exact h.late m before hbefore (hwritten ▸ hw)
  · rw [hnew]
    exact hlate before hbefore (hwritten ▸ hw)
  · exact absurd hnone hw

theorem PlacementInv.noted_moved (hnoted : r'.noted = r.noted)
    (hentries : r'.shard.indexEntries = r.shard.indexEntries)
    (hlocates : ∀ (recordSet : RecordSet) (entry : IndexEntry),
      Locates r.shard.root r.shard.logFrameAlignment recordSet entry →
      Locates r'.shard.root r'.shard.logFrameAlignment recordSet entry) :
    List.Forall₂ (fun n entry => ∃ op p, r'.ops[n]? = some op ∧ op.writtenAt ≠ none ∧
      op.placement = some p ∧ entry.segmentBase = p.file ∧ entry.segmentPosition = p.position ∧
      Locates r'.shard.root r'.shard.logFrameAlignment op.recordSet entry)
      r'.noted r'.shard.indexEntries := by
  rw [hnoted, hentries]
  refine h.noted.imp ?_
  rintro m entry ⟨before, p, hm, hw, hp, hbase, hpos, hl⟩
  obtain ⟨other, hother, hset, hplace, hwritten⟩ := hmoved.forth m before hm
  refine ⟨other, p, hother, hwritten ▸ hw, hplace ▸ hp, hbase, hpos, ?_⟩
  rw [hset]
  exact hlocates _ _ hl

/-- An append moves on, or arrives, without opening a segment. -/
theorem PlacementInv.move (hnoted : r'.noted = r.noted) (hphase : ∀ base, phase ≠ .opening base)
    (hlate : ∀ op, r.ops[k]? = some op → op.writtenAt ≠ none → phase.Late)
    (hlayout : SameLayout r.shard r'.shard) : r'.PlacementInv := by
  have hopening : ∀ (m : Nat) (other : AppendOp) (base : Int), r'.ops[m]? = some other →
      other.phase = .opening base →
      ∃ before, r.ops[m]? = some before ∧ before.phase = .opening base := by
    intro m other base hm hbase
    rcases hmoved.back m other hm with
      ⟨before, hbefore, -, -, -, hsame | ⟨-, hnew⟩⟩ | ⟨-, -, -, -, hnew⟩
    · exact ⟨before, hbefore, hsame ▸ hbase⟩
    · exact absurd (hnew.symm.trans hbase) (hphase base)
    · exact absurd (hnew.symm.trans hbase) (hphase base)
  refine ⟨?_, ?_, ?_, ?_, ?_, ?_, ?_⟩
  · rw [hlayout.file, hlayout.active]
    exact h.file
  · intro m other base hm hbase
    obtain ⟨before, hbefore, hphase⟩ := hopening m other base hm hbase
    rw [hlayout.file, hlayout.active]
    exact h.opening m before base hbefore hphase
  · intro m n opm opn bm bn hm hn hbm hbn
    obtain ⟨beforeM, hbeforeM, hphaseM⟩ := hopening m opm bm hm hbm
    obtain ⟨beforeN, hbeforeN, hphaseN⟩ := hopening n opn bn hn hbn
    exact h.opening_unique m n beforeM beforeN bm bn hbeforeM hbeforeN hphaseM hphaseN
  · intro m other p hm hp
    obtain ⟨before, hbefore, hset, hplace⟩ := hmoved.of_placement hm hp
    obtain ⟨hbase, hend⟩ := h.placed m before p hbefore hplace
    rw [hset, hlayout.active, hlayout.alignment]
    exact ⟨hbase, fun hsame => le_trans (hend hsame) hlayout.position⟩
  · exact h.disjoint.of_placements hlayout.alignment fun _ _ _ => hmoved.of_placement
  · exact h.late_moved hmoved hlate
  · exact h.noted_moved hmoved hnoted hlayout.entries fun _ _ => hlayout.locates

end Moved

/-- Steps that leave the appends alone and the layout as it was. -/
theorem PlacementInv.congr (h : r.PlacementInv) (hops : r'.ops = r.ops)
    (hnoted : r'.noted = r.noted) (hlayout : SameLayout r.shard r'.shard) : r'.PlacementInv := by
  have hmoved : OpsMoved r.ops r'.ops r.ops.length .ready :=
    ⟨fun m other hm => Or.inl ⟨other, hops ▸ hm, rfl, rfl, rfl, Or.inl rfl⟩,
      fun m before hm => ⟨before, hops ▸ hm, rfl, rfl, rfl⟩⟩
  refine h.move hmoved hnoted (fun base hbase => by cases hbase) (fun op hop => ?_) hlayout
  rw [List.getElem?_eq_none (le_refl _)] at hop
  cases hop

/-- An append starts to open the segment `base`: no other open is in flight and no frame
    was issued to that file, so the new base and the write position 0 fit every frame. -/
theorem PlacementInv.startOpening (h : r.PlacementInv) {k : Nat} {base : Int}
    (hmoved : OpsMoved r.ops r'.ops k (.opening base)) (hnoted : r'.noted = r.noted)
    (hearly : ∀ op, r.ops[k]? = some op → op.writtenAt = none)
    (hfresh : ∀ op ∈ r.ops, op.phase.isOpening = false ∧
      op.placement.map Placement.file ≠ some base) (hfile : r'.shard.file = none)
    (hactive : r'.shard.activeSegmentBaseOffset = base)
    (halign : r'.shard.logFrameAlignment = r.shard.logFrameAlignment)
    (hentries : r'.shard.indexEntries = r.shard.indexEntries)
    (hroot : r'.shard.root = r.shard.root) : r'.PlacementInv := by
  have hopening : ∀ (m : Nat) (other : AppendOp) (b : Int), r'.ops[m]? = some other →
      other.phase = .opening b → m = k ∧ b = base := by
    intro m other b hm hb
    rcases hmoved.back m other hm with
      ⟨before, hbefore, -, -, -, hsame | ⟨hmk, hnew⟩⟩ | ⟨hmk, -, -, -, hnew⟩
    · have hclosed := (hfresh before (List.mem_of_getElem? hbefore)).1
      exact absurd (hsame ▸ hb) (AppendPhase.ne_opening hclosed b)
    · exact ⟨hmk, AppendPhase.opening.inj (hb.symm.trans hnew)⟩
    · exact ⟨hmk, AppendPhase.opening.inj (hb.symm.trans hnew)⟩
  refine ⟨?_, ?_, ?_, ?_, ?_, ?_, ?_⟩
  · intro f hf
    rw [hfile] at hf
    cases hf
  · intro m other b hm hb
    exact ⟨hfile, (hopening m other b hm hb).2.trans hactive.symm⟩
  · intro m n opm opn bm bn hm hn hbm hbn
    exact (hopening m opm bm hm hbm).1.trans (hopening n opn bn hn hbn).1.symm
  · intro m other p hm hp
    obtain ⟨before, hbefore, -, hplace⟩ := hmoved.of_placement hm hp
    refine ⟨(h.placed m before p hbefore hplace).1, fun hsame => ?_⟩
    have hother := (hfresh before (List.mem_of_getElem? hbefore)).2
    rw [hplace, Option.map_some] at hother
    exact absurd (congrArg some (hsame.trans hactive)) hother
  · exact h.disjoint.of_placements halign fun _ _ _ => hmoved.of_placement
  · exact h.late_moved hmoved fun op hop hw => absurd (hearly op hop) hw
  · refine h.noted_moved hmoved hnoted hentries fun recordSet entry hl => ?_
    rw [hroot, halign]
    exact hl

/-- The open completes: the file is the active one, and no other open can undo that. -/
theorem PlacementInv.opened (h : r.PlacementInv) {base : Int} (hop : r.ops[n]? = some op)
    (hphase : op.phase = .opening base) :
    (r.update n { op with phase := .ready } (r.shard.openActiveSegment base)).PlacementInv := by
  obtain ⟨hfile, hactive⟩ := h.opening n op base hop hphase
  have hmoved := opsMoved_set hop .ready
  have hnone : ∀ (m : Nat) (other : AppendOp) (b : Int),
      (r.update n { op with phase := .ready } (r.shard.openActiveSegment base)).ops[m]? =
        some other → other.phase ≠ .opening b := by
    intro m other b hm hb
    rcases set_ops hm with ⟨-, rfl⟩ | ⟨hne, hm⟩
    · cases hb
    · exact hne (h.opening_unique m n other op b base hm hop hb hphase)
  refine ⟨?_, ?_, ?_, ?_, ?_, ?_, ?_⟩
  · intro f hf
    exact (Option.some.inj hf).symm.trans hactive
  · exact fun m other b hm hb => absurd hb (hnone m other b hm)
  · exact fun m _ opm _ bm _ hm _ hbm _ => absurd hbm (hnone m opm bm hm)
  · intro m other p hm hp
    obtain ⟨before, hbefore, hset, hplace⟩ := hmoved.of_placement hm hp
    rw [hset]
    exact h.placed m before p hbefore hplace
  · exact h.disjoint.of_placements rfl fun _ _ _ => hmoved.of_placement
  · refine h.late_moved hmoved fun other hother hw => ?_
    have hlate := h.late n other hother hw
    rw [← Option.some.inj (hop.symm.trans hother), hphase] at hlate
    exact hlate.elim
  · exact h.noted_moved hmoved rfl rfl fun _ _ hl => hl.createSegment base

/-- The write is issued at the write position, past every frame of the active file. -/
theorem PlacementInv.startWrite (h : r.PlacementInv) {file : Int} (hop : r.ops[n]? = some op)
    (hphase : op.phase = .ready) (hfile : r.shard.file = some file) :
    (r.update n
      { op with
        phase := .writing
        placement := some ⟨file, r.shard.activeSegmentBaseOffset, r.shard.writePosition⟩ }
      { r.shard with
        writePosition := r.shard.writePosition +
          op.recordSet.frameSize r.shard.logFrameAlignment }).PlacementInv := by
  have hactive := h.file file hfile
  have hunwritten : op.writtenAt = none := by
    by_contra hw
    have hlate := h.late n op hop hw
    rw [hphase] at hlate
    exact hlate
  refine ⟨h.file, ?_, ?_, ?_, ?_, ?_, ?_⟩
  · intro m other base hm hbase
    rcases set_ops hm with ⟨-, rfl⟩ | ⟨-, hm⟩
    · cases hbase
    · exact h.opening m other base hm hbase
  · intro m k opm opk bm bk hm hk hbm hbk
    rcases set_ops hm with ⟨-, rfl⟩ | ⟨-, hm⟩
    · cases hbm
    rcases set_ops hk with ⟨-, rfl⟩ | ⟨-, hk⟩
    · cases hbk
    exact h.opening_unique m k opm opk bm bk hm hk hbm hbk
  · intro m other p hm hp
    rcases set_ops hm with ⟨-, rfl⟩ | ⟨-, hm⟩
    · obtain rfl := Option.some.inj hp
      exact ⟨hactive.symm, fun _ => le_refl _⟩
    · obtain ⟨hbase, hend⟩ := h.placed m other p hm hp
      exact ⟨hbase, fun hsame => le_trans (hend hsame) (Nat.le_add_right _ _)⟩
  · intro m k opm opk pm pk hm hk hne hpm hpk hsame
    rcases set_ops hm with ⟨hmn, rfl⟩ | ⟨-, hm⟩
    · rcases set_ops hk with ⟨hkn, rfl⟩ | ⟨-, hk⟩
      · exact absurd (hmn.trans hkn.symm) hne
      · obtain rfl := Option.some.inj hpm
        exact Or.inr ((h.placed k opk pk hk hpk).2 (hsame.symm.trans hactive))
    · rcases set_ops hk with ⟨-, rfl⟩ | ⟨-, hk⟩
      · obtain rfl := Option.some.inj hpk
        exact Or.inl ((h.placed m opm pm hm hpm).2 (hsame.trans hactive))
      · exact h.disjoint m k opm opk pm pk hm hk hne hpm hpk hsame
  · intro m other hm hw
    rcases set_ops hm with ⟨-, rfl⟩ | ⟨-, hm⟩
    · exact absurd hunwritten hw
    · exact h.late m other hm hw
  · refine h.noted.imp ?_
    rintro m entry ⟨before, p, hm, hw, hrest⟩
    refine ⟨before, p, ?_, hw, hrest⟩
    have hmn : m ≠ n := by
      rintro rfl
      rw [hop] at hm
      obtain rfl := Option.some.inj hm
      exact hw hunwritten
    exact (set_ops_ne hmn _).trans hm

/-- The write completes: it changed no frame but its own, which its entry now locates. -/
theorem PlacementInv.writeDone (h : r.PlacementInv) {placement : Placement}
    (hop : r.ops[n]? = some op) (hphase : op.phase = .writing)
    (hplacement : op.placement = some placement) : (r.writeDone n op placement).PlacementInv := by
  have hpos := r.shard.logFrameAlignment_pos
  obtain ⟨hsegment, -⟩ := h.placed n op placement hop hplacement
  have hspec := writeDone_spec r n op placement
  set r' := r.writeDone n op placement
  set written : AppendOp := { op with phase := .written, writtenAt := some r.now } with hwritten
  have hlookup : ∀ (m : Nat) (other : AppendOp), r'.ops[m]? = some other →
      (m = n ∧ other = written) ∨ (m ≠ n ∧ r.ops[m]? = some other) := by
    intro m other hm
    rw [hspec.ops] at hm
    exact set_ops hm
  have hself : r'.ops[n]? = some written := by
    rw [hspec.ops]
    exact set_ops_self hop written
  have hother : ∀ m, m ≠ n → r'.ops[m]? = r.ops[m]? := by
    intro m hmn
    rw [hspec.ops]
    exact set_ops_ne hmn written
  have hplaced : ∀ (m : Nat) (other : AppendOp) (p : Placement), r'.ops[m]? = some other →
      other.placement = some p → ∃ before, r.ops[m]? = some before ∧
        other.recordSet = before.recordSet ∧ before.placement = some p := by
    intro m other p hm hp
    rcases hlookup m other hm with ⟨rfl, rfl⟩ | ⟨-, hm⟩
    · exact ⟨op, hop, rfl, hp⟩
    · exact ⟨other, hm, rfl, hp⟩
  have hopening : ∀ (m : Nat) (other : AppendOp) (base : Int), r'.ops[m]? = some other →
      other.phase = .opening base → r.ops[m]? = some other := by
    intro m other base hm hbase
    rcases hlookup m other hm with ⟨-, rfl⟩ | ⟨-, hm⟩
    · cases hbase
    · exact hm
  -- the frames noted so far are clear of the new one
  have hnoted : List.Forall₂ (fun m entry => ∃ other p, r'.ops[m]? = some other ∧
      other.writtenAt ≠ none ∧ other.placement = some p ∧ entry.segmentBase = p.file ∧
      entry.segmentPosition = p.position ∧
      Locates r'.shard.root r'.shard.logFrameAlignment other.recordSet entry)
      r.noted r.shard.indexEntries := by
    refine h.noted.imp ?_
    rintro m entry ⟨before, p, hm, hw, hp, hbase, hposition, hl⟩
    have hmn : m ≠ n := by
      rintro rfl
      rw [hop] at hm
      obtain rfl := Option.some.inj hm
      have hlate := h.late m op hop hw
      rw [hphase] at hlate
      exact hlate
    refine ⟨before, p, (hother m hmn).trans hm, hw, hp, hbase, hposition, ?_⟩
    rw [hspec.root, hspec.alignment]
    refine hl.writeSegment hpos fun hsame => ?_
    rw [RecordSet.length_frame hpos, hposition]
    exact h.disjoint m n before op p placement hm hop hmn hp hplacement (hbase.symm.trans hsame)
  refine ⟨?_, ?_, ?_, ?_, ?_, ?_, ?_⟩
  · rw [hspec.file, hspec.active]
    exact h.file
  · intro m other base hm hbase
    rw [hspec.file, hspec.active]
    exact h.opening m other base (hopening m other base hm hbase) hbase
  · intro m k opm opk bm bk hm hk hbm hbk
    exact h.opening_unique m k opm opk bm bk (hopening m opm bm hm hbm) (hopening k opk bk hk hbk)
      hbm hbk
  · intro m other p hm hp
    obtain ⟨before, hbefore, hset, hplace⟩ := hplaced m other p hm hp
    rw [hset, hspec.active, hspec.position, hspec.alignment]
    exact h.placed m before p hbefore hplace
  · exact h.disjoint.of_placements hspec.alignment hplaced
  · intro m other hm hw
    rcases hlookup m other hm with ⟨-, rfl⟩ | ⟨-, hm⟩
    · trivial
    · exact h.late m other hm hw
  · rcases hspec.indexed with ⟨-, hnotes, hentries⟩ | ⟨-, hnotes, hentries⟩
    · rw [hnotes, hentries]
      refine List.rel_append hnoted (List.Forall₂.cons ?_ List.Forall₂.nil)
      refine ⟨written, placement, hself, by simp [hwritten], hplacement, hsegment, rfl, ?_⟩
      rw [hspec.root, hspec.alignment, hsegment]
      exact locates_written hpos _ _ _ _
    · rw [hnotes, hentries]
      exact hnoted

/-! ### Every step, every run -/

theorem startsOpening_of_admission {admission : Admission} (h : r.admission a = some admission)
    (hfile : r.shard.file = none) (hset : admission.recordSet = some recordSet) :
    r.startsOpening a = some recordSet.baseOffset := by
  cases a with
  | append records acks =>
    simp only [startsOpening, h, hfile, hset, if_true, Option.map_some]
  | appendReplica request =>
    simp only [startsOpening, h, hfile, hset, if_true, Option.map_some]
  | _ => cases h

theorem startsOpening_of_barrier (hop : r.ops[n]? = some op) {file : Int}
    (hfile : r.shard.file = some file) (hposition : r.shard.writePosition ≠ 0) :
    r.startsOpening (.barrierPassed n) = some op.recordSet.baseOffset := by
  simp only [startsOpening, hop]
  rw [if_pos ⟨by rw [hfile]; simp, hposition⟩]

/-- An append that has not written has no write time. -/
theorem PlacementInv.unwritten (h : r.PlacementInv) (hop : r.ops[n]? = some op)
    (hphase : ¬ op.phase.Late) : op.writtenAt = none := by
  by_contra hw
  exact hphase (h.late n op hop hw)

theorem PlacementInv.step (h : r.PlacementInv) (hguard : r.OpensFreshSegment a)
    (hstep : r.step a = some r') : r'.PlacementInv := by
  cases steps_of_step hstep with
  | refused hadmission hset =>
    exact h.congr rfl rfl ⟨rfl, rfl, rfl, rfl, fun _ => rfl, le_refl _⟩
  | admitted hadmission hset hensure =>
    rcases ensureSegmentForWrite_cases hensure with ⟨hfile, rfl, rfl⟩ | ⟨file, hfile, rfl, hphase⟩
    · refine h.startOpening (opsMoved_append r.ops _ _) rfl ?_
        (hguard _ (startsOpening_of_admission hadmission hfile hset)) hfile rfl rfl rfl rfl
      intro op hop
      rw [List.getElem?_eq_none (le_refl _)] at hop
      cases hop
    · refine h.move (opsMoved_append r.ops _ _) rfl hphase ?_
        ⟨rfl, rfl, rfl, rfl, fun _ => rfl, le_refl _⟩
      intro op hop
      rw [List.getElem?_eq_none (le_refl _)] at hop
      cases hop
  | barrierPassed hop hphase hafter =>
    have hunwritten := h.unwritten hop (by rw [hphase]; exact id)
    rcases afterFlushBarrier_cases hafter with ⟨rfl, rfl⟩ | ⟨oldFile, hfile, hposition, rfl, rfl⟩
    · refine h.move (opsMoved_set hop _) rfl (by simp [SegmentWait.phase]) ?_
        (SameLayout.refl _)
      intro other hother hw
      rw [hop] at hother
      obtain rfl := Option.some.inj hother
      exact absurd hunwritten hw
    · refine h.startOpening (opsMoved_set hop _) rfl ?_
        (hguard _ (startsOpening_of_barrier hop hfile hposition)) rfl rfl rfl rfl rfl
      intro other hother
      rw [hop] at hother
      obtain rfl := Option.some.inj hother
      exact hunwritten
  | opened hop hphase => exact h.opened hop hphase
  | failed hop =>
    exact h.move (opsMoved_set hop _) rfl (by simp) (fun _ _ _ => trivial)
      ⟨rfl, rfl, rfl, rfl, fun _ => rfl, le_refl _⟩
  | unopened hop hphase hreserve =>
    obtain ⟨-, rfl⟩ := reserve_none hreserve
    exact h.move (opsMoved_set hop _) rfl (by simp) (fun _ _ _ => trivial)
      ⟨rfl, rfl, rfl, rfl, fun _ => rfl, Nat.le_add_right _ _⟩
  | startWrite hop hphase hreserve =>
    obtain ⟨file, hfile, rfl, rfl⟩ := reserve_some hreserve
    exact h.startWrite hop hphase hfile
  | writeDone hop hphase hplacement => exact h.writeDone hop hphase hplacement
  | unsynced hop hphase _ =>
    exact h.move (opsMoved_set hop _) rfl (by simp) (fun _ _ _ => trivial)
      ⟨rfl, rfl, rfl, rfl, fun _ => rfl, le_refl _⟩
  | joined hop hphase _ _ =>
    exact h.move (opsMoved_set hop _) rfl (by simp) (fun _ _ _ => trivial)
      (SameLayout.refl _)
  | armed hop hphase _ =>
    exact h.move (opsMoved_set hop _) rfl (by simp) (fun _ _ _ => trivial)
      ⟨rfl, rfl, rfl, rfl, fun _ => rfl, le_refl _⟩
  | yielded hflush hphase =>
    unfold Reactor.yielded
    split
    · exact h.congr rfl rfl ⟨rfl, rfl, rfl, rfl, fun _ => rfl, le_refl _⟩
    · exact h.congr rfl rfl ⟨rfl, rfl, rfl, rfl, fun _ => rfl, le_refl _⟩
  | flushEnded _ hflush hphase _ => exact h.congr rfl rfl (SameLayout.refl _)
  | resolved hop hphase hflush hfinished =>
    exact h.move (opsMoved_set hop _) rfl (by simp) (fun _ _ _ => trivial)
      ⟨rfl, rfl, rfl, rfl, fun _ => rfl, le_refl _⟩
  | indexWritten hwrite =>
    exact h.congr rfl rfl ⟨rfl, rfl, rfl, rfl, fun _ => rfl, le_refl _⟩

theorem placementInv_init (config : PartitionConfig) (segmentBytes alignment : Nat)
    (halign : 0 < alignment) : (init config segmentBytes alignment halign).PlacementInv where
  file := fun f hf => (Option.some.inj hf).symm
  opening := by simp [init]
  opening_unique := by simp [init]
  placed := by simp [init]
  disjoint := by simp [FramesDisjoint, init]
  late := by simp [init]
  noted := List.Forall₂.nil

/-- **Every index entry locates its own frame and no two frames overlap**, in every state
    reached by steps that open a segment only when no other open is in flight and no frame
    has been issued to the file of that name. -/
theorem frames_located_of_opensFresh (config : PartitionConfig) (segmentBytes alignment : Nat)
    (halign : 0 < alignment) (r : Reactor)
    (h : Transition.Reachable (fun r => r = init config segmentBytes alignment halign) step
      OpensFreshSegment r) : r.IndexLocatesFrames ∧ r.FramesDisjoint := by
  have hinv : r.PlacementInv := h.invariant
    (fun s hs => hs ▸ placementInv_init config segmentBytes alignment halign)
    (fun s a s' hs hguard hstep => hs.step hguard hstep)
  exact ⟨hinv.locates, hinv.disjoint⟩

/-- Two appends one after the other, with a rollover between them. -/
def rolloverActions : List ReactorAction :=
  [.append [1] 1, .startWrite 0, .writeDone 0, .append [2] 1, .barrierPassed 1, .opened 1,
    .startWrite 1, .writeDone 1]

theorem frames_located_across_rollover :
    ∃ r, Transition.guardedRun step OpensFreshSegment (init defaultPartition 512 512 (by decide))
        rolloverActions = some r ∧
      r.shard.indexEntries.map IndexEntry.segmentBase = [0, 1] ∧
      r.IndexLocatesFrames ∧ r.FramesDisjoint := by
  have hrun : (Transition.guardedRun step OpensFreshSegment
      (init defaultPartition 512 512 (by decide)) rolloverActions).map
        (fun r => r.shard.indexEntries.map IndexEntry.segmentBase) =
        some [0, 1] := by decide +kernel
  obtain ⟨r, hr, hentries⟩ := Option.map_eq_some_iff.mp hrun
  exact ⟨r, hr, hentries, frames_located_of_opensFresh defaultPartition 512 512 (by decide) r
    (.of_guardedRun (.start rfl) _ hr)⟩

/-- The third append arrives while the rollover of the second is opening segment 1, finds
    no open file and makes 2 the active base.  The second append then writes its frame to
    the file of segment 1 and notes it under segment 2. -/
def overtakenRollover : List ReactorAction :=
  [.append [1] 1, .startWrite 0, .append [2] 1, .barrierPassed 1, .append [3] 1, .opened 1,
    .startWrite 1, .writeDone 1]

theorem frames_not_always_located :
    ¬ ∀ (config : PartitionConfig) (segmentBytes alignment : Nat) (halign : 0 < alignment)
        (r : Reactor),
        Transition.Reachable (fun r => r = init config segmentBytes alignment halign) step
          (fun _ _ => True) r → r.IndexLocatesFrames ∧ r.FramesDisjoint := by
  intro hall
  have hrun : (Transition.guardedRun step (fun _ _ => True)
      (init defaultPartition 512 512 (by decide)) overtakenRollover).map
        (fun r => (r.noted, r.shard.indexEntries.map IndexEntry.segmentBase,
        r.shard.root.contents 2)) = some ([1], [2], []) := by decide +kernel
  obtain ⟨r, hr, hstate⟩ := Option.map_eq_some_iff.mp hrun
  simp only [Prod.mk.injEq] at hstate
  obtain ⟨hnoted, hbases, hempty⟩ := hstate
  have hlocates :=
    (hall defaultPartition 512 512 (by decide) r (.of_guardedRun (.start rfl) _ hr)).1
  obtain ⟨entry, hentries, hbase⟩ : ∃ entry, r.shard.indexEntries = [entry] ∧
      entry.segmentBase = 2 := by
    obtain ⟨entry, rest, hcons, hbase, hrest⟩ := List.map_eq_cons_iff.mp hbases
    rw [List.map_eq_nil_iff.mp hrest] at hcons
    exact ⟨entry, hcons, hbase⟩
  unfold IndexLocatesFrames at hlocates
  rw [hnoted, hentries] at hlocates
  cases hlocates with
  | cons hhead _ =>
    obtain ⟨op, -, hl⟩ := hhead
    -- the file of segment 2 is empty, so it holds no frame
    have hin := hl.in_file r.shard.logFrameAlignment_pos
    have hsize := op.recordSet.frameSize_pos r.shard.logFrameAlignment_pos
    rw [hbase, hempty, List.length_nil] at hin
    omega

end Reactor

end Mkmq

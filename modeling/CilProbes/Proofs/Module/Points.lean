import CilProbes.Module.Debug
import CilProbes.Proofs.Module.Reading
import Mathlib.Data.List.Sort

/-!
# Points and instructions

The points of a method that is loaded are anchored in program order, each at an instruction of its own
(`MethodBody.anchors_anchor`). Where they are so, they are written in this order, and reading finds the instruction at
the same place of the program for each (`MethodBody.anchor_offsetPoints`).
-/

namespace CilProbes

namespace Image

variable {ps : List OffsetPoint}

/-- Points in order of offset stay as they are. -/
theorem inOrder_of_pairwise (h : ps.Pairwise fun a b => a.offset < b.offset) : inOrder ps = ps := by
  induction ps with
  | nil => rfl
  | cons p ps ih =>
    obtain ⟨hp, hps⟩ := List.pairwise_cons.mp h
    show insertPoint p (inOrder ps) = _
    rw [ih hps]
    cases ps with
    | nil => rfl
    | cons q qs =>
      rw [insertPoint, if_pos (UInt32.le_of_lt (hp q List.mem_cons_self))]

end Image

namespace MethodBody

/-- The points lie in program order, each at an instruction of its own. -/
def Anchors (b : MethodBody) (points : List SequencePoint) : Prop :=
  (points.map SequencePoint.instruction).Sublist b.code.ids

/-- The points with the places of their instructions. -/
def placePoints (b : MethodBody) (points : List SequencePoint) : List SequencePoint :=
  points.map fun p => { p with instruction := b.code.place p.instruction }

variable {b : MethodBody} {points : List SequencePoint}

/-! ## Loading -/

theorem sublist_range {ns : List Nat} {n : Nat} (h : ns.Pairwise (· < ·)) (hlt : ∀ k ∈ ns, k < n) :
    ns.Sublist (List.range n) := by
  have hsubset : ns ⊆ List.range n := fun k hk => List.mem_range.mpr (hlt k hk)
  have hsubperm := List.subperm_of_subset (h.imp Nat.ne_of_lt) hsubset
  exact List.sublist_of_subperm_of_pairwise hsubperm (h.imp Nat.le_of_lt) (List.pairwise_lt_range.imp Nat.le_of_lt)

/-- Of two decoded instructions, the one at the lower offset is the earlier one. -/
theorem index_lt_of_offset_lt {s : InstructionStream} (hs : s.Parsed) {x y : InstrId} {offset offset' : UInt32}
    (hx : s.offsetTable[offset]? = some x) (hy : s.offsetTable[offset']? = some y) (hlt : offset < offset') :
    x.index < y.index := by
  obtain ⟨i, hi, hoffset⟩ := InstructionStream.offsetTable_sound hx
  obtain ⟨j, hj, hoffset'⟩ := InstructionStream.offsetTable_sound hy
  obtain ⟨hxlt, hi⟩ := InstructionStream.get?_eq_some.mp (InstructionStream.mem_entries.mp hi).2
  obtain ⟨hylt, hj⟩ := InstructionStream.get?_eq_some.mp (InstructionStream.mem_entries.mp hj).2
  dsimp only at hi hj hxlt hylt
  rcases Nat.lt_trichotomy x.index y.index with h | h | h
  · exact h
  · have hsame : i = j := by
      rw [← hi, ← hj]
      simp only [h]
    rw [← hsame, hoffset] at hoffset'
    cases hoffset'
    exact absurd hlt (UInt32.lt_irrefl offset)
  · have hincreasing := List.pairwise_iff_getElem.mp hs.increasing y.index x.index (by simpa using hylt)
      (by simpa using hxlt) h offset' offset (by simpa [hj] using hoffset') (by simpa [hi] using hoffset)
    exact absurd hlt (UInt32.lt_asymm hincreasing)

theorem anchors_anchor (hb : b.Parsed) {ps : List OffsetPoint} (hps : PointBlob.Ordered ps) :
    b.Anchors (Method.anchor b.code.offsetTable ps) := by
  have hinstructions : (Method.anchor b.code.offsetTable ps).map SequencePoint.instruction =
      ps.filterMap fun p => b.code.offsetTable[p.offset]? := by
    unfold Method.anchor
    rw [List.map_filterMap]
    refine List.filterMap_congr fun p _ => ?_
    rw [Option.map_map]
    exact Option.map_id'
  have hindices : ((ps.filterMap fun p => b.code.offsetTable[p.offset]?).map InstrId.index).Sublist
      (List.range b.code.arena.size) := by
    refine sublist_range ?_ ?_
    · rw [List.pairwise_map, List.pairwise_filterMap]
      exact hps.increasing.imp fun hlt x hx y hy => index_lt_of_offset_lt hb.code hx hy hlt
    · intro k hk
      obtain ⟨id, hid, rfl⟩ := List.mem_map.mp hk
      obtain ⟨p, _, hp⟩ := List.mem_filterMap.mp hid
      obtain ⟨i, hi, _⟩ := InstructionStream.offsetTable_sound hp
      exact (InstructionStream.get?_eq_some.mp (InstructionStream.mem_entries.mp hi).2).1
  have := hindices.map InstrId.mk
  rw [List.map_map, ← hb.code.ids_eq, List.map_id'' (f := InstrId.mk ∘ InstrId.index) fun _ => rfl] at this
  unfold Anchors
  rwa [hinstructions]

/-! ## Writing -/

/-- A point at the offset of its instruction. -/
def offsetPoint (b : MethodBody) (p : SequencePoint) : OffsetPoint where
  offset := UInt32.ofNat (b.code.startAt (b.code.place p.instruction).index)
  span := p.span

theorem offsetPoints_ok {m : Method} {code : EncodedCode} {ps : List OffsetPoint} (hb : b.WellFormed)
    (hcode : b.code.EncodedAs code) (hpoints : b.Anchors m.points) (h : Image.offsetPoints m code.starts = .ok ps) :
    ps = m.points.map b.offsetPoint := by
  obtain ⟨found, hfound, h⟩ := bind_ok.mp h
  cases h
  have hmem (p : SequencePoint) (hp : p ∈ m.points) : p.instruction ∈ b.code.ids :=
    hpoints.subset (List.mem_map_of_mem hp)
  have hmap : m.points.map b.offsetPoint = found := by
    refine (map_eq_of_forall₂ (g := id) (forall₂_of_mapM hfound) fun p hp q hq => ?_).trans (List.map_id _)
    have hstart := (hcode.starts_eq_some hb.code).mpr ⟨hmem p hp, rfl⟩
    rw [hstart] at hq
    cases hq
    rfl
  rw [hmap]
  refine Image.inOrder_of_pairwise ?_
  have hplaces := hb.code.pairwise_place.sublist hpoints
  rw [List.pairwise_map] at hplaces
  rw [← hmap, List.pairwise_map]
  refine hplaces.imp_of_mem fun {p q} hp hq hlt => ?_
  have hbound (r : SequencePoint) (hr : r ∈ m.points) : (b.code.place r.instruction).index < b.code.ids.length :=
    List.idxOf_lt_length_iff.mpr (hmem r hr)
  unfold offsetPoint
  rw [UInt32.lt_iff_toNat_lt, toNat_word (hcode.startAt_lt _ (hbound p hp)), toNat_word (hcode.startAt_lt _ (hbound q hq))]
  exact InstructionStream.startAt_lt_startAt hlt (hb.code.length_program ▸ Nat.le_of_lt (hbound q hq))

theorem anchor_offsetPoints {code : EncodedCode} (hb : b.WellFormed) (hcode : b.code.EncodedAs code)
    (hpoints : b.Anchors points) :
    Method.anchor b.written.code.offsetTable (points.map b.offsetPoint) = b.placePoints points := by
  unfold Method.anchor placePoints
  rw [List.filterMap_map, ← List.filterMap_eq_map]
  refine List.filterMap_congr fun p hp => ?_
  have hmem : p.instruction ∈ b.code.ids := hpoints.subset (List.mem_map_of_mem hp)
  have hstart := (hcode.starts_eq_some hb.code).mpr ⟨hmem, rfl⟩
  have hoffset (k : Nat) (i : Instruction) (hi : b.code.written.arena[k]? = some i) :
      i.offset = some (UInt32.ofNat (b.code.startAt k)) := by
    rw [InstructionStream.written_getElem?, Option.map_eq_some_iff] at hi
    obtain ⟨_, _, rfl⟩ := hi
    rfl
  have hlookup := (hcode.lookup_start hb.code (InstructionStream.size_written hb.code) hoffset hstart).2
  show (b.code.written.offsetTable[UInt32.ofNat (b.code.startAt (b.code.ids.idxOf p.instruction))]?).map _ = _
  rw [show b.code.written.offsetTable = (InstructionStream.ofArray b.code.written.arena).offsetTable from rfl, hlookup]
  rfl

end MethodBody

end CilProbes

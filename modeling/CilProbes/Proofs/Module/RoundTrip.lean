import CilProbes.Proofs.Module.Debug
import CilProbes.Proofs.Module.WellFormed

/-!
# Reading back modules with debug information

A well-formed module that is written is read again with all its points (`Module.attached_encode`): each is at the same
place of the program as before.
-/

namespace CilProbes

namespace Method

/-- The method as it is read from the files of its module: its points are at the places of their instructions. -/
def reread (m : Method) : Method :=
  { m.written with points := (m.body.map fun b => b.placePoints m.points).getD [] }

variable {m m' : Method} {documents : Nat} {points : List OffsetPoint}

theorem reread_of_points (h : m.points = []) : m.reread = m.written := by
  unfold reread written
  rw [h]
  cases m.body <;> rfl

/-- The points that are written for a method have its spans. -/
theorem Anchored.map_span (hm : m.Anchored documents) (h : Image.PointsOf m points) :
    points.map OffsetPoint.span = m.points.map SequencePoint.span := by
  rcases h with ⟨hnone, rfl⟩ | ⟨b, code, hb, hwf, hcode, hpoints⟩
  · rw [hm.bare hnone]
    rfl
  · rw [MethodBody.offsetPoints_ok hwf hcode (hm.anchors b hb) hpoints, List.map_map]
    rfl

/-- The points that are written for a method are found at the places of their instructions. -/
theorem Anchored.withAnchored_written (hm : m.Anchored documents) (h : Image.PointsOf m points) :
    m.written.withAnchored points = m.reread := by
  rcases h with ⟨hnone, rfl⟩ | ⟨b, code, hb, hwf, hcode, hpoints⟩
  · unfold withAnchored reread written
    rw [hnone]
    rfl
  · have hanchors := hm.anchors b hb
    have hpoints := MethodBody.offsetPoints_ok hwf hcode hanchors hpoints
    have hanchor := MethodBody.anchor_offsetPoints hwf hcode hanchors
    rw [← hpoints] at hanchor
    unfold withAnchored reread written
    rw [hb]
    exact congrArg (fun points => ({ m with body := some b.written, points } : Method)) hanchor

end Method

namespace Module

/-- The module as it is read from its files; a method that no token has room for loses its points. -/
def reread (m : Module) : Module :=
  m.withMethods (m.methods.mapIdx fun i method => if i + 1 < 2 ^ 24 then method.reread else method.written)

variable {m m' : Module} {images : List Image.MethodImage} {documents : List String}

/-- The method at row `2 ^ 24` is the only one that may lose points: those behind it have none. -/
theorem WellFormed.reread_eq (hm : m.WellFormed) : m.reread =
    m.withMethods (m.methods.mapIdx fun i method => if i + 1 = 2 ^ 24 then method.written else method.reread) := by
  unfold reread
  congr 1
  refine List.ext_getElem (by rw [List.length_mapIdx, List.length_mapIdx]) fun i hi _ => ?_
  rw [List.length_mapIdx] at hi
  rw [List.getElem_mapIdx, List.getElem_mapIdx]
  rcases Nat.lt_trichotomy (i + 1) (2 ^ 24) with hlt | heq | hgt
  · rw [if_pos hlt, if_neg (Nat.ne_of_lt hlt)]
  · rw [if_neg (Nat.not_lt_of_ge (Nat.le_of_eq heq.symm)), if_pos heq]
  · rw [if_neg (Nat.not_lt_of_gt hgt), if_neg (Nat.ne_of_gt hgt)]
    have hrow : m.pointRows ≤ i := Nat.le_trans m.pointRows_le (Nat.le_of_lt_succ hgt)
    exact (Method.reread_of_points (hm.rows i _ (List.getElem?_eq_getElem hi) hrow)).symm

theorem length_reread (m : Module) : m.reread.methods.length = m.methods.length := by
  unfold reread
  rw [methods_withMethods (List.length_mapIdx ..), List.length_mapIdx]

theorem points_reread_last {method : Method} (h : m.methods[2 ^ 24 - 1]? = some method) :
    ∃ read, m.reread.methods[2 ^ 24 - 1]? = some read ∧ read.points = [] := by
  refine ⟨method.written, ?_, rfl⟩
  unfold reread
  rw [methods_withMethods (List.length_mapIdx ..), List.getElem?_mapIdx, h]
  exact congrArg some (if_neg (by decide))

theorem mem_records {r : MethodRecord} (h : r ∈ Image.records images) : ∃ image ∈ images, r.points = image.points := by
  obtain ⟨h, _⟩ := List.mem_filter.mp h
  obtain ⟨i, hi, rfl⟩ := List.mem_mapIdx.mp h
  exact ⟨_, List.getElem_mem hi, rfl⟩

/-- The symbol file of a module is well formed. -/
theorem WellFormed.symbols (hm : m.WellFormed) (hdocuments : m.documents = some documents)
    (himages : List.Forall₂ (fun method image => Image.PointsOf method image.points) m.methods images) :
    SymbolFile.WellFormed { documents, methods := Image.records images } := by
  have hrecord (r : MethodRecord) (hr : r ∈ Image.records images) (p : OffsetPoint) (hp : p ∈ r.points) :
      p.span.WellFormed ∧ p.span.document.toNat < documents.length := by
    obtain ⟨image, himage, hpoints⟩ := mem_records hr
    obtain ⟨method, hmethod, hof⟩ := exists_of_mem_right himages image himage
    have hanchored := hm.anchored method hmethod
    rw [hdocuments] at hanchored
    have hspan : p.span ∈ method.points.map SequencePoint.span := by
      rw [← hanchored.map_span hof, ← hpoints]
      exact List.mem_map_of_mem hp
    obtain ⟨q, hq, hsame⟩ := List.mem_map.mp hspan
    exact hsame ▸ ⟨hanchored.spans q hq, hanchored.inside q hq⟩
  exact ⟨hm.documents documents hdocuments, fun r hr p hp => (hrecord r hr p hp).1, fun r hr p hp => (hrecord r hr p hp).2⟩

/-- The methods get their points back from the records. -/
theorem WellFormed.attached_written (hm : m.WellFormed) (hdocuments : m.documents = some documents)
    (himages : List.Forall₂ (fun method image => Image.PointsOf method image.points) m.methods images) :
    m.written.attached { documents, methods := Image.records images } = m.reread := by
  have hwritten : m.written.methods = m.methods.map Method.written := methods_withMethods (List.length_map ..)
  have hrows (i : Nat) (image : Image.MethodImage) (himage : images[i]? = some image) (hi : 2 ^ 24 ≤ i) :
      image.points = [] := by
    obtain ⟨method, hmethod, hof⟩ := exists_getElem?_of_forall₂ himages himage
    have hspans := (hm.anchored method (List.mem_of_getElem? hmethod)).map_span hof
    rw [hm.rows i method hmethod (Nat.le_trans m.pointRows_le hi)] at hspans
    exact List.map_eq_nil_iff.mp hspans
  have hrecords : (Image.records images).foldl Method.attach (m.methods.map Method.written) =
      m.methods.mapIdx fun i method => if i + 1 < 2 ^ 24 then method.reread else method.written := by
    have hfresh : ∀ method ∈ m.methods.map Method.written, method.points = [] :=
      List.forall_mem_map.mpr fun _ _ => rfl
    have hlen : (m.methods.map Method.written).length = images.length := by rw [List.length_map, himages.length_eq]
    rw [Method.foldl_attach_records hfresh hlen hrows]
    refine List.ext_getElem (by simp [himages.length_eq]) fun i hi hi' => ?_
    rw [List.length_mapIdx] at hi'
    rw [List.getElem_mapIdx, List.getElem_mapIdx, List.getElem_zip, List.getElem_map]
    unfold Method.recorded
    split
    · have hof := himages.get hi' (himages.length_eq ▸ hi')
      exact (hm.anchored _ (List.getElem_mem hi')).withAnchored_written hof
    · rfl
  have hfill (methods : List Method) : (m.withMethods (m.methods.map Method.written)).withMethods methods =
      m.withMethods methods := withMethods_withMethods (List.length_map ..)
  unfold attached reread
  rw [hwritten]
  dsimp only
  rw [hrecords, ← hdocuments, ← hfill]
  rfl

/-- A well-formed module that is written is read with its points from its files. -/
theorem attached_encode {files : Image.Files} (hm : m.WellFormed) (hdocuments : m.documents = some documents)
    (h : m.encode = .ok files m') : m.Widened m' ∧ parse files.image = .ok m'.written ∧
      ∃ symbols file, files.symbols = some symbols ∧ SymbolFile.parse symbols = .ok file ∧ file.WellFormed ∧
        m'.written.attached file = m'.reread := by
  obtain ⟨hwidened, hparse, images, himages, hsymbols⟩ := parse_encode hm.toReadable h
  have hm' := hwidened.wellFormed hm
  have hdocuments' : m'.documents = some documents := by
    rw [hwidened.rest]
    exact hdocuments
  rw [hdocuments'] at hsymbols
  obtain ⟨symbols, hencode, hsymbols⟩ := map_ok.mp hsymbols
  have hfile := hm'.symbols hdocuments' himages
  exact ⟨hwidened, hparse, symbols, _, hsymbols.symm, SymbolFile.parse_encode hfile hencode, hfile,
    hm'.attached_written hdocuments' himages⟩

end Module

end CilProbes

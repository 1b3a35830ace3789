import CilProbes.Proofs.Module.Attaching
import CilProbes.Proofs.Module.Loading
import CilProbes.Proofs.Module.RoundTrip
import CilProbes.Proofs.Symbols.Refused
import Mathlib.Algebra.Order.BigOperators.Group.List

/-!
# Attaching more than once

The documents of a module are those of the symbol file that was attached last, but a method that this file has no record
of keeps the points of an earlier one. What is then written is read again just if these points lie in the documents
(`Module.reread_reattached`).
-/

namespace CilProbes

/-! ## Points that are written -/

theorem Image.forall_records {P : SourceSpan → Prop} (images : List MethodImage) :
    (∀ r ∈ records images, ∀ p ∈ r.points, P p.span) ↔ ∀ image ∈ images, ∀ p ∈ image.points, P p.span := by
  constructor
  · intro h image himage p hp
    obtain ⟨i, hi, rfl⟩ := List.getElem_of_mem himage
    have hrecord : (⟨.atIndex .methodDef i, images[i].points⟩ : MethodRecord) ∈ records images := by
      unfold records
      rw [List.mem_filter]
      refine ⟨List.mem_mapIdx.mpr ⟨i, hi, rfl⟩, ?_⟩
      rw [Bool.not_eq_true', List.isEmpty_eq_false_iff]
      exact List.ne_nil_of_mem hp
    exact h _ hrecord p hp
  · intro h r hr p hp
    obtain ⟨image, himage, hpoints⟩ := Module.mem_records hr
    exact h image himage p (hpoints ▸ hp)

namespace Module

variable {m m' fresh : Module} {files : List SymbolFile} {file : SymbolFile} {n : Nat} {log log' : Log}

/-- The points in the records of a module are in the places of those of its methods. -/
theorem forall_image_points {P : SourceSpan → Prop} {methods : List Method} {images : List Image.MethodImage}
    (hanchored : ∀ method ∈ methods, method.Anchored n)
    (himages : List.Forall₂ (fun method image => Image.PointsOf method image.points) methods images) :
    (∀ image ∈ images, ∀ p ∈ image.points, P p.span) ↔ ∀ method ∈ methods, ∀ p ∈ method.points, P p.span := by
  have hspans : methods.map (fun method => method.points.map SequencePoint.span) =
      images.map fun image => image.points.map OffsetPoint.span :=
    map_eq_of_forall₂ himages fun method hmethod image hof => ((hanchored method hmethod).map_span hof).symm
  have hall := congrArg (fun spans => ∀ places ∈ spans, ∀ s ∈ places, P s) hspans
  simp only [List.forall_mem_map] at hall
  exact (Eq.to_iff hall).symm

/-- The symbol file of a module is read just if all points of the module lie in its documents. -/
theorem parse_symbols_iff {documents : List String} {written : Image.Files} {symbols : List UInt8} (hm : m.Readable)
    (hanchored : ∀ method ∈ m.methods, method.Anchored n) (hdocuments : m.documents = some documents)
    (hwritable : ∀ document ∈ documents, Field.Writable document) (h : m.encode = .ok written m')
    (hsymbols : written.symbols = some symbols) :
    (∃ file, SymbolFile.parse symbols = .ok file) ↔
      ∀ method ∈ m.methods, ∀ p ∈ method.points, p.span.document.toNat < documents.length := by
  obtain ⟨hwidened, -, images, himages, hencode⟩ := parse_encode hm h
  have hdocuments' : m'.documents = some documents := by
    rw [hwidened.rest]
    exact hdocuments
  rw [hdocuments', hsymbols] at hencode
  obtain ⟨bytes, hencode, hbytes⟩ := map_ok.mp hencode
  cases hbytes
  have hextends : List.Forall₂ (fun a b => Method.Extends b a) m.methods m'.methods :=
    forall₂_imp_mem hwidened.methods fun method hmethod _ hwidened => hwidened.extends (hm.methods method hmethod)
  have hanchored' : ∀ method ∈ m'.methods, method.Anchored n := fun method hmethod => by
    obtain ⟨old, hold, hextends⟩ := exists_of_mem_right hextends method hmethod
    exact hextends.anchored (hanchored old hold)
  have hpoints : m.methods.map Method.points = m'.methods.map Method.points :=
    map_eq_of_forall₂ hextends fun _ _ _ hab => hab.points_eq.symm
  have hspans (P : SourceSpan → Prop) : (∀ r ∈ Image.records images, ∀ p ∈ r.points, P p.span) ↔
      ∀ method ∈ m.methods, ∀ p ∈ method.points, P p.span := by
    have hall := congrArg (fun points => ∀ ps ∈ points, ∀ p ∈ ps, P p.span) hpoints
    simp only [List.forall_mem_map] at hall
    rw [Image.forall_records, forall_image_points hanchored' himages, hall]
  rw [SymbolFile.parse_encode_iff hwritable ((hspans SourceSpan.WellFormed).mpr fun method hmethod =>
    (hanchored method hmethod).spans) hencode]
  exact hspans fun s => s.document.toNat < documents.length

/-! ## Files one after another -/

theorem eq_foldl_attached (hfiles : ∀ file ∈ files, file.WellFormed)
    (h : files.forM attach ⟨m, log⟩ = .ok () ⟨m', log'⟩) : m' = files.foldl attached m := by
  induction files generalizing m log with
  | nil =>
    cases h
    rfl
  | cons file files ih =>
    obtain ⟨hfile, hfiles⟩ := List.forall_mem_cons.mp hfiles
    obtain ⟨_, ⟨m₁, log₁⟩, hattach, h⟩ := edit_bind_ok.mp h
    cases eq_attached hfile hattach
    exact ih hfiles h

theorem Traced.foldl (hm : m.Traced n) (hfiles : ∀ file ∈ files, file.Parsed ∧ file.documents.length ≤ n) :
    (files.foldl attached m).Traced n := by
  induction files generalizing m with
  | nil => exact hm
  | cons file files ih =>
    obtain ⟨⟨hfile, hdocuments⟩, hfiles⟩ := List.forall_mem_cons.mp hfiles
    exact ih (hm.attach hfile hdocuments) hfiles

/-- A method that a file has a record of has its points in the documents of the file. -/
theorem Traced.inside_of_record (hm : m.Traced n) (hfile : file.Parsed) {i : Nat} {method : Method} {r : MethodRecord}
    (hmethod : (m.attached file).methods[i]? = some method) (hr : r ∈ file.methods)
    (htoken : r.token.index? .methodDef = some i) : ∀ p ∈ method.points, p.span.document.toNat < file.documents.length := by
  rw [methods_attached, Method.foldl_attach_eq, List.getElem?_mapIdx, Option.map_eq_some_iff] at hmethod
  obtain ⟨old, hold, rfl⟩ := hmethod
  rcases Method.given_cases file.methods i old with ⟨hnone, -⟩ | ⟨r', hr', -, hgiven⟩
  · exact absurd htoken (hnone r hr)
  · rw [hgiven]
    have hbare := (hm.loadedAt i old hold).anchored.bare
    obtain ⟨name, flags, implFlags, signature, body, points⟩ := old
    cases body with
    | none =>
      intro p hp
      have hpoints : points = [] := hbare rfl
      subst hpoints
      cases hp
    | some b =>
      intro p hp
      obtain ⟨q, hq, hp⟩ := List.mem_filterMap.mp hp
      obtain ⟨_, -, rfl⟩ := Option.map_eq_some_iff.mp hp
      exact hfile.inside r' hr' q hq

/--
Where symbol files are attached to a module that was read, one after another, what is then written is read again just if
the points of the methods that the last file has no record of lie in the documents of this file.
-/
theorem reread_reattached {image symbols : List UInt8} {earlier : List SymbolFile} {last : SymbolFile}
    {written : Image.Files} (hfresh : parse image = .ok fresh)
    (hfiles : ∀ file ∈ earlier ++ [last], ∃ data, SymbolFile.parse data = .ok file)
    (hattach : (earlier ++ [last]).forM attach ⟨fresh, log⟩ = .ok () ⟨m, log'⟩) (hencode : m.encode = .ok written m')
    (hsymbols : written.symbols = some symbols) :
    (∃ file, SymbolFile.parse symbols = .ok file) ↔ ∀ (i : Nat) (method : Method), m.methods[i]? = some method →
      (∀ r ∈ last.methods, r.token.index? .methodDef ≠ some i) →
        ∀ p ∈ method.points, p.span.document.toNat < last.documents.length := by
  have hparsed (file : SymbolFile) (hfile : file ∈ earlier ++ [last]) : file.Parsed := by
    obtain ⟨data, hdata⟩ := hfiles file hfile
    exact SymbolFile.parsed_of_parse hdata
  have hlast := hparsed last (List.mem_append_right _ List.mem_cons_self)
  -- As many documents as all files have together are enough for the points of each of them.
  obtain ⟨n, hn⟩ : ∃ n, ∀ file ∈ earlier ++ [last], file.documents.length ≤ n :=
    ⟨((earlier ++ [last]).map fun file => file.documents.length).sum, fun _ hfile =>
      List.le_sum_of_mem (List.mem_map_of_mem hfile)⟩
  have hearlier : (earlier.foldl attached fresh).Traced n := by
    refine ((parsed_of_parse hfresh).traced n).foldl fun file hfile => ?_
    exact ⟨hparsed file (List.mem_append_left _ hfile), hn file (List.mem_append_left _ hfile)⟩
  have hm := hearlier.attach hlast (hn last (List.mem_append_right _ List.mem_cons_self))
  have heq := eq_foldl_attached (fun file hfile => (hparsed file hfile).toWellFormed) hattach
  rw [List.foldl_append, List.foldl_cons, List.foldl_nil] at heq
  subst heq
  have hanchored : ∀ method ∈ ((earlier.foldl attached fresh).attached last).methods, method.Anchored n := by
    intro method hmethod
    obtain ⟨i, hi⟩ := List.mem_iff_getElem?.mp hmethod
    exact (hm.loadedAt i method hi).anchored
  rw [parse_symbols_iff hm.toReadable hanchored rfl hlast.documents hencode hsymbols]
  constructor
  · exact fun hinside i method hmethod _ => hinside method (List.mem_of_getElem? hmethod)
  · intro hkept method hmethod
    obtain ⟨i, hi⟩ := List.mem_iff_getElem?.mp hmethod
    by_cases hrecord : ∃ r ∈ last.methods, r.token.index? .methodDef = some i
    · obtain ⟨r, hr, htoken⟩ := hrecord
      exact hearlier.inside_of_record hlast hi hr htoken
    · exact hkept i method hi fun r hr htoken => hrecord ⟨r, hr, htoken⟩

/-- The document `s/d`, and a record of the first method with a point in it. -/
def recordedDocument : List UInt8 :=
  [0x43, 0x50, 0x44, 0x42, 1, 0, 1, 3, 0x73, 0x2F, 0x64, 1, 1, 0, 0, 6, 6, 1, 0, 0, 2, 1, 1]

/-- The document `s/d` without records. -/
def bareDocument : List UInt8 :=
  [0x43, 0x50, 0x44, 0x42, 1, 0, 1, 3, 0x73, 0x2F, 0x64, 0]

/-- Neither documents nor records. -/
def noDocuments : List UInt8 :=
  [0x43, 0x50, 0x44, 0x42, 1, 0, 0, 0]

/-- A point that was kept is read again if the last file has its document. -/
theorem reread_reattached_document : ∃ (fresh m m' : Module) (recorded bare : SymbolFile) (log : Log)
    (written : Image.Files) (symbols : List UInt8),
    parse twoMethodImage = .ok fresh ∧ SymbolFile.parse recordedDocument = .ok recorded ∧
    SymbolFile.parse bareDocument = .ok bare ∧ [recorded, bare].forM attach ⟨fresh, #[]⟩ = .ok () ⟨m, log⟩ ∧
    (m.methods.map fun a => a.points.length) = [1, 0] ∧ m.encode = .ok written m' ∧ written.symbols = some symbols ∧
    ∃ file, SymbolFile.parse symbols = .ok file := by
  obtain ⟨fresh, hfresh, recorded, hrecorded, bare, hbare, ⟨⟩, ⟨m, log⟩, hattach, hpoints, hkept, written, m', hencode,
      hsome⟩ : ∃ fresh, parse twoMethodImage = .ok fresh ∧ ∃ recorded, SymbolFile.parse recordedDocument = .ok recorded ∧
      ∃ bare, SymbolFile.parse bareDocument = .ok bare ∧
      ∃ a s, [recorded, bare].forM attach ⟨fresh, #[]⟩ = .ok a s ∧
        (s.value.methods.map fun a => a.points.length) = [1, 0] ∧
        (∀ method ∈ s.value.methods, ∀ p ∈ method.points, p.span.document.toNat < bare.documents.length) ∧
        ∃ written m', s.value.encode = .ok written m' ∧ written.symbols ≠ none := by
    decide +kernel
  obtain ⟨symbols, hsymbols⟩ := Option.ne_none_iff_exists'.mp hsome
  refine ⟨fresh, m, m', recorded, bare, log, written, symbols, hfresh, hrecorded, hbare, hattach, hpoints, hencode,
    hsymbols, ?_⟩
  have hattached : ([recorded] ++ [bare]).forM attach ⟨fresh, #[]⟩ = .ok () ⟨m, log⟩ := hattach
  refine (reread_reattached hfresh ?_ hattached hencode hsymbols).mpr fun i method hmethod _ =>
    hkept method (List.mem_of_getElem? hmethod)
  exact List.forall_mem_cons.mpr ⟨⟨_, hrecorded⟩, List.forall_mem_cons.mpr ⟨⟨_, hbare⟩, nofun⟩⟩

/-- Where the last file lacks the document of a point that was kept, what is written is not read again. -/
theorem reattached_not_reread : ∃ (fresh m m' : Module) (recorded bare : SymbolFile) (log : Log)
    (written : Image.Files) (symbols : List UInt8),
    parse twoMethodImage = .ok fresh ∧ SymbolFile.parse recordedDocument = .ok recorded ∧
    SymbolFile.parse noDocuments = .ok bare ∧ [recorded, bare].forM attach ⟨fresh, #[]⟩ = .ok () ⟨m, log⟩ ∧
    m.encode = .ok written m' ∧ written.symbols = some symbols ∧
    SymbolFile.parse symbols = .error (.malformed (.recordDocument ⟨0x06000001⟩ 0)) := by
  obtain ⟨fresh, hfresh, recorded, hrecorded, bare, hbare, ⟨⟩, ⟨m, log⟩, hattach, written, m', hencode, hsome, hfault⟩ :
      ∃ fresh, parse twoMethodImage = .ok fresh ∧ ∃ recorded, SymbolFile.parse recordedDocument = .ok recorded ∧
      ∃ bare, SymbolFile.parse noDocuments = .ok bare ∧
      ∃ a s, [recorded, bare].forM attach ⟨fresh, #[]⟩ = .ok a s ∧
        ∃ written m', s.value.encode = .ok written m' ∧ written.symbols ≠ none ∧
          ∀ symbols ∈ written.symbols,
            SymbolFile.parse symbols = .error (.malformed (.recordDocument ⟨0x06000001⟩ 0)) := by
    decide +kernel
  obtain ⟨symbols, hsymbols⟩ := Option.ne_none_iff_exists'.mp hsome
  exact ⟨fresh, m, m', recorded, bare, log, written, symbols, hfresh, hrecorded, hbare, hattach, hencode, hsymbols,
    hfault symbols hsymbols⟩

end Module

end CilProbes

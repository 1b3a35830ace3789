import CilProbes.Proofs.Body.Parsing
import CilProbes.Proofs.Module.Writing
import CilProbes.Proofs.Symbols.File
import Mathlib.Data.Option.Basic

/-!
# Reading back module images

A readable module that is written is read as the same tree of types with its methods as they were written
(`Module.parse_encode`). Every module that is read is readable (`Module.parsed_of_parse`).
-/

namespace CilProbes

open Reader (Reads)

/-! ## Methods -/

namespace Method

/-- The method as it is read from its image; its points are in another file. -/
def written (m : Method) : Method :=
  { m with body := m.body.map MethodBody.written, points := [] }

/-- The name fits in its field, and the body is well formed. -/
structure Readable (m : Method) : Prop where
  name : Field.Writable m.name
  body : ∀ b ∈ m.body, b.WellFormed

/-- The same method, but for short branches that have become long. -/
structure Widened (m m' : Method) : Prop where
  body : Option.Rel MethodBody.Widened m.body m'.body
  rest : m' = { m with body := m'.body }

variable {m m' : Method}

theorem Widened.exists_body {b' : MethodBody} (h : m.Widened m') (hb' : m'.body = some b') :
    ∃ b, m.body = some b ∧ b.Widened b' := by
  have hbody := h.body
  rw [hb'] at hbody
  generalize m.body = body at hbody
  cases hbody with
  | some hwidened => exact ⟨_, rfl, hwidened⟩

theorem Widened.body_eq_none (h : m.Widened m') (hb' : m'.body = none) : m.body = none := by
  have hbody := h.body
  rw [hb'] at hbody
  generalize m.body = body at hbody
  cases hbody
  rfl

theorem Widened.points_eq (h : m.Widened m') : m'.points = m.points :=
  (congrArg points h.rest :)

theorem Widened.readable (h : m.Widened m') (hm : m.Readable) : m'.Readable where
  name := by
    rw [h.rest]
    exact hm.name
  body b' hb' := by
    obtain ⟨b, hb, hwidened⟩ := h.exists_body hb'
    exact hwidened.wellFormed (hm.body b hb)

end Method

namespace Image

variable {m m' : Method} {image : MethodImage} {header : List UInt8}

theorem reads_header {body : Option MethodBody} {bytes : List UInt8} (hname : Field.Writable m.name)
    (hheader : methodHeader m = .ok header) (hbody : Reads (readBody m.name) bytes body) :
    Reads readMethod (header ++ bytes) { m with body, points := [] } := by
  obtain ⟨signature, hsignature, h⟩ := bind_ok.mp hheader
  cases h
  simp only [List.append_assoc]
  refine (Reader.reads_uint16 m.flags).bind ((Reader.reads_uint16 m.implFlags).bind ?_)
  refine (Reader.reads_string hname).bind ((Reader.reads_blob hsignature).bind ?_)
  exact hbody.bind_pure

/-- A method without body, as it is read. -/
theorem reads_bare (hname : Field.Writable m.name) (hheader : methodHeader m = .ok header) (hbody : m.body = none) :
    Reads readMethod (header ++ [0]) m.written := by
  have hwritten : m.written = { m with body := none, points := [] } := by
    unfold Method.written
    rw [hbody]
    rfl
  rw [hwritten]
  exact reads_header hname hheader (Reads.byte_bind (Reads.pure none))

/-- A method with a body, as it is read. -/
theorem reads_full {bytes blob : List UInt8} {b : MethodBody} (hname : Field.Writable m.name)
    (hheader : methodHeader m = .ok header) (hblob : Field.blob bytes = .ok blob)
    (hparse : MethodBody.parse bytes = .ok b) :
    Reads readMethod (header ++ 1 :: blob) { m with body := some b, points := [] } := by
  refine reads_header hname hheader (Reads.byte_bind ?_)
  exact (Reader.reads_blob hblob).bind_nil ((Reader.reads_ofExcept hparse).bind_pure)

/-- What the points of a written method were made from. -/
def PointsOf (m : Method) (points : List OffsetPoint) : Prop :=
  m.body = none ∧ points = [] ∨
    ∃ b code, m.body = some b ∧ b.WellFormed ∧ b.code.EncodedAs code ∧ offsetPoints m code.starts = .ok points

/-- What a method without body is written as, and what one with a body is. -/
theorem encodeMethod_eq_ok : encodeMethod m = .ok image m' ↔ ∃ header, methodHeader m = .ok header ∧
    (m.body = none ∧ image = ⟨header ++ [0], []⟩ ∧ m' = m ∨
      ∃ b e b', m.body = some b ∧ b.encode = .ok e b' ∧ m' = { m with body := some b' } ∧
        methodImage m' header e = .ok image) := by
  unfold encodeMethod
  constructor
  · intro h
    cases hheader : methodHeader m with
    | error fault => rw [hheader] at h; cases h
    | ok header =>
      rw [hheader] at h
      dsimp only at h
      refine ⟨header, rfl, ?_⟩
      cases hbody : m.body with
      | none =>
        rw [hbody] at h
        cases h
        exact .inl ⟨rfl, rfl, rfl⟩
      | some b =>
        rw [hbody] at h
        dsimp only at h
        cases hencode : MethodBody.encode b with
        | error fault b' => rw [hencode] at h; cases h
        | ok e b' =>
          rw [hencode] at h
          dsimp only at h
          cases himage : methodImage { m with body := some b' } header e with
          | error fault => rw [himage] at h; cases h
          | ok found =>
            rw [himage] at h
            cases h
            exact .inr ⟨b, e, b', rfl, hencode, rfl, himage⟩
  · rintro ⟨header, hheader, ⟨hbody, rfl, rfl⟩ | ⟨b, e, b', hbody, hencode, rfl, himage⟩⟩
    · rw [hheader, hbody]
    · rw [hheader, hbody]
      dsimp only
      rw [hencode]
      dsimp only
      rw [himage]

theorem encodeMethod_ok (hm : m.Readable) (h : encodeMethod m = .ok image m') :
    m.Widened m' ∧ Reads readMethod image.bytes m'.written ∧ PointsOf m' image.points := by
  obtain ⟨header, hheader, ⟨hbody, rfl, rfl⟩ | ⟨b, e, b', hbody, hencode, rfl, himage⟩⟩ := encodeMethod_eq_ok.mp h
  · refine ⟨⟨by rw [hbody]; exact .none, rfl⟩, reads_bare hm.name hheader hbody, .inl ⟨hbody, rfl⟩⟩
  · have hb := hm.body b hbody
    obtain ⟨hwidened, hparse, code, hcode, hstarts⟩ := MethodBody.parse_encode hb hencode
    obtain ⟨blob, hblob, himage⟩ := bind_ok.mp himage
    obtain ⟨points, hpoints, himage⟩ := bind_ok.mp himage
    cases himage
    refine ⟨⟨by rw [hbody]; exact .some hwidened, rfl⟩, ?_, .inr ⟨b', code, rfl, hwidened.wellFormed hb, hcode, ?_⟩⟩
    · exact reads_full hm.name hheader hblob hparse
    · rw [← hstarts]
      exact hpoints

/-- What is written for a method is read as a method with the same fields, but for its body and its points. -/
theorem exists_reads_method (hname : Field.Writable m.name) (hbody : ∀ b ∈ m.body, b.Writable)
    (h : encodeMethod m = .ok image m') : ∃ body, Reads readMethod image.bytes { m with body, points := [] } := by
  obtain ⟨header, hheader, ⟨hnone, rfl, rfl⟩ | ⟨b, e, b', hb, hencode, rfl, himage⟩⟩ := encodeMethod_eq_ok.mp h
  · exact ⟨_, reads_bare hname hheader hnone⟩
  · have hwritable := hbody b hb
    obtain ⟨hwidened, code, hcode, hassemble⟩ := MethodBody.encode_ok hwritable.code hencode
    obtain ⟨blob, hblob, himage⟩ := bind_ok.mp himage
    obtain ⟨points, -, himage⟩ := bind_ok.mp himage
    cases himage
    have hparse := MethodBody.parse_assemble_typed (hwidened.writable hwritable) hcode hassemble
    exact ⟨_, reads_full hname hheader hblob hparse⟩

end Image

/-! ## Types -/

namespace TypeDef

/-- The type can be read where types may lie `levels - 1` deep. -/
inductive Readable : (levels : Nat) → TypeDef → Prop
  | mk {levels : Nat} {flags : UInt32} {space name : String} {methods : List Method} {nested : List TypeDef} :
    Field.Writable space → Field.Writable name → (∀ t ∈ nested, Readable levels t) →
      Readable (levels + 1) ⟨flags, space, name, methods, nested⟩

variable {levels : Nat} {t : TypeDef} {ts : List TypeDef}

/-- What holds of every filled type of a list. -/
theorem forall_mem_fillAll {P : TypeDef → Prop} (h : ∀ t ∈ ts, ∀ given, P (fill t given).1) (given : List Method) :
    ∀ t ∈ (fillAll ts given).1, P t := by
  induction ts generalizing given with
  | nil => exact fun _ ht => absurd ht List.not_mem_nil
  | cons t ts ih =>
    have hrest := ih (fun u hu => h u (List.mem_cons_of_mem t hu)) (fill t given).2
    exact List.forall_mem_cons.mpr ⟨h t List.mem_cons_self given, hrest⟩

theorem Readable.fill (h : t.Readable levels) (given : List Method) : (fill t given).1.Readable levels := by
  induction h generalizing given with
  | mk hspace hname _ ih => exact .mk hspace hname (forall_mem_fillAll ih _)

end TypeDef

namespace Image

open TypeDef (fill fillAll methodsOf)

variable {levels : Nat} {ts : List TypeDef} {pieces left : List (List UInt8)} {values : List Method}
  {bytes : List UInt8}

/-- A type is read as filled with the methods that are read; the bytes of further methods are left over. -/
def ReadsFilled (levels : Nat) (t : TypeDef) : Prop :=
  ∀ (pieces : List (List UInt8)) (values : List Method) (bytes : List UInt8) (left : List (List UInt8)),
    List.Forall₂ (Reads readMethod) pieces values → t.allMethods.length ≤ values.length →
      typeBytes t pieces = .ok (bytes, left) →
        Reads (readType levels) bytes (fill t values).1 ∧ List.Forall₂ (Reads readMethod) left (fill t values).2

theorem readsFilled_all (hts : ∀ t ∈ ts, ReadsFilled levels t) (hvalues : List.Forall₂ (Reads readMethod) pieces values)
    (hlen : (methodsOf ts).length ≤ values.length) (h : typesBytes ts pieces = .ok (bytes, left)) :
    (∃ parts, bytes = parts.flatten ∧ List.Forall₂ (Reads (readType levels)) parts (fillAll ts values).1) ∧
      List.Forall₂ (Reads readMethod) left (fillAll ts values).2 := by
  induction ts generalizing pieces values bytes left with
  | nil =>
    cases h
    exact ⟨⟨[], rfl, .nil⟩, hvalues⟩
  | cons t ts ih =>
    rw [typesBytes] at h
    obtain ⟨⟨first, middle⟩, hfirst, h⟩ := bind_ok.mp h
    obtain ⟨⟨others, last⟩, hothers, h⟩ := bind_ok.mp h
    cases h
    rw [TypeDef.methodsOf, List.length_append] at hlen
    obtain ⟨hread, hmiddle⟩ := hts t List.mem_cons_self pieces values first middle hvalues (by omega) hfirst
    have hrest := (TypeDef.fill_methods t values (by omega)).2
    obtain ⟨⟨parts, rfl, hparts⟩, hlast⟩ := ih (fun u hu => hts u (List.mem_cons_of_mem t hu)) hmiddle
      (by rw [hrest, List.length_drop]; omega) hothers
    exact ⟨⟨first :: parts, rfl, .cons hread hparts⟩, hlast⟩

theorem readsFilled {t : TypeDef} (ht : t.Readable levels) : ReadsFilled levels t := by
  induction ht with
  | @mk levels flags space name methods nested hspace hname _ ih =>
    intro pieces values bytes left hvalues hlen h
    rw [typeBytes] at h
    obtain ⟨methodCount, hmethodCount, h⟩ := bind_ok.mp h
    obtain ⟨nestedCount, hnestedCount, h⟩ := bind_ok.mp h
    obtain ⟨⟨inner, last⟩, hinner, h⟩ := bind_ok.mp h
    cases h
    rw [TypeDef.allMethods, List.length_append] at hlen
    have hown : (values.take methods.length).length = methods.length := by rw [List.length_take]; omega
    obtain ⟨⟨parts, rfl, hparts⟩, hlast⟩ := readsFilled_all ih (List.forall₂_drop methods.length hvalues)
      (by rw [List.length_drop]; omega) hinner
    refine ⟨?_, hlast⟩
    simp only [List.append_assoc]
    rw [fill, readType]
    refine (Reader.reads_uint32 flags).bind ((Reader.reads_string hspace).bind ((Reader.reads_string hname).bind ?_))
    rw [← hown] at hmethodCount
    rw [← length_fillAll nested (values.drop methods.length)] at hnestedCount
    rw [← List.append_assoc]
    refine (Reader.reads_list hmethodCount (List.forall₂_take methods.length hvalues)).bind ?_
    exact (Reader.reads_list hnestedCount hparts).bind_pure

end Image

/-! ## Modules -/

/-- Reads an image in which types may lie `levels - 1` deep. -/
def Image.readerWithin (levels : Nat) : Reader Module := do
  let found ← Reader.uint32
  if found ≠ magic then Reader.fail (.imageMagic found)
  let major ← Reader.uint16
  let _minor ← Reader.uint16
  if major ≠ majorVersion then Reader.fail (.imageVersion major)
  let name ← Reader.string
  let attributes ← Reader.list Reader.string
  let memberRefs ← Reader.list readMember
  let userStrings ← Reader.list Reader.string
  let types ← Reader.list (readType levels)
  let left ← Reader.remaining
  if left ≠ 0 then Reader.fail (.trailingBytes left)
  return { name, attributes, memberRefs, userStrings, types }

theorem Module.parse_eq (data : List UInt8) : parse data = (Image.readerWithin (Image.maxNesting + 1)).run data :=
  rfl

/-- Every text of the member fits in its field. -/
structure MemberRef.Readable (m : MemberRef) : Prop where
  scope : Field.Writable m.scope
  typeName : Field.Writable m.typeName
  name : Field.Writable m.name

theorem reads_member {r : MemberRef} {bytes : List UInt8} (hr : r.Readable) (h : Image.memberBytes r = .ok bytes) :
    Reads Image.readMember bytes r := by
  obtain ⟨signature, hsignature, h⟩ := bind_ok.mp h
  cases h
  simp only [List.append_assoc]
  refine (Reader.reads_string hr.scope).bind ((Reader.reads_string hr.typeName).bind ?_)
  exact (Reader.reads_string hr.name).bind ((Reader.reads_blob hsignature).bind_pure)

namespace Module

/-- Every text fits in its field, no type is nested too deep, and every body is well formed. -/
structure Readable (m : Module) : Prop where
  name : Field.Writable m.name
  attributes : ∀ text ∈ m.attributes, Field.Writable text
  memberRefs : ∀ r ∈ m.memberRefs, r.Readable
  userStrings : ∀ text ∈ m.userStrings, Field.Writable text
  types : ∀ t ∈ m.types, t.Readable (Image.maxNesting + 1)
  methods : ∀ method ∈ m.methods, method.Readable

/-- The module as it is read from its image; its debug information is in another file. -/
def written (m : Module) : Module :=
  { m.withMethods (m.methods.map Method.written) with documents := none }

/-- The same module, but for short branches that have become long. -/
structure Widened (m m' : Module) : Prop where
  methods : List.Forall₂ Method.Widened m.methods m'.methods
  rest : m' = m.withMethods m'.methods

variable {m m' : Module} {methods : List Method}

theorem Readable.withMethods (hm : m.Readable) (hlen : methods.length = m.methods.length)
    (h : ∀ method ∈ methods, method.Readable) : (m.withMethods methods).Readable where
  name := hm.name
  attributes := hm.attributes
  memberRefs := hm.memberRefs
  userStrings := hm.userStrings
  types := TypeDef.forall_mem_fillAll (fun t ht given => (hm.types t ht).fill given) methods
  methods := by rwa [methods_withMethods hlen]

/-- Every text fits in its field, and no type is nested too deep to be read where types may lie `levels - 1` deep. -/
structure Framed (levels : Nat) (m : Module) : Prop where
  name : Field.Writable m.name
  attributes : ∀ text ∈ m.attributes, Field.Writable text
  memberRefs : ∀ r ∈ m.memberRefs, r.Readable
  userStrings : ∀ text ∈ m.userStrings, Field.Writable text
  types : ∀ t ∈ m.types, t.Readable levels

theorem Readable.framed (hm : m.Readable) : m.Framed (Image.maxNesting + 1) :=
  ⟨hm.name, hm.attributes, hm.memberRefs, hm.userStrings, hm.types⟩

/-- What is written for a module is read with the methods that its pieces are read as. -/
theorem run_moduleBytes {levels : Nat} {pieces : List (List UInt8)} {bytes : List UInt8} (hm : m.Framed levels)
    (hpieces : List.Forall₂ (Reads Image.readMethod) pieces methods) (hlen : methods.length = m.methods.length)
    (h : Image.moduleBytes m pieces = .ok bytes) :
    (Image.readerWithin levels).run bytes = .ok { m.withMethods methods with documents := none } := by
  obtain ⟨tables, htables, h⟩ := bind_ok.mp h
  obtain ⟨⟨types, left⟩, htypes, h⟩ := bind_ok.mp h
  cases h
  obtain ⟨attributeCount, memberCount, members, stringCount, typeCount, hattributeCount, hmemberCount, hmembers,
    hstringCount, htypeCount, rfl⟩ := Image.tables_ok htables
  obtain ⟨⟨parts, rfl, hparts⟩, _⟩ := Image.readsFilled_all (fun t ht => Image.readsFilled (hm.types t ht)) hpieces
    (Nat.le_of_eq hlen.symm) htypes
  rw [← Image.length_fillAll m.types methods] at htypeCount
  have hmemberRefs : List.Forall₂ (Reads Image.readMember) members m.memberRefs :=
    (forall₂_imp_mem (forall₂_of_mapM hmembers) fun r hr _ hbytes => reads_member (hm.memberRefs r hr) hbytes).flip
  have hreads : Reader.ReadsLast (Image.readerWithin levels) (Field.uint32 Image.magic ++
      (Field.uint16 Image.majorVersion ++ (Field.uint16 Image.minorVersion ++ (Field.string m.name ++
        ((attributeCount ++ m.attributes.flatMap Field.string) ++ ((memberCount ++ members.flatten) ++
          ((stringCount ++ m.userStrings.flatMap Field.string) ++ ((typeCount ++ parts.flatten) ++ []))))))))
      { m.withMethods methods with documents := none } := by
    refine (Reader.reads_uint32 Image.magic).bind_last ?_
    rw [if_neg (not_not_intro rfl)]
    refine (Reader.reads_uint16 Image.majorVersion).bind_last ?_
    refine (Reader.reads_uint16 Image.minorVersion).bind_last ?_
    rw [if_neg (not_not_intro rfl)]
    refine (Reader.reads_string hm.name).bind_last ?_
    refine (Reader.reads_strings hattributeCount hm.attributes).bind_last ?_
    refine (Reader.reads_list hmemberCount hmemberRefs).bind_last ?_
    refine (Reader.reads_strings hstringCount hm.userStrings).bind_last ?_
    refine (Reader.reads_list htypeCount hparts).bind_last ?_
    exact Reader.readsLast_remaining rfl
  simpa only [List.append_assoc, List.append_nil] using hreads.run

theorem Framed.written {levels : Nat} (hm : m.Framed levels) : m.written.Framed levels :=
  { hm with types := TypeDef.forall_mem_fillAll (fun t ht given => (hm.types t ht).fill given) _ }

/-- The image has bytes for each method, which are read as the method, and around them those of the module. -/
def StoredIn (m : Module) (image : List UInt8) : Prop :=
  ∃ pieces, List.Forall₂ (Reads Image.readMethod) pieces m.methods ∧ Image.moduleBytes m pieces = .ok image

/-- A module is read from the image that it is stored in, if its texts fit and its types are not nested too deep. -/
theorem StoredIn.parse {image : List UInt8} (h : m.StoredIn image) (hm : m.Framed (Image.maxNesting + 1))
    (hdocuments : m.documents = none) : parse image = .ok m := by
  obtain ⟨pieces, hpieces, hbytes⟩ := h
  rw [parse_eq, run_moduleBytes hm hpieces rfl hbytes, withMethods_methods, ← hdocuments]

theorem Widened.readable (h : m.Widened m') (hm : m.Readable) : m'.Readable := by
  rw [h.rest]
  refine hm.withMethods h.methods.length_eq.symm fun method hmethod => ?_
  obtain ⟨old, hold, hwidened⟩ := exists_of_mem_right h.methods method hmethod
  exact hwidened.readable (hm.methods old hold)

/-- Of the files of a module, the image holds the bytes of every method, and the symbols hold the points. -/
theorem encode_ok {files : Image.Files} (hm : ∀ method ∈ m.methods, method.Readable) (h : m.encode = .ok files m') :
    m.Widened m' ∧ ∃ images : List Image.MethodImage,
      List.Forall₂ (fun method image => Reads Image.readMethod image.bytes method.written ∧
        Image.PointsOf method image.points) m'.methods images ∧
      Image.moduleBytes m' (images.map Image.MethodImage.bytes) = .ok files.image ∧
      (m'.documents.mapM fun documents => SymbolFile.encode { documents, methods := Image.records images }) =
        .ok files.symbols := by
  obtain ⟨images, methods, heach, rfl, hfiles⟩ := encode_eq_ok.mp h
  obtain ⟨pairs, rfl, rfl, hpairs⟩ := each_ok heach
  have hmethods : (m.withMethods (pairs.map Prod.snd)).methods = pairs.map Prod.snd :=
    methods_withMethods (by rw [List.length_map, hpairs.length_eq])
  have hall := forall₂_imp_mem hpairs fun method hmethod _ hencode => Image.encodeMethod_ok (hm method hmethod) hencode
  obtain ⟨bytes, hbytes, hfiles⟩ := bind_ok.mp hfiles
  obtain ⟨symbols, hsymbols, hfiles⟩ := bind_ok.mp hfiles
  cases hfiles
  refine ⟨⟨?_, by rw [hmethods]⟩, pairs.map Prod.fst, ?_, hbytes, hsymbols⟩
  · rw [hmethods, List.forall₂_map_right_iff]
    exact hall.imp fun _ _ h => h.1
  · rw [hmethods, List.forall₂_map_left_iff, List.forall₂_map_right_iff]
    refine List.forall₂_same.mpr fun pair hpair => ?_
    obtain ⟨_, _, hok⟩ := exists_of_mem_right hall pair hpair
    exact hok.2

/-- What is written is stored in the image, whatever its texts are. -/
theorem storedIn_encode {files : Image.Files} (hm : ∀ method ∈ m.methods, method.Readable)
    (h : m.encode = .ok files m') : m'.written.StoredIn files.image := by
  obtain ⟨-, images, himages, hbytes, -⟩ := encode_ok hm h
  have hmethods : m'.written.methods = m'.methods.map Method.written := methods_withMethods (List.length_map ..)
  refine ⟨images.map Image.MethodImage.bytes, ?_, ?_⟩
  · rw [hmethods, List.forall₂_map_left_iff, List.forall₂_map_right_iff]
    exact (himages.imp fun _ _ h => h.1).flip
  · unfold written
    rw [Image.moduleBytes_documents, Image.moduleBytes_withMethods (List.length_map ..), hbytes]

/-- A readable module that is written is read from its image, but for its points. -/
theorem parse_encode {files : Image.Files} (hm : m.Readable) (h : m.encode = .ok files m') :
    m.Widened m' ∧ parse files.image = .ok m'.written ∧ ∃ images : List Image.MethodImage,
      List.Forall₂ (fun method image => Image.PointsOf method image.points) m'.methods images ∧
        (m'.documents.mapM fun documents => SymbolFile.encode { documents, methods := Image.records images }) =
          .ok files.symbols := by
  obtain ⟨hwidened, images, himages, -, hsymbols⟩ := encode_ok hm.methods h
  have hparse := (storedIn_encode hm.methods h).parse (hwidened.readable hm).framed.written rfl
  exact ⟨hwidened, hparse, images, himages.imp fun _ _ h => h.2, hsymbols⟩

end Module

/-! ## What is read -/

/-- What reading a method gives; it has no points yet. -/
structure Method.Parsed (m : Method) : Prop where
  name : Field.Writable m.name
  body : ∀ b ∈ m.body, b.Decoded
  points : m.points = []

theorem Method.Parsed.readable {m : Method} (h : m.Parsed) : m.Readable :=
  ⟨h.name, fun b hb => (h.body b hb).wellFormed⟩

/-- What reading a module gives; it has no debug information yet. -/
structure Module.Parsed (m : Module) : Prop extends m.Readable where
  parsed : ∀ method ∈ m.methods, method.Parsed
  documents : m.documents = none

namespace Image

variable {c c' : Cursor}

theorem body_sound {method : String} {body : Option MethodBody} (h : readBody method c = .ok body c') :
    ∀ b ∈ body, b.Decoded := by
  obtain ⟨marker, c₁, hmarker, h⟩ := edit_bind_ok.mp h
  split at h
  · cases h
    exact fun b hb => by cases hb
  · obtain ⟨blob, c₂, hblob, h⟩ := edit_bind_ok.mp h
    obtain ⟨b, c₃, hb, h⟩ := edit_bind_ok.mp h
    cases h
    intro b' hb'
    cases hb'
    exact MethodBody.decoded_of_parse (ofExcept_ok hb).1
  · cases h

theorem method_sound {m : Method} (h : readMethod c = .ok m c') : m.Parsed := by
  obtain ⟨flags, c₁, hflags, h⟩ := edit_bind_ok.mp h
  obtain ⟨implFlags, c₂, himplFlags, h⟩ := edit_bind_ok.mp h
  obtain ⟨name, c₃, hname, h⟩ := edit_bind_ok.mp h
  obtain ⟨signature, c₄, hsignature, h⟩ := edit_bind_ok.mp h
  obtain ⟨body, c₅, hbody, h⟩ := edit_bind_ok.mp h
  cases h
  exact ⟨Reader.writable_of_string hname, body_sound hbody, rfl⟩

theorem type_sound {levels : Nat} {t : TypeDef} (h : readType levels c = .ok t c') :
    t.Readable levels ∧ ∀ method ∈ t.allMethods, method.Parsed := by
  induction levels generalizing t c c' with
  | zero => cases h
  | succ levels ih =>
    rw [readType] at h
    obtain ⟨flags, c₁, hflags, h⟩ := edit_bind_ok.mp h
    obtain ⟨space, c₂, hspace, h⟩ := edit_bind_ok.mp h
    obtain ⟨name, c₃, hname, h⟩ := edit_bind_ok.mp h
    obtain ⟨methods, c₄, hmethods, h⟩ := edit_bind_ok.mp h
    obtain ⟨nested, c₅, hnested, h⟩ := edit_bind_ok.mp h
    cases h
    have hinner (t : TypeDef) (ht : t ∈ nested) : t.Readable levels ∧ ∀ method ∈ t.allMethods, method.Parsed := by
      obtain ⟨c₆, c₇, hread⟩ := Reader.mem_of_list hnested t ht
      exact ih hread
    refine ⟨.mk (Reader.writable_of_string hspace) (Reader.writable_of_string hname) fun t ht => (hinner t ht).1,
      fun method hmethod => ?_⟩
    rw [TypeDef.allMethods, List.mem_append] at hmethod
    rcases hmethod with hmethod | hmethod
    · obtain ⟨c₆, c₇, hread⟩ := Reader.mem_of_list hmethods method hmethod
      exact method_sound hread
    · obtain ⟨t, ht, hmethod⟩ := TypeDef.mem_methodsOf.mp hmethod
      exact (hinner t ht).2 method hmethod

theorem member_sound {r : MemberRef} (h : readMember c = .ok r c') : r.Readable := by
  obtain ⟨scope, c₁, hscope, h⟩ := edit_bind_ok.mp h
  obtain ⟨typeName, c₂, htypeName, h⟩ := edit_bind_ok.mp h
  obtain ⟨name, c₃, hname, h⟩ := edit_bind_ok.mp h
  obtain ⟨signature, c₄, hsignature, h⟩ := edit_bind_ok.mp h
  cases h
  exact ⟨Reader.writable_of_string hscope, Reader.writable_of_string htypeName, Reader.writable_of_string hname⟩

theorem strings_sound {texts : List String} (h : Reader.list Reader.string c = .ok texts c') :
    ∀ text ∈ texts, Field.Writable text := by
  intro text htext
  obtain ⟨c₁, c₂, hread⟩ := Reader.mem_of_list h text htext
  exact Reader.writable_of_string hread

end Image

theorem Module.parsed_of_parse {data : List UInt8} {m : Module} (h : parse data = .ok m) : m.Parsed := by
  obtain ⟨c, h⟩ := Reader.run_ok h
  obtain ⟨found, c₁, hfound, h⟩ := edit_bind_ok.mp h
  split at h
  · cases h
  · obtain ⟨major, c₂, hmajor, h⟩ := edit_bind_ok.mp h
    obtain ⟨minor, c₃, hminor, h⟩ := edit_bind_ok.mp h
    split at h
    · cases h
    · obtain ⟨name, c₄, hname, h⟩ := edit_bind_ok.mp h
      obtain ⟨attributes, c₅, hattributes, h⟩ := edit_bind_ok.mp h
      obtain ⟨memberRefs, c₆, hmemberRefs, h⟩ := edit_bind_ok.mp h
      obtain ⟨userStrings, c₇, huserStrings, h⟩ := edit_bind_ok.mp h
      obtain ⟨types, c₈, htypes, h⟩ := edit_bind_ok.mp h
      obtain ⟨left, c₉, hleft, h⟩ := edit_bind_ok.mp h
      split at h
      · cases h
      · cases h
        have htype (t : TypeDef) (ht : t ∈ types) :
            t.Readable (Image.maxNesting + 1) ∧ ∀ method ∈ t.allMethods, method.Parsed := by
          obtain ⟨_, _, hread⟩ := Reader.mem_of_list htypes t ht
          exact Image.type_sound hread
        have hmethod (method : Method) (hmethod : method ∈ TypeDef.methodsOf types) : method.Parsed := by
          obtain ⟨t, ht, hmethod⟩ := TypeDef.mem_methodsOf.mp hmethod
          exact (htype t ht).2 method hmethod
        refine ⟨⟨Reader.writable_of_string hname, Image.strings_sound hattributes, fun r hr => ?_,
          Image.strings_sound huserStrings, fun t ht => (htype t ht).1, fun method h => (hmethod method h).readable⟩,
          hmethod, rfl⟩
        obtain ⟨_, _, hread⟩ := Reader.mem_of_list hmemberRefs r hr
        exact Image.member_sound hread

end CilProbes

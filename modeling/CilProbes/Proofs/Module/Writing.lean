import CilProbes.Module.Image
import CilProbes.Proofs.Module.Methods

/-!
# What modules are written as

Writing a module walks its types and writes each method where it meets it. What is written if this succeeds can be told
method by method: all methods are written one after the other, and the bytes of the types are put around theirs
(`Image.typesBytes`, `Image.encodeTypes_ok`), so the files of a module are a function of its written methods
(`Module.encode_eq_ok`).
-/

namespace CilProbes

/-- Working on the elements of two lists is working on those of the first one, and then on those of the second one. -/
theorem each_append_ok {σ α : Type} {act : Edit σ α} {ss ts ss' : List σ} {as : List α} :
    Edit.each act (ss ++ ts) = .ok as ss' ↔ ∃ as₁ ss₁ as₂ ss₂, Edit.each act ss = .ok as₁ ss₁ ∧
      Edit.each act ts = .ok as₂ ss₂ ∧ as = as₁ ++ as₂ ∧ ss' = ss₁ ++ ss₂ := by
  constructor
  · intro h
    obtain ⟨pairs, rfl, rfl, hpairs⟩ := each_ok h
    have hfirst := List.forall₂_take ss.length hpairs
    have hothers := List.forall₂_drop ss.length hpairs
    rw [List.take_left] at hfirst
    rw [List.drop_left] at hothers
    refine ⟨_, _, _, _, each_of_forall₂ hfirst, each_of_forall₂ hothers, ?_, ?_⟩
    · rw [← List.map_append, List.take_append_drop]
    · rw [← List.map_append, List.take_append_drop]
  · rintro ⟨_, _, _, _, h, h', rfl, rfl⟩
    obtain ⟨pairs, rfl, rfl, hpairs⟩ := each_ok h
    obtain ⟨pairs', rfl, rfl, hpairs'⟩ := each_ok h'
    rw [← List.map_append, ← List.map_append]
    exact each_of_forall₂ (List.rel_append hpairs hpairs')

theorem length_of_each {σ α : Type} {act : Edit σ α} {ss ss' : List σ} {as : List α} (h : Edit.each act ss = .ok as ss') :
    as.length = ss.length ∧ ss'.length = ss.length := by
  obtain ⟨pairs, rfl, rfl, hpairs⟩ := each_ok h
  exact ⟨by rw [List.length_map, hpairs.length_eq], by rw [List.length_map, hpairs.length_eq]⟩

namespace Image

open TypeDef (fill fillAll methodsOf)

/-! ## Types around their methods -/

mutual

/-- The bytes of a type, given those of its methods; the methods after them are left over. -/
def typeBytes : TypeDef → List (List UInt8) → Except Fault (List UInt8 × List (List UInt8))
  | ⟨flags, space, name, methods, nested⟩, given => do
    let methodCount ← Field.count methods.length
    let nestedCount ← Field.count nested.length
    let (inner, left) ← typesBytes nested (given.drop methods.length)
    let own := (given.take methods.length).flatten
    return (Field.uint32 flags ++ Field.string space ++ Field.string name ++ methodCount ++ own ++ nestedCount ++ inner,
      left)

/-- The bytes of some types, given those of their methods. -/
def typesBytes : List TypeDef → List (List UInt8) → Except Fault (List UInt8 × List (List UInt8))
  | [], given => return ([], given)
  | t :: ts, given => do
    let (bytes, left) ← typeBytes t given
    let (others, left) ← typesBytes ts left
    return (bytes ++ others, left)

end

theorem length_fillAll (ts : List TypeDef) (given : List Method) : (fillAll ts given).1.length = ts.length := by
  induction ts generalizing given with
  | nil => rfl
  | cons t ts ih => exact congrArg (· + 1) (ih _)

mutual

/-- The bytes of a type depend on the number of its methods only, besides the bytes of these. -/
theorem typeBytes_fill : ∀ (t : TypeDef) (given : List Method) (pieces : List (List UInt8)),
    t.allMethods.length ≤ given.length → typeBytes (fill t given).1 pieces = typeBytes t pieces
  | ⟨flags, space, name, methods, nested⟩, given, pieces, h => by
    rw [TypeDef.allMethods, List.length_append] at h
    have hown : (given.take methods.length).length = methods.length := by rw [List.length_take]; omega
    have hnested := typesBytes_fillAll nested (given.drop methods.length) (pieces.drop methods.length)
      (by rw [List.length_drop]; omega)
    rw [fill, typeBytes, typeBytes, hown, length_fillAll, hnested]

theorem typesBytes_fillAll : ∀ (ts : List TypeDef) (given : List Method) (pieces : List (List UInt8)),
    (methodsOf ts).length ≤ given.length → typesBytes (fillAll ts given).1 pieces = typesBytes ts pieces
  | [], _, _, _ => rfl
  | t :: ts, given, pieces, h => by
    rw [methodsOf, List.length_append] at h
    have hleft := (TypeDef.fill_methods t given (by omega)).2
    have hfirst := typeBytes_fill t given pieces (by omega)
    have hothers (pieces : List (List UInt8)) := typesBytes_fillAll ts (fill t given).2 pieces
      (by rw [hleft, List.length_drop]; omega)
    rw [fillAll, typesBytes, typesBytes, hfirst]
    simp only [hothers]

end

theorem tables_ok {m : Module} {bytes : List UInt8} (h : tables m = .ok bytes) :
    ∃ attributeCount memberCount members stringCount typeCount, Field.count m.attributes.length = .ok attributeCount ∧
      Field.count m.memberRefs.length = .ok memberCount ∧ m.memberRefs.mapM memberBytes = .ok members ∧
      Field.count m.userStrings.length = .ok stringCount ∧ Field.count m.types.length = .ok typeCount ∧
      bytes = Field.uint32 magic ++ Field.uint16 majorVersion ++ Field.uint16 minorVersion ++ Field.string m.name ++
        attributeCount ++ m.attributes.flatMap Field.string ++ memberCount ++ members.flatten ++
        stringCount ++ m.userStrings.flatMap Field.string ++ typeCount := by
  obtain ⟨attributeCount, hattributeCount, h⟩ := bind_ok.mp h
  obtain ⟨memberCount, hmemberCount, h⟩ := bind_ok.mp h
  obtain ⟨members, hmembers, h⟩ := bind_ok.mp h
  obtain ⟨stringCount, hstringCount, h⟩ := bind_ok.mp h
  obtain ⟨typeCount, htypeCount, h⟩ := bind_ok.mp h
  cases h
  exact ⟨_, _, _, _, _, hattributeCount, hmemberCount, hmembers, hstringCount, htypeCount, rfl⟩

/-- The bytes of a module, given those of its methods. -/
def moduleBytes (m : Module) (methods : List (List UInt8)) : Except Fault (List UInt8) := do
  let tables ← tables m
  let (types, _) ← typesBytes m.types methods
  return tables ++ types

/-- The files of a module, given its written methods. -/
def files (m : Module) (methods : List MethodImage) : Except Fault Files := do
  let image ← moduleBytes m (methods.map MethodImage.bytes)
  let symbols ← m.documents.mapM fun documents => SymbolFile.encode { documents, methods := records methods }
  return { image, symbols }

theorem moduleBytes_withMethods {m : Module} {methods : List Method} (hlen : methods.length = m.methods.length)
    (pieces : List (List UInt8)) : moduleBytes (m.withMethods methods) pieces = moduleBytes m pieces := by
  have htypes := typesBytes_fillAll m.types methods pieces (Nat.le_of_eq hlen.symm)
  unfold moduleBytes tables Module.withMethods
  dsimp only
  rw [htypes, length_fillAll]

/-- The image has nothing of the debug information. -/
theorem moduleBytes_documents (m : Module) (documents : Option (List String)) (pieces : List (List UInt8)) :
    moduleBytes { m with documents } pieces = moduleBytes m pieces := by
  unfold moduleBytes tables
  rfl

theorem files_withMethods {m : Module} {methods : List Method} (hlen : methods.length = m.methods.length)
    (images : List MethodImage) : files (m.withMethods methods) images = files m images := by
  unfold files
  rw [moduleBytes_withMethods hlen]
  rfl

/-! ## Writing type by type -/

variable {own : TypesImage} {methods methods' : List Method} {images : List MethodImage} {bytes : List UInt8}
  {rest left : List (List UInt8)}

theorem encodeMethods_ok : encodeMethods methods = .ok own methods' ↔ ∃ count, Field.count methods.length = .ok count ∧
    Edit.each encodeMethod methods = .ok own.methods methods' ∧
      own.bytes = count ++ (own.methods.map MethodImage.bytes).flatten := by
  unfold encodeMethods
  rw [edit_get_bind]
  constructor
  · intro h
    obtain ⟨count, hcount, h⟩ := ofExcept_bind_ok h
    obtain ⟨images, methods', heach, h⟩ := edit_bind_ok.mp h
    cases h
    exact ⟨count, hcount, heach, rfl⟩
  · rintro ⟨count, hcount, heach, hbytes⟩
    rw [hcount]
    refine (edit_bind_of_ok (show Edit.ofExcept (.ok count) methods = .ok count methods from rfl)).trans ?_
    refine (edit_bind_of_ok heach).trans ?_
    obtain ⟨bytes, images⟩ := own
    dsimp only at hbytes
    subst hbytes
    rfl

mutual

/-- Writing a type writes all its methods, and puts its own bytes around theirs. -/
theorem encodeType_ok : ∀ {t t' : TypeDef} {image : TypesImage}, encodeType t = .ok image t' →
    ∃ methods, Edit.each encodeMethod t.allMethods = .ok image.methods methods ∧
      (∀ more, fill t (methods ++ more) = (t', more)) ∧
      ∀ rest, typeBytes t (image.methods.map MethodImage.bytes ++ rest) = .ok (image.bytes, rest)
  | ⟨flags, space, name, methods, nested⟩, t', image, h => by
    rw [encodeType] at h
    split at h
    · cases h
    · next own methods' hown =>
      obtain ⟨count, hcount, heach, hbytes⟩ := encodeMethods_ok.mp hown
      obtain ⟨hlen, hlen'⟩ := length_of_each heach
      split at h
      · cases h
      · next nestedCount hnestedCount =>
        split at h
        · cases h
        · next inner nested' hinner =>
          obtain ⟨innerMethods, hinnerEach, hfill, hinnerBytes⟩ := encodeTypes_ok hinner
          cases h
          refine ⟨methods' ++ innerMethods, each_append_ok.mpr ⟨_, _, _, _, heach, hinnerEach, rfl, rfl⟩,
            fun more => ?_, fun rest => ?_⟩
          · rw [fill, List.append_assoc, ← hlen', List.drop_left, List.take_left, hfill]
          · have hdrop : (own.methods.map MethodImage.bytes ++ (inner.methods.map MethodImage.bytes ++ rest)).drop
                methods.length = inner.methods.map MethodImage.bytes ++ rest := by
              rw [← hlen, ← List.length_map MethodImage.bytes, List.drop_left]
            have htake : (own.methods.map MethodImage.bytes ++ (inner.methods.map MethodImage.bytes ++ rest)).take
                methods.length = own.methods.map MethodImage.bytes := by
              rw [← hlen, ← List.length_map MethodImage.bytes, List.take_left]
            rw [typeBytes, List.map_append, List.append_assoc, hcount, hnestedCount, hdrop, htake]
            refine bind_ok.mpr ⟨count, rfl, bind_ok.mpr ⟨nestedCount, rfl, bind_ok.mpr ⟨_, hinnerBytes rest, ?_⟩⟩⟩
            rw [hbytes]
            simp only [List.append_assoc]
            rfl

theorem encodeTypes_ok : ∀ {ts ts' : List TypeDef} {image : TypesImage}, encodeTypes ts = .ok image ts' →
    ∃ methods, Edit.each encodeMethod (methodsOf ts) = .ok image.methods methods ∧
      (∀ more, fillAll ts (methods ++ more) = (ts', more)) ∧
      ∀ rest, typesBytes ts (image.methods.map MethodImage.bytes ++ rest) = .ok (image.bytes, rest)
  | [], _, _, h => by
    cases h
    exact ⟨[], rfl, fun _ => rfl, fun _ => rfl⟩
  | t :: ts, ts', image, h => by
    rw [encodeTypes] at h
    split at h
    · cases h
    · next first t' hfirst =>
      split at h
      · cases h
      · next others ts'' hothers =>
        cases h
        obtain ⟨methods, heach, hfill, hbytes⟩ := encodeType_ok hfirst
        obtain ⟨more, hmore, hfillAll, hmoreBytes⟩ := encodeTypes_ok hothers
        refine ⟨methods ++ more, each_append_ok.mpr ⟨_, _, _, _, heach, hmore, rfl, rfl⟩, fun later => ?_,
          fun rest => ?_⟩
        · rw [fillAll, List.append_assoc, hfill]
          dsimp only
          rw [hfillAll]
        · rw [typesBytes, List.map_append, List.append_assoc]
          exact bind_ok.mpr ⟨_, hbytes _, bind_ok.mpr ⟨_, hmoreBytes rest, rfl⟩⟩

end

mutual

/-- A type is written if its methods are, and its bytes around theirs. -/
theorem exists_encodeType : ∀ {t : TypeDef} {images : List MethodImage} {methods : List Method} {bytes : List UInt8}
    {rest left : List (List UInt8)}, Edit.each encodeMethod t.allMethods = .ok images methods →
    typeBytes t (images.map MethodImage.bytes ++ rest) = .ok (bytes, left) → ∃ t', encodeType t = .ok ⟨bytes, images⟩ t'
  | ⟨flags, space, name, methods, nested⟩, images, given, bytes, rest, left, heach, h => by
    obtain ⟨own, methods', inner, innerMethods, hown, hinner, rfl, rfl⟩ := each_append_ok.mp heach
    obtain ⟨hlen, -⟩ := length_of_each hown
    rw [typeBytes, List.map_append, List.append_assoc, ← hlen, ← List.length_map MethodImage.bytes, List.drop_left,
      List.take_left, List.length_map, hlen] at h
    obtain ⟨count, hcount, h⟩ := bind_ok.mp h
    obtain ⟨nestedCount, hnestedCount, h⟩ := bind_ok.mp h
    obtain ⟨⟨innerBytes, _⟩, htypes, h⟩ := bind_ok.mp h
    cases h
    obtain ⟨nested', hnested⟩ := exists_encodeTypes hinner htypes
    have hmethods : encodeMethods methods = .ok ⟨count ++ (own.map MethodImage.bytes).flatten, own⟩ methods' :=
      encodeMethods_ok.mpr ⟨count, hcount, hown, rfl⟩
    refine ⟨⟨flags, space, name, methods', nested'⟩, ?_⟩
    rw [encodeType, hmethods]
    dsimp only
    rw [hnestedCount]
    dsimp only
    rw [hnested]
    simp only [List.append_assoc]

theorem exists_encodeTypes : ∀ {ts : List TypeDef} {images : List MethodImage} {methods : List Method}
    {bytes : List UInt8} {rest left : List (List UInt8)}, Edit.each encodeMethod (methodsOf ts) = .ok images methods →
    typesBytes ts (images.map MethodImage.bytes ++ rest) = .ok (bytes, left) →
      ∃ ts', encodeTypes ts = .ok ⟨bytes, images⟩ ts'
  | [], images, methods, bytes, rest, left, heach, h => by
    cases heach
    cases h
    exact ⟨[], rfl⟩
  | t :: ts, images, methods, bytes, rest, left, heach, h => by
    obtain ⟨first, given, others, more, hfirst, hothers, rfl, rfl⟩ := each_append_ok.mp heach
    rw [typesBytes, List.map_append, List.append_assoc] at h
    obtain ⟨⟨firstBytes, middle⟩, htype, h⟩ := bind_ok.mp h
    obtain ⟨⟨othersBytes, _⟩, htypes, h⟩ := bind_ok.mp h
    cases h
    obtain ⟨t', ht⟩ := exists_encodeType hfirst htype
    obtain ⟨-, -, -, hbytes⟩ := encodeType_ok ht
    obtain ⟨-, rfl⟩ := Prod.mk.inj (Except.ok.inj (htype.symm.trans (hbytes _)))
    obtain ⟨ts', hts⟩ := exists_encodeTypes hothers htypes
    refine ⟨t' :: ts', ?_⟩
    rw [encodeTypes, ht]
    dsimp only
    rw [hts]

end

end Image

namespace Module

variable {m m' : Module} {files : Image.Files}

theorem symbols_ok {documents : Option (List String)} {records : List MethodRecord} {symbols : Option (List UInt8)} :
    ((documents.mapM fun documents => Edit.ofExcept (SymbolFile.encode { documents, methods := records })) :
      Edit Module (Option (List UInt8))) m = .ok symbols m' ↔
      (documents.mapM fun documents => SymbolFile.encode { documents, methods := records }) = .ok symbols ∧ m' = m := by
  cases documents with
  | none => exact ⟨fun h => (by cases h; exact ⟨rfl, rfl⟩), fun ⟨h, hm⟩ => (by cases h; cases hm; rfl)⟩
  | some documents =>
    simp only [Option.mapM_some]
    cases hfile : SymbolFile.encode { documents, methods := records } with
    | error fault => exact ⟨fun h => (by cases h), fun ⟨h, _⟩ => (by cases h)⟩
    | ok data => exact ⟨fun h => (by cases h; exact ⟨rfl, rfl⟩), fun ⟨h, hm⟩ => (by cases h; cases hm; rfl)⟩

/-- What succeeds when a module is written: its tables, its types, and its symbol file if it has documents. -/
theorem encode_steps : m.encode = .ok files m' ↔ ∃ tables types ts symbols, Image.tables m = .ok tables ∧
    Image.encodeTypes m.types = .ok types ts ∧ m' = { m with types := ts } ∧
    (m.documents.mapM fun documents => SymbolFile.encode { documents, methods := Image.records types.methods }) =
      .ok symbols ∧ files = ⟨tables ++ types.bytes, symbols⟩ := by
  unfold encode
  rw [edit_get_bind]
  constructor
  · intro h
    obtain ⟨tables, htables, h⟩ := ofExcept_bind_ok h
    obtain ⟨types, m₁, htypes, h⟩ := edit_bind_ok.mp h
    obtain ⟨ts, hts, rfl⟩ := edit_onPart_ok.mp htypes
    rw [edit_get_bind] at h
    obtain ⟨symbols, m₂, hsymbols, h⟩ := edit_bind_ok.mp h
    obtain ⟨hfile, rfl⟩ := symbols_ok.mp hsymbols
    cases h
    exact ⟨tables, types, ts, symbols, htables, hts, rfl, hfile, rfl⟩
  · rintro ⟨tables, types, ts, symbols, htables, hts, rfl, hsymbols, rfl⟩
    rw [htables]
    refine edit_bind_ok.mpr ⟨tables, m, rfl, edit_bind_ok.mpr ⟨types, _, edit_onPart_ok.mpr ⟨ts, hts, rfl⟩, ?_⟩⟩
    rw [edit_get_bind]
    exact edit_bind_ok.mpr ⟨symbols, _, symbols_ok.mpr ⟨hsymbols, rfl⟩, rfl⟩

/-- A module is written just if its methods are, and the rest of its files around theirs. -/
theorem encode_eq_ok : m.encode = .ok files m' ↔ ∃ images methods,
    Edit.each Image.encodeMethod m.methods = .ok images methods ∧ m' = m.withMethods methods ∧
      Image.files m' images = .ok files := by
  rw [encode_steps]
  constructor
  · rintro ⟨tables, types, ts, symbols, htables, htypes, rfl, hsymbols, rfl⟩
    obtain ⟨methods, heach, hfill, hbytes⟩ := Image.encodeTypes_ok htypes
    have hlen : methods.length = m.methods.length := (length_of_each heach).2
    have hwith : m.withMethods methods = { m with types := ts } := by
      have hall := hfill []
      rw [List.append_nil] at hall
      unfold withMethods
      rw [hall]
    refine ⟨types.methods, methods, heach, hwith.symm, ?_⟩
    have hall := hbytes []
    rw [List.append_nil] at hall
    rw [← hwith, Image.files_withMethods hlen]
    refine bind_ok.mpr ⟨tables ++ types.bytes, ?_, bind_ok.mpr ⟨symbols, hsymbols, rfl⟩⟩
    exact bind_ok.mpr ⟨tables, htables, bind_ok.mpr ⟨_, hall, rfl⟩⟩
  · rintro ⟨images, methods, heach, rfl, hfiles⟩
    have hlen : methods.length = m.methods.length := (length_of_each heach).2
    rw [Image.files_withMethods hlen] at hfiles
    obtain ⟨image, himage, hfiles⟩ := bind_ok.mp hfiles
    obtain ⟨symbols, hsymbols, hfiles⟩ := bind_ok.mp hfiles
    obtain ⟨tables, htables, himage⟩ := bind_ok.mp himage
    obtain ⟨⟨bytes, left⟩, hbytes, himage⟩ := bind_ok.mp himage
    cases hfiles
    cases himage
    rw [← List.append_nil (images.map _)] at hbytes
    obtain ⟨ts, hts⟩ := Image.exists_encodeTypes heach hbytes
    obtain ⟨found, hfound, hfill, -⟩ := Image.encodeTypes_ok hts
    obtain ⟨-, rfl⟩ := EStateM.Result.ok.inj (heach.symm.trans hfound)
    refine ⟨tables, ⟨bytes, images⟩, ts, symbols, htables, hts, ?_, hsymbols, rfl⟩
    have hall := hfill []
    rw [List.append_nil] at hall
    unfold withMethods
    rw [hall]

end Module

end CilProbes

import CilProbes.Proofs.Code.Building
import CilProbes.Proofs.Module.Reading

/-!
# Nested types in images

What is written for a module is read again just if its types are not nested deeper than `Image.maxNesting` allows
(`Module.parse_unless_deep`): the writer has no such limit. All other limits of the reader hold for what is written.
-/

namespace CilProbes

open Reader (Reads)

namespace TypeDef

mutual

/-- How many types lie around one another, the type itself included. -/
def height : TypeDef → Nat
  | ⟨_, _, _, _, nested⟩ => heightOf nested + 1

/-- The largest height of some types. -/
def heightOf : List TypeDef → Nat
  | [] => 0
  | t :: ts => max t.height (heightOf ts)

end

variable {levels : Nat} {t : TypeDef} {ts : List TypeDef}

theorem heightOf_le {n : Nat} : heightOf ts ≤ n ↔ ∀ t ∈ ts, t.height ≤ n := by
  induction ts with
  | nil => simp [heightOf]
  | cons t ts ih => simp [heightOf, ih]

mutual

theorem height_fill : ∀ (t : TypeDef) (given : List Method), (fill t given).1.height = t.height
  | ⟨_, _, _, methods, nested⟩, given => by
    rw [fill, height, height, heightOf_fillAll nested (given.drop methods.length)]

theorem heightOf_fillAll : ∀ (ts : List TypeDef) (given : List Method), heightOf (fillAll ts given).1 = heightOf ts
  | [], _ => rfl
  | t :: ts, given => by
    rw [fillAll, heightOf, heightOf, height_fill t given, heightOf_fillAll ts]

end

theorem Readable.height_le (h : t.Readable levels) : t.height ≤ levels := by
  induction h with
  | mk _ _ _ ih =>
    rw [height]
    exact Nat.succ_le_succ (heightOf_le.mpr ih)

end TypeDef

/-! ## Levels -/

namespace Reader

variable {α β : Type} {fault : Fault} {r r' : Reader α}

/-- Wherever `r` does not fail with `fault`, it does what `r'` does. -/
def UpTo (fault : Fault) (r r' : Reader α) : Prop :=
  ∀ c, r c = r' c ∨ ∃ c', r c = .error fault c'

theorem UpTo.refl (r : Reader α) : UpTo fault r r :=
  fun _ => .inl rfl

theorem UpTo.bind {f f' : α → Reader β} (h : UpTo fault r r') (hf : ∀ a, UpTo fault (f a) (f' a)) :
    UpTo fault (r >>= f) (r' >>= f') := by
  intro c
  rcases h c with h | ⟨c', h⟩
  · cases hr : r c with
    | error other c' =>
      rw [edit_bind_of_error hr, edit_bind_of_error (h ▸ hr)]
      exact .inl rfl
    | ok a c' =>
      rw [edit_bind_of_ok hr, edit_bind_of_ok (h ▸ hr)]
      exact hf a c'
  · exact .inr ⟨c', edit_bind_of_error h⟩

theorem UpTo.ite {p : Prop} [Decidable p] (q : Reader α) (h : UpTo fault r r') :
    UpTo fault (if p then q else r) (if p then q else r') := by
  split
  · exact .refl q
  · exact h

theorem UpTo.timesOnto (h : UpTo fault r r') (n : Nat) (done : List α) :
    UpTo fault (timesOnto r n done) (timesOnto r' n done) := by
  induction n generalizing done with
  | zero => exact .refl _
  | succ n ih =>
    intro c
    unfold Reader.timesOnto
    rcases h c with h | ⟨c', h⟩
    · rw [← h]
      cases r c with
      | error other c' => exact .inl rfl
      | ok a c' => exact ih (a :: done) c'
    · rw [h]
      exact .inr ⟨c', rfl⟩

theorem UpTo.list (h : UpTo fault r r') : UpTo fault (Reader.list r) (Reader.list r') :=
  (UpTo.refl compressed).bind fun count => h.timesOnto count []

theorem UpTo.run (h : UpTo fault r r') (data : List UInt8) : r.run data = r'.run data ∨ r.run data = .error fault := by
  unfold Reader.run
  rcases h (Cursor.start data) with h | ⟨c', h⟩
  · exact .inl (by rw [h])
  · exact .inr (by rw [h])

end Reader

namespace Image

open Reader (UpTo)

/-- Where types may lie deeper, the same types are read, and others on which reading fails else. -/
theorem upTo_readType (levels more : Nat) :
    UpTo (.malformed (.nesting maxNesting)) (readType levels) (readType (levels + more)) := by
  induction levels with
  | zero => exact fun c => .inr ⟨c, rfl⟩
  | succ levels ih =>
    rw [Nat.succ_add, readType, readType]
    refine (UpTo.refl _).bind fun flags => (UpTo.refl _).bind fun space => (UpTo.refl _).bind fun name => ?_
    exact (UpTo.refl _).bind fun methods => ih.list.bind fun nested => UpTo.refl _

theorem upTo_readerWithin (levels more : Nat) :
    UpTo (.malformed (.nesting maxNesting)) (readerWithin levels) (readerWithin (levels + more)) := by
  unfold readerWithin
  dsimp only
  refine (UpTo.refl _).bind fun found => UpTo.ite _ ?_
  refine (UpTo.refl _).bind fun major => (UpTo.refl _).bind fun minor => UpTo.ite _ ?_
  refine (UpTo.refl _).bind fun name => (UpTo.refl _).bind fun attributes => (UpTo.refl _).bind fun memberRefs => ?_
  refine (UpTo.refl _).bind fun userStrings => (upTo_readType levels more).list.bind fun types => ?_
  exact UpTo.refl _

end Image

/-! ## Sizes -/

theorem Field.writable_of_length {text : String} {n : Nat} (h : (Field.string text).length ≤ n) (hn : n < 2 ^ 32) :
    Field.Writable text := by
  unfold Field.string at h
  rw [List.length_append] at h
  unfold Field.Writable
  omega

theorem Field.writable_of_flatMap {texts : List String} (h : (texts.flatMap Field.string).length < 2 ^ 32) :
    ∀ text ∈ texts, Field.Writable text := fun _ htext =>
  have hle := (List.sublist_flatten_of_mem (List.mem_map_of_mem htext)).length_le
  Field.writable_of_length (List.flatMap_def ▸ hle) h

namespace Image

variable {levels : Nat} {bytes : List UInt8} {given left : List (List UInt8)}

mutual

/-- The texts of a type that was written fit in their fields, if all its bytes fit in a field. -/
theorem readable_of_typeBytes : ∀ {t : TypeDef} {levels : Nat} {given left : List (List UInt8)} {bytes : List UInt8},
    t.height ≤ levels → typeBytes t given = .ok (bytes, left) → bytes.length < 2 ^ 32 → t.Readable levels
  | ⟨_, _, _, _, _⟩, 0, _, _, _, hheight, _, _ => absurd hheight (by rw [TypeDef.height]; omega)
  | ⟨flags, space, name, methods, nested⟩, levels + 1, given, _, _, hheight, h, hsize => by
    rw [typeBytes] at h
    obtain ⟨methodCount, -, h⟩ := bind_ok.mp h
    obtain ⟨nestedCount, -, h⟩ := bind_ok.mp h
    obtain ⟨⟨inner, last⟩, hinner, h⟩ := bind_ok.mp h
    cases h
    rw [TypeDef.height] at hheight
    simp only [List.length_append] at hsize
    refine .mk (Field.writable_of_length (Nat.le_refl _) (by omega))
      (Field.writable_of_length (Nat.le_refl _) (by omega)) ?_
    exact readable_of_typesBytes (Nat.le_of_succ_le_succ hheight) hinner (by omega)

theorem readable_of_typesBytes : ∀ {ts : List TypeDef} {levels : Nat} {given left : List (List UInt8)}
    {bytes : List UInt8}, TypeDef.heightOf ts ≤ levels → typesBytes ts given = .ok (bytes, left) →
    bytes.length < 2 ^ 32 → ∀ t ∈ ts, t.Readable levels
  | [], _, _, _, _, _, _, _ => fun _ ht => absurd ht List.not_mem_nil
  | t :: ts, _, _, _, _, hheight, h, hsize => by
    rw [typesBytes] at h
    obtain ⟨⟨first, middle⟩, hfirst, h⟩ := bind_ok.mp h
    obtain ⟨⟨others, last⟩, hothers, h⟩ := bind_ok.mp h
    cases h
    rw [TypeDef.heightOf, Nat.max_le] at hheight
    rw [List.length_append] at hsize
    exact List.forall_mem_cons.mpr ⟨readable_of_typeBytes hheight.1 hfirst (by omega),
      readable_of_typesBytes hheight.2 hothers (by omega)⟩

end

mutual

/-- The bytes of a type hold those of its methods. -/
theorem length_typeBytes : ∀ {t : TypeDef} {given left : List (List UInt8)} {bytes : List UInt8},
    typeBytes t given = .ok (bytes, left) → left = given.drop t.allMethods.length ∧
      (given.take t.allMethods.length).flatten.length ≤ bytes.length
  | ⟨flags, space, name, methods, nested⟩, given, _, _, h => by
    rw [typeBytes] at h
    obtain ⟨methodCount, -, h⟩ := bind_ok.mp h
    obtain ⟨nestedCount, -, h⟩ := bind_ok.mp h
    obtain ⟨⟨inner, last⟩, hinner, h⟩ := bind_ok.mp h
    cases h
    obtain ⟨hlast, hle⟩ := length_typesBytes hinner
    rw [TypeDef.allMethods, List.length_append]
    refine ⟨by rw [hlast, List.drop_drop], ?_⟩
    rw [List.take_add, List.flatten_append]
    simp only [List.length_append]
    omega

theorem length_typesBytes : ∀ {ts : List TypeDef} {given left : List (List UInt8)} {bytes : List UInt8},
    typesBytes ts given = .ok (bytes, left) → left = given.drop (TypeDef.methodsOf ts).length ∧
      (given.take (TypeDef.methodsOf ts).length).flatten.length ≤ bytes.length
  | [], _, _, _, h => by
    cases h
    exact ⟨rfl, Nat.le_refl 0⟩
  | t :: ts, given, _, _, h => by
    rw [typesBytes] at h
    obtain ⟨⟨first, middle⟩, hfirst, h⟩ := bind_ok.mp h
    obtain ⟨⟨others, last⟩, hothers, h⟩ := bind_ok.mp h
    cases h
    obtain ⟨rfl, hle⟩ := length_typeBytes hfirst
    obtain ⟨rfl, hle'⟩ := length_typesBytes hothers
    rw [TypeDef.methodsOf, List.length_append]
    refine ⟨by rw [List.drop_drop], ?_⟩
    rw [List.take_add, List.flatten_append, List.length_append, List.length_append]
    omega

end

/-- The name of a method that was written fits in its field, if all its bytes do. -/
theorem writable_of_encodeMethod {m m' : Method} {image : MethodImage} (h : encodeMethod m = .ok image m')
    (hsize : image.bytes.length < 2 ^ 32) : Field.Writable m.name := by
  have hheader {header rest : List UInt8} (h : methodHeader m = .ok header) (hsize : (header ++ rest).length < 2 ^ 32) :
      Field.Writable m.name := by
    obtain ⟨signature, -, h⟩ := bind_ok.mp h
    cases h
    simp only [List.length_append] at hsize
    exact Field.writable_of_length (Nat.le_refl _) (by omega)
  obtain ⟨header, hheader', ⟨-, rfl, -⟩ | ⟨b, e, b', -, -, -, himage⟩⟩ := encodeMethod_eq_ok.mp h
  · exact hheader hheader' hsize
  · obtain ⟨blob, -, himage⟩ := bind_ok.mp himage
    obtain ⟨points, -, himage⟩ := bind_ok.mp himage
    cases himage
    exact hheader hheader' hsize

end Image

/-- The methods differ in their bodies and points only. -/
def Method.SameFields (m m' : Method) : Prop :=
  m' = { m with body := m'.body, points := m'.points }

namespace Module

variable {m m' : Module} {pieces : List (List UInt8)} {bytes : List UInt8} {levels : Nat}

/-- The texts of a module that was written fit in their fields, if all its bytes do. -/
theorem framed_of_moduleBytes (hheight : TypeDef.heightOf m.types ≤ levels) (h : Image.moduleBytes m pieces = .ok bytes)
    (hsize : bytes.length < 2 ^ 32) : m.Framed levels := by
  obtain ⟨tables, htables, h⟩ := bind_ok.mp h
  obtain ⟨⟨types, left⟩, htypes, h⟩ := bind_ok.mp h
  cases h
  obtain ⟨_, _, members, _, _, -, -, hmembers, -, -, rfl⟩ := Image.tables_ok htables
  simp only [List.length_append] at hsize
  refine ⟨Field.writable_of_length (Nat.le_refl _) (by omega), Field.writable_of_flatMap (by omega), fun r hr => ?_,
    Field.writable_of_flatMap (by omega), Image.readable_of_typesBytes hheight htypes (by omega)⟩
  obtain ⟨piece, hpiece, hmember⟩ := exists_of_mem_right (forall₂_of_mapM hmembers).flip r hr
  have hle := (List.sublist_flatten_of_mem hpiece).length_le
  obtain ⟨signature, -, hmember⟩ := bind_ok.mp hmember
  cases hmember
  simp only [List.length_append] at hle
  exact ⟨Field.writable_of_length (Nat.le_refl _) (by omega), Field.writable_of_length (Nat.le_refl _) (by omega),
    Field.writable_of_length (Nat.le_refl _) (by omega)⟩

/-- The pieces of the methods are in the bytes of the module. -/
theorem length_le_of_moduleBytes (h : Image.moduleBytes m pieces = .ok bytes) (hlen : pieces.length = m.methods.length) :
    ∀ piece ∈ pieces, piece.length ≤ bytes.length := by
  obtain ⟨tables, -, h⟩ := bind_ok.mp h
  obtain ⟨⟨types, left⟩, htypes, h⟩ := bind_ok.mp h
  cases h
  intro piece hpiece
  obtain ⟨-, hle⟩ := Image.length_typesBytes htypes
  have hall : pieces.take (TypeDef.methodsOf m.types).length = pieces := List.take_of_length_le (Nat.le_of_eq hlen)
  rw [hall] at hle
  have hpiece := (List.sublist_flatten_of_mem hpiece).length_le
  simp only [List.length_append]
  omega

/-- What is written for a module is read with its methods, but for their bodies, where types may lie deep enough. -/
theorem exists_run_encode {files : Image.Files} (hbodies : ∀ method ∈ m.methods, ∀ b ∈ method.body, b.Writable)
    (h : m.encode = .ok files m') (hsize : files.image.length < 2 ^ 32) : ∃ methods,
      List.Forall₂ Method.SameFields m.methods methods ∧ ∀ levels, TypeDef.heightOf m.types ≤ levels →
        (Image.readerWithin levels).run files.image = .ok { m.withMethods methods with documents := none } := by
  obtain ⟨images, methods, heach, rfl, hfiles⟩ := encode_eq_ok.mp h
  obtain ⟨pairs, rfl, rfl, hpairs⟩ := each_ok heach
  obtain ⟨bytes, hbytes, hfiles⟩ := bind_ok.mp hfiles
  obtain ⟨symbols, -, hfiles⟩ := bind_ok.mp hfiles
  cases hfiles
  have hlen : (pairs.map Prod.snd).length = m.methods.length := by rw [List.length_map, hpairs.length_eq]
  have hpieces : ((pairs.map Prod.fst).map Image.MethodImage.bytes).length =
      (m.withMethods (pairs.map Prod.snd)).methods.length := by
    rw [methods_withMethods hlen, List.length_map, List.length_map, List.length_map]
  have hle := length_le_of_moduleBytes hbytes hpieces
  have hpieces' : ∀ method ∈ m.methods, ∀ pair ∈ pairs, Image.encodeMethod method = .ok pair.1 pair.2 →
      ∃ read, method.SameFields read ∧ Reads Image.readMethod pair.1.bytes read := by
    intro method hmethod pair hpair hencode
    have hpiece := hle _ (List.mem_map_of_mem (List.mem_map_of_mem hpair))
    have hname := Image.writable_of_encodeMethod hencode (Nat.lt_of_le_of_lt hpiece hsize)
    obtain ⟨body, hread⟩ := Image.exists_reads_method hname (hbodies method hmethod) hencode
    exact ⟨{ method with body, points := [] }, rfl, hread⟩
  obtain ⟨read, hsame, hreads⟩ := exists_forall₂ hpairs hpieces'
  refine ⟨read, hsame, fun levels hheight => ?_⟩
  have hframed := framed_of_moduleBytes ((TypeDef.heightOf_fillAll ..).trans_le hheight) hbytes hsize
  rw [List.map_map] at hbytes
  have hrun := run_moduleBytes hframed ((List.forall₂_map_left_iff).mpr hreads)
    (by rw [methods_withMethods hlen, hlen, hsame.length_eq]) hbytes
  rw [hrun]
  exact congrArg (fun m : Module => Except.ok { m with documents := none }) (withMethods_withMethods hlen)

/--
A module that was written is read from its image with all that it declares, just if its types are not nested too deep;
else reading fails for that.
-/
theorem parse_unless_deep {files : Image.Files} (hbodies : ∀ method ∈ m.methods, ∀ b ∈ method.body, b.Writable)
    (h : m.encode = .ok files m') (hsize : files.image.length < 2 ^ 29) :
    if TypeDef.heightOf m.types ≤ Image.maxNesting + 1 then
      ∃ r, parse files.image = .ok r ∧ r = { m.withMethods r.methods with documents := none } ∧
        List.Forall₂ Method.SameFields m.methods r.methods
    else parse files.image = .error (.malformed (.nesting Image.maxNesting)) := by
  obtain ⟨methods, hsame, hrun⟩ := exists_run_encode hbodies h (Nat.lt_trans hsize (by decide))
  have hmethods : (m.withMethods methods).methods = methods := methods_withMethods hsame.length_eq.symm
  have hheights : TypeDef.heightOf (m.withMethods methods).types = TypeDef.heightOf m.types :=
    TypeDef.heightOf_fillAll m.types methods
  split
  · next hheight =>
    refine ⟨_, (parse_eq _).trans (hrun _ hheight), ?_, ?_⟩
    · show _ = { m.withMethods (m.withMethods methods).methods with documents := none }
      rw [hmethods]
    · show List.Forall₂ _ _ (m.withMethods methods).methods
      rwa [hmethods]
  · next hheight =>
    -- where types may lie deep enough, the module is read; where they may not, it is read as that or not at all
    have hdeep := hrun (Image.maxNesting + 1 + TypeDef.heightOf m.types) (Nat.le_add_left ..)
    have hlevels := Image.upTo_readerWithin (Image.maxNesting + 1) (TypeDef.heightOf m.types)
    rw [parse_eq]
    rcases hlevels.run files.image with hread | herror
    · have hparsed := parsed_of_parse ((parse_eq _).trans (hread.trans hdeep))
      have hle : TypeDef.heightOf (m.withMethods methods).types ≤ Image.maxNesting + 1 :=
        TypeDef.heightOf_le.mpr fun t ht => (hparsed.types t ht).height_le
      exact absurd (hheights ▸ hle) hheight
    · exact herror

/-- A type in which another one lies, with a method that has a filter and a finally clause with a type. -/
theorem parse_unless_deep_filter : ∃ (m m' r : Module) (files : Image.Files),
    (∀ method ∈ m.methods, ∀ b ∈ method.body, b.Writable) ∧ m.encode = .ok files m' ∧ files.image.length < 2 ^ 29 ∧
    TypeDef.heightOf m.types = 2 ∧ parse files.image = .ok r ∧
    r = { m.withMethods r.methods with documents := none } ∧ List.Forall₂ Method.SameFields m.methods r.methods := by
  let filtered : ExceptionClause := ⟨{ filter := true }, ⟨0⟩, some ⟨1⟩, ⟨0⟩, some ⟨1⟩, some ⟨1⟩, ⟨0⟩⟩
  let ended : ExceptionClause := ⟨{ finally_ := true }, ⟨0⟩, some ⟨1⟩, ⟨1⟩, none, none, ⟨0x01000001⟩⟩
  let body (code : InstructionStream) : MethodBody := { maxStack := 1, code, clauses := [filtered, ended] }
  let inner (code : InstructionStream) : TypeDef :=
    { space := "", name := "B", methods := [⟨"f", 0x16, 0, [], some (body code), []⟩] }
  let m (code : InstructionStream) : Module := { name := "a", types := [{ space := "", name := "A", nested := [inner code] }] }
  obtain ⟨nop, hnop, ret, hret, files, m', hencode, hsize⟩ :
      ∃ nop, Instruction.make 0 0x00 .none = .ok nop ∧ ∃ ret, Instruction.make 0 0x2A .none = .ok ret ∧
      ∃ files m', (m ((InstructionStream.push {} nop).push ret)).encode = .ok files m' ∧
        files.image.length < 2 ^ 29 := by
    decide +kernel
  have hcode : ((InstructionStream.push {} nop).push ret).WellFormed :=
    InstructionStream.Built.wellFormed (.push (.push .empty hnop) hret)
  have hbodies : ∀ method ∈ (m ((InstructionStream.push {} nop).push ret)).methods, ∀ b ∈ method.body, b.Writable := by
    refine List.forall_mem_singleton.mpr fun b hb => ?_
    cases hb
    exact ⟨hcode, List.forall_mem_cons.mpr ⟨rfl, List.forall_mem_singleton.mpr rfl⟩⟩
  obtain ⟨r, hparse, hrest, hmethods⟩ := (if_pos (show 2 ≤ 65 by decide)).mp (parse_unless_deep hbodies hencode hsize)
  exact ⟨_, m', r, files, hbodies, hencode, hsize, rfl, hparse, hrest, hmethods⟩

/-- A type with as many types around it. -/
def deepType : Nat → TypeDef
  | 0 => { space := "", name := "" }
  | depth + 1 => { space := "", name := "", nested := [deepType depth] }

/-- A module without methods is written, and its image is not read again. -/
theorem parse_deep : ∃ (m m' : Module) (files : Image.Files), m.methods = [] ∧ m.encode = .ok files m' ∧
    files.image.length < 2 ^ 29 ∧ parse files.image = .error (.malformed (.nesting 64)) := by
  obtain ⟨files, m', hencode, hsize, hparse⟩ : ∃ files m', ({ name := "", types := [deepType 65] } : Module).encode =
      .ok files m' ∧ files.image.length < 2 ^ 29 ∧ parse files.image = .error (.malformed (.nesting 64)) := by
    decide +kernel
  exact ⟨_, m', files, by decide +kernel, hencode, hsize, hparse⟩

end Module

end CilProbes

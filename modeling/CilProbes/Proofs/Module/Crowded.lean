import CilProbes.Proofs.Bytes.Taken
import CilProbes.Proofs.Module.FirstType
import CilProbes.Proofs.Module.RoundTrip

/-!
# Modules with many methods

A module may have more methods than there are rows that tokens have room for. `Module.crowded` is a family of modules
with any number of methods, of which only the last one has a point. They can be written (`Module.exists_encode_crowded`),
and as long as tokens have room for the row of that method they are loaded from their files as they were
(`Module.reread_crowded`).
-/

namespace CilProbes

/-- A walk succeeds if each of its steps does. -/
theorem exists_mapM {ε α β : Type} {f : α → Except ε β} {as : List α} (h : ∀ a ∈ as, ∃ b, f a = .ok b) :
    ∃ bs, as.mapM f = .ok bs := by
  induction as with
  | nil => exact ⟨[], rfl⟩
  | cons a as ih =>
    obtain ⟨⟨b, hb⟩, has⟩ := List.forall_mem_cons.mp h
    obtain ⟨bs, hbs⟩ := ih has
    exact ⟨b :: bs, by rw [List.mapM_cons, hb, hbs]; rfl⟩

theorem exists_each {σ α : Type} {act : Edit σ α} {P : α → Prop} {ss : List σ}
    (h : ∀ s ∈ ss, ∃ a, act s = .ok a s ∧ P a) : ∃ as, Edit.each act ss = .ok as ss ∧ ∀ a ∈ as, P a := by
  induction ss with
  | nil => exact ⟨[], rfl, fun _ ha => absurd ha List.not_mem_nil⟩
  | cons s ss ih =>
    obtain ⟨⟨a, ha, hPa⟩, hss⟩ := List.forall_mem_cons.mp h
    obtain ⟨as, has, hPas⟩ := ih hss
    exact ⟨a :: as, by rw [Edit.each, ha]; dsimp only; rw [has], List.forall_mem_cons.mpr ⟨hPa, hPas⟩⟩

theorem Field.exists_count {n : Nat} (h : n ≤ Compressed.limit) : ∃ out, Field.count n = .ok out := by
  obtain ⟨out, hout, -⟩ := Compressed.encode_of_le h
  have hn : n < 0x100000000 := Nat.lt_of_le_of_lt h (by decide)
  exact ⟨out, by rw [Field.count, if_pos hn, hout]⟩

namespace Image

/-- The points can be written into a record. -/
def Recordable (points : List OffsetPoint) : Prop :=
  ∃ blob, PointBlob.encode points = .ok blob ∧ ∃ piece, Field.blob blob = .ok piece ∧ True

instance (points : List OffsetPoint) : Decidable (Recordable points) :=
  inferInstanceAs (Decidable (∃ blob, PointBlob.encode points = .ok blob ∧ ∃ piece, Field.blob blob = .ok piece ∧ True))

theorem length_records_le (images : List MethodImage) : (records images).length ≤ images.length :=
  (List.length_filter_le ..).trans (Nat.le_of_eq (List.length_mapIdx ..))

/-- The symbol file of a module is written if the points of all its methods are. -/
theorem exists_symbols {documents : List String} {images : List MethodImage}
    (hdocuments : documents.length ≤ Compressed.limit) (himages : images.length ≤ Compressed.limit)
    (hpoints : ∀ image ∈ images, Recordable image.points) :
    ∃ data, SymbolFile.encode { documents, methods := records images } = .ok data := by
  obtain ⟨documentCount, hdocumentCount⟩ := Field.exists_count hdocuments
  obtain ⟨count, hcount⟩ := Field.exists_count ((length_records_le images).trans himages)
  obtain ⟨pieces, hpieces⟩ : ∃ pieces, (records images).mapM SymbolFile.recordBytes = .ok pieces := by
    refine exists_mapM fun r hr => ?_
    obtain ⟨image, himage, hsame⟩ := Module.mem_records hr
    obtain ⟨blob, hblob, piece, hpiece, -⟩ := hpoints image himage
    refine ⟨Field.uint32 r.token.value ++ piece, bind_ok.mpr ⟨blob, ?_, bind_ok.mpr ⟨piece, hpiece, rfl⟩⟩⟩
    rw [hsame]
    exact hblob
  refine ⟨_, bind_ok.mpr ⟨documentCount, hdocumentCount, bind_ok.mpr ⟨count, hcount, bind_ok.mpr ⟨pieces, hpieces, rfl⟩⟩⟩⟩

end Image

namespace Method

/-- A method without body. -/
def bare : Method where
  name := ""
  flags := 0
  implFlags := 0
  signature := []
  body := none

/-- A method that returns at once, and has a point where it does. -/
def returning : Method where
  name := ""
  flags := 0
  implFlags := 0
  signature := []
  body := some { maxStack := 8, code := .push {} { Instruction.ret with offset := some 0 } }
  points := [⟨⟨0⟩, ⟨0, 1, 1, 1, 2, false⟩⟩]

/-- The method is written as it is, and so are its points. -/
def Stays (m : Method) : Prop :=
  ∃ image m', Image.encodeMethod m = .ok image m' ∧ m' = m ∧ Image.Recordable image.points

instance : DecidablePred Stays := fun m =>
  inferInstanceAs (Decidable (∃ image m', Image.encodeMethod m = .ok image m' ∧ m' = m ∧ Image.Recordable image.points))

theorem anchored_bare (documents : Nat) : bare.Anchored documents where
  anchors _ hb := by cases hb
  bare _ := rfl
  spans _ hp := absurd hp List.not_mem_nil
  inside _ hp := absurd hp List.not_mem_nil

theorem anchored_returning : returning.Anchored 1 where
  anchors b hb := by
    cases hb
    exact List.Sublist.refl _
  bare hnone := by cases hnone
  spans := List.forall_mem_singleton.mpr fun h => by cases h
  inside := List.forall_mem_singleton.mpr (by decide)

theorem reread_bare : bare.reread = bare := by decide +kernel

theorem reread_returning : returning.reread = returning := by decide +kernel

theorem Stays.exists_encode {m : Method} (h : m.Stays) :
    ∃ image, Image.encodeMethod m = .ok image m ∧ Image.Recordable image.points := by
  obtain ⟨image, _, hencode, rfl, hpoints⟩ := h
  exact ⟨image, hencode, hpoints⟩

theorem stays_bare : bare.Stays := by decide +kernel

theorem stays_returning : returning.Stays := by decide +kernel

theorem stays_emptyInitializer : emptyInitializer.Stays := by decide +kernel

end Method

namespace Module

/-- The module with other types: a global one with the given methods, and one with `n` methods without body and `last`. -/
def crowded (m : Module) (first : List Method) (n : Nat) (last : Method) : Module :=
  { m with types := [{ space := "", name := globalTypeName, methods := first },
      { space := "", name := "", methods := List.replicate n .bare ++ [last] }] }

/-- A module with a source document. -/
def sourced : Module where
  name := ""
  types := []
  documents := some ["/w/s/d"]

variable {m : Module} {first first' : List Method} {n : Nat} {last last' : Method} {documents : List String}

theorem methods_crowded (m : Module) (first : List Method) (n : Nat) (last : Method) :
    (m.crowded first n last).methods = first ++ (List.replicate n .bare ++ [last]) := by
  unfold crowded methods
  simp only [TypeDef.methodsOf, TypeDef.allMethods, List.append_nil]

theorem length_crowded (m : Module) (first : List Method) (n : Nat) (last : Method) :
    (m.crowded first n last).methods.length = first.length + (n + 1) := by
  rw [methods_crowded, List.length_append, List.length_append, List.length_replicate, List.length_singleton]

theorem forall_mem_crowded {P : Method → Prop} (hfirst : ∀ a ∈ first, P a) (hbare : P .bare) (hlast : P last) :
    ∀ a ∈ (m.crowded first n last).methods, P a := by
  rw [methods_crowded]
  refine List.forall_mem_append.mpr ⟨hfirst, List.forall_mem_append.mpr ⟨fun a ha => ?_, ?_⟩⟩
  · exact List.eq_of_mem_replicate ha ▸ hbare
  · exact List.forall_mem_singleton.mpr hlast

/-- The last method stands at the end. -/
theorem getElem?_crowded (m : Module) (first : List Method) (n : Nat) (last : Method) :
    (m.crowded first n last).methods[first.length + n]? = some last := by
  rw [methods_crowded, List.getElem?_append_right (Nat.le_add_right ..), Nat.add_sub_cancel_left,
    List.getElem?_append_right (Nat.le_of_eq List.length_replicate), List.length_replicate, Nat.sub_self]
  rfl

theorem withMethods_crowded (hlen : first'.length = first.length) :
    (m.crowded first n last).withMethods (m.crowded first' n last').methods = m.crowded first' n last' := by
  have hothers : (List.replicate n Method.bare ++ [last]).length = (List.replicate n Method.bare ++ [last']).length := by
    rw [List.length_append, List.length_append]
    rfl
  rw [methods_crowded]
  unfold withMethods crowded
  simp only [TypeDef.fillAll, TypeDef.fill]
  rw [← hlen, List.take_left, List.drop_left, hothers, List.take_length]

/-! ## Writing and reading -/

theorem tables_crowded (m : Module) (first : List Method) (n : Nat) (last : Method) :
    Image.tables (m.crowded first n last) = Image.tables (m.crowded [] 0 .bare) := by
  unfold Image.tables crowded
  rfl

/-- Such a module is written as it is. -/
theorem exists_encode_crowded (hdocuments : m.documents = some documents) (hcount : documents.length ≤ Compressed.limit)
    (htables : ∃ tables, Image.tables (m.crowded [] 0 .bare) = .ok tables ∧ True) (hfirst : ∀ a ∈ first, a.Stays)
    (hlast : last.Stays) (hlen : first.length + (n + 1) ≤ Compressed.limit) :
    ∃ files, (m.crowded first n last).encode = .ok files (m.crowded first n last) ∧ files.symbols.isSome = true := by
  have hstays : ∀ a ∈ (m.crowded first n last).methods, a.Stays := forall_mem_crowded hfirst Method.stays_bare hlast
  obtain ⟨images, heach, hpoints⟩ := exists_each fun a ha => (hstays a ha).exists_encode
  have himages : images.length = first.length + (n + 1) := by rw [(length_of_each heach).1, length_crowded]
  obtain ⟨data, hdata⟩ := Image.exists_symbols hcount (himages ▸ hlen) hpoints
  obtain ⟨firstCount, hfirstCount⟩ := Field.exists_count (show first.length ≤ Compressed.limit by omega)
  obtain ⟨count, hothers⟩ := Field.exists_count (show n + 1 ≤ Compressed.limit by omega)
  have htypes (pieces : List (List UInt8)) : ∃ out, Image.typesBytes (m.crowded first n last).types pieces = .ok out := by
    have hlength : (List.replicate n Method.bare ++ [last]).length = n + 1 := by
      rw [List.length_append, List.length_replicate, List.length_singleton]
    simp only [crowded, Image.typesBytes, Image.typeBytes, hlength, hfirstCount, hothers]
    exact ⟨_, rfl⟩
  obtain ⟨⟨bytes, left⟩, hbytes⟩ := htypes (images.map Image.MethodImage.bytes)
  obtain ⟨tables, htables, -⟩ := htables
  have hfiles : Image.files (m.crowded first n last) images = .ok ⟨tables ++ bytes, some data⟩ := by
    refine bind_ok.mpr ⟨_, bind_ok.mpr ⟨tables, (tables_crowded ..).trans htables, bind_ok.mpr ⟨_, hbytes, rfl⟩⟩, ?_⟩
    refine bind_ok.mpr ⟨some data, ?_, rfl⟩
    show m.documents.mapM _ = _
    rw [hdocuments, Option.mapM_some, hdata]
    rfl
  exact ⟨_, encode_eq_ok.mpr ⟨images, _, heach, (withMethods_methods _).symm, hfiles⟩, rfl⟩

/-- Such a module is well formed, as long as tokens have room for the row of its last method. -/
theorem wellFormed_crowded (hn : n + 1 < 2 ^ 24) : (sourced.crowded [] n .returning).WellFormed := by
  have htext (text : String) (h : (Utf8.encode text).length < 2 ^ 32) : Field.Writable text := h
  have hempty : Field.Writable "" := htext _ (by decide +kernel)
  have hbody : ∀ b ∈ Method.returning.body, b.WellFormed := by
    refine fun b hb => ?_
    cases hb
    exact ⟨InstructionStream.wellFormed_ofArray (by decide +kernel), fun _ hc => absurd hc List.not_mem_nil⟩
  refine ⟨⟨hempty, List.forall_mem_nil _, List.forall_mem_nil _, List.forall_mem_nil _, ?_, ?_⟩, ?_, ?_, ?_⟩
  · refine List.forall_mem_cons.mpr ⟨.mk hempty (htext _ (by decide +kernel)) (List.forall_mem_nil _), ?_⟩
    exact List.forall_mem_singleton.mpr (.mk hempty hempty (List.forall_mem_nil _))
  · exact forall_mem_crowded (List.forall_mem_nil _) ⟨hempty, fun _ hb => (by cases hb)⟩ ⟨hempty, hbody⟩
  · refine fun documents hdocuments => ?_
    cases hdocuments
    exact List.forall_mem_singleton.mpr (htext _ (by decide +kernel))
  · exact forall_mem_crowded (List.forall_mem_nil _) (Method.anchored_bare _) Method.anchored_returning
  · intro i method hmethod hi
    obtain ⟨hlt, -⟩ := List.getElem?_eq_some_iff.mp hmethod
    have hrows := (sourced.crowded [] n .returning).le_pointRows
    rw [length_crowded, List.length_nil] at hlt
    omega

/-- Loaded from its files, it is the same. -/
theorem reread_crowded (hn : n + 1 < 2 ^ 24) :
    (sourced.crowded [] n .returning).reread = sourced.crowded [] n .returning := by
  have hsame : ∀ a ∈ (sourced.crowded [] n .returning).methods, a.reread = a :=
    forall_mem_crowded (List.forall_mem_nil _) Method.reread_bare Method.reread_returning
  rw [(wellFormed_crowded hn).reread_eq]
  refine (congrArg (sourced.crowded [] n .returning).withMethods (List.ext_getElem (List.length_mapIdx ..)
    fun i hi hi' => ?_)).trans (withMethods_methods _)
  have hrow : i + 1 ≠ 2 ^ 24 := by
    rw [length_crowded, List.length_nil] at hi'
    omega
  rw [List.getElem_mapIdx, if_neg hrow]
  exact hsame _ (List.getElem_mem hi')

/-- An initializer takes the first row. -/
theorem ensureInitializer_crowded (m : Module) (n : Nat) (hlast : last.mapTokens (Token.shiftMethod 1) = last) :
    (m.crowded [] n last).ensureInitializer = .ok (0, m.crowded [.emptyInitializer] n last) := by
  have hsame : ∀ a ∈ (m.crowded [] n last).methods, a.mapTokens (Token.shiftMethod 1) = a :=
    forall_mem_crowded (List.forall_mem_nil _) rfl hlast
  have hshift : (m.crowded [] n last).shiftMethodRows 1 = m.crowded [] n last :=
    (congrArg (m.crowded [] n last).withMethods ((List.map_congr_left hsame).trans (List.map_id _))).trans
      (withMethods_methods _)
  refine ensureInitializer_ok.mpr ⟨_, _, rfl, ⟨rfl, rfl⟩, .inr ⟨rfl, rfl, ?_⟩⟩
  show _ = ((m.crowded [] n last).shiftMethodRows 1).addToFirstType .emptyInitializer
  rw [hshift]
  rfl

end Module

end CilProbes

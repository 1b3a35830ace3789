import CilProbes.Proofs.Module.Crowded
import CilProbes.Proofs.Module.Loading
import CilProbes.Proofs.Module.RoundTrip
import CilProbes.Proofs.Probe.Written
import Mathlib.Data.List.InsertIdx
import Mathlib.Logic.Relation

/-!
# Edits of loaded modules

Loading gives a well-formed module, and so do inserting instructions, splicing probes and adding a module initializer
(`Module.Step.wellFormed`). So a loaded module may be edited at will: if it can be written, it is read from its files with
its bodies and its points as they were (`Module.reread_steps`), but for the points of a method that no token has room for
(`Module.reread_steps_crowded`).
-/

namespace CilProbes

/-! ## Edits of bodies -/

namespace MethodBody

variable {b b' : MethodBody} {code : InstructionStream} {i : Instruction} {index : Nat}

theorem extends_insertAt (hb : b.WellFormed) (hfit : i.operand.fits i.kind = true)
    (h : b.code.insertAt index i = .ok code) : (b.withCode code).Extends b where
  wellFormed := ⟨hb.code.insertAt hfit h, hb.clauses⟩
  ids := by
    show b.code.ids.Sublist code.ids
    rw [(InstructionStream.ids_insertAt h).2]
    exact List.sublist_insertIdx ..

theorem extends_insertBefore {target : InstrId} (hb : b.WellFormed) (hfit : i.operand.fits i.kind = true)
    (h : b.code.insertBefore target i = .ok code) : (b.withCode code).Extends b := by
  obtain ⟨index, -, h⟩ := InstructionStream.insertBefore_ok.mp h
  exact extends_insertAt hb hfit h

theorem sublist_insertAllAt {s t : InstructionStream} {is : List Instruction} (h : s.insertAllAt index is = .ok t) :
    s.ids.Sublist t.ids := by
  induction is generalizing s index with
  | nil =>
    cases h
    exact List.Sublist.refl _
  | cons i is ih =>
    obtain ⟨s', hs', h⟩ := bind_ok.mp h
    refine List.Sublist.trans ?_ (ih h)
    rw [(InstructionStream.ids_insertAt hs').2]
    exact List.sublist_insertIdx ..

theorem extends_splice {target entry : InstrId} {api : ProbeApi} {id : UInt32} (hb : b.WellFormed)
    (h : b.splice target api id = .ok (entry, b')) : b'.Extends b where
  wellFormed := hb.splice h
  ids := by
    obtain ⟨index, code, hcode, rfl⟩ := splice_ok h
    show b.code.ids.Sublist code.ids
    exact sublist_insertAllAt hcode

end MethodBody

namespace Module

variable {m m' : Module}

/-- Puts a body in place of that of the method at a row. -/
def withBody (m : Module) (index : Nat) (b : MethodBody) : Module :=
  m.withMethods (m.methods.modify index fun method => { method with body := some b })

variable {method : Method} {b b' : MethodBody} {index : Nat}

theorem WellFormed.withBody (hm : m.WellFormed) (hmethod : m.methods[index]? = some method) (hb : method.body = some b)
    (h : b'.Extends b) : (m.withBody index b').WellFormed := by
  refine hm.extend (forall₂_modify (fun a ha => .refl (hm.methods a ha)) hmethod ⟨fun b'' hb'' => ?_, ?_, rfl⟩)
  · cases hb''
    exact ⟨b, hb, h⟩
  · exact fun hnone => by cases hnone

/-! ## The module initializer -/

theorem extends_mapTokens {a : Method} (ha : a.Readable) (f : Token → Token) : (a.mapTokens f).Extends a where
  body b' hb' := by
    obtain ⟨b, hb, rfl⟩ := Option.map_eq_some_iff.mp hb'
    have hwf := ha.body b hb
    refine ⟨b, hb, ⟨hwf.code.map fun i hi => ?_, hwf.clauses⟩, List.Sublist.refl _⟩
    have hfit := hwf.code.fits i hi
    obtain ⟨opcode, operand, offset⟩ := i
    cases operand with
    | token t => cases hkind : opcode.info.operand <;> simp_all [Instruction.kind, Operand.fits]
    | none | immediate | target | switch => exact hfit
  bare hnone := Option.map_eq_none_iff.mp hnone
  rest := rfl

theorem WellFormed.shiftMethodRows (hm : m.WellFormed) (row : Nat) : (m.shiftMethodRows row).WellFormed := by
  refine hm.extend ?_
  rw [List.forall₂_map_right_iff]
  exact List.forall₂_same.mpr fun a ha => extends_mapTokens (hm.methods a ha) _

theorem readable_emptyInitializer : Method.emptyInitializer.Readable where
  name := by
    unfold Field.Writable
    decide +kernel
  body b hb := by
    cases hb
    have hfit : ∀ i ∈ #[Instruction.ret], i.operand.fits i.kind = true := by simp [Instruction.ret, Instruction.kind,
      Opcode.ret, Operand.fits]
    exact ⟨InstructionStream.wellFormed_ofArray hfit, fun _ hc => absurd hc List.not_mem_nil⟩

theorem anchored_emptyInitializer (documents : Nat) : Method.emptyInitializer.Anchored documents where
  anchors _ _ := List.nil_sublist _
  bare _ := rfl
  spans _ hp := absurd hp List.not_mem_nil
  inside _ hp := absurd hp List.not_mem_nil

/-- A module that lacks an initializer may get one. -/
theorem WellFormed.addToFirstType {t : TypeDef} {ts : List TypeDef} (hm : m.WellFormed) (htypes : m.types = t :: ts)
    (hnone : m.hasInitializer = false) : (m.addToFirstType .emptyInitializer).WellFormed := by
  have hmethods := forall_mem_addToFirstType readable_emptyInitializer hm.methods
  have hanchored := forall_mem_addToFirstType (anchored_emptyInitializer _) hm.anchored
  -- an initializer more makes room for the row by which the methods behind it move
  have hrows : ∀ i method, (m.addToFirstType .emptyInitializer).methods[i]? = some method →
      (m.addToFirstType .emptyInitializer).pointRows ≤ i → method.points = [] := by
    intro i method hmethod hi
    have hsome := hasInitializer_addToFirstType htypes isTypeInitializer_emptyInitializer
    rcases moved_of_added htypes hmethod with rfl | ⟨j, hj, hold⟩
    · rfl
    · refine hm.rows j method hold ?_
      unfold pointRows at hi ⊢
      rw [hsome, if_pos rfl] at hi
      rw [hnone, if_neg Bool.false_ne_true]
      omega
  rw [addToFirstType_of_types htypes] at hmethods hanchored hrows ⊢
  refine ⟨⟨hm.name, hm.attributes, hm.memberRefs, hm.userStrings, ?_, hmethods⟩, hm.documents, hanchored, hrows⟩
  have hall := hm.types
  rw [htypes] at hall
  obtain ⟨hfirst, hothers⟩ := List.forall_mem_cons.mp hall
  refine List.forall_mem_cons.mpr ⟨?_, hothers⟩
  cases hfirst with
  | mk hspace hname hnested => exact .mk hspace hname hnested

theorem WellFormed.ensureInitializer (hm : m.WellFormed) (h : m.ensureInitializer = .ok (index, m')) :
    m'.WellFormed := by
  obtain ⟨t, ts, htypes, -, ⟨-, -, rfl⟩ | ⟨hfind, -, rfl⟩⟩ := ensureInitializer_ok.mp h
  · exact hm
  · have hnone : m.hasInitializer = false :=
      (hasInitializer_of_types htypes).trans (any_isTypeInitializer_eq_false hfind)
    have hshift : (m.shiftMethodRows (t.methods.length + 1)).hasInitializer = false := by
      rw [← hnone]
      refine hasInitializer_withMethods ?_
      rw [List.forall₂_map_right_iff]
      exact List.forall₂_same.mpr fun _ _ => rfl
    obtain ⟨t', ts', htypes'⟩ : ∃ t' ts', (m.shiftMethodRows (t.methods.length + 1)).types = t' :: ts' := by
      unfold Module.shiftMethodRows Module.withMethods
      rw [htypes]
      exact ⟨_, _, rfl⟩
    exact (hm.shiftMethodRows _).addToFirstType htypes' hshift

/-- One edit of a module. An inserted instruction has an operand that fits its opcode. -/
inductive Step : Module → Module → Prop
  | insertAt {m : Module} {method : Method} {b : MethodBody} {i : Instruction} {code : InstructionStream}
    {index place : Nat} : m.methods[index]? = some method → method.body = some b → i.operand.fits i.kind = true →
      b.code.insertAt place i = .ok code → Step m (m.withBody index (b.withCode code))
  | insertBefore {m : Module} {method : Method} {b : MethodBody} {i : Instruction} {code : InstructionStream}
    {index : Nat} {target : InstrId} : m.methods[index]? = some method → method.body = some b →
      i.operand.fits i.kind = true → b.code.insertBefore target i = .ok code →
        Step m (m.withBody index (b.withCode code))
  | splice {m : Module} {method : Method} {b b' : MethodBody} {index : Nat} {target entry : InstrId} {api : ProbeApi}
    {id : UInt32} : m.methods[index]? = some method → method.body = some b →
      b.splice target api id = .ok (entry, b') → Step m (m.withBody index b')
  | ensureInitializer {m m' : Module} {index : Nat} : m.ensureInitializer = .ok (index, m') → Step m m'

theorem Step.wellFormed (h : m.Step m') (hm : m.WellFormed) : m'.WellFormed := by
  cases h with
  | insertAt hmethod hb hfit h =>
    have hbody := (hm.methods _ (List.mem_of_getElem? hmethod)).body _ hb
    exact hm.withBody hmethod hb (MethodBody.extends_insertAt hbody hfit h)
  | insertBefore hmethod hb hfit h =>
    have hbody := (hm.methods _ (List.mem_of_getElem? hmethod)).body _ hb
    exact hm.withBody hmethod hb (MethodBody.extends_insertBefore hbody hfit h)
  | splice hmethod hb h =>
    have hbody := (hm.methods _ (List.mem_of_getElem? hmethod)).body _ hb
    exact hm.withBody hmethod hb (MethodBody.extends_splice hbody h)
  | ensureInitializer h => exact hm.ensureInitializer h

theorem wellFormed_of_steps (h : Relation.ReflTransGen Step m m') (hm : m.WellFormed) : m'.WellFormed := by
  induction h with
  | refl => exact hm
  | tail _ hstep ih => exact hstep.wellFormed ih

theorem Step.documents_eq (h : m.Step m') : m'.documents = m.documents := by
  cases h with
  | insertAt | insertBefore | splice => rfl
  | ensureInitializer h =>
    obtain ⟨t, ts, -, -, ⟨-, -, rfl⟩ | ⟨-, -, rfl⟩⟩ := ensureInitializer_ok.mp h
    · rfl
    · exact documents_addToFirstType ..

theorem documents_of_steps (h : Relation.ReflTransGen Step m m') : m'.documents = m.documents := by
  induction h with
  | refl => rfl
  | tail _ hstep ih => exact hstep.documents_eq.trans ih

/-! ## Loading what was written -/

/--
A module that was loaded with its symbol file and edited, and then written, is loaded again from its two files. It has
the same types and methods then, its bodies are as they were written, and its points are where they were in the program
order. Rows have 24 bits: no token names the method at row `2 ^ 24`, which a module initializer may have moved there, and
it alone is loaded without its points.
-/
theorem reread_steps {image data : List UInt8} {m₀ m₁ : Module} {file : SymbolFile} {log log' : Log}
    {files : Image.Files} (hm : parse image = .ok m₀) (hfile : SymbolFile.parse data = .ok file)
    (hattach : attach file ⟨m₀, log⟩ = .ok () ⟨m₁, log'⟩) (hsteps : Relation.ReflTransGen Step m₁ m)
    (h : m.encode = .ok files m') :
    m.Widened m' ∧ (∀ method ∈ m'.methods, method.Anchored file.documents.length) ∧
      parse files.image = .ok m'.written ∧
      ∃ symbols file', files.symbols = some symbols ∧ SymbolFile.parse symbols = .ok file' ∧
        (∀ log, ∃ log', attach file' ⟨m'.written, log⟩ = .ok () ⟨m'.reread, log'⟩) ∧
        m'.reread = m'.withMethods (m'.methods.mapIdx fun i method =>
          if i + 1 = 2 ^ 24 then method.written else method.reread) := by
  have hparsed := SymbolFile.parsed_of_parse hfile
  obtain ⟨log₁, hattached⟩ := attach_ok hparsed.toWellFormed m₀ log
  rw [hattach] at hattached
  cases hattached
  have hwf := wellFormed_of_steps hsteps (wellFormed_attached (parsed_of_parse hm) hparsed)
  have hdocuments : m.documents = some file.documents := documents_of_steps hsteps
  obtain ⟨hwidened, hparse, symbols, file', hsymbols, hfile', hwf', hreread⟩ := attached_encode hwf hdocuments h
  refine ⟨hwidened, ?_, hparse, symbols, file', hsymbols, hfile', fun log => ?_,
    (hwidened.wellFormed hwf).reread_eq⟩
  · have hanchored := (hwidened.wellFormed hwf).anchored
    rwa [show m'.documents = some file.documents from hwidened.rest ▸ hdocuments] at hanchored
  · rw [← hreread]
    exact attach_ok hwf' _ log

/-- A global type without methods, and a type with two: `f` calls `g` and returns, `g` returns at once. -/
def callerImage : List UInt8 :=
  [0x43, 0x49, 0x4C, 0x4D, 1, 0, 0, 0, 0, 0, 0, 0, 2, 0, 0, 0, 0, 0, 8, 0x3C, 0x4D, 0x6F, 0x64, 0x75, 0x6C, 0x65, 0x3E, 0, 0,
    0, 0, 0, 0, 0, 0, 2, 22, 0, 0, 0, 1, 0x66, 0, 1, 7, 0x1A, 0x28, 2, 0, 0, 6, 0x2A] ++
  [22, 0, 0, 0, 1, 0x67, 0, 1, 2, 0x06, 0x2A, 0]

/-- Two points of `f`, one at its call and one where it returns, and one point of `g`. -/
def callerSymbols : List UInt8 :=
  [0x43, 0x50, 0x44, 0x42, 1, 0, 1, 1, 0x64, 2, 1, 0, 0, 6, 11, 1, 0, 0, 5, 3, 2, 5, 0, 5, 2, 0, 2, 0, 0, 6, 6, 1, 0, 0, 5,
    9, 2]

/-- An initializer moves both methods by a row, and a probe in front of the second point of `f` moves its offset. -/
theorem reread_steps_moved : ∃ m₀ file m₁ log index m₂ method b entry b' files m' symbols file',
    parse callerImage = .ok m₀ ∧ SymbolFile.parse callerSymbols = .ok file ∧
    attach file ⟨m₀, #[]⟩ = .ok () ⟨m₁, log⟩ ∧ m₁.ensureInitializer = .ok (index, m₂) ∧ m₂.methods[1]? = some method ∧
    method.body = some b ∧ b.splice ⟨1⟩ ⟨⟨0x70000001⟩, ⟨0x0A000001⟩⟩ 7 = .ok (entry, b') ∧
    (m₂.withBody 1 b').encode = .ok files m' ∧ parse files.image = .ok m'.written ∧ files.symbols = some symbols ∧
    SymbolFile.parse symbols = .ok file' ∧ (∀ log, ∃ log', attach file' ⟨m'.written, log⟩ = .ok () ⟨m'.reread, log'⟩) ∧
    m'.reread.methods.map (fun a => a.points.map SequencePoint.instruction) = [[], [⟨0⟩, ⟨4⟩], [⟨0⟩]] := by
  obtain ⟨m₁, u, hload, added, hadded, b, hb, spliced, hsplice, files, m', hencode, hplaces⟩ :
      ∃ m₁ u, loadWith callerImage (some callerSymbols) (⟨(), #[]⟩ : Logged Unit) = .ok m₁ u ∧
      ∃ added, m₁.ensureInitializer = .ok added ∧ ∃ b ∈ added.2.methods[1]?.bind Method.body,
      ∃ spliced, b.splice ⟨1⟩ ⟨⟨0x70000001⟩, ⟨0x0A000001⟩⟩ 7 = .ok spliced ∧
      ∃ files m', (added.2.withBody 1 spliced.2).encode = .ok files m' ∧
        m'.reread.methods.map (fun a => a.points.map SequencePoint.instruction) = [[], [⟨0⟩, ⟨4⟩], [⟨0⟩]] := by
    decide +kernel
  obtain ⟨hnone, -⟩ | ⟨data, m₀, file, hdata, hm, hfile, rfl⟩ := loadWith_ok hload
  · cases hnone
  cases hdata
  obtain ⟨method, hmethod, hb⟩ := Option.bind_eq_some_iff.mp hb
  obtain ⟨log, hattach⟩ := attach_ok (SymbolFile.parsed_of_parse hfile).toWellFormed m₀ #[]
  have hsteps : Relation.ReflTransGen Step (m₀.attached file) (added.2.withBody 1 spliced.2) :=
    .tail (.single (.ensureInitializer hadded)) (.splice hmethod hb hsplice)
  obtain ⟨-, -, hparse, symbols, file', hsymbols, hfile', hreread, -⟩ := reread_steps hm hfile hattach hsteps hencode
  exact ⟨m₀, file, _, log, added.1, added.2, method, b, spliced.1, spliced.2, files, m', symbols, file', hm, hfile, hattach,
    hadded, hmethod, hb, hsplice, hencode, hparse, hsymbols, hfile', hreread, hplaces⟩

/-- Of 2^24 - 1 methods, the last one loses its point when the module gets an initializer. -/
theorem reread_steps_crowded : ∃ image data m₀ file m₁ log index m files m' symbols file' m₂ log' method read,
    parse image = .ok m₀ ∧ SymbolFile.parse data = .ok file ∧ attach file ⟨m₀, #[]⟩ = .ok () ⟨m₁, log⟩ ∧
    m₁.methods.length = 2 ^ 24 - 1 ∧ m₁.ensureInitializer = .ok (index, m) ∧ m.encode = .ok files m' ∧
    parse files.image = .ok m'.written ∧ files.symbols = some symbols ∧ SymbolFile.parse symbols = .ok file' ∧
    attach file' ⟨m'.written, #[]⟩ = .ok () ⟨m₂, log'⟩ ∧ m'.methods[2 ^ 24 - 1]? = some method ∧
    method.points.length = 1 ∧ m₂.methods[2 ^ 24 - 1]? = some read ∧ read.points = [] := by
  have hlimit : 2 ^ 24 ≤ Compressed.limit := by decide
  have htables : ∃ tables, Image.tables (sourced.crowded [] 0 .bare) = .ok tables ∧ True := by decide +kernel
  have hadd : (sourced.crowded [] (2 ^ 24 - 2) .returning).ensureInitializer =
      .ok (0, sourced.crowded [.emptyInitializer] (2 ^ 24 - 2) .returning) :=
    ensureInitializer_crowded sourced _ (by decide +kernel)
  obtain ⟨old, hold, -⟩ := exists_encode_crowded (n := 2 ^ 24 - 2) rfl (by decide) htables (List.forall_mem_nil _)
    Method.stays_returning (Nat.le_trans (by decide) hlimit)
  obtain ⟨files, hencode, -⟩ := exists_encode_crowded (n := 2 ^ 24 - 2) rfl (by decide) htables
    (List.forall_mem_singleton.mpr Method.stays_emptyInitializer) Method.stays_returning (Nat.le_trans (by decide) hlimit)
  have hwf := wellFormed_crowded (n := 2 ^ 24 - 2) (by decide)
  obtain ⟨-, hm, data, file, -, hfile, hfileWf, hattached⟩ := attached_encode hwf rfl hold
  rw [reread_crowded (by decide)] at hattached
  obtain ⟨log, hattach⟩ := attach_ok hfileWf (sourced.crowded [] (2 ^ 24 - 2) .returning).written #[]
  rw [hattached] at hattach
  have hwf' := hwf.ensureInitializer hadd
  obtain ⟨-, hparse, symbols, file', hsymbols, hfile', hfileWf', hreread⟩ := attached_encode hwf' rfl hencode
  obtain ⟨log', hattach'⟩ := attach_ok hfileWf' (sourced.crowded [.emptyInitializer] (2 ^ 24 - 2) .returning).written #[]
  rw [hreread] at hattach'
  have hlast := getElem?_crowded sourced [.emptyInitializer] (2 ^ 24 - 2) .returning
  obtain ⟨read, hread, hpoints⟩ := points_reread_last hlast
  exact ⟨_, _, _, _, _, log, 0, _, files, _, symbols, file', _, log', _, read, hm, hfile, hattach, length_crowded .., hadd,
    hencode, hparse, hsymbols, hfile', hattach', hlast, rfl, hread, hpoints⟩

end Module

end CilProbes

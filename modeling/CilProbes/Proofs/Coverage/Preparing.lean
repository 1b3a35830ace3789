import CilProbes.Coverage.Weave
import CilProbes.Proofs.Module.Edits
import CilProbes.Proofs.Module.Interning

/-!
# Modules that are prepared for probing

Before probes are placed, a module gets the marker, the member references and strings that probes refer to, and a call
at the start of its initializer. It keeps its documents, and is well formed as before if the settings can be written
(`Weave.wellFormed_prepareRecording`, `Weave.wellFormed_importApi`); its types are so in any case
(`Weave.wellFormed_withoutTables_prepareRecording`).
-/

namespace CilProbes

/-- Every text of the settings that gets into modules fits in its field. -/
structure Config.Writable (config : Config) : Prop where
  hitsFile : Field.Writable config.hitsFile
  markerAttribute : Field.Writable config.markerAttribute
  scope : Field.Writable config.probe.scope
  typeName : Field.Writable config.probe.typeName
  initMethod : Field.Writable config.probe.initMethod
  hitMethod : Field.Writable config.probe.hitMethod

namespace Module

variable {m : Module} {member : MemberRef} {value typeName : String}

theorem WellFormed.addAttribute (hm : m.WellFormed) (h : Field.Writable typeName) :
    (m.addAttribute typeName).WellFormed where
  toReadable := { hm.toReadable with
    attributes := List.forall_mem_append.mpr ⟨hm.attributes, List.forall_mem_singleton.mpr h⟩ }
  documents := hm.documents
  anchored := hm.anchored
  rows := hm.rows

theorem WellFormed.importMember (hm : m.WellFormed) (h : member.Readable) : (m.importMember member).2.WellFormed := by
  obtain ⟨extra, hextra, heq⟩ := importMember_eq m member
  rw [heq]
  have hrefs : ∀ r ∈ m.memberRefs ++ extra, r.Readable :=
    List.forall_mem_append.mpr ⟨hm.memberRefs, fun r hr => List.mem_singleton.mp (hextra.subset hr) ▸ h⟩
  exact ⟨{ hm.toReadable with memberRefs := hrefs }, hm.documents, hm.anchored, hm.rows⟩

theorem WellFormed.internString (hm : m.WellFormed) (h : Field.Writable value) :
    (m.internString value).2.WellFormed := by
  obtain ⟨extra, hextra, heq⟩ := internString_eq m value
  rw [heq]
  have hstrings : ∀ v ∈ m.userStrings ++ extra, Field.Writable v :=
    List.forall_mem_append.mpr ⟨hm.userStrings, fun v hv => List.mem_singleton.mp (hextra.subset hv) ▸ h⟩
  exact ⟨{ hm.toReadable with userStrings := hstrings }, hm.documents, hm.anchored, hm.rows⟩

/-! ## Modules without their tables -/

/-- The module with empty tables. -/
def withoutTables (m : Module) : Module :=
  { m with attributes := [], memberRefs := [], userStrings := [] }

theorem WellFormed.withoutTables (hm : m.WellFormed) : m.withoutTables.WellFormed where
  toReadable := { hm.toReadable with
    attributes := fun _ h => absurd h List.not_mem_nil
    memberRefs := fun _ h => absurd h List.not_mem_nil
    userStrings := fun _ h => absurd h List.not_mem_nil }
  documents := hm.documents
  anchored := hm.anchored
  rows := hm.rows

theorem withoutTables_importMember (m : Module) (member : MemberRef) :
    (m.importMember member).2.withoutTables = m.withoutTables := by
  obtain ⟨extra, -, heq⟩ := importMember_eq m member
  rw [heq]
  rfl

theorem withoutTables_internString (m : Module) (value : String) :
    (m.internString value).2.withoutTables = m.withoutTables := by
  obtain ⟨extra, -, heq⟩ := internString_eq m value
  rw [heq]
  rfl

/-- The tables have no part in the adding of an initializer. -/
theorem ensureInitializer_withoutTables {m' : Module} {index : Nat} (h : m.ensureInitializer = .ok (index, m')) :
    m.withoutTables.ensureInitializer = .ok (index, m'.withoutTables) := by
  obtain ⟨t, ts, htypes, hglobal, ⟨hfind, hbody, rfl⟩ | ⟨hfind, rfl, rfl⟩⟩ := ensureInitializer_ok.mp h
  · exact ensureInitializer_ok.mpr ⟨t, ts, htypes, hglobal, .inl ⟨hfind, hbody, rfl⟩⟩
  · refine ensureInitializer_ok.mpr ⟨t, ts, htypes, hglobal, .inr ⟨hfind, rfl, ?_⟩⟩
    unfold addToFirstType
    rw [show (m.withoutTables.shiftMethodRows (t.methods.length + 1)).types =
      (m.shiftMethodRows (t.methods.length + 1)).types from rfl]
    split <;> rfl

end Module

namespace Weave

variable {config : Config} {m m' : Module}

/-- The method that prepares recording. -/
def initMember (config : Config) : MemberRef :=
  member config.probe config.probe.initMethod ProbeNames.initSignature

/-- The method that records a hit. -/
def hitMember (config : Config) : MemberRef :=
  member config.probe config.probe.hitMethod ProbeNames.hitSignature

/-- What preparing a module for recording makes of it. -/
theorem prepareRecording_ok (h : prepareRecording config m = .ok m') : ∃ m₁ index m₂ method b code maxStack,
    m₁ = ((m.importMember (initMember config)).2.internString config.hitsFile).2 ∧
    m₁.ensureInitializer = .ok (index, m₂) ∧ m₂.methods[index]? = some method ∧ method.body = some b ∧
    b.code.insertAllAt 0 [.loadString ((m.importMember (initMember config)).2.internString config.hitsFile).1,
      .call (m.importMember (initMember config)).1] = .ok code ∧
    m' = m₂.withBody index { b.withCode code with maxStack } := by
  unfold prepareRecording at h
  dsimp only at h
  obtain ⟨⟨index, m₂⟩, hensure, h⟩ := bind_ok.mp h
  dsimp only at h
  split at h
  · cases h
  · next b hb =>
    obtain ⟨method, hmethod, hb⟩ := Option.bind_eq_some_iff.mp hb
    obtain ⟨b', hprepend, h⟩ := bind_ok.mp h
    obtain ⟨code, hcode, hprepend⟩ := bind_ok.mp hprepend
    cases hprepend
    cases h
    exact ⟨_, index, m₂, method, b, code, _, rfl, hensure, hmethod, hb, hcode, rfl⟩

theorem documents_prepareRecording (h : prepareRecording config m = .ok m') : m'.documents = m.documents := by
  obtain ⟨m₁, index, m₂, method, b, code, maxStack, rfl, hensure, -, -, -, rfl⟩ := prepareRecording_ok h
  obtain ⟨_, _, hmember⟩ := Module.importMember_eq m (initMember config)
  obtain ⟨_, _, hstring⟩ := Module.internString_eq (m.importMember (initMember config)).2 config.hitsFile
  have hstep := (Module.Step.ensureInitializer hensure).documents_eq
  rw [hstring, hmember] at hstep
  exact hstep

theorem documents_importApi (config : Config) (m : Module) : (importApi config m).2.documents = m.documents := by
  obtain ⟨_, _, hstring⟩ := Module.internString_eq m config.hitsFile
  obtain ⟨_, _, hmember⟩ := Module.importMember_eq (m.internString config.hitsFile).2 (hitMember config)
  show ((m.internString config.hitsFile).2.importMember (hitMember config)).2.documents = _
  rw [hmember, hstring]

theorem readable_member {names : ProbeNames} {name : String} {signature : List UInt8} (hscope : Field.Writable names.scope)
    (htype : Field.Writable names.typeName) (hname : Field.Writable name) : (member names name signature).Readable :=
  ⟨hscope, htype, hname⟩

/-- A call at the start of a method leaves a module well formed. -/
theorem wellFormed_withBody {index : Nat} {method : Method} {b : MethodBody} {code : InstructionStream} {string call : Token}
    {maxStack : UInt16} (hm : m.WellFormed) (hmethod : m.methods[index]? = some method) (hb : method.body = some b)
    (hcode : b.code.insertAllAt 0 [.loadString string, .call call] = .ok code) :
    (m.withBody index { b.withCode code with maxStack }).WellFormed := by
  have hbody := (hm.methods _ (List.mem_of_getElem? hmethod)).body b hb
  have hfit : ∀ i ∈ [Instruction.loadString string, .call call], i.operand.fits i.kind = true := by
    simp [Instruction.loadString, Instruction.call, Instruction.kind, Opcode.loadString, Opcode.call, Operand.fits]
  exact hm.withBody hmethod hb ⟨⟨hbody.code.insertAllAt hfit hcode, hbody.clauses⟩, MethodBody.sublist_insertAllAt hcode⟩

/-- A well-formed module that is prepared is well formed. -/
theorem wellFormed_prepareRecording (hm : m.WellFormed) (hconfig : config.Writable)
    (h : prepareRecording config m = .ok m') : m'.WellFormed := by
  obtain ⟨m₁, index, m₂, method, b, code, maxStack, rfl, hensure, hmethod, hb, hcode, rfl⟩ := prepareRecording_ok h
  have hmember := @readable_member _ _ ProbeNames.initSignature hconfig.scope hconfig.typeName hconfig.initMethod
  have hm₂ := ((hm.importMember hmember).internString hconfig.hitsFile).ensureInitializer hensure
  exact wellFormed_withBody hm₂ hmethod hb hcode

theorem wellFormed_importApi (hm : m.WellFormed) (hconfig : config.Writable) : (importApi config m).2.WellFormed :=
  (hm.internString hconfig.hitsFile).importMember (readable_member hconfig.scope hconfig.typeName hconfig.hitMethod)

/-- The types of a prepared module are well formed, whatever the settings say. -/
theorem wellFormed_withoutTables_prepareRecording (hm : m.withoutTables.WellFormed)
    (h : prepareRecording config m = .ok m') : m'.withoutTables.WellFormed := by
  obtain ⟨m₁, index, m₂, method, b, code, maxStack, rfl, hensure, hmethod, hb, hcode, rfl⟩ := prepareRecording_ok h
  have hensure' := Module.ensureInitializer_withoutTables hensure
  rw [Module.withoutTables_internString, Module.withoutTables_importMember] at hensure'
  exact wellFormed_withBody (hm.ensureInitializer hensure') hmethod hb hcode

theorem withoutTables_importApi (config : Config) (m : Module) :
    (importApi config m).2.withoutTables = m.withoutTables :=
  (Module.withoutTables_importMember ..).trans (Module.withoutTables_internString ..)

end Weave

end CilProbes

import CilProbes.Proofs.Coverage.Marks
import CilProbes.Proofs.Coverage.Rewriting
import CilProbes.Proofs.Probe.Carrying

/-!
# Probed module files

What is in a module file that was probed (`ProbedFile`): the methods of the module as it was prepared, each with the
probes that were placed in it. Whatever probing writes is such a file (`Weave.Rewrites.exists_probedFile`).
-/

namespace CilProbes

open TypeDef (walkAll)
open Weave (Marked Mark Ready)

namespace Module

variable {m : Module} {image symbols : List UInt8}

theorem LoadedFrom.exists_attached (h : m.LoadedFrom image symbols) : ∃ fresh file, parse image = .ok fresh ∧
    SymbolFile.parse symbols = .ok file ∧ file.Parsed ∧ m = fresh.attached file := by
  obtain ⟨fresh, file, log, log', hfresh, hfile, hattach⟩ := h
  have hparsed := SymbolFile.parsed_of_parse hfile
  exact ⟨fresh, file, hfresh, hfile, hparsed, eq_attached hparsed.toWellFormed hattach⟩

theorem LoadedFrom.wellFormed (h : m.LoadedFrom image symbols) : m.WellFormed := by
  obtain ⟨fresh, file, hfresh, -, hparsed, rfl⟩ := h.exists_attached
  exact wellFormed_attached (parsed_of_parse hfresh) hparsed

theorem LoadedFrom.parsed {image symbols : List UInt8} (h : m.LoadedFrom image symbols) :
    ∀ a ∈ m.methods, ∀ b ∈ a.body, b.Parsed := by
  obtain ⟨fresh, file, hfresh, -, hparsed, rfl⟩ := h.exists_attached
  intro a ha b hb
  obtain ⟨_, ha⟩ := (loaded_attached (parsed_of_parse hfresh) hparsed).exists_loadedAt ha
  exact (ha.body b hb).toParsed

end Module

/-- The method that was read has the name of the marked one, and the program of its body with the probes. -/
structure Weave.Marked.Carried (api : ProbeApi) (w : Marked) (e : String × Method) : Prop where
  typeName : e.1 = w.typeName
  name : e.2.name = w.method.name
  body : Option.Rel (fun b r => MethodBody.Carries b (w.splicings api) r) w.method.body e.2.body

/-- A module file with probes. -/
structure ProbedFile where
  path : Path
  /-- The module before it was probed, with its documents. -/
  pristine : Module
  documents : List String
  /-- The module with the call that prepares recording. -/
  prepared : Module
  /-- The methods in the order in which they got their probes. -/
  methods : List Marked
  /-- The content of the file, and the module that is stored in it. -/
  image : List UInt8
  written : Module

namespace ProbedFile

def marks (f : ProbedFile) : List Mark :=
  f.methods.flatMap Marked.marks

/-- The context in which the probes of the file were placed. -/
def context (config : Config) (f : ProbedFile) : Weave.Context :=
  Weave.contextOf config f.path f.documents (Weave.importApi config f.prepared).2 (Weave.importApi config f.prepared).1

/-- The file is what probing makes of the module. -/
structure Made (config : Config) (f : ProbedFile) : Prop where
  documents : f.pristine.documents = some f.documents
  prepared : Weave.prepareRecording config (f.pristine.addAttribute config.markerAttribute) = .ok f.prepared
  walked : walkAll (Weave.importApi config f.prepared).2.types = f.methods.map fun w => (w.typeName, w.method)
  valid : ∀ w ∈ f.methods, w.Valid (f.context config)
  carried : List.Forall₂ (Marked.Carried (f.context config).api) f.methods (walkAll f.written.types)
  stored : f.written.StoredIn f.image

end ProbedFile

namespace Weave

variable {config : Config} {p : Path} {m m' : Module} {c : Context} {ws : List Marked} {s s' : Logged Session}
  {placed : List PlacedProbe} {woven : List TypeDef} {files : Image.Files}

theorem ready_of_mem {method : Method} (hm : m.withoutTables.WellFormed) (h : method ∈ m.methods) : Ready method :=
  fun b hb => ⟨(hm.methods method h).body b hb, fun _ hp =>
    ((hm.anchored method h).anchors b hb).subset (List.mem_map_of_mem hp)⟩

theorem ready_of_wellFormed (hm : m.withoutTables.WellFormed) : ∀ e ∈ walkAll m.types, Ready e.2 :=
  fun _ he => ready_of_mem hm ((TypeDef.perm_walkAll m.types).subset (List.mem_map_of_mem he))

theorem Places.ready (h : Places c (walkAll m.types) (walkAll woven) placed s s' ws) (hm : m.withoutTables.WellFormed) :
    ∀ w ∈ ws, Ready w.method ∧ w.method.Readable := by
  intro w hw
  have hmem : (w.typeName, w.method) ∈ walkAll m.types := by
    rw [h.walked]
    exact List.mem_map_of_mem hw
  exact ⟨ready_of_wellFormed hm _ hmem, hm.methods _ ((TypeDef.perm_walkAll m.types).subset (List.mem_map_of_mem hmem))⟩

/-- Methods with probes can be written. -/
theorem Places.readable (h : Places c (walkAll m.types) (walkAll woven) placed s s' ws) (hm : m.withoutTables.WellFormed) :
    ∀ method ∈ TypeDef.methodsOf woven, method.Readable := by
  intro method hmethod
  obtain ⟨e, he, rfl⟩ := List.mem_map.mp ((TypeDef.perm_walkAll woven).symm.subset hmethod)
  obtain ⟨w, hw, hyields⟩ := exists_of_mem_right h.yields e he
  refine ⟨?_, fun b' hb' => ?_⟩
  · rw [hyields.rest]
    exact (h.ready hm w hw).2.name
  · have hbody := hyields.body
    rw [hb'] at hbody
    generalize w.method.body = body at hbody
    cases hbody with
    | some hprobed => exact hprobed.wellFormed

/-- A method with probes is read as such when it was written. -/
theorem Marked.Yields.carried {w : Marked} {e : String × Method} {method : Method} (h : w.Yields c e)
    (hw : w.method.Readable) (hwidened : e.2.Widened method) : w.Carried c.api (e.1, method.written) where
  typeName := h.typeName
  name := by
    show method.name = _
    rw [hwidened.rest, h.rest]
  body := by
    show Option.Rel _ w.method.body (method.body.map MethodBody.written)
    cases hb : method.body with
    | none =>
      have hbody := h.body
      rw [hwidened.body_eq_none hb] at hbody
      generalize w.method.body = body at hbody ⊢
      cases hbody
      exact .none
    | some b =>
      obtain ⟨b', hb', hbwidened⟩ := hwidened.exists_body hb
      have hbody := h.body
      have hreadable := hw.body
      rw [hb'] at hbody
      generalize w.method.body = body at hbody hreadable ⊢
      cases hbody with
      | some hprobed =>
        obtain ⟨hwf, spliced, maxStack, hspliced, rfl⟩ := hprobed
        refine .some (hspliced.carries (hreadable _ rfl) ⟨hwf.code, hwf.clauses⟩ hbwidened.code ?_)
        exact hbwidened.wellFormed hwf

/-- What is read from the image of a module with probes. -/
theorem Places.carried (h : Places c (walkAll m.types) (walkAll woven) placed s s' ws) (hm : m.withoutTables.WellFormed)
    (hwidened : ({ m with types := woven } : Module).Widened m') :
    List.Forall₂ (Marked.Carried c.api) ws (walkAll m'.written.types) := by
  have hwritten : m'.written.types = (({ m with types := woven } : Module).withMethods
      (m'.methods.map Method.written)).types := by
    show (m'.withMethods (m'.methods.map Method.written)).types = _
    conv_lhs => rw [hwidened.rest]
    rw [Module.withMethods_withMethods hwidened.methods.length_eq.symm]
    rw [Module.methods_withMethods hwidened.methods.length_eq.symm]
  have hwalk := Module.forall₂_walkAll_withMethods (R := fun a r => ∃ b, Method.Widened a b ∧ r = b.written)
    (List.forall₂_map_right_iff.mpr (hwidened.methods.imp fun a b hab => ⟨b, hab, rfl⟩))
  rw [← hwritten] at hwalk
  refine forall₂_comp (forall₂_imp_mem h.yields fun w hw e hyields => And.intro (h.ready hm w hw).2 hyields) hwalk ?_
  rintro w e ⟨typeName, r⟩ ⟨hreadable, hyields⟩ ⟨hname, method, hwidened, rfl⟩
  have := hyields.carried hreadable hwidened
  rwa [hname] at this

end Weave

end CilProbes

import CilProbes.Proofs.Module.Debug
import CilProbes.Proofs.Module.WellFormed

/-!
# Loading modules

A module is loaded from an image, and it gets its points from the symbol file that came with it, if there is one
(`Module.loadWith_ok`). What is loaded is well formed: its bodies are as they were read, and the points of a method lie
in program order (`Module.loaded_of_loadWith`).
-/

namespace CilProbes

/-! ## Methods -/

namespace Method

variable {documents index : Nat} {m : Method} {methods : List Method} {r : MethodRecord}

/-- What is known of the method at a row of a module that is being loaded. -/
structure LoadedAt (documents index : Nat) (m : Method) : Prop where
  name : Field.Writable m.name
  body : ∀ b ∈ m.body, b.Decoded
  anchored : m.Anchored documents
  row : 2 ^ 24 - 1 ≤ index → m.points = []

theorem Parsed.loadedAt (h : m.Parsed) (documents index : Nat) : m.LoadedAt documents index := by
  have hnone (p : SequencePoint) : p ∉ m.points := h.points ▸ List.not_mem_nil
  refine ⟨h.name, h.body, ⟨fun b _ => ?_, fun _ => h.points, fun p hp => absurd hp (hnone p),
    fun p hp => absurd hp (hnone p)⟩, fun _ => h.points⟩
  unfold MethodBody.Anchors
  rw [h.points]
  exact List.nil_sublist _

theorem LoadedAt.withAnchored (h : m.LoadedAt documents index) (hindex : index + 1 < 2 ^ 24)
    {points : List OffsetPoint} (hpoints : PointBlob.Ordered points)
    (hinside : ∀ p ∈ points, p.span.document.toNat < documents) : (m.withAnchored points).LoadedAt documents index := by
  obtain ⟨name, flags, implFlags, signature, body, old⟩ := m
  cases body with
  | none => exact h
  | some b =>
    refine ⟨h.name, h.body, ⟨fun b' hb' => ?_, fun hnone => (by cases hnone), fun p hp => ?_, fun p hp => ?_⟩,
      fun hrow => absurd hindex (by omega)⟩
    · cases hb'
      exact MethodBody.anchors_anchor (h.body b rfl).toParsed hpoints
    all_goals
      obtain ⟨q, hq, hp⟩ := List.mem_filterMap.mp hp
      obtain ⟨id, _, rfl⟩ := Option.map_eq_some_iff.mp hp
    · exact hpoints.spans q hq
    · exact hinside q hq

theorem index?_lt {t : Token} {table : Table} (h : t.index? table = some index) : index + 1 < 2 ^ 24 := by
  unfold Token.index? at h
  split at h
  · next hrow =>
    cases h
    have hpos : t.row.toNat ≠ 0 := fun hzero => hrow.2 (UInt32.toNat_inj.mp hzero)
    have hlt : t.row.toNat < 2 ^ 24 := by
      unfold Token.row
      rw [UInt32.toNat_ofNat']
      omega
    omega
  · cases h

theorem loadedAt_attach (h : ∀ (i : Nat) (m : Method), methods[i]? = some m → m.LoadedAt documents i)
    (hr : PointBlob.Ordered r.points)
    (hinside : ∀ p ∈ r.points, p.span.document.toNat < documents) :
    ∀ (i : Nat) (m : Method), (attach methods r)[i]? = some m → m.LoadedAt documents i := by
  unfold attach
  split
  · next index hindex =>
    intro i m hm
    rw [List.getElem?_modify, Option.map_eq_map, Option.map_eq_some_iff] at hm
    obtain ⟨old, hold, rfl⟩ := hm
    split
    · next heq =>
      subst heq
      exact (h _ old hold).withAnchored (index?_lt hindex) hr hinside
    · exact h i old hold
  · exact h

theorem loadedAt_foldl_attach {records : List MethodRecord}
    (h : ∀ (i : Nat) (m : Method), methods[i]? = some m → m.LoadedAt documents i)
    (hordered : ∀ r ∈ records, PointBlob.Ordered r.points)
    (hinside : ∀ r ∈ records, ∀ p ∈ r.points, p.span.document.toNat < documents) :
    ∀ (i : Nat) (m : Method), (records.foldl attach methods)[i]? = some m → m.LoadedAt documents i := by
  induction records generalizing methods with
  | nil => exact h
  | cons r records ih =>
    refine ih ?_ (fun r' hr' => hordered r' (List.mem_cons_of_mem r hr'))
      fun r' hr' => hinside r' (List.mem_cons_of_mem r hr')
    exact loadedAt_attach h (hordered r List.mem_cons_self) (hinside r List.mem_cons_self)

end Method

/-! ## Modules -/

namespace Module

variable {m fresh : Module} {file : SymbolFile}

/-- What loading gives, with or without a symbol file. -/
structure Loaded (m : Module) : Prop extends m.Readable where
  documents : ∀ documents ∈ m.documents, ∀ document ∈ documents, Field.Writable document
  loadedAt : ∀ (i : Nat) (method : Method), m.methods[i]? = some method →
    method.LoadedAt (m.documents.getD []).length i

theorem Loaded.exists_loadedAt (h : m.Loaded) {method : Method} (hmethod : method ∈ m.methods) :
    ∃ i, method.LoadedAt (m.documents.getD []).length i := by
  obtain ⟨i, hi⟩ := List.mem_iff_getElem?.mp hmethod
  exact ⟨i, h.loadedAt i method hi⟩

theorem Loaded.wellFormed (h : m.Loaded) : m.WellFormed where
  toReadable := h.toReadable
  documents := h.documents
  anchored method hmethod := by
    obtain ⟨i, hi⟩ := h.exists_loadedAt hmethod
    exact hi.anchored
  rows i method hmethod hi := (h.loadedAt i method hmethod).row (Nat.le_trans (le_pointRows m) hi)

theorem Parsed.loaded (h : m.Parsed) : m.Loaded where
  toReadable := h.toReadable
  documents documents hdocuments := by
    rw [h.documents] at hdocuments
    cases hdocuments
  loadedAt i method hmethod := (h.parsed method (List.mem_of_getElem? hmethod)).loadedAt _ i

/-- The module can be read, and its methods are as loading leaves them, with points in some number of documents. -/
structure Traced (documents : Nat) (m : Module) : Prop extends m.Readable where
  loadedAt : ∀ (i : Nat) (method : Method), m.methods[i]? = some method → method.LoadedAt documents i

theorem Parsed.traced (h : m.Parsed) (documents : Nat) : m.Traced documents where
  toReadable := h.toReadable
  loadedAt i method hmethod := (h.parsed method (List.mem_of_getElem? hmethod)).loadedAt documents i

theorem methods_attached (m : Module) (file : SymbolFile) :
    (m.attached file).methods = file.methods.foldl Method.attach m.methods :=
  methods_withMethods (Method.length_foldl_attach ..)

theorem Traced.attach {documents : Nat} (hm : m.Traced documents) (hfile : file.Parsed)
    (hdocuments : file.documents.length ≤ documents) : (m.attached file).Traced documents := by
  have hlen : (file.methods.foldl Method.attach m.methods).length = m.methods.length := Method.length_foldl_attach ..
  have hloaded : ∀ (i : Nat) (method : Method), (file.methods.foldl Method.attach m.methods)[i]? = some method →
      method.LoadedAt documents i :=
    Method.loadedAt_foldl_attach hm.loadedAt hfile.ordered fun r hr p hp =>
      Nat.lt_of_lt_of_le (hfile.inside r hr p hp) hdocuments
  have hreadable : (m.withMethods (file.methods.foldl Method.attach m.methods)).Readable := by
    refine hm.toReadable.withMethods hlen fun method hmethod => ?_
    obtain ⟨i, hi⟩ := List.mem_iff_getElem?.mp hmethod
    have hmethod := hloaded i method hi
    exact ⟨hmethod.name, fun b hb => (hmethod.body b hb).wellFormed⟩
  refine ⟨⟨hreadable.name, hreadable.attributes, hreadable.memberRefs, hreadable.userStrings, hreadable.types,
    hreadable.methods⟩, ?_⟩
  rw [methods_attached]
  exact hloaded

theorem loaded_attached (hm : fresh.Parsed) (hfile : file.Parsed) : (fresh.attached file).Loaded := by
  have htraced := (hm.traced file.documents.length).attach hfile (Nat.le_refl _)
  refine ⟨htraced.toReadable, fun documents hdocuments => ?_, htraced.loadedAt⟩
  cases hdocuments
  exact hfile.documents

theorem wellFormed_attached (hm : fresh.Parsed) (hfile : file.Parsed) : (fresh.attached file).WellFormed :=
  (loaded_attached hm hfile).wellFormed

/-! ## Files -/

section Files

variable {σ : Type} {s s' : Logged σ} {image data : List UInt8} {symbols : Option (List UInt8)}

/-- A module is loaded from an image alone, or it has the points of a symbol file. -/
theorem loadWith_ok (h : loadWith image symbols s = .ok m s') :
    symbols = none ∧ parse image = .ok m ∨
      ∃ data fresh file, symbols = some data ∧ parse image = .ok fresh ∧ SymbolFile.parse data = .ok file ∧
        m = fresh.attached file := by
  obtain ⟨fresh, s₁, hload, h⟩ := edit_bind_ok.mp h
  obtain ⟨hparse, -⟩ := load_ok.mp hload
  cases symbols with
  | none =>
    cases h
    exact .inl ⟨rfl, hparse⟩
  | some data =>
    obtain ⟨file, hfile, h⟩ := ofExcept_bind_ok h
    obtain ⟨⟨_, attached⟩, s₂, hattach, h⟩ := edit_bind_ok.mp h
    cases h
    have hwf := (SymbolFile.parsed_of_parse hfile).toWellFormed
    exact .inr ⟨data, fresh, file, rfl, hparse, hfile, eq_attached hwf (edit_onOther_ok.mp hattach).1⟩

theorem loadWith_image (h : parse image = .ok m) (s : Logged σ) : ∃ s', loadWith image none s = .ok m s' :=
  ⟨_, edit_bind_ok.mpr ⟨m, _, load_ok.mpr ⟨h, rfl⟩, rfl⟩⟩

theorem loadWith_symbols (h : parse image = .ok fresh) (hfile : SymbolFile.parse data = .ok file)
    (hwf : file.WellFormed) (s : Logged σ) : ∃ s', loadWith image (some data) s = .ok (fresh.attached file) s' := by
  obtain ⟨log, hattach⟩ := attach_ok hwf fresh (s.log.push (.parsed fresh.name fresh.types.length))
  refine ⟨{ s with log }, edit_bind_ok.mpr ⟨fresh, _, load_ok.mpr ⟨h, rfl⟩, ?_⟩⟩
  refine edit_bind_ok.mpr ⟨file, _, by rw [hfile]; rfl, ?_⟩
  exact edit_bind_ok.mpr ⟨((), fresh.attached file), { s with log }, edit_onOther_ok.mpr ⟨hattach, rfl⟩, rfl⟩

theorem loaded_of_loadWith (h : loadWith image symbols s = .ok m s') : m.Loaded := by
  rcases loadWith_ok h with ⟨rfl, hparse⟩ | ⟨data, fresh, file, rfl, hparse, hfile, rfl⟩
  · exact (parsed_of_parse hparse).loaded
  · exact loaded_attached (parsed_of_parse hparse) (SymbolFile.parsed_of_parse hfile)

end Files

end Module

end CilProbes

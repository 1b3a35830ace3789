import CilProbes.Proofs.Body.Settled
import CilProbes.Proofs.Module.Loading
import CilProbes.Proofs.Module.RoundTrip

/-!
# Writing modules that were loaded

Many files are loaded that are never written. But a module that was loaded stays as it is when it is written, and from
then on nothing changes any more: the new files are loaded as the same module, but for stack depths that tiny headers
have no room for, and this module is written in the same files (`Module.loadWith_encode`).
-/

namespace CilProbes

/-! ## Methods -/

namespace Method

/-- The method as it is loaded when it was loaded before and written. -/
def settled (m : Method) : Method :=
  { m with body := m.body.map MethodBody.settled }

variable {m m' : Method} {documents index : Nat} {image : Image.MethodImage}

theorem LoadedAt.body_written (h : m.LoadedAt documents index) :
    m.body.map MethodBody.written = m.body.map MethodBody.settled :=
  Option.map_congr fun b hb => (h.body b hb).written_eq

/-- The points of a method that was loaded are at the places of the program that they have. -/
theorem LoadedAt.reread_eq (h : m.LoadedAt documents index) : m.reread = m.settled := by
  have hpoints : (m.body.map fun b => b.placePoints m.points).getD [] = m.points := by
    cases hbody : m.body with
    | none => exact (h.anchored.bare hbody).symm
    | some b =>
      refine (List.map_congr_left fun p hp => ?_).trans (List.map_id _)
      have hb := h.body b hbody
      have hid := (h.anchored.anchors b hbody).subset (List.mem_map_of_mem hp)
      rw [hb.code.place_eq ((hb.wellFormed.code.mem_ids _).mp hid)]
      rfl
  unfold reread written settled
  rw [hpoints, h.body_written]

theorem LoadedAt.written_eq (h : m.LoadedAt documents index) (hpoints : m.points = []) : m.written = m.settled := by
  unfold written settled
  rw [h.body_written, ← hpoints]

/-- A method that was loaded is written as it is, and so is the method that is loaded then, in the same bytes. -/
theorem LoadedAt.encode_settled (h : m.LoadedAt documents index) (hencode : Image.encodeMethod m = .ok image m') :
    m' = m ∧ Image.encodeMethod m.settled = .ok image m.settled := by
  obtain ⟨header, hheader, ⟨hbody, rfl, rfl⟩ | ⟨b, e, b', hbody, hcode, rfl, himage⟩⟩ :=
    Image.encodeMethod_eq_ok.mp hencode
  · refine ⟨rfl, Image.encodeMethod_eq_ok.mpr ⟨header, hheader, .inl ⟨?_, rfl, rfl⟩⟩⟩
    unfold settled
    rw [hbody]
    rfl
  · obtain ⟨rfl, hsettled⟩ := (h.body b hbody).encode_settled hcode
    have hsame : m.settled.body = some b'.settled := by
      unfold settled
      rw [hbody]
      rfl
    refine ⟨by rw [← hbody], Image.encodeMethod_eq_ok.mpr ⟨header, hheader, .inr ?_⟩⟩
    exact ⟨b'.settled, e, b'.settled, hsame, hsettled, by rw [← hsame], himage⟩

end Method

/-! ## Modules -/

namespace Module

variable {m m' : Module} {files : Image.Files}

/-- The module as it is loaded when it was loaded before and written. -/
def settled (m : Module) : Module :=
  m.withMethods (m.methods.map Method.settled)

/-- A loaded module is written as it is, and so is the module that is loaded then, in the same files. -/
theorem Loaded.encode_settled (h : m.Loaded) (hencode : m.encode = .ok files m') :
    m' = m ∧ m.settled.encode = .ok files m.settled := by
  obtain ⟨images, methods, heach, rfl, hfiles⟩ := encode_eq_ok.mp hencode
  obtain ⟨pairs, rfl, rfl, hpairs⟩ := each_ok heach
  have hall := forall₂_imp_mem hpairs fun method hmethod pair hpair => by
    obtain ⟨i, hi⟩ := h.exists_loadedAt hmethod
    exact hi.encode_settled hpair
  have hsame : m.methods = pairs.map Prod.snd :=
    (List.map_id _).symm.trans (map_eq_of_forall₂ hall fun method _ pair hpair => hpair.1.symm)
  rw [← hsame, withMethods_methods] at hfiles ⊢
  have hlen : (m.methods.map Method.settled).length = m.methods.length := List.length_map ..
  have hmethods : m.settled.methods = m.methods.map Method.settled := methods_withMethods hlen
  have hagain : Edit.each Image.encodeMethod m.settled.methods = .ok (pairs.map Prod.fst) m.settled.methods := by
    have hpairs' : List.Forall₂ (fun method pair => Image.encodeMethod method = .ok pair.1 pair.2)
        (m.methods.map Method.settled) (pairs.map fun pair => (pair.1, pair.2.settled)) := by
      refine List.forall₂_map_left_iff.mpr (List.forall₂_map_right_iff.mpr (hall.imp ?_))
      rintro _ pair ⟨rfl, hpair⟩
      exact hpair
    have heach' := each_of_forall₂ hpairs'
    rw [List.map_map, List.map_map] at heach'
    rw [hmethods, heach', hsame, List.map_map]
    rfl
  refine ⟨rfl, encode_eq_ok.mpr ⟨pairs.map Prod.fst, m.settled.methods, hagain, (withMethods_methods _).symm, ?_⟩⟩
  exact (Image.files_withMethods hlen _).trans hfiles

theorem Loaded.reread_eq_settled (h : m.Loaded) : m.reread = m.settled := by
  unfold reread settled
  congr 1
  refine List.ext_getElem (by simp) fun i hi _ => ?_
  rw [List.length_mapIdx] at hi
  have hmethod := h.loadedAt i m.methods[i] (List.getElem?_eq_getElem hi)
  rw [List.getElem_mapIdx, List.getElem_map]
  split
  · exact hmethod.reread_eq
  · next hrow => exact hmethod.written_eq (hmethod.row (by omega))

theorem Parsed.written_eq_settled (hm : m.Parsed) : m.written = m.settled := by
  have hmethods : m.methods.map Method.written = m.methods.map Method.settled :=
    List.map_congr_left fun method hmethod =>
      ((hm.parsed method hmethod).loadedAt 0 0).written_eq (hm.parsed method hmethod).points
  unfold written settled
  rw [hmethods, ← hm.documents]
  rfl

/-! ## Files -/

section Files

variable {σ : Type} {s s' : Logged σ} {image : List UInt8} {symbols : Option (List UInt8)}

/--
Loading and writing is a normal form. A module that was loaded, from whatever files, stays as it is when it is written.
Its new files are loaded, as the same module but for the stack depths of bodies with tiny headers, and that module is
written in the same files.
-/
theorem loadWith_encode (h : loadWith image symbols s = .ok m s') (hencode : m.encode = .ok files m') :
    m' = m ∧ (∀ t : Logged σ, ∃ t', loadWith files.image files.symbols t = .ok m.settled t') ∧
      m.settled.encode = .ok files m.settled := by
  have hloaded := loaded_of_loadWith h
  obtain ⟨rfl, hagain⟩ := hloaded.encode_settled hencode
  refine ⟨rfl, ?_, hagain⟩
  rcases loadWith_ok h with ⟨rfl, hparse⟩ | ⟨data, fresh, file, rfl, hparse, hfile, rfl⟩
  · have hm := parsed_of_parse hparse
    obtain ⟨-, hread, images, -, hsymbols⟩ := parse_encode hm.toReadable hencode
    rw [hm.documents] at hsymbols
    have hnone : files.symbols = none := (Except.ok.inj hsymbols).symm
    rw [hm.written_eq_settled] at hread
    rw [hnone]
    exact loadWith_image hread
  · obtain ⟨-, hread, data', file', hdata', hfile', hwf', hattached⟩ :=
      attached_encode hloaded.wellFormed rfl hencode
    rw [hloaded.reread_eq_settled] at hattached
    rw [hdata', ← hattached]
    exact loadWith_symbols hread hfile' hwf'

/-- A module with a later minor version and padded integers. Its first method has a fat header of four words with a flag
that means nothing, its second one two sections of clauses. -/
def untidyImage : List UInt8 :=
  [0x43, 0x49, 0x4C, 0x4D, 1, 0, 7, 0, 0x81, 0, 0x6D, 0x80, 0, 0, 0, 0x80, 1, 0, 0, 0, 0, 0, 1, 0x54, 2, 0, 0, 0, 0, 1,
    0x66, 0, 1, 17, 0x23, 0x40, 5, 0, 1, 0, 0, 0, 0, 0, 0, 0, 9, 9, 9, 9, 0x2A, 0, 0, 0, 0, 1, 0x67, 0, 1, 60, 0x0B, 0x30,
    2, 0, 3, 0, 0, 0, 0, 0, 0, 0, 0, 0, 0x2A, 0, 0x81, 16, 0, 0, 0x12, 0, 0, 0, 1, 1, 0, 1, 0, 0, 0, 0, 0x41, 28, 0, 0, 4,
    0, 0, 0, 1, 0, 0, 0, 1, 0, 0, 0, 2, 0, 0, 0, 1, 0, 0, 0, 0, 0, 0, 0, 0]

/-- A record of no method and two of the second one, of which the later has a padded integer, a document twice and a
point that no instruction starts at. -/
def untidySymbols : List UInt8 :=
  [0x43, 0x50, 0x44, 0x42, 1, 0, 1, 1, 0x64, 3, 9, 0, 0, 6, 0, 2, 0, 0, 6, 6, 1, 0, 0, 5, 3, 2, 2, 0, 0, 6, 15, 1, 0x80, 0,
    0, 5, 3, 2, 0, 1, 1, 0, 0, 7, 0, 0]

/-- Only the first method gets a tiny header. -/
theorem loadWith_encode_untidy : ∃ (m : Module) (s : Logged Unit) (files : Image.Files),
    loadWith untidyImage (some untidySymbols) ⟨(), #[]⟩ = .ok m s ∧
    (m.methods.map fun method => method.body.map MethodBody.maxStack) = [some 5, some 2] ∧
    (m.methods.map fun method => method.points.length) = [0, 2] ∧
    m.encode = .ok files m ∧ files.image.length < untidyImage.length ∧
    (∀ t : Logged Unit, ∃ t', loadWith files.image files.symbols t = .ok m.settled t') ∧
    m.settled.encode = .ok files m.settled ∧
    (m.settled.methods.map fun method => method.body.map MethodBody.maxStack) = [some 8, some 2] := by
  obtain ⟨m, s, hload, hdepths, hpoints, files, m', hencode, hshorter, hsettled⟩ : ∃ (m : Module) (s : Logged Unit),
      (loadWith untidyImage (some untidySymbols)).run ⟨(), #[]⟩ = .ok m s ∧
      (m.methods.map fun method => method.body.map MethodBody.maxStack) = [some 5, some 2] ∧
      (m.methods.map fun method => method.points.length) = [0, 2] ∧
      ∃ files m', encode.run m = .ok files m' ∧ files.image.length < untidyImage.length ∧
        (m.settled.methods.map fun method => method.body.map MethodBody.maxStack) = [some 8, some 2] := by
    decide +kernel
  obtain ⟨rfl, hreload, hagain⟩ := loadWith_encode hload hencode
  exact ⟨_, s, files, hload, hdepths, hpoints, hencode, hshorter, hreload, hagain, hsettled⟩

end Files

end Module

end CilProbes

import CilProbes.Proofs.Coverage.Selection

/-!
# Hidden points

A hidden point stands on a line of its own, `hiddenLine`, without columns. Probing does not ask whether a point is
hidden, but looks up the text of its span, and there is none unless the source file has as many lines as that
(`SourceText.extract_hiddenIn`). So a hidden point gets a probe only in such a file (`Weave.method_hidden`), and there it
does (`Weave.method_blank`).
-/

namespace CilProbes

/-! ## The text of a hidden point -/

/-- A file with enough lines has an empty text for a hidden point. -/
theorem SourceText.extract_hiddenIn (lines : Array (List Char)) (document : UInt64) :
    extract lines (.hiddenIn document) = if lines.size < hiddenLine.toNat then none else some [] := by
  have hline : lines[hiddenLine.toNat - 1]? = none ↔ lines.size < hiddenLine.toNat := by
    have hpos : 0 < hiddenLine.toNat := by decide
    rw [Array.getElem?_eq_none_iff]
    omega
  unfold extract SourceSpan.hiddenIn
  dsimp only
  rw [if_neg (by decide)]
  cases hfound : lines[hiddenLine.toNat - 1]? with
  | none => rw [if_pos (hline.mp hfound)]
  | some line =>
    rw [if_neg fun hlt => absurd (hline.mpr hlt) (by rw [hfound]; exact Option.some_ne_none line)]
    rfl

namespace Weave

variable {c : Context} {typeName : String} {p : SequencePoint} {ps : List SequencePoint} {b : MethodBody}
  {view : Session} {s s' : Logged Session} {m woven : Module} {a a' : Method} {placed : List PlacedProbe}

/-- A hidden point counts as a statement just in a source file that has its line. -/
theorem selects_hidden (hp : p.span.WellFormed) (hhidden : p.span.hidden = true) : c.selects view p = true ↔
    ∃ document lines, c.source? p = some document ∧ view.lines? ⟨document⟩ = some lines ∧
      hiddenLine.toNat ≤ lines.size := by
  have htext (lines : Array (List Char)) : (∃ text, SourceText.extract lines p.span = some text ∧
      SourceText.isStatement text = true) ↔ hiddenLine.toNat ≤ lines.size := by
    rw [hp hhidden, SourceText.extract_hiddenIn]
    constructor
    · rintro ⟨text, htext, -⟩
      split at htext
      · cases htext
      · next hlong => exact Nat.not_lt.mp hlong
    · intro hlong
      exact ⟨[], if_neg (Nat.not_lt.mpr hlong), rfl⟩
  rw [selects_iff]
  constructor
  · rintro ⟨document, lines, text, hsource, hlines, hstatement⟩
    exact ⟨document, lines, hsource, hlines, (htext lines).mp ⟨text, hstatement⟩⟩
  · rintro ⟨document, lines, hsource, hlines, hlong⟩
    obtain ⟨text, hstatement⟩ := (htext lines).mpr hlong
    exact ⟨document, lines, text, hsource, hlines, hstatement⟩

/-! ## Methods with hidden points -/

/-- Whatever probes a method gets, they are at points that lie on statements. -/
theorem method_selects (ha : Ready a) (h : Weave.method c typeName a s = .ok (a', placed) s') :
    ∃ marks, placed = marks.map Mark.probe ∧ Probes c a marks a' ∧
      ∀ mark ∈ marks, mark.point ∈ a.points ∧ c.selects s'.value mark.point = true := by
  cases hbody : a.body with
  | none =>
    unfold Weave.method at h
    rw [hbody] at h
    cases h
    refine ⟨[], rfl, ⟨?_, rfl⟩, fun _ hmark => absurd hmark List.not_mem_nil⟩
    rw [hbody]
    exact .none
  | some b =>
    obtain ⟨hb, hmem⟩ := ha b hbody
    obtain ⟨marks, spliced, hplaced, hspliced, -, rfl, hmarks⟩ := method_marks hbody hb.code hmem h
    refine ⟨marks, hplaced, ⟨?_, rfl⟩, hmarks⟩
    rw [hbody]
    exact .some ⟨spliced, hspliced, rfl⟩

/--
In a method of a loaded module, whatever the source files contain, a hidden point gets a probe only if it has a document
in scope of at least `hiddenLine` lines.
-/
theorem method_hidden {σ : Type} {t t' : Logged σ} {image : List UInt8} {symbols : Option (List UInt8)}
    (hm : Module.loadWith image symbols t = .ok m t') (hwoven : Offers m woven) (ha : a ∈ woven.methods)
    (h : Weave.method c typeName a s = .ok (a', placed) s') :
    ∃ marks, placed = marks.map Mark.probe ∧ Probes c a marks a' ∧
      ∀ mark ∈ marks, mark.point ∈ a.points ∧ (mark.point.span.hidden = true →
        ∃ document lines, c.source? mark.point = some document ∧ s'.value.lines? ⟨document⟩ = some lines ∧
          hiddenLine.toNat ≤ lines.size) := by
  have hwf := hwoven.wellFormed (Module.loaded_of_loadWith hm).wellFormed
  obtain ⟨marks, hplaced, hprobes, hselects⟩ := method_selects (ready_of_mem hwf ha) h
  refine ⟨marks, hplaced, hprobes, fun mark hmark => ?_⟩
  obtain ⟨hpoint, hstatement⟩ := hselects mark hmark
  exact ⟨hpoint, fun hhidden => (selects_hidden ((hwf.anchored a ha).spans _ hpoint) hhidden).mp hstatement⟩

/-! ## Files of blank lines -/

/-- A module with the method `nop`, `ret`. -/
def hiddenImage : List UInt8 :=
  [0x43, 0x49, 0x4C, 0x4D, 1, 0, 0, 0, 1, 0x61, 0, 0, 0, 1, 0, 0, 0, 0, 0, 8, 0x3C, 0x4D, 0x6F, 0x64, 0x75, 0x6C, 0x65,
    0x3E, 1, 0x16, 0, 0, 0, 1, 0x66, 0, 1, 3, 0x0A, 0x00, 0x2A, 0]

/-- A point in its first line, and a hidden one. -/
def hiddenSymbols : List UInt8 :=
  [0x43, 0x50, 0x44, 0x42, 1, 0, 1, 3, 0x73, 0x2F, 0x64, 1, 1, 0, 0, 6, 9, 1, 0, 0, 2, 1, 1, 1, 0, 0]

/-- A session with a source file of so many blank lines. -/
def blankSession (n : Nat) : Session where
  disk.entries := [(Disk.home, .folder), (Disk.home ++ [['s']], .folder),
    (Disk.home ++ [['s'], ['d']], .file (List.replicate n 0x0A))]

def blankContext : Context where
  scope := .below "s" ["s/d"]
  documents := #["s/d"]
  assembly := "a"
  api := ⟨⟨0x70000001⟩, ⟨0x0A000001⟩⟩

/-- In a short file, just the visible point gets a probe. -/
theorem method_hidden_short : ∃ (m : Module) (t : Logged Unit) (a a' : Method) (marks : List Mark) (s' : Logged Session),
    Module.loadWith hiddenImage (some hiddenSymbols) ⟨(), #[]⟩ = .ok m t ∧ a ∈ m.methods ∧
    (a.points.map fun p => p.span.hidden) = [false, true] ∧
    Weave.method blankContext "<Module>" a ⟨blankSession 3, #[]⟩ = .ok (a', marks.map Mark.probe) s' ∧
    marks.length = 1 ∧ ∀ mark ∈ marks, mark.point.span.hidden = false := by
  obtain ⟨m, t, hloaded, hsome, hmethods⟩ : ∃ (m : Module) (t : Logged Unit),
      (Module.loadWith hiddenImage (some hiddenSymbols)).run ⟨(), #[]⟩ = .ok m t ∧ m.methods ≠ [] ∧
        ∀ a ∈ m.methods, (a.points.map fun p => p.span.hidden) = [false, true] ∧
          ∃ out s', Weave.method blankContext "<Module>" a ⟨blankSession 3, #[]⟩ = .ok out s' ∧ out.2.length = 1 ∧
            ∀ p ∈ a.points, ((blankContext.source? p).all fun document =>
              (s'.value.lines? ⟨document⟩).all fun lines => lines.size < hiddenLine.toNat) = true := by
    decide +kernel
  obtain ⟨a, ha⟩ := List.exists_mem_of_ne_nil _ hsome
  obtain ⟨hpoints, ⟨a', placed⟩, s', hmethod, hone, hshort⟩ := hmethods a ha
  obtain ⟨marks, rfl, -, hmarks⟩ := method_hidden hloaded (.inl rfl) ha hmethod
  refine ⟨m, t, a, a', marks, s', hloaded, ha, hpoints, hmethod, by rwa [List.length_map] at hone, fun mark hmark => ?_⟩
  obtain ⟨hpoint, hhidden⟩ := hmarks mark hmark
  by_contra hvisible
  obtain ⟨document, lines, hsource, hlines, hlong⟩ := hhidden (Bool.not_eq_false _ ▸ hvisible)
  have hless := hshort _ hpoint
  rw [hsource, Option.all_some, hlines, Option.all_some, decide_eq_true_eq] at hless
  omega

theorem decodeLossyOnto_blank (n : Nat) (done : List Char) :
    Utf8.decodeLossyOnto done (List.replicate n 0x0A) = done.reverse ++ List.replicate n '\n' := by
  induction n generalizing done with
  | zero => rw [List.replicate_zero, Utf8.decodeLossyOnto, List.replicate_zero, List.append_nil]
  | succ n ih =>
    have hlead : Utf8.lead 0x0A (List.replicate n 0x0A) = .scalar '\n' 1 := rfl
    rw [List.replicate_succ, Utf8.decodeLossyOnto, hlead]
    dsimp only
    rw [Nat.sub_self, List.drop_zero, ih, List.reverse_cons, List.append_assoc, List.replicate_succ,
      List.singleton_append]

theorem linesOnto_blank (n : Nat) (done : Array (List Char)) :
    SourceText.lines.linesOnto (List.replicate n '\n') [] done = done ++ Array.replicate n [] := by
  induction n generalizing done with
  | zero => exact Array.append_empty.symm
  | succ n ih =>
    have hstep : SourceText.lines.linesOnto (List.replicate (n + 1) '\n') [] done =
        SourceText.lines.linesOnto (List.replicate n '\n') [] (done.push []) := rfl
    have hjoin : #[[]] ++ Array.replicate n ([] : List Char) = Array.replicate (n + 1) [] := by
      rw [← Array.replicate_one, Array.replicate_append_replicate, Nat.add_comm]
    rw [hstep, ih, ← Array.append_singleton_assoc, hjoin]

theorem ofBytes_blank (n : Nat) : SourceText.ofBytes (List.replicate n 0x0A) = Array.replicate n [] := by
  have htext : SourceText.ofBytes (List.replicate n 0x0A) = SourceText.lines (List.replicate n '\n') := by
    unfold SourceText.ofBytes Utf8.decodeLossy
    rw [decodeLossyOnto_blank]
    cases n <;> rfl
  rw [htext, SourceText.lines, linesOnto_blank, Array.empty_append]

theorem lines?_blankSession (n : Nat) : (blankSession n).lines? ⟨"s/d"⟩ = some (Array.replicate n []) := by
  have hcontent : (blankSession n).disk.content? ⟨"s/d"⟩ = some (List.replicate n 0x0A) := rfl
  unfold Session.lines?
  rw [hcontent, Option.map_some, ofBytes_blank]
  rfl

/-- On a line of a blank file there is an empty text. -/
theorem extract_blank {n : Nat} {span : SourceSpan} (hfirst : 0 < span.startLine.toNat)
    (hlast : span.startLine.toNat ≤ n) (hsame : span.endLine = span.startLine) :
    SourceText.extract (Array.replicate n []) span = some [] := by
  have hne : span.startLine ≠ 0 := fun h => by rw [h] at hfirst; exact absurd hfirst (by decide)
  have hline : (Array.replicate n ([] : List Char))[span.startLine.toNat - 1]? = some [] := by
    rw [Array.getElem?_replicate, if_pos (by omega)]
  unfold SourceText.extract
  dsimp only
  rw [if_neg hne, hline, hsame]
  dsimp only
  rw [if_pos (Nat.le_refl _), SourceText.slice, List.drop_nil, List.take_nil]

/-- Where every point lies on a statement and no instruction is modified, every point is chosen. -/
theorem chosen_eq_self (h : ∀ p ∈ ps, c.selects view p = true ∧ isModified b p.instruction = false) :
    c.chosen view b ps = ps := by
  have hcuts : ∀ p ∈ ps, (!c.cuts view b p) = true := by
    intro p hp
    obtain ⟨hselects, hmodified⟩ := h p hp
    obtain ⟨document, lines, text, hsource, -⟩ := selects_iff.mp hselects
    unfold Context.cuts
    rw [hsource, hmodified, Bool.and_false]
    rfl
  unfold Context.chosen
  rw [List.takeWhile_eq_self_iff.mpr hcuts, List.filter_eq_self.mpr fun p hp => (h p hp).1]

/-- Where a file of blank lines has the lines of all points, all of them get probes. -/
theorem method_blank {n : Nat} (hn : hiddenLine.toNat ≤ n) :
    ∃ (m : Module) (t : Logged Unit) (a a' : Method) (marks : List Mark) (s' : Logged Session),
    Module.loadWith hiddenImage (some hiddenSymbols) ⟨(), #[]⟩ = .ok m t ∧ a ∈ m.methods ∧
    Weave.method blankContext "<Module>" a ⟨blankSession n, #[]⟩ = .ok (a', marks.map Mark.probe) s' ∧
    (marks.map fun mark => mark.point.span.hidden) = [false, true] := by
  obtain ⟨m, t, hloaded, hsome, hmethods⟩ : ∃ (m : Module) (t : Logged Unit),
      (Module.loadWith hiddenImage (some hiddenSymbols)).run ⟨(), #[]⟩ = .ok m t ∧ m.methods ≠ [] ∧
        ∀ a ∈ m.methods, ((grouped a.points).map fun p => p.span.hidden) = [false, true] ∧
          (a.body.any fun b => a.points.all fun p => !isModified b p.instruction) = true ∧
          ∀ p ∈ a.points, p.span.document.toNat < blankContext.documents.size ∧ blankContext.source? p = some "s/d" ∧
            0 < p.span.startLine.toNat ∧ p.span.startLine.toNat ≤ hiddenLine.toNat ∧
            p.span.endLine = p.span.startLine := by
    decide +kernel
  obtain ⟨a, ha⟩ := List.exists_mem_of_ne_nil _ hsome
  obtain ⟨hhidden, hbody, hpoints⟩ := hmethods a ha
  obtain ⟨b, hb, hunmodified⟩ := (Option.any_eq_true _ _).mp hbody
  have hlegible (p : SequencePoint) (hp : p ∈ a.points) : Legible blankContext (blankSession n) p := by
    refine ⟨(hpoints p hp).1, fun document hdocument => ?_⟩
    cases (hpoints p hp).2.1.symm.trans hdocument
    exact ⟨_, lines?_blankSession n⟩
  have hselection : selection blankContext (blankSession n) a = grouped a.points := by
    unfold selection
    rw [hb]
    apply chosen_eq_self
    intro p hp
    have hp := mem_of_mem_grouped hp
    obtain ⟨-, hsource, hfirst, hlast, hsame⟩ := hpoints p hp
    have htext := extract_blank hfirst (hlast.trans hn) hsame
    have hmodified := List.all_eq_true.mp hunmodified p hp
    exact ⟨selects_iff.mpr ⟨_, _, _, hsource, lines?_blankSession n, htext, rfl⟩, by simpa using hmodified⟩
  have hsuffices : Suffices 1 (selection blankContext (blankSession n) a).length := by
    rw [hselection, ← List.length_map, hhidden]
    decide
  have hwf := Offers.wellFormed (.inl rfl) (Module.loaded_of_loadWith hloaded).wellFormed
  obtain ⟨marks, a', s', hmethod, hmarking, -⟩ : ∃ marks a' s',
      Weave.method blankContext "<Module>" a ⟨blankSession n, #[]⟩ = .ok (a', marks.map Mark.probe) s' ∧
      Marking blankContext "<Module>" a.name (selection blankContext (blankSession n) a) (blankSession n).ids marks
        s'.value.ids ∧ Probes blankContext a marks a' :=
    (method_places_of_ready (ready_of_mem hwf ha) hlegible).1 hsuffices
  refine ⟨m, t, a, a', marks, s', hloaded, ha, hmethod, ?_⟩
  rw [← hhidden, ← hselection, ← hmarking.points, List.map_map]
  rfl

/-- With as many lines as the number of the hidden one, a source file is long enough. -/
theorem method_hidden_long :
    ∃ (m : Module) (t : Logged Unit) (a a' : Method) (marks : List Mark) (s' : Logged Session),
    Module.loadWith hiddenImage (some hiddenSymbols) ⟨(), #[]⟩ = .ok m t ∧ a ∈ m.methods ∧
    Weave.method blankContext "<Module>" a ⟨blankSession 0xFEEFEE, #[]⟩ = .ok (a', marks.map Mark.probe) s' ∧
    ∃ mark ∈ marks, mark.point.span.hidden = true := by
  obtain ⟨m, t, a, a', marks, s', hloaded, ha, hmethod, hhidden⟩ := method_blank (n := 0xFEEFEE) (by decide)
  refine ⟨m, t, a, a', marks, s', hloaded, ha, hmethod, ?_⟩
  have hlast : true ∈ marks.map fun mark => mark.point.span.hidden := by
    rw [hhidden]
    decide
  exact List.mem_map.mp hlast

end Weave

end CilProbes

import CilProbes.Coverage.Weave
import CilProbes.Proofs.Coverage.Sessions

/-!
# Source files and the statements in them

The lines of a source file are those that were read of it first (`Session.lines?`). Reading another file does not change
them (`Session.Keeps`), so a point that lies on a statement (`Weave.Context.selects`) does so for the rest of the work
(`Weave.selects_of_keepsLines`).
-/

namespace CilProbes

/-! ## Source files -/

/-- The lines of a source file: those that were read before, or else those on the disk. -/
def Session.lines? (s : Session) (p : Path) : Option (Array (List Char)) :=
  (s.sources.lookup p.components).or ((s.disk.content? p).map SourceText.ofBytes)

namespace Session

/-- No number is given out, and no source file gets other lines. -/
structure Keeps (s s' : Logged Session) : Prop where
  ids : s'.value.ids = s.value.ids
  lines : ∀ p lines, s.value.lines? p = some lines → s'.value.lines? p = some lines

variable {s s' s'' : Logged Session} {p : Path} {lines : Array (List Char)}

theorem Keeps.refl (s : Logged Session) : Keeps s s :=
  ⟨rfl, fun _ _ h => h⟩

theorem Keeps.logged (s : Logged Session) (log : Log) : Keeps s { s with log } :=
  ⟨rfl, fun _ _ h => h⟩

theorem Keeps.trans (h : Keeps s s') (h' : Keeps s' s'') : Keeps s s'' :=
  ⟨h'.ids.trans h.ids, fun p lines hp => h'.lines p lines (h.lines p lines hp)⟩

/-- Keeping the lines of a file that was read changes the lines of no other one, also where the path is written
differently. -/
theorem lines?_cached {sources : SourceCache} {disk : Disk} {ids : ProbeIds} {content : List UInt8}
    (hfresh : sources.lookup p.components = none) (hcontent : disk.content? p = some content) {q : Path}
    (h : lines? ⟨disk, sources, ids⟩ q = some lines) :
    lines? ⟨disk, (p.components, SourceText.ofBytes content) :: sources, ids⟩ q = some lines := by
  unfold lines? at h ⊢
  dsimp only at h ⊢
  by_cases hsame : q.components = p.components
  · rw [hsame, hfresh, Option.none_or] at h
    obtain ⟨content', hcontent', rfl⟩ := Option.map_eq_some_iff.mp h
    rw [Disk.content?_eq_of_components hsame.symm hcontent hcontent', hsame, List.lookup_cons_self]
    rfl
  · have hne : (q.components == p.components) = false := beq_eq_false_iff_ne.mpr hsame
    rw [List.lookup_cons, hne]
    exact h

theorem sourceLines_ok (h : s.value.lines? p = some lines) : ∃ s', sourceLines p s = .ok lines s' ∧ Keeps s s' := by
  unfold sourceLines
  rw [edit_get_bind]
  cases hcached : s.value.sources.lookup p.components with
  | some cached =>
    unfold lines? at h
    rw [hcached] at h
    cases h
    exact ⟨s, rfl, .refl s⟩
  | none =>
    obtain ⟨content, hcontent, rfl⟩ : ∃ content, s.value.disk.content? p = some content ∧
        SourceText.ofBytes content = lines := by
      unfold lines? at h
      rw [hcached, Option.none_or] at h
      exact Option.map_eq_some_iff.mp h
    have hread : read p s = .ok content s := ask_ok.mpr ⟨Disk.read_ok.mpr hcontent, rfl⟩
    exact ⟨_, edit_bind_ok.mpr ⟨content, s, hread, rfl⟩, rfl, fun q lines' hq => lines?_cached hcached hcontent hq⟩

theorem statement?_ok (h : s.value.lines? p = some lines) (span : SourceSpan) : ∃ s',
    statement? p span s = .ok ((SourceText.extract lines span).filter SourceText.isStatement) s' ∧ Keeps s s' := by
  obtain ⟨s', hlines, hkeeps⟩ := sourceLines_ok h
  exact ⟨s', edit_bind_ok.mpr ⟨lines, s', hlines, rfl⟩, hkeeps⟩

/-- Whatever lines are given, they are those of the file. -/
theorem lines?_of_sourceLines (h : sourceLines p s = .ok lines s') : s.value.lines? p = some lines ∧ Keeps s s' := by
  have hlines : s.value.lines? p = some lines := by
    unfold sourceLines at h
    rw [edit_get_bind] at h
    unfold lines?
    cases hcached : s.value.sources.lookup p.components with
    | some cached =>
      rw [hcached] at h
      cases h
      rfl
    | none =>
      rw [hcached] at h
      obtain ⟨content, s₁, hread, hrest⟩ := edit_bind_ok.mp h
      obtain ⟨hcontent, rfl⟩ := ask_ok.mp hread
      cases hrest
      rw [Disk.read_ok.mp hcontent]
      rfl
  obtain ⟨s'', h', hkeeps⟩ := sourceLines_ok hlines
  cases h.symm.trans h'
  exact ⟨hlines, hkeeps⟩

theorem lines?_of_statement? {span : SourceSpan} {found : Option (List Char)}
    (h : statement? p span s = .ok found s') : Keeps s s' ∧ ∃ lines, s'.value.lines? p = some lines ∧
      found = (SourceText.extract lines span).filter SourceText.isStatement := by
  obtain ⟨lines, s₁, hsource, h⟩ := edit_bind_ok.mp h
  cases h
  obtain ⟨hlines, hkeeps⟩ := lines?_of_sourceLines hsource
  exact ⟨hkeeps, lines, hkeeps.lines p lines hlines, rfl⟩

/-- No source file gets other lines. -/
def KeepsLines (s s' : Session) : Prop :=
  ∀ p lines, s.lines? p = some lines → s'.lines? p = some lines

theorem KeepsLines.refl (s : Session) : KeepsLines s s :=
  fun _ _ h => h

theorem KeepsLines.trans {s s' s'' : Session} (h : KeepsLines s s') (h' : KeepsLines s' s'') : KeepsLines s s'' :=
  fun p lines hp => h' p lines (h p lines hp)

end Session

/-! ## Statements -/

namespace Weave

/-- The document of a point, if it is in scope. -/
def Context.source? (c : Context) (p : SequencePoint) : Option String :=
  c.documents[p.span.document.toNat]?.filter c.scope.contains

/-- The point lies on a statement of a source file in scope. -/
def Context.selects (c : Context) (s : Session) (p : SequencePoint) : Bool :=
  match (c.source? p).bind fun document => s.lines? ⟨document⟩ with
  | some lines => (SourceText.extract lines p.span).any SourceText.isStatement
  | none => false

variable {c : Context} {p : SequencePoint} {view view' : Session}

theorem source?_eq {document : String} (h : c.documents[p.span.document.toNat]? = some document) :
    c.source? p = if c.scope.contains document then some document else none := by
  unfold Context.source?
  rw [h]
  rfl

theorem selects_eq {document : String} {lines : Array (List Char)} (h : c.source? p = some document)
    (hlines : view.lines? ⟨document⟩ = some lines) :
    c.selects view p = ((SourceText.extract lines p.span).filter SourceText.isStatement).isSome := by
  unfold Context.selects
  rw [h, Option.bind_some, hlines]
  dsimp only
  cases SourceText.extract lines p.span with
  | none => rfl
  | some text =>
    rw [Option.any_some, Option.filter_some]
    cases SourceText.isStatement text <;> rfl

theorem selects_iff : c.selects view p = true ↔ ∃ document lines text, c.source? p = some document ∧
    view.lines? ⟨document⟩ = some lines ∧ SourceText.extract lines p.span = some text ∧
    SourceText.isStatement text = true := by
  unfold Context.selects
  constructor
  · intro h
    split at h
    · next lines hlines =>
      obtain ⟨document, hsource, hlines⟩ := Option.bind_eq_some_iff.mp hlines
      obtain ⟨text, htext, hstatement⟩ := (Option.any_eq_true _ _).mp h
      exact ⟨document, lines, text, hsource, hlines, htext, hstatement⟩
    · cases h
  · rintro ⟨document, lines, text, hsource, hlines, htext, hstatement⟩
    rw [hsource, Option.bind_some, hlines]
    dsimp only
    rw [htext]
    exact hstatement

/-- A point that lies on a statement still does when other source files were read. -/
theorem selects_of_keepsLines (hkeeps : view.KeepsLines view') (h : c.selects view p = true) :
    c.selects view' p = true := by
  obtain ⟨document, lines, text, hsource, hlines, hstatement⟩ := selects_iff.mp h
  exact selects_iff.mpr ⟨document, lines, text, hsource, hkeeps ⟨document⟩ lines hlines, hstatement⟩

end Weave

end CilProbes

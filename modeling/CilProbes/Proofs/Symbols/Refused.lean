import CilProbes.Proofs.Bytes.Sized
import CilProbes.Proofs.Symbols.File

/-!
# Symbol files that are refused

A symbol file whose points do not all lie in its documents can be written, but it is not read: reading stops at the
first record with such a point (`SymbolFile.parse_outside`). So a file that is written is read just if all points lie in
its documents (`SymbolFile.parse_encode_iff`).
-/

namespace CilProbes

namespace Reader

variable {α : Type} {r : Reader α} {bytes : List UInt8} {fault : Fault}

/-- Reading one element after another fails at the first one that is refused. -/
theorem refuses_timesOnto {pieces : List (List UInt8)} {values : List α} (h : List.Forall₂ (Reads r) pieces values)
    (hr : Refuses r bytes fault) (later : Nat) (done : List α) :
    Refuses (timesOnto r (values.length + (later + 1)) done) (pieces.flatten ++ bytes) fault := by
  induction h generalizing done with
  | nil =>
    rw [List.length_nil, Nat.zero_add, timesOnto_succ]
    exact hr.bind
  | @cons piece value pieces values hpiece _ ih =>
    rw [List.length_cons, Nat.add_right_comm, timesOnto_succ, List.flatten_cons, List.append_assoc]
    exact hpiece.bind_refuses (ih (value :: done))

end Reader

namespace SymbolFile

open Reader

variable {s : SymbolFile} {bytes : List UInt8} {r : MethodRecord} {p : OffsetPoint} {count : Nat}

/-- Why a record is refused whose first point outside of the documents is `p`. -/
def outside (r : MethodRecord) (p : OffsetPoint) : Fault :=
  .malformed (if ∀ q ∈ r.points, q.span.Numbered then .recordDocument r.token p.span.document else .documentZero)

theorem refuses_record (hspans : ∀ p ∈ r.points, p.span.WellFormed)
    (hstray : r.stray? count = some p) (h : recordBytes r = .ok bytes) :
    Refuses (readRecord count) bytes (outside r p) := by
  obtain ⟨points, hpoints, h⟩ := bind_ok.mp h
  obtain ⟨blob, hblob, h⟩ := bind_ok.mp h
  cases h
  refine (reads_uint32 r.token.value).bind_refuses ((reads_blob hblob).bind_refuses_nil ?_)
  unfold outside
  split
  · next hnumbered =>
    refine (reads_ofExcept (PointBlob.parse_encode hspans hnumbered hpoints)).bind_refuses_nil ?_
    unfold MethodRecord.stray? at hstray
    rw [hstray]
    exact refuses_fail _
  · next hnumbered =>
    simp only [not_forall] at hnumbered
    obtain ⟨q, hq, hnot⟩ := hnumbered
    exact (refuses_ofExcept (PointBlob.parse_unnumbered hspans ⟨q, hq, hnot⟩ hpoints)).bind

/-- The first record with a point outside of the documents is refused. -/
theorem parse_outside {done later : List MethodRecord} (hdocuments : ∀ document ∈ s.documents, Field.Writable document)
    (hspans : ∀ r ∈ s.methods, ∀ p ∈ r.points, p.span.WellFormed) (h : encode s = .ok bytes)
    (hsplit : s.methods = done ++ r :: later)
    (hinside : ∀ q ∈ done, ∀ p ∈ q.points, p.span.document.toNat < s.documents.length)
    (hstray : r.stray? s.documents.length = some p) :
    parse bytes = .error (outside r p) := by
  obtain ⟨documents, hcount, h⟩ := bind_ok.mp h
  obtain ⟨methods, hmethods, h⟩ := bind_ok.mp h
  obtain ⟨records, hrecords, h⟩ := bind_ok.mp h
  cases h
  rw [hsplit] at hrecords hmethods hspans
  rw [List.mapM_append] at hrecords
  obtain ⟨front, hfront, hrecords⟩ := bind_ok.mp hrecords
  obtain ⟨rest, hrest, hrecords⟩ := bind_ok.mp hrecords
  cases hrecords
  rw [List.mapM_cons] at hrest
  obtain ⟨piece, hpiece, hrest⟩ := bind_ok.mp hrest
  obtain ⟨back, -, hrest⟩ := bind_ok.mp hrest
  cases hrest
  have hread : List.Forall₂ (Reads (readRecord s.documents.length)) front done :=
    (forall₂_imp_mem (forall₂_of_mapM hfront) fun q hq _ hbytes =>
      reads_record hcount (hspans q (List.mem_append_left _ hq)) (hinside q hq) hbytes).flip
  have hrecord := refuses_record (hspans r (List.mem_append_right _ List.mem_cons_self)) hstray hpiece
  have hlist : Refuses (Reader.list (readRecord s.documents.length)) (methods ++ (front.flatten ++ piece))
      (outside r p) := by
    rw [List.length_append, List.length_cons] at hmethods
    exact (reads_count hmethods).bind_refuses (refuses_timesOnto hread hrecord later.length [])
  have hfile : Refuses reader (Field.uint32 magic ++ (Field.uint16 version ++
      ((documents ++ s.documents.flatMap Field.string) ++ (methods ++ (front.flatten ++ piece)))))
      (outside r p) := by
    refine (reads_uint32 magic).bind_refuses ?_
    rw [if_neg (not_not_intro rfl)]
    refine (reads_uint16 version).bind_refuses ?_
    rw [if_neg (not_not_intro rfl)]
    exact (reads_strings hcount hdocuments).bind_refuses hlist.bind
  unfold parse
  rw [List.flatten_append, List.flatten_cons]
  simpa only [List.append_assoc] using hfile.run back.flatten

/-- A symbol file that is written is read just if all its points lie in its documents. -/
theorem parse_encode_iff (hdocuments : ∀ document ∈ s.documents, Field.Writable document)
    (hspans : ∀ r ∈ s.methods, ∀ p ∈ r.points, p.span.WellFormed) (h : encode s = .ok bytes) :
    (∃ file, parse bytes = .ok file) ↔ ∀ r ∈ s.methods, ∀ p ∈ r.points, p.span.document.toNat < s.documents.length := by
  refine ⟨fun ⟨file, hparse⟩ => ?_, fun hinside => ⟨s, parse_encode ⟨hdocuments, hspans, hinside⟩ h⟩⟩
  cases hrecord : s.methods.find? fun r => (r.stray? s.documents.length).isSome with
  | none =>
    intro r hr
    have hnone := List.find?_eq_none.mp hrecord r hr
    rw [Bool.not_eq_true, Option.isSome_eq_false_iff, Option.isNone_iff_eq_none] at hnone
    exact MethodRecord.stray?_eq_none.mp hnone
  | some r =>
    obtain ⟨hsome, done, later, hsplit, hdone⟩ := List.find?_eq_some_iff_append.mp hrecord
    obtain ⟨p, hstray⟩ := Option.isSome_iff_exists.mp hsome
    have hinside (q : MethodRecord) (hq : q ∈ done) : ∀ p ∈ q.points, p.span.document.toNat < s.documents.length := by
      have hnone := hdone q hq
      rw [Bool.not_eq_true', Option.isSome_eq_false_iff, Option.isNone_iff_eq_none] at hnone
      exact MethodRecord.stray?_eq_none.mp hnone
    rw [parse_outside hdocuments hspans h hsplit hinside hstray] at hparse
    cases hparse

end SymbolFile

end CilProbes

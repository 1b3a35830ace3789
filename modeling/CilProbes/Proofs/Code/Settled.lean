import CilProbes.Proofs.Code.RoundTrip

/-!
# Code that is written as it stands

The bytes of an instruction depend on the distances to its targets only (`operandBytes`), and it is written whenever
these are in reach (`instruction_of_distances`). A stream all of whose instructions can be written where they stand is
not widened: writing it gives just these bytes (`EncodedAs.encode`).
-/

namespace CilProbes

theorem Instruction.mem_targets_of_shortTarget? {i : Instruction} {t : InstrId} (h : i.shortTarget? = some t) :
    t ∈ i.targets := by
  unfold shortTarget? at h
  split at h
  · split at h
    · next found hfound =>
      cases h
      unfold targets
      rw [hfound]
      exact List.mem_singleton_self _
    · cases h
  · cases h

namespace Layout

/-! ## Bytes by distances -/

/-- An operand of the kind has room for the distance. -/
def InReach (kind : OperandKind) (d : Int) : Prop :=
  if kind = .shortTarget then -128 ≤ d ∧ d < 128 else -2 ^ 31 ≤ d ∧ d < 2 ^ 31

def distanceBytes (kind : OperandKind) (d : Int) : List UInt8 :=
  if kind = .shortTarget then [(Int8.ofInt d).toUInt8] else Field.uint32 (Int32.ofInt d).toUInt32

/-- The bytes of an operand whose targets are at the given distances. -/
def operandBytes (kind : OperandKind) : Operand → List Int → List UInt8
  | .none, _ => []
  | .immediate v, _ => immediate v
  | .token t, _ => Field.uint32 t.value
  | .target _, ds => ds.flatMap (distanceBytes kind)
  | .switch _, ds => Field.uint32 (UInt32.ofNat ds.length) ++ ds.flatMap (distanceBytes kind)

variable {l : Layout} {next : Nat} {kind : OperandKind} {o : Operand} {ds : List Int}

theorem wide_of_reach {cause : Int → Malformation} {t : InstrId} {d : Int} (hkind : kind ≠ .shortTarget)
    (hd : l.distance next t = .ok d) (hreach : InReach kind d) : l.wide cause next t = .ok (distanceBytes kind d) := by
  unfold InReach at hreach
  rw [if_neg hkind] at hreach
  unfold wide distanceBytes
  rw [hd, if_neg hkind]
  exact if_pos hreach

theorem cells_of_distances {ts : List InstrId} (hkind : kind ≠ .shortTarget)
    (hd : List.Forall₂ (fun t d => l.distance next t = .ok d) ts ds) (hreach : ∀ d ∈ ds, InReach kind d) :
    List.Forall₂ (fun t out => l.wide .switchDisplacement next t = .ok out) ts (ds.map (distanceBytes kind)) := by
  induction hd with
  | nil => exact .nil
  | cons ht _ ih =>
    obtain ⟨hd, hrest⟩ := List.forall_mem_cons.mp hreach
    exact .cons (wide_of_reach hkind ht hd) (ih hrest)

/-- An operand whose targets are in reach is written. -/
theorem operand_of_distances (hfit : o.fits kind = true)
    (hd : List.Forall₂ (fun t d => l.distance next t = .ok d) o.targets ds) (hreach : ∀ d ∈ ds, InReach kind d)
    (hcount : ds.length < wordLimit) : l.operand next kind o = .ok (operandBytes kind o ds) := by
  cases o with
  | none | immediate | token => rfl
  | target t =>
    obtain ⟨d, _, ht, hnil, rfl⟩ := List.forall₂_cons_left_iff.mp hd
    cases hnil
    have hd := hreach d List.mem_cons_self
    by_cases hkind : kind = .shortTarget
    · subst hkind
      show (l.distance next t >>= _) = _
      rw [ht]
      exact if_pos hd
    · unfold operand
      dsimp only
      rw [if_neg hkind, wide_of_reach hkind ht hd]
      exact congrArg Except.ok (List.append_nil _).symm
  | switch ts =>
    have hkind : kind ≠ .shortTarget := by
      rintro rfl
      cases hfit
    have hlen : ts.length = ds.length := hd.length_eq
    have hcells : ts.mapM (l.wide .switchDisplacement next) = .ok (ds.map (distanceBytes kind)) :=
      mapM_of_forall₂ (cells_of_distances hkind hd hreach)
    unfold operand
    dsimp only
    rw [if_neg (by rw [hlen]; exact Nat.not_le.mpr hcount), hcells, hlen]
    show Except.ok _ = Except.ok _
    rw [operandBytes, List.flatMap_def]

theorem instruction_of_distances {start : Nat} {i : Instruction} (hfit : i.operand.fits i.kind = true)
    (hd : List.Forall₂ (fun t d => l.distance (start + i.size) t = .ok d) i.targets ds)
    (hreach : ∀ d ∈ ds, InReach i.kind d) (hcount : ds.length < wordLimit) :
    l.instruction start i = .ok (opcode i.opcode ++ operandBytes i.kind i.operand ds) := by
  unfold instruction
  rw [operand_of_distances hfit hd hreach hcount]
  rfl

theorem distance_eq_ok {t : InstrId} {d : Int} :
    l.distance next t = .ok d ↔ ∃ n, l.starts.get? t = some n ∧ d = Int.ofNat n - Int.ofNat next := by
  unfold distance distance?
  cases l.starts.get? t with
  | none => exact ⟨fun h => (by cases h), fun ⟨_, h, _⟩ => (by cases h)⟩
  | some n => exact ⟨fun h => ⟨n, rfl, (Except.ok.inj h).symm⟩, fun ⟨_, h, hd⟩ => (by cases h; rw [hd]; rfl)⟩

/-! ## Nothing to widen -/

variable {e : InstrId × Instruction} {es : List (InstrId × Instruction)} {start : Nat} {code : List UInt8}

theorem codeOnto_of_pieces (h : l.Pieces start es code) (hfit : ∀ e ∈ es, e.2.operand.fits e.2.kind = true)
    {done : Array UInt8} (hdone : done.size = start) : l.codeOnto es done = .ok (done ++ code) := by
  induction h generalizing done with
  | nil => simp [codeOnto]
  | @cons start e es out more hout _ ih =>
    have hlen := length_instruction (hfit e List.mem_cons_self) hout
    rw [codeOnto, hdone, hout]
    dsimp only
    have hnext : (done ++ out).size = start + e.2.size := by
      rw [← Array.length_toList, Array.toList_appendList, List.length_append, Array.length_toList, hdone, hlen]
    rw [ih (fun e he => hfit e (List.mem_cons_of_mem _ he)) hnext]
    refine congrArg Except.ok (Array.toList_inj.mp ?_)
    rw [Array.toList_appendList, Array.toList_appendList, Array.toList_appendList, List.append_assoc]

/-- A short branch is strained if the distance to its target is out of reach. -/
theorem strained_eq {t : InstrId} {n : Nat} (hshort : e.2.IsShort) (htarget : e.2.operand = .target t)
    (hstart : l.starts.get? e.1 = some start) (hn : l.starts.get? t = some n) :
    l.strained e = decide (Int.ofNat n - Int.ofNat (start + e.2.size) < -128 ∨
      127 < Int.ofNat n - Int.ofNat (start + e.2.size)) := by
  have hfound : e.2.shortTarget? = some t := by
    unfold Instruction.shortTarget?
    rw [if_pos hshort, htarget]
  unfold strained distance?
  rw [hfound, hstart]
  dsimp only
  rw [hn]
  rfl

/-- A short branch that can be written where it stands is not strained. -/
theorem not_strained_of_instruction {out : List UInt8} (hfit : e.2.operand.fits e.2.kind = true)
    (hstart : l.starts.get? e.1 = some start) (h : l.instruction start e.2 = .ok out) : l.strained e = false := by
  by_cases hshort : e.2.IsShort
  · obtain ⟨operand, ho, -⟩ := instruction_ok h
    rw [show e.2.kind = .shortTarget from hshort] at hfit ho
    obtain ⟨t, ht⟩ := InstructionStream.exists_target_of_fits hfit
    rw [ht] at ho
    obtain ⟨d, hd, ho⟩ := bind_ok.mp ho
    obtain ⟨n, hn, rfl⟩ := distance_eq_ok.mp hd
    rw [strained_eq hshort ht hstart hn]
    split at ho
    · next hreach => exact decide_eq_false (by omega)
    · cases ho
  · unfold strained Instruction.shortTarget?
    rw [if_neg hshort]

/-- The instructions in pieces of code are at their places. -/
theorem Pieces.exists_instruction (h : l.Pieces start es code) {k : Nat} (he : es[k]? = some e) :
    ∃ out, l.instruction (start + ((es.take k).map fun e => e.2.size).sum) e.2 = .ok out := by
  induction h generalizing k with
  | nil => cases he
  | @cons start first es out more hout _ ih =>
    cases k with
    | zero =>
      cases he
      exact ⟨out, hout⟩
    | succ k =>
      obtain ⟨out', hout'⟩ := ih he
      refine ⟨out', ?_⟩
      rwa [List.take_succ_cons, List.map_cons, List.sum_cons, ← Nat.add_assoc]

theorem last_foldl_place_concat (l : Layout) (es : List (InstrId × Instruction)) (e : InstrId × Instruction) :
    ((es ++ [e]).foldl place l).last = l.size + (es.map fun e => e.2.size).sum := by
  have hsize (l : Layout) (es : List (InstrId × Instruction)) :
      (es.foldl place l).size = l.size + (es.map fun e => e.2.size).sum := by
    induction es generalizing l with
    | nil => rfl
    | cons e es ih => rw [List.foldl_cons, ih, List.map_cons, List.sum_cons, ← Nat.add_assoc]; rfl
  rw [List.foldl_append]
  exact hsize l es

end Layout

namespace InstructionStream

variable {s : InstructionStream} {e : EncodedCode}

theorem WellFormed.starts_layout (hs : s.WellFormed) {k : Nat} {id : InstrId} (h : s.ids[k]? = some id) :
    s.layout.starts.get? id = some (s.startAt k) :=
  hs.starts_ofEntries h

theorem EncodedAs.last_lt (h : EncodedAs s e) (hs : s.WellFormed) : s.layout.last < wordLimit := by
  have hlength : s.entries.length = s.ids.length := by rw [← hs.map_fst_entries, List.length_map]
  rcases List.eq_nil_or_concat s.entries with hnil | ⟨front, entry, hentries⟩
  · unfold layout
    rw [hnil]
    exact show 0 < wordLimit by decide
  · have hstart := h.startAt_lt front.length (by rw [← hlength, hentries]; simp)
    unfold layout
    rw [hentries, List.concat_eq_append, Layout.ofEntries, Layout.last_foldl_place_concat]
    rw [startAt_eq, hentries, List.concat_eq_append, List.take_left] at hstart
    rwa [Nat.zero_add]

/-- A stream whose instructions are written where they stand is laid out as it stands. -/
theorem EncodedAs.settle (h : EncodedAs s e) (hs : s.WellFormed) : s.settle = .ok s.layout s := by
  have hmissing : s.entries.findSome? s.layout.missing? = none := by
    refine List.findSome?_eq_none_iff.mpr fun entry hentry => ?_
    unfold Layout.missing?
    refine Option.filter_eq_none_iff.mpr fun t ht => ?_
    have hplaced := h.pieces.placed hs.fits_entries entry hentry t (Instruction.mem_targets_of_shortTarget? ht)
    exact Bool.eq_false_iff.mp (Option.isNone_eq_false_iff.mpr hplaced)
  have hstrained : s.entries.filter s.layout.strained = [] := by
    refine List.filter_eq_nil_iff.mpr fun entry hentry => ?_
    obtain ⟨k, hk⟩ := List.mem_iff_getElem?.mp hentry
    obtain ⟨out, hout⟩ := h.pieces.exists_instruction hk
    have hid : s.ids[k]? = some entry.1 := by rw [← hs.map_fst_entries, List.getElem?_map, hk]; rfl
    have hstart := hs.starts_layout hid
    rw [Nat.zero_add, ← startAt_eq] at hout
    exact Bool.eq_false_iff.mp (Layout.not_strained_of_instruction (hs.fits_entries entry hentry) hstart hout)
  have hlast := h.last_lt hs
  unfold layout at hmissing hstrained hlast ⊢
  unfold InstructionStream.settle
  dsimp only
  rw [if_neg (Nat.not_le.mpr hlast), hmissing]
  dsimp only
  split
  · rfl
  · next hfound =>
    rw [hstrained] at hfound
    cases hfound

/-- A stream whose instructions are written where they stand is written so, and stays as it is. -/
theorem EncodedAs.encode (h : EncodedAs s e) (hs : s.WellFormed) : s.encode = .ok e s := by
  have hcode : s.layout.codeOnto s.entries #[] = .ok (#[] ++ e.code) :=
    Layout.codeOnto_of_pieces h.pieces hs.fits_entries rfl
  unfold InstructionStream.encode
  rw [h.settle hs]
  dsimp only
  rw [hcode]
  obtain ⟨code, starts⟩ := e
  rw [← h.starts]
  simp

end InstructionStream

end CilProbes

import CilProbes.Proofs.Code.Building

/-!
# Handles of a growing stream

A `Call` adds one instruction to a stream. `Call.run` does it in steps, with handles of 32 bits and on a state that it may
leave changed when it fails; on a stream with fewer than 2^32 instructions it does what `push`, `insertAt` and
`insertBefore` say and answers with `nextId` (`Call.run_eq`). What one call keeps (`Keeps`) is kept by any number of them
(`keeps_after`), and an arranged stream stays arranged, so that all views of its program order agree
(`Arranged.coherent`).
-/

namespace CilProbes.InstructionStream

variable {s t u : InstructionStream} {id : InstrId} {i : Instruction}

/-! ## Views of the program order -/

/-- The views of the program order agree. -/
structure Coherent (s : InstructionStream) : Prop where
  length : s.length = s.ids.length
  first : s.first? = s.ids.head?
  position : ∀ (id : InstrId) (k : Nat), s.position? id = some k ↔ s.ids[k]? = some id
  previous : ∀ id before : InstrId, s.previous? id = some before ↔
    ∃ k : Nat, s.ids[k]? = some before ∧ s.ids[k + 1]? = some id
  unpreceded : ∀ id ∈ s.ids, s.previous? id = none ↔ s.first? = some id
  named : ∀ id, id ∈ s.ids ↔ ∃ i, s.get? id = some i
  entries : s.entries.map Prod.fst = s.ids ∧
    ∀ (k : Nat) (id : InstrId) (i : Instruction),
      s.entries[k]? = some (id, i) ↔ s.ids[k]? = some id ∧ s.get? id = some i

theorem order_getElem? (s : InstructionStream) (k : Nat) : s.order[k]? = s.ids[k]? :=
  Array.getElem?_toList.symm

theorem position?_iff (hs : s.ids.Nodup) {k : Nat} : s.position? id = some k ↔ s.ids[k]? = some id := by
  rw [position?_eq, List.idxOf?_eq_some_iff, List.getElem?_eq_some_iff]
  constructor
  · rintro ⟨hk, h, -⟩
    exact ⟨hk, h⟩
  · rintro ⟨hk, rfl⟩
    refine ⟨hk, rfl, ?_⟩
    intro j hj h
    exact Nat.ne_of_lt hj (hs.getElem_inj_iff.mp h)

theorem previous?_iff (hs : s.ids.Nodup) {before : InstrId} :
    s.previous? id = some before ↔ ∃ k : Nat, s.ids[k]? = some before ∧ s.ids[k + 1]? = some id := by
  unfold previous?
  constructor
  · intro h
    split at h
    · next k hk =>
      rw [order_getElem?] at h
      exact ⟨k, h, (position?_iff hs).mp hk⟩
    · cases h
  · rintro ⟨k, hbefore, hk⟩
    rw [(position?_iff hs).mpr hk]
    exact (order_getElem? s k).trans hbefore

/-- Only the first instruction has none before it. -/
theorem previous?_eq_none_iff (hs : s.ids.Nodup) (hid : id ∈ s.ids) : s.previous? id = none ↔ s.first? = some id := by
  obtain ⟨k, hk, hget⟩ := List.getElem_of_mem hid
  have hposition : s.position? id = some k := (position?_iff hs).mpr (by rw [List.getElem?_eq_getElem hk, hget])
  have hfirst : s.first? = some id ↔ k = 0 := by
    rw [show s.first? = s.ids[0]? from order_getElem? s 0, ← position?_iff hs, hposition, Option.some_inj]
  unfold previous?
  rw [hfirst, hposition]
  cases k with
  | zero => simp
  | succ k =>
    dsimp only
    rw [order_getElem?, List.getElem?_eq_getElem (Nat.lt_of_succ_lt hk)]
    simp

theorem Arranged.coherent (hs : s.Arranged) : s.Coherent where
  length := Array.length_toList.symm
  first := by
    unfold first?
    rw [order_getElem?, List.head?_eq_getElem?]
  position _ _ := position?_iff hs.nodup
  previous _ _ := previous?_iff hs.nodup
  unpreceded _ hid := previous?_eq_none_iff hs.nodup hid
  named id := by
    constructor
    · exact hs.exists_get?
    · rintro ⟨i, hi⟩
      exact hs.mem_ids.mpr (get?_eq_some.mp hi).1
  entries := by
    refine ⟨hs.map_fst_entries, fun k id i => ?_⟩
    constructor
    · intro h
      have hid : (s.entries.map Prod.fst)[k]? = some id := by rw [List.getElem?_map, h]; rfl
      rw [hs.map_fst_entries] at hid
      exact ⟨hid, (mem_entries.mp (List.mem_of_getElem? h)).2⟩
    · rintro ⟨hid, hi⟩
      exact hs.entries_getElem? hid hi

/-! ## Calls -/

/-- A call that adds an instruction. -/
inductive Call where
  | push (i : Instruction)
  | insertAt (index : Nat) (i : Instruction)
  | insertBefore (target : InstrId) (i : Instruction)

/-- Puts an instruction at the end of the arena; its handle is a number of 32 bits. -/
def allocate (i : Instruction) : Edit InstructionStream InstrId := fun s =>
  .ok ⟨s.arena.size % 0x100000000⟩ { s with arena := s.arena.push i }

/-- Changes the program order. -/
def reorder (f : Array InstrId → Array InstrId) : Edit InstructionStream Unit := fun s =>
  .ok () { s with order := f s.order }

/-- Puts an instruction at a place of the program order, if there is one. -/
def placeAt (index : Nat) (i : Instruction) : Edit InstructionStream InstrId := do
  if (← get).order.size < index then throw .outOfBounds
  let id ← allocate i
  reorder fun order => order.insertIdxIfInBounds index id
  return id

/-- Puts an instruction in front of another, if that is there. -/
def placeBefore (target : InstrId) (i : Instruction) : Edit InstructionStream InstrId := do
  match (← get).position? target with
  | some index => placeAt index i
  | none => throw (.malformed (.notInStream target))

namespace Call

/-- What a call does, step by step; it answers with the handle of its instruction. -/
def run : Call → Edit InstructionStream InstrId
  | .push i => do
    let id ← allocate i
    reorder fun order => order.push id
    return id
  | .insertAt index i => placeAt index i
  | .insertBefore target i => placeBefore target i

def instruction : Call → Instruction
  | .push i => i
  | .insertAt _ i => i
  | .insertBefore _ i => i

/-- The stream that a call makes. -/
def apply (s : InstructionStream) : Call → Except Fault InstructionStream
  | .push i => .ok (s.push i)
  | .insertAt index i => s.insertAt index i
  | .insertBefore target i => s.insertBefore target i

/-- The stream that an operation leaves, also when it failed. -/
def left : EStateM.Result Fault InstructionStream InstrId → InstructionStream
  | .ok _ t => t
  | .error _ t => t

/-- The stream after a call. -/
def next (s : InstructionStream) (call : Call) : InstructionStream :=
  left (call.run s)

/-- What makes a call fail. -/
def fault? (s : InstructionStream) : Call → Option Fault
  | .push _ => none
  | .insertAt index _ => if index ≤ s.ids.length then none else some .outOfBounds
  | .insertBefore target _ => if target ∈ s.ids then none else some (.malformed (.notInStream target))

/-- Where a call puts its instruction in the program order. -/
def Placed (s : InstructionStream) (id : InstrId) (t : InstructionStream) : Call → Prop
  | .push _ => t.ids = s.ids ++ [id]
  | .insertAt index _ => t.ids = s.ids.insertIdx index id ∧ t.position? id = some index
  | .insertBefore target _ => t.previous? target = some id ∧
      ∃ front back, s.ids = front ++ target :: back ∧ t.ids = front ++ id :: target :: back

end Call

/-- The stream after some calls. -/
def after (calls : List Call) (s : InstructionStream) : InstructionStream :=
  calls.foldl Call.next s

/-- What calls keep: what handles name, and in which order they come. -/
structure Keeps (s t : InstructionStream) : Prop where
  get? : ∀ id i, s.get? id = some i → t.get? id = some i
  sublist : s.ids.Sublist t.ids

/-- What a call does that succeeds. -/
structure Call.Adds (call : Call) (s : InstructionStream) (id : InstrId) (t : InstructionStream) : Prop where
  made : call.apply s = .ok t
  allowed : call.fault? s = none
  fresh : s.get? id = none
  named : t.get? id = some call.instruction
  placed : call.Placed s id t
  keeps : s.Keeps t

theorem Keeps.refl (s : InstructionStream) : s.Keeps s :=
  ⟨fun _ _ h => h, List.Sublist.refl _⟩

theorem Keeps.trans (h : s.Keeps t) (h' : t.Keeps u) : s.Keeps u :=
  ⟨fun id i hi => h'.get? id i (h.get? id i hi), h.sublist.trans h'.sublist⟩

/-! ## The steps of a call -/

theorem placeAt_eq (s : InstructionStream) (index : Nat) (i : Instruction) :
    placeAt index i s =
      if index ≤ s.order.size then
        .ok ⟨s.arena.size % 0x100000000⟩
          { arena := s.arena.push i, order := s.order.insertIdxIfInBounds index ⟨s.arena.size % 0x100000000⟩ }
      else .error .outOfBounds s := by
  unfold placeAt
  rw [edit_get_bind]
  by_cases h : index ≤ s.order.size
  · rw [if_pos h, if_neg (Nat.not_lt.mpr h)]
    rfl
  · rw [if_neg h, if_pos (Nat.lt_of_not_le h)]
    rfl

/-- The outcome of an operation that makes a stream, or leaves the stream alone. -/
def outcome (s : InstructionStream) : Except Fault InstructionStream → EStateM.Result Fault InstructionStream InstrId
  | .ok t => .ok s.nextId t
  | .error fault => .error fault s

theorem outcome_insertAt (hsize : s.arena.size < 0x100000000) (index : Nat) (i : Instruction) :
    placeAt index i s = outcome s (s.insertAt index i) := by
  rw [placeAt_eq, Nat.mod_eq_of_lt hsize]
  unfold insertAt Array.insertIdxIfInBounds
  split
  · rfl
  · rfl

namespace Call

/-- The steps of a call make the stream that it should make, or change nothing. -/
theorem run_eq (hsize : s.arena.size < 0x100000000) (call : Call) : call.run s = outcome s (call.apply s) := by
  cases call with
  | push i =>
    show EStateM.Result.ok _ _ = EStateM.Result.ok _ _
    rw [Nat.mod_eq_of_lt hsize]
    rfl
  | insertAt index i => exact outcome_insertAt hsize index i
  | insertBefore target i =>
    unfold run placeBefore apply InstructionStream.insertBefore
    dsimp only
    rw [edit_get_bind]
    cases s.position? target with
    | some index => exact outcome_insertAt hsize index i
    | none => rfl

theorem size_le_placeAt (s : InstructionStream) (index : Nat) (i : Instruction) :
    s.arena.size ≤ (left (placeAt index i s)).arena.size := by
  rw [placeAt_eq]
  split
  · show s.arena.size ≤ (s.arena.push i).size
    simp
  · exact Nat.le_refl _

/-- No call takes an instruction away. -/
theorem size_le_next (s : InstructionStream) (call : Call) : s.arena.size ≤ (next s call).arena.size := by
  cases call with
  | push i =>
    show s.arena.size ≤ (s.arena.push i).size
    simp
  | insertAt index i => exact size_le_placeAt s index i
  | insertBefore target i =>
    unfold next run placeBefore
    dsimp only
    rw [edit_get_bind]
    cases s.position? target with
    | some index => exact size_le_placeAt s index i
    | none => exact Nat.le_refl _

end Call

/-! ## One call -/

theorem keeps_insertAt {index : Nat} (h : s.insertAt index i = .ok t) : s.Keeps t where
  get? _ _ hj := get?_insertAt_of_get? h hj
  sublist := by
    rw [(ids_insertAt h).2]
    exact List.sublist_insertIdx ..

theorem get?_nextId (s : InstructionStream) : s.get? s.nextId = none :=
  Array.getElem?_eq_none (Nat.le_refl _)

theorem Call.adds_insertAt (hs : s.Arranged) {index : Nat} (h : s.insertAt index i = .ok t) :
    (Call.insertAt index i).Adds s s.nextId t where
  made := h
  allowed := if_pos (ids_insertAt h).1
  fresh := s.get?_nextId
  named := get?_insertAt_nextId h
  placed := by
    refine ⟨(ids_insertAt h).2, ?_⟩
    rw [position?_iff (hs.insertAt h).nodup, ← order_getElem?]
    exact order_insertAt h
  keeps := keeps_insertAt h

theorem Call.adds_push (i : Instruction) : (Call.push i).Adds s s.nextId (s.push i) where
  made := rfl
  allowed := rfl
  fresh := s.get?_nextId
  named := s.get?_push_nextId i
  placed := Array.toList_push
  keeps := keeps_insertAt (s.insertAt_length i)

theorem Call.adds_insertBefore (hs : s.Arranged) {target : InstrId} (h : s.insertBefore target i = .ok t) :
    (Call.insertBefore target i).Adds s s.nextId t := by
  have hmade : (Call.insertBefore target i).apply s = .ok t := h
  unfold InstructionStream.insertBefore at h
  by_cases hmem : target ∈ s.ids
  · obtain ⟨front, back, hids, hfront⟩ := List.eq_append_cons_of_mem hmem
    have hposition : s.position? target = some front.length := by rw [position?_eq, hids, idxOf?_append hfront]
    rw [hposition] at h
    have ht : t.ids = front ++ s.nextId :: target :: back := by rw [(ids_insertAt h).2, hids, insertIdx_append]
    have hprevious : t.previous? target = some s.nextId :=
      (previous?_iff (hs.insertAt h).nodup).mpr ⟨front.length, by simp [ht], by simp [ht]⟩
    have hadds := Call.adds_insertAt hs h
    exact ⟨hmade, if_pos hmem, hadds.fresh, hadds.named, ⟨hprevious, front, back, hids, ht⟩, hadds.keeps⟩
  · rw [position?_eq, List.idxOf?_eq_none_iff.mpr hmem] at h
    cases h

theorem Call.adds (hs : s.Arranged) {call : Call} (h : call.apply s = .ok t) : call.Adds s s.nextId t ∧ t.Arranged := by
  cases call with
  | push i =>
    cases h
    exact ⟨adds_push i, hs.insertAt (s.insertAt_length i)⟩
  | insertAt index i => exact ⟨adds_insertAt hs h, hs.insertAt h⟩
  | insertBefore target i =>
    refine ⟨adds_insertBefore hs h, ?_⟩
    obtain ⟨index, -, h⟩ := insertBefore_ok.mp h
    exact hs.insertAt h

theorem Call.fault?_of_error {call : Call} {fault : Fault} (h : call.apply s = .error fault) :
    call.fault? s = some fault := by
  have hplace : ∀ {index i}, s.insertAt index i = .error fault → ¬ index ≤ s.ids.length ∧ fault = .outOfBounds := by
    intro index i h
    unfold InstructionStream.insertAt at h
    split at h
    · cases h
    · next hle =>
      cases h
      exact ⟨hle, rfl⟩
  cases call with
  | push i => cases h
  | insertAt index i =>
    obtain ⟨hle, rfl⟩ := hplace h
    exact if_neg hle
  | insertBefore target i =>
    unfold apply InstructionStream.insertBefore at h
    dsimp only at h
    split at h
    · next index hindex =>
      rw [position?_eq, List.idxOf?_eq_some_iff] at hindex
      obtain ⟨hlt, -⟩ := hindex
      exact absurd (Nat.le_of_lt hlt) (hplace h).1
    · next hnone =>
      cases h
      rw [position?_eq, List.idxOf?_eq_none_iff] at hnone
      exact if_neg hnone

/-- What one call does: it adds its instruction, or it fails and changes nothing. -/
theorem Call.run_cases (hs : s.Arranged) (hsize : s.arena.size < 0x100000000) (call : Call) :
    (∃ t, call.run s = .ok s.nextId t ∧ call.Adds s s.nextId t ∧ t.Arranged) ∨
      ∃ fault, call.run s = .error fault s ∧ call.apply s = .error fault ∧ call.fault? s = some fault := by
  rw [run_eq hsize]
  cases h : call.apply s with
  | ok t => exact .inl ⟨t, rfl, adds hs h⟩
  | error fault => exact .inr ⟨fault, rfl, rfl, fault?_of_error h⟩

/-! ## Any number of calls -/

theorem after_append (front back : List Call) (s : InstructionStream) :
    after (front ++ back) s = after back (after front s) :=
  List.foldl_append

theorem size_le_after (calls : List Call) (s : InstructionStream) : s.arena.size ≤ (after calls s).arena.size := by
  induction calls generalizing s with
  | nil => exact Nat.le_refl _
  | cons call calls ih => exact Nat.le_trans (Call.size_le_next s call) (ih _)

theorem keeps_after (hs : s.Arranged) {calls : List Call} (hsize : (after calls s).arena.size < 0x100000000) :
    (after calls s).Arranged ∧ s.Keeps (after calls s) := by
  induction calls generalizing s with
  | nil => exact ⟨hs, .refl s⟩
  | cons call calls ih =>
    have hless : s.arena.size < 0x100000000 := Nat.lt_of_le_of_lt (size_le_after (call :: calls) s) hsize
    have hnext : (Call.next s call).Arranged ∧ s.Keeps (Call.next s call) := by
      unfold Call.next
      rcases Call.run_cases hs hless call with ⟨t, hrun, hadds, ht⟩ | ⟨fault, hrun, -⟩
      · rw [hrun]
        exact ⟨ht, hadds.keeps⟩
      · rw [hrun]
        exact ⟨hs, .refl s⟩
    obtain ⟨harranged, hkeeps⟩ := ih hnext.1 hsize
    exact ⟨harranged, hnext.2.trans hkeeps⟩

/--
However many calls are made on a stream, some of them failing: as long as it has fewer than 2^32 instructions, its program
order names every instruction once, its views agree, and handles and the order among instructions stay as they were. A
call that succeeds answers with a new handle, which names its instruction from then on and stands where it was asked for;
a call that fails changes nothing.
-/
theorem handles_stable (hs : s.Arranged) (calls : List Call) (hsize : (after calls s).arena.size < 0x100000000) :
    (after calls s).Arranged ∧ (after calls s).Coherent ∧ s.Keeps (after calls s) ∧
    ∀ earlier call later, calls = earlier ++ call :: later →
      match call.run (after earlier s) with
      | .ok id t => call.Adds (after earlier s) id t ∧ t.Keeps (after calls s)
      | .error fault t => call.apply (after earlier s) = .error fault ∧ call.fault? (after earlier s) = some fault ∧
          t = after earlier s := by
  obtain ⟨harranged, hkeeps⟩ := keeps_after hs hsize
  refine ⟨harranged, harranged.coherent, hkeeps, ?_⟩
  rintro earlier call later rfl
  rw [after_append] at hsize ⊢
  have hless : (after earlier s).arena.size < 0x100000000 := Nat.lt_of_le_of_lt (size_le_after _ _) hsize
  obtain ⟨hearlier, -⟩ := keeps_after hs hless
  rcases Call.run_cases hearlier hless call with ⟨t, hrun, hadds, ht⟩ | ⟨fault, hrun, happly, hfault⟩
  · have hlater : after (call :: later) (after earlier s) = after later t := by
      show after later (Call.left (call.run (after earlier s))) = _
      rw [hrun]
      rfl
    rw [hlater] at hsize ⊢
    rw [hrun]
    exact ⟨hadds, (keeps_after ht hsize).2⟩
  · rw [hrun]
    exact ⟨happly, hfault, rfl⟩

/-- Two calls that fail among others. -/
theorem handles_stable_failing :
    ∃ nop, Instruction.make 0 0 .none = .ok nop ∧ ∃ ret, Instruction.make 0 0x2A .none = .ok ret ∧
    let t := after [.push ret, .insertAt 2 nop, .insertBefore ⟨0⟩ nop, .insertBefore ⟨7⟩ nop, .insertAt 1 ret] {}
    t.ids = [⟨1⟩, ⟨2⟩, ⟨0⟩] ∧ t.get? ⟨0⟩ = some ret ∧ t.Coherent := by
  obtain ⟨nop, hnop, ret, hret, hsize, hids, hget⟩ : ∃ nop, Instruction.make 0 0 .none = .ok nop ∧
      ∃ ret, Instruction.make 0 0x2A .none = .ok ret ∧
      let t := after [.push ret, .insertAt 2 nop, .insertBefore ⟨0⟩ nop, .insertBefore ⟨7⟩ nop, .insertAt 1 ret] {}
      t.arena.size < 0x100000000 ∧ t.ids = [⟨1⟩, ⟨2⟩, ⟨0⟩] ∧ t.get? ⟨0⟩ = some ret := by
    decide +kernel
  have hempty : ({} : InstructionStream).Arranged := List.Perm.nil
  obtain ⟨-, hcoherent, -⟩ := handles_stable hempty _ hsize
  exact ⟨nop, hnop, ret, hret, hids, hget, hcoherent⟩

end CilProbes.InstructionStream

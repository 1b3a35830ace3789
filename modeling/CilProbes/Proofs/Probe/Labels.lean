import CilProbes.Code.Listing
import CilProbes.Proofs.Body.Canonical
import CilProbes.Proofs.Probe.Order

/-!
# Listings of code with probes

The label of a place is the offset of the first decoded instruction from there on (`offsetFrom?_eq`). The instructions of
a probe were not decoded, and just behind them stands the instruction that they are for, so they have its label
(`Spliced.decodedOffset?_eq`). What was redirected to a probe keeps the label that it named, and the lines of the decoded
instructions stay as they were, whatever was spliced (`describe_spliceEach`).
-/

namespace CilProbes

namespace InstructionStream

variable {s : InstructionStream} {id x : InstrId} {front handles back : List InstrId} {offset : UInt32}

/-! ## Labels -/

/-- The offset at which an instruction was decoded itself. -/
def ownOffset? (s : InstructionStream) (id : InstrId) : Option UInt32 :=
  (s.get? id).bind Instruction.offset

/-- The first offset from a place on, in program order. -/
theorem offsetFrom?_eq (s : InstructionStream) (place : Nat) :
    s.offsetFrom? place = (s.ids.drop place).findSome? s.ownOffset? := by
  have hdrop (k : Nat) (h : k < s.order.size) : s.ids.drop k = s.order[k] :: s.ids.drop (k + 1) :=
    List.drop_eq_getElem_cons (Array.length_toList ▸ h)
  fun_induction offsetFrom? s place with
  | case1 place h offset hoffset =>
    have hown : s.ownOffset? s.order[place] = some offset := hoffset
    rw [hdrop place h, List.findSome?_cons, hown]
  | case2 place h hnone ih =>
    have hown : s.ownOffset? s.order[place] = none := hnone
    rw [hdrop place h, List.findSome?_cons, hown, ih]
  | case3 place h =>
    rw [List.drop_eq_nil_of_le (Array.length_toList ▸ Nat.not_lt.mp h)]
    rfl

theorem decodedOffset?_of_ids (h : s.ids = front ++ id :: back) (hfront : id ∉ front) :
    s.decodedOffset? id = (id :: back).findSome? s.ownOffset? := by
  unfold decodedOffset?
  rw [position?_eq, h, idxOf?_append hfront, Option.bind_some, offsetFrom?_eq, h, List.drop_left]

/-- Instructions without offsets have the label of the decoded one behind them. -/
theorem decodedOffset?_of_run (hnodup : s.ids.Nodup) (h : s.ids = front ++ (handles ++ id :: back))
    (hhandles : ∀ x ∈ handles, s.ownOffset? x = none) (hid : s.ownOffset? id = some offset) (hx : x ∈ handles ++ [id]) :
    s.decodedOffset? x = some offset := by
  have hfirst {front back : List InstrId} (h : s.ids = front ++ x :: back) : x ∉ front := by
    intro hmem
    rw [h, List.nodup_middle, List.nodup_cons] at hnodup
    exact hnodup.1 (List.mem_append_left _ hmem)
  rcases List.mem_append.mp hx with hmem | hmem
  · obtain ⟨before, after, rfl⟩ := List.append_of_mem hmem
    have hids : s.ids = front ++ before ++ x :: (after ++ id :: back) := by
      rw [h]
      simp
    have hnone : (x :: after).findSome? s.ownOffset? = none :=
      List.findSome?_eq_none_iff.mpr fun y hy => hhandles y (List.mem_append_right _ hy)
    rw [decodedOffset?_of_ids hids (hfirst hids), ← List.cons_append, List.findSome?_append, hnone, Option.none_or,
      List.findSome?_cons, hid]
  · obtain rfl := List.mem_singleton.mp hmem
    have hids : s.ids = (front ++ handles) ++ x :: back := by rw [h, List.append_assoc]
    rw [decodedOffset?_of_ids hids (hfirst hids), List.findSome?_cons, hid]

end InstructionStream

/-! ## Lines -/

/-- The text of an operand is made of the labels of its targets. -/
theorem Operand.text_congr {f g : InstrId → String} {o : Operand} (h : ∀ t ∈ o.targets, f t = g t) :
    o.text f = o.text g := by
  cases o with
  | target t => exact congrArg (" " ++ ·) (h t (List.mem_singleton_self t))
  | switch ts => exact congrArg (fun texts => " (" ++ ", ".intercalate texts ++ ")") (List.map_congr_left h)
  | none | immediate | token => rfl

theorem Operand.text_mapTargets (f : InstrId → InstrId) (label : InstrId → String) (o : Operand) :
    (o.mapTargets f).text label = o.text (label ∘ f) := by
  cases o with
  | switch ts => exact congrArg (fun texts => " (" ++ ", ".intercalate texts ++ ")") List.map_map
  | none | immediate | token | target => rfl

/-- A line stays the same where the labels of the instruction and of its targets do. -/
theorem Instruction.line_mapTargets {f : InstrId → InstrId} {label label' : InstrId → String} {id : InstrId}
    {i : Instruction} (hid : label' id = label id) (htargets : ∀ t ∈ i.targets, label' (f t) = label t) :
    (i.mapTargets f).line label' id = i.line label id := by
  have htext : (i.operand.mapTargets f).text label' = i.operand.text label :=
    (Operand.text_mapTargets f label' i.operand).trans (Operand.text_congr htargets)
  rw [Instruction.mapTargets_eq]
  unfold line
  rw [hid, htext]

/-! ## Probes -/

namespace Splicing

variable {next k : Nat} {ps : List Splicing} {p : Splicing} {id x : InstrId}

/-- In front of an instruction stand the probes that were spliced for it. -/
theorem mem_handlesAt : x ∈ handlesAt id next ps ↔
    ∃ k p, ps[k]? = some p ∧ p.target = id ∧ x ∈ handles (next + 3 * k) := by
  induction ps generalizing next with
  | nil => simp [handlesAt]
  | cons q ps ih =>
    have hnext (k : Nat) : next + 3 + 3 * k = next + 3 * (k + 1) := by omega
    rw [handlesAt]
    constructor
    · intro hx
      have hlater (hx : x ∈ handlesAt id (next + 3) ps) :
          ∃ k p, (q :: ps)[k]? = some p ∧ p.target = id ∧ x ∈ handles (next + 3 * k) := by
        obtain ⟨k, p, hp, htarget, hmem⟩ := ih.mp hx
        exact ⟨k + 1, p, hp, htarget, hnext k ▸ hmem⟩
      split at hx
      · next htarget =>
        rcases List.mem_append.mp hx with hfirst | hx
        · exact ⟨0, q, rfl, htarget, hfirst⟩
        · exact hlater hx
      · exact hlater hx
    · rintro ⟨k, p, hp, htarget, hx⟩
      cases k with
      | zero =>
        cases hp
        rw [if_pos htarget]
        exact List.mem_append_left _ hx
      | succ k =>
        have hrest : x ∈ handlesAt id (next + 3) ps := ih.mpr ⟨k, p, hp, htarget, (hnext k).symm ▸ hx⟩
        split
        · exact List.mem_append_right _ hrest
        · exact hrest

/-- The instructions of the probes lie one after another, three for each. -/
theorem probes_getElem? {j : Nat} (hp : ps[k]? = some p) (hj : j < 3) :
    (ps.flatMap probe)[3 * k + j]? = p.probe[j]? := by
  obtain ⟨hk, rfl⟩ := List.getElem?_eq_some_iff.mp hp
  have hfront : ((ps.take k).flatMap probe).length = 3 * k := by
    rw [length_probes, List.length_take, Nat.min_eq_left (Nat.le_of_lt hk)]
  conv_lhs => rw [← List.take_append_drop k ps, List.drop_eq_getElem_cons hk]
  rw [List.flatMap_append, List.getElem?_append_right (hfront ▸ Nat.le_add_right ..), hfront, Nat.add_sub_cancel_left,
    List.flatMap_cons, List.getElem?_append_left hj]

end Splicing

namespace MethodBody

variable {b b' : MethodBody} {ps : List Splicing} {id x : InstrId}

theorem Decoded.exists_ownOffset? (hb : b.Decoded) (hid : id ∈ b.code.ids) :
    ∃ offset, b.code.ownOffset? id = some offset := by
  obtain ⟨data, hdata⟩ := hb.decoded
  obtain ⟨i, hi⟩ := hb.wellFormed.code.exists_get? hid
  refine ⟨UInt32.ofNat (b.code.startAt id.index), ?_⟩
  unfold InstructionStream.ownOffset?
  rw [hi, Option.bind_some, InstructionStream.offset_of_decode hdata hi]

theorem Spliced.ownOffset?_old (h : Spliced b ps b') (hb : b.WellFormed) (hid : id ∈ b.code.ids) :
    b'.code.ownOffset? id = b.code.ownOffset? id := by
  unfold InstructionStream.ownOffset?
  rw [h.get?_old ((hb.code.mem_ids id).mp hid)]
  cases b.code.get? id with
  | none => rfl
  | some i =>
    rw [Option.map_some, Option.bind_some, Option.bind_some, Instruction.mapTargets_eq]

theorem Spliced.ownOffset?_probe (h : Spliced b ps b') (hx : x ∈ Splicing.handlesAt id b.code.arena.size ps) :
    b'.code.ownOffset? x = none := by
  obtain ⟨p, -, i, hi, hget⟩ := h.get?_probe hx
  unfold InstructionStream.ownOffset?
  rw [hget, Option.bind_some]
  simp only [Splicing.probe, ProbeApi.probe, List.mem_cons, List.not_mem_nil, or_false] at hi
  rcases hi with rfl | rfl | rfl <;> rfl

/-- A decoded instruction and the probes in front of it have the offset of the instruction. -/
theorem Spliced.decodedOffset?_eq (h : Spliced b ps b') (hb : b.Decoded) (hb' : b'.WellFormed) (hid : id ∈ b.code.ids)
    (hx : x ∈ Splicing.handlesAt id b.code.arena.size ps ++ [id]) :
    b'.code.decodedOffset? x = b.code.ownOffset? id := by
  obtain ⟨offset, hoffset⟩ := hb.exists_ownOffset? hid
  obtain ⟨front, back, hids⟩ := List.append_of_mem hid
  have hrun : b'.code.ids = (front.flatMap fun id => Splicing.handlesAt id b.code.arena.size ps ++ [id]) ++
      (Splicing.handlesAt id b.code.arena.size ps ++
        id :: back.flatMap fun id => Splicing.handlesAt id b.code.arena.size ps ++ [id]) := by
    rw [h.ids, hids]
    simp
  have hold : b'.code.ownOffset? id = some offset := (h.ownOffset?_old hb.wellFormed hid).trans hoffset
  rw [hoffset]
  exact InstructionStream.decodedOffset?_of_run hb'.code.nodup hrun (fun y hy => h.ownOffset?_probe hy) hold hx

theorem Decoded.decodedOffset?_eq (hb : b.Decoded) (hid : id ∈ b.code.ids) :
    b.code.decodedOffset? id = b.code.ownOffset? id :=
  (Spliced.nil b).decodedOffset?_eq hb hb.wellFormed hid (List.mem_append_right _ (List.mem_singleton_self id))

/-- A decoded instruction and the probes in front of it have the label of the instruction. -/
theorem Spliced.label_eq (h : Spliced b ps b') (hb : b.Decoded) (hb' : b'.WellFormed) (hid : id ∈ b.code.ids)
    (hx : x ∈ Splicing.handlesAt id b.code.arena.size ps ++ [id]) : b'.code.label x = b.code.label id := by
  unfold InstructionStream.label
  rw [h.decodedOffset?_eq hb hb' hid hx, hb.decodedOffset?_eq hid]

/-- The line of a decoded instruction does not show the probes, also where it names an instruction that has some. -/
theorem Spliced.describe_eq (h : Spliced b ps b') (hb : b.Decoded) (hb' : b'.WellFormed) (hid : id ∈ b.code.ids) :
    b'.code.describe id = b.code.describe id := by
  unfold InstructionStream.describe
  rw [h.get?_old ((hb.wellFormed.code.mem_ids id).mp hid)]
  cases hi : b.code.get? id with
  | none => rfl
  | some i =>
    have hlabel := h.label_eq hb hb' hid (List.mem_append_right _ (List.mem_singleton_self id))
    refine congrArg Except.ok (Instruction.line_mapTargets hlabel fun t ht => ?_)
    have hinside := hb.code.inside i (Array.mem_of_getElem? hi) t ht
    exact h.label_eq hb hb' ((hb.wellFormed.code.mem_ids t).mpr hinside) (Splicing.entry_mem _ ps t)

/-- The instructions of a probe have the offset of the instruction that they were spliced in front of. -/
theorem Spliced.decodedOffset?_handles (h : Spliced b ps b') (hb : b.Decoded) (hb' : b'.WellFormed) {k : Nat}
    {p : Splicing} (hp : ps[k]? = some p) (htarget : p.target ∈ b.code.ids)
    (hx : x ∈ Splicing.handles (b.code.arena.size + 3 * k)) :
    x ∈ b'.code.ids ∧ b'.code.decodedOffset? x = b.code.ownOffset? p.target := by
  have hmem : x ∈ Splicing.handlesAt p.target b.code.arena.size ps ++ [p.target] :=
    List.mem_append_left _ (Splicing.mem_handlesAt.mpr ⟨k, p, hp, rfl, hx⟩)
  constructor
  · rw [h.ids]
    exact List.mem_flatMap.mpr ⟨p.target, htarget, hmem⟩
  · exact h.decodedOffset?_eq hb hb' htarget hmem

theorem Spliced.map_get?_handles (h : Spliced b ps b') {k : Nat} {p : Splicing} (hp : ps[k]? = some p) :
    (Splicing.handles (b.code.arena.size + 3 * k)).map b'.code.get? = p.probe.map some := by
  have hget (j : Nat) (hj : j < 3) : b'.code.get? ⟨b.code.arena.size + 3 * k + j⟩ = p.probe[j]? := by
    unfold InstructionStream.get?
    rw [Nat.add_assoc, h.get?_new, Splicing.probes_getElem? hp hj]
  generalize b.code.arena.size + 3 * k = start at hget ⊢
  show [b'.code.get? ⟨start + 0⟩, b'.code.get? ⟨start + 1⟩, b'.code.get? ⟨start + 2⟩] = _
  rw [hget 0 (by decide), hget 1 (by decide), hget 2 (by decide)]
  rfl

/--
The listing of a body that was read does not show what was spliced into it. Whatever probes were put in front of its
instructions, one after another, the line of each decoded instruction is the same as before, that of a branch or a switch
too. What is in the code beside the decoded instructions are the probes, three instructions for each in the order of the
splices, and all of them have the offset at which the instruction was decoded that they were put in front of.
-/
theorem describe_spliceEach {data : List UInt8} (hdata : parse data = .ok b)
    (htargets : ∀ p ∈ ps, p.target ∈ b.code.ids) (hspliced : b.spliceEach ps = .ok b') :
    (∀ id ∈ b.code.ids, ∃ line, b.code.describe id = .ok line ∧ b'.code.describe id = .ok line) ∧
    (∀ x ∈ b'.code.ids, x ∈ b.code.ids ∨
      ∃ k p, ps[k]? = some p ∧ x ∈ Splicing.handles (b.code.arena.size + 3 * k)) ∧
    ∀ k p, ps[k]? = some p →
      (Splicing.handles (b.code.arena.size + 3 * k)).map b'.code.get? = p.probe.map some ∧
      ∃ i offset, b.code.get? p.target = some i ∧ i.offset = some offset ∧
        ∀ x ∈ Splicing.handles (b.code.arena.size + 3 * k), x ∈ b'.code.ids ∧ b'.code.decodedOffset? x = some offset := by
  have hb := decoded_of_parse hdata
  obtain ⟨h, hb'⟩ := spliced_spliceEach hb.wellFormed htargets hspliced
  refine ⟨fun id hid => ?_, fun x hx => ?_, fun k p hp => ⟨h.map_get?_handles hp, ?_⟩⟩
  · obtain ⟨i, hi⟩ := hb.wellFormed.code.exists_get? hid
    have hline : b.code.describe id = .ok (i.line b.code.label id) := by
      unfold InstructionStream.describe
      rw [hi]
    exact ⟨_, hline, (h.describe_eq hb hb' hid).trans hline⟩
  · rw [h.ids] at hx
    obtain ⟨id, hid, hx⟩ := List.mem_flatMap.mp hx
    rcases List.mem_append.mp hx with hprobe | hold
    · obtain ⟨k, p, hp, -, hmem⟩ := Splicing.mem_handlesAt.mp hprobe
      exact .inr ⟨k, p, hp, hmem⟩
    · exact .inl (List.mem_singleton.mp hold ▸ hid)
  · have htarget := htargets p (List.mem_of_getElem? hp)
    obtain ⟨offset, hoffset⟩ := hb.exists_ownOffset? htarget
    obtain ⟨i, hi, hown⟩ := Option.bind_eq_some_iff.mp hoffset
    refine ⟨i, offset, hi, hown, fun x hx => ?_⟩
    obtain ⟨hmem, hdecoded⟩ := h.decodedOffset?_handles hb hb' hp htarget hx
    exact ⟨hmem, hdecoded.trans hoffset⟩

/-- A branch and a switch lead to an instruction with two probes; the switch, at the offset 3, has one as well. -/
theorem describe_spliceEach_switch : ∃ b b',
    parse [0x36, 0x00, 0x2B, 0xFD, 0x45, 1, 0, 0, 0, 0xF4, 0xFF, 0xFF, 0xFF, 0x2A] = .ok b ∧
      b.spliceEach (probesAt [0, 2, 0]) = .ok b' ∧ b.code.length = 4 ∧ b'.code.length = 13 ∧
      (∀ id ∈ b.code.ids, ∃ line, b.code.describe id = .ok line ∧ b'.code.describe id = .ok line) ∧
      ∀ x ∈ Splicing.handles 7, b'.code.decodedOffset? x = some 3 := by
  obtain ⟨b, hdata, htargets, hsize, hown, b', hspliced, hlength⟩ : ∃ b,
      parse [0x36, 0x00, 0x2B, 0xFD, 0x45, 1, 0, 0, 0, 0xF4, 0xFF, 0xFF, 0xFF, 0x2A] = .ok b ∧
      (∀ p ∈ probesAt [0, 2, 0], p.target ∈ b.code.ids) ∧ b.code.arena.size = 4 ∧ b.code.ownOffset? ⟨2⟩ = some 3 ∧
      ∃ b', b.spliceEach (probesAt [0, 2, 0]) = .ok b' ∧ b.code.length = 4 ∧ b'.code.length = 13 := by
    decide +kernel
  obtain ⟨hlines, -, hprobes⟩ := describe_spliceEach hdata htargets hspliced
  obtain ⟨-, i, offset, hi, hoffset, hhandles⟩ := hprobes 1 _ rfl
  unfold InstructionStream.ownOffset? at hown
  rw [hi, Option.bind_some, hoffset] at hown
  cases hown
  rw [hsize] at hhandles
  exact ⟨b, b', hdata, hspliced, hlength.1, hlength.2, hlines, fun x hx => (hhandles x hx).2⟩

end MethodBody

end CilProbes

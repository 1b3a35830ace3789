import CilProbes.Proofs.Module.Debug

/-!
# Tables of what is imported

The tables of member references and of user strings only grow, and a value is looked for before it is added
(`Interned.place`). So the first row that holds a value stays the first one, and what a token names does not change
(`Module.Grows`). A `Request` asks for the token of a string or of a member. The tokens that a sequence of requests gets
are those of the first rows in the tables at the end (`Module.requests_tokens`), so a value whose row fits in a token is
found by it from then on (`Module.requests_resolve`).
-/

namespace CilProbes

/-! ## Adding to a table -/

namespace Interned

variable {α : Type} [BEq α] {rows : List α} {a : α} {index : Nat}

/-- The index of the first row that holds a value, and the table with such a row. -/
def place (rows : List α) (a : α) : Nat × List α :=
  match rows.idxOf? a with
  | some index => (index, rows)
  | none => (rows.length, rows ++ [a])

theorem place_of_idxOf? (h : rows.idxOf? a = some index) : place rows a = (index, rows) := by
  unfold place
  rw [h]

variable [LawfulBEq α]

theorem place_of_notMem (h : a ∉ rows) : place rows a = (rows.length, rows ++ [a]) := by
  unfold place
  rw [List.idxOf?_eq_none_iff.mpr h]

/-- The value is added to the table at most. -/
theorem exists_extra (rows : List α) (a : α) : ∃ extra, extra.Sublist [a] ∧ (place rows a).2 = rows ++ extra := by
  cases h : rows.idxOf? a with
  | some index => exact ⟨[], List.nil_sublist _, by rw [place_of_idxOf? h, List.append_nil]⟩
  | none =>
    rw [place_of_notMem (List.idxOf?_eq_none_iff.mp h)]
    exact ⟨[a], List.Sublist.refl _, rfl⟩

/-- The first row of a value stays the first one when rows are added. -/
theorem idxOf?_append_of_some (h : rows.idxOf? a = some index) (extra : List α) :
    (rows ++ extra).idxOf? a = some index := by
  rw [List.idxOf?_eq_some_iff] at h ⊢
  obtain ⟨hlt, ha, hfirst⟩ := h
  refine ⟨by rw [List.length_append]; omega, by rw [List.getElem_append_left hlt, ha], ?_⟩
  intro j hj
  rw [List.getElem_append_left (Nat.lt_trans hj hlt)]
  exact hfirst j hj

theorem idxOf?_place (rows : List α) (a : α) : (place rows a).2.idxOf? a = some (place rows a).1 := by
  cases h : rows.idxOf? a with
  | some index => rw [place_of_idxOf? h, h]
  | none =>
    have hnone : a ∉ rows := List.idxOf?_eq_none_iff.mp h
    rw [place_of_notMem hnone]
    exact InstructionStream.idxOf?_append hnone []

theorem getElem?_of_idxOf? (h : rows.idxOf? a = some index) : rows[index]? = some a := by
  obtain ⟨hlt, ha, -⟩ := List.idxOf?_eq_some_iff.mp h
  rw [List.getElem?_eq_getElem hlt, ha]

theorem place_le (rows : List α) (a : α) : (place rows a).1 ≤ rows.length := by
  cases h : rows.idxOf? a with
  | some index =>
    obtain ⟨hlt, -⟩ := List.idxOf?_eq_some_iff.mp h
    rw [place_of_idxOf? h]
    exact Nat.le_of_lt hlt
  | none => rw [place_of_notMem (List.idxOf?_eq_none_iff.mp h)]

/-- A value that was added is found when it is asked for again. -/
theorem place_place (rows : List α) (a : α) : place (place rows a).2 a = place rows a :=
  place_of_idxOf? (idxOf?_place rows a)

end Interned

namespace Module

open Interned

variable {m m' m'' : Module} {member : MemberRef} {value : String} {t : Token} {index : Nat}

theorem importMember_place (m : Module) (member : MemberRef) :
    m.importMember member =
      (.atIndex .memberRef (place m.memberRefs member).1, { m with memberRefs := (place m.memberRefs member).2 }) := by
  unfold importMember
  cases h : m.memberRefs.idxOf? member with
  | some index => rw [place_of_idxOf? h]
  | none => rw [place_of_notMem (List.idxOf?_eq_none_iff.mp h)]

theorem internString_place (m : Module) (value : String) :
    m.internString value =
      (.atIndex .userString (place m.userStrings value).1, { m with userStrings := (place m.userStrings value).2 }) := by
  unfold internString
  cases h : m.userStrings.idxOf? value with
  | some index => rw [place_of_idxOf? h]
  | none => rw [place_of_notMem (List.idxOf?_eq_none_iff.mp h)]

/-- The member is added to the table at most. -/
theorem importMember_eq (m : Module) (member : MemberRef) : ∃ extra, extra.Sublist [member] ∧
    (m.importMember member).2 = { m with memberRefs := m.memberRefs ++ extra } := by
  obtain ⟨extra, hextra, hrows⟩ := exists_extra m.memberRefs member
  rw [importMember_place]
  exact ⟨extra, hextra, by rw [hrows]⟩

theorem internString_eq (m : Module) (value : String) : ∃ extra, extra.Sublist [value] ∧
    (m.internString value).2 = { m with userStrings := m.userStrings ++ extra } := by
  obtain ⟨extra, hextra, hrows⟩ := exists_extra m.userStrings value
  rw [internString_place]
  exact ⟨extra, hextra, by rw [hrows]⟩

/-- A string that was imported is found when it is imported again. -/
theorem internString_again (h : m'.userStrings = (m.internString value).2.userStrings) :
    m'.internString value = ((m.internString value).1, m') := by
  rw [internString_place m] at h ⊢
  rw [internString_place m']
  dsimp only at h ⊢
  rw [h, place_place, ← h]

/-- A token names a member by its row. -/
theorem member?_atIndex (h : m.memberRefs[index]? = some member) (hfit : index + 1 < 2 ^ 24) :
    m.member? (.atIndex .memberRef index) = some member := by
  unfold member?
  rw [Token.index?_atIndex hfit]
  exact h

theorem string?_atIndex (h : m.userStrings[index]? = some value) (hfit : index + 1 < 2 ^ 24) :
    m.string? (.atIndex .userString index) = some value := by
  unfold string?
  rw [Token.index?_atIndex hfit]
  exact h

/-- The token of an imported member names it. -/
theorem member?_importMember (h : m.memberRefs.length + 1 < 2 ^ 24) :
    (m.importMember member).2.member? (m.importMember member).1 = some member := by
  have hle := place_le m.memberRefs member
  rw [importMember_place]
  exact member?_atIndex (getElem?_of_idxOf? (idxOf?_place m.memberRefs member)) (by omega)

theorem string?_internString (h : m.userStrings.length + 1 < 2 ^ 24) :
    (m.internString value).2.string? (m.internString value).1 = some value := by
  have hle := place_le m.userStrings value
  rw [internString_place]
  exact string?_atIndex (getElem?_of_idxOf? (idxOf?_place m.userStrings value)) (by omega)

/-- A token names the member that it named before the table got more. -/
theorem member?_of_append {token : Token} {extra : List MemberRef} (h : m.member? token = some member)
    (happend : m'.memberRefs = m.memberRefs ++ extra) : m'.member? token = some member := by
  obtain ⟨index, hindex, hmember⟩ := Option.bind_eq_some_iff.mp h
  unfold member?
  rw [hindex, Option.bind_some, happend, List.getElem?_append_left (List.getElem?_eq_some_iff.mp hmember).1]
  exact hmember

theorem string?_of_append {token : Token} {extra : List String} (h : m.string? token = some value)
    (happend : m'.userStrings = m.userStrings ++ extra) : m'.string? token = some value := by
  obtain ⟨index, hindex, hvalue⟩ := Option.bind_eq_some_iff.mp h
  unfold string?
  rw [hindex, Option.bind_some, happend, List.getElem?_append_left (List.getElem?_eq_some_iff.mp hvalue).1]
  exact hvalue

/-! ## Modules with more rows -/

/-- One module has the rows of another and perhaps more, and is like it apart from them. -/
structure Grows (m m' : Module) : Prop where
  rest : m' = { m with memberRefs := m'.memberRefs, userStrings := m'.userStrings }
  members : ∃ extra, m'.memberRefs = m.memberRefs ++ extra
  strings : ∃ extra, m'.userStrings = m.userStrings ++ extra

theorem Grows.refl (m : Module) : m.Grows m :=
  ⟨rfl, ⟨[], (List.append_nil _).symm⟩, ⟨[], (List.append_nil _).symm⟩⟩

theorem Grows.trans (h : m.Grows m') (h' : m'.Grows m'') : m.Grows m'' where
  rest := by rw [h'.rest, h.rest]
  members := by
    obtain ⟨first, hfirst⟩ := h.members
    obtain ⟨second, hsecond⟩ := h'.members
    exact ⟨first ++ second, by rw [hsecond, hfirst, List.append_assoc]⟩
  strings := by
    obtain ⟨first, hfirst⟩ := h.strings
    obtain ⟨second, hsecond⟩ := h'.strings
    exact ⟨first ++ second, by rw [hsecond, hfirst, List.append_assoc]⟩

theorem grows_importMember (m : Module) (member : MemberRef) : m.Grows (m.importMember member).2 := by
  obtain ⟨extra, -, heq⟩ := importMember_eq m member
  rw [heq]
  exact ⟨rfl, ⟨extra, rfl⟩, ⟨[], (List.append_nil _).symm⟩⟩

theorem grows_internString (m : Module) (value : String) : m.Grows (m.internString value).2 := by
  obtain ⟨extra, -, heq⟩ := internString_eq m value
  rw [heq]
  exact ⟨rfl, ⟨[], (List.append_nil _).symm⟩, ⟨extra, rfl⟩⟩

end Module

/-! ## Requests -/

/-- What a token is asked for. -/
inductive Request where
  | string (value : String)
  | member (ref : MemberRef)

namespace Request

variable {m m' : Module} {r r' : Request} {t : Token} {index : Nat}

/-- The table that has the row of a request. -/
def table : Request → Table
  | .string _ => .userString
  | .member _ => .memberRef

/-- Gets the token of a request from a module, with the module afterwards. -/
def run (m : Module) : Request → Token × Module
  | .string value => m.internString value
  | .member ref => m.importMember ref

/-- A token names what is requested. -/
def Found (m : Module) (t : Token) : Request → Prop
  | .string value => m.string? t = some value
  | .member ref => m.member? t = some ref

/-- The index of the first row that holds what is requested. -/
def index? (m : Module) : Request → Option Nat
  | .string value => m.userStrings.idxOf? value
  | .member ref => m.memberRefs.idxOf? ref

/-- The first row that holds what is requested, counted from 1, fits in the 24 bits that a token has for it. -/
def Fits (m : Module) (r : Request) : Prop :=
  ∃ index, r.index? m = some index ∧ index + 1 < 2 ^ 24

theorem grows_run (m : Module) (r : Request) : m.Grows (r.run m).2 := by
  cases r with
  | string value => exact m.grows_internString value
  | member ref => exact m.grows_importMember ref

/-- The token of a request is that of the first row, afterwards. -/
theorem run_token (m : Module) (r : Request) :
    ∃ index, r.index? (r.run m).2 = some index ∧ (r.run m).1 = .atIndex r.table index := by
  cases r with
  | string value =>
    refine ⟨(Interned.place m.userStrings value).1, ?_, ?_⟩
    · show (m.internString value).2.userStrings.idxOf? value = _
      rw [Module.internString_place]
      exact Interned.idxOf?_place ..
    · exact congrArg Prod.fst (m.internString_place value)
  | member ref =>
    refine ⟨(Interned.place m.memberRefs ref).1, ?_, ?_⟩
    · show (m.importMember ref).2.memberRefs.idxOf? ref = _
      rw [Module.importMember_place]
      exact Interned.idxOf?_place ..
    · exact congrArg Prod.fst (m.importMember_place ref)

theorem index?_of_grows (hm : m.Grows m') (h : r.index? m = some index) : r.index? m' = some index := by
  cases r with
  | string value =>
    obtain ⟨extra, hextra⟩ := hm.strings
    show m'.userStrings.idxOf? value = _
    rw [hextra]
    exact Interned.idxOf?_append_of_some h extra
  | member ref =>
    obtain ⟨extra, hextra⟩ := hm.members
    show m'.memberRefs.idxOf? ref = _
    rw [hextra]
    exact Interned.idxOf?_append_of_some h extra

theorem found_of_grows (hm : m.Grows m') (h : r.Found m t) : r.Found m' t := by
  cases r with
  | string value =>
    obtain ⟨extra, hextra⟩ := hm.strings
    exact Module.string?_of_append h hextra
  | member ref =>
    obtain ⟨extra, hextra⟩ := hm.members
    exact Module.member?_of_append h hextra

theorem found_atIndex (h : r.index? m = some index) (hfit : index + 1 < 2 ^ 24) : r.Found m (.atIndex r.table index) := by
  cases r with
  | string value => exact Module.string?_atIndex (Interned.getElem?_of_idxOf? h) hfit
  | member ref => exact Module.member?_atIndex (Interned.getElem?_of_idxOf? h) hfit

/-- A token names one value only. -/
theorem eq_of_found (h : r.Found m t) (h' : r'.Found m t) (htable : r.table = r'.table) : r = r' := by
  cases r with
  | string value =>
    cases r' with
    | string value' =>
      cases Option.some_inj.mp (h.symm.trans h')
      rfl
    | member => cases htable
  | member ref =>
    cases r' with
    | string => cases htable
    | member ref' =>
      cases Option.some_inj.mp (h.symm.trans h')
      rfl

/-! ## Sequences of requests -/

/-- Makes requests one after another. -/
def runAll : List Request → Module → List Token × Module
  | [], m => ([], m)
  | r :: rs, m =>
    let (t, m) := r.run m
    let (ts, m) := runAll rs m
    (t :: ts, m)

theorem runAll_append (front back : List Request) (m : Module) :
    runAll (front ++ back) m =
      ((runAll front m).1 ++ (runAll back (runAll front m).2).1, (runAll back (runAll front m).2).2) := by
  induction front generalizing m with
  | nil => rfl
  | cons r front ih =>
    simp only [List.cons_append, runAll, ih]

/-- The module afterwards only has more rows, and the tokens are those of the first rows in it. -/
theorem runAll_tokens (rs : List Request) (m : Module) :
    m.Grows (runAll rs m).2 ∧ List.Forall₂ (fun r t => ∃ index, r.index? (runAll rs m).2 = some index ∧
      t = .atIndex r.table index) rs (runAll rs m).1 := by
  induction rs generalizing m with
  | nil => exact ⟨.refl m, .nil⟩
  | cons r rs ih =>
    obtain ⟨hgrows, htokens⟩ := ih (r.run m).2
    obtain ⟨index, hindex, htoken⟩ := run_token m r
    exact ⟨(grows_run m r).trans hgrows, .cons ⟨index, index?_of_grows hgrows hindex, htoken⟩ htokens⟩

/-- A request at a place of a sequence gets the token of its first row. -/
theorem token_of_getElem? {rs : List Request} {k : Nat} (hr : rs[k]? = some r) (ht : (runAll rs m).1[k]? = some t) :
    ∃ index, r.index? (runAll rs m).2 = some index ∧ t = .atIndex r.table index := by
  obtain ⟨found, hfound, h⟩ := exists_getElem?_of_forall₂ (runAll_tokens rs m).2 ht
  cases Option.some_inj.mp (hr.symm.trans hfound)
  exact h

/-- The first requests of a sequence get the same tokens when no more are made. -/
theorem runAll_take {rs : List Request} {k n : Nat} (ht : (runAll rs m).1[k]? = some t) (hr : rs[k]? = some r) (hk : k < n) :
    (runAll (rs.take n) m).1[k]? = some t := by
  have hlength : (runAll (rs.take n) m).1.length = (rs.take n).length := (runAll_tokens (rs.take n) m).2.length_eq.symm
  obtain ⟨hlt, -⟩ := List.getElem?_eq_some_iff.mp hr
  rw [← List.take_append_drop n rs, runAll_append] at ht
  rwa [List.getElem?_append_left (by rw [hlength, List.length_take]; omega)] at ht

theorem grows_take (rs : List Request) (n : Nat) (m : Module) : (runAll (rs.take n) m).2.Grows (runAll rs m).2 := by
  have h := (runAll_tokens (rs.drop n) (runAll (rs.take n) m).2).1
  rwa [← congrArg Prod.snd (runAll_append (rs.take n) (rs.drop n) m), List.take_append_drop] at h

/-- Tokens of different tables differ. -/
theorem table_of_atIndex {index' : Nat} (h : Token.atIndex r.table index = .atIndex r'.table index') :
    r.table = r'.table := by
  have hcode : r.table.code = r'.table.code := by
    have htable := congrArg Token.table h
    unfold Token.atIndex at htable
    rwa [Token.table_ofParts, Token.table_ofParts] at htable
  cases r <;> cases r' <;> first | rfl | cases hcode

/--
Whatever strings and members are requested of a module, and however many: besides new rows it stays as it is, and every
token names what it named before. Equal requests get equal tokens. Where the first row of a value fits in a token, the
token that a request gets names this value right after it and after all others, and is that of no other such value.
-/
theorem runAll_found (m : Module) (rs : List Request) :
    m.Grows (runAll rs m).2 ∧ (runAll rs m).1.length = rs.length ∧
    (∀ (t : Token) (r : Request), r.Found m t → r.Found (runAll rs m).2 t) ∧
    (∀ (k : Nat) (r : Request) (t : Token), rs[k]? = some r → (runAll rs m).1[k]? = some t →
      r.Fits (runAll rs m).2 → ∀ n, k < n → r.Found (runAll (rs.take n) m).2 t) ∧
    ∀ (k k' : Nat) (r r' : Request) (t t' : Token), rs[k]? = some r → (runAll rs m).1[k]? = some t →
      rs[k']? = some r' → (runAll rs m).1[k']? = some t' →
        (r = r' → t = t') ∧ (t = t' → r.table = r'.table) ∧
          (r.Fits (runAll rs m).2 → r'.Fits (runAll rs m).2 → t = t' → r = r') := by
  obtain ⟨hgrows, htokens⟩ := runAll_tokens rs m
  refine ⟨hgrows, htokens.length_eq.symm, fun t r => found_of_grows hgrows, ?_, ?_⟩
  · rintro k r t hr ht ⟨index, hindex, hfit⟩ n hk
    have hr' : (rs.take n)[k]? = some r := by rw [List.getElem?_take_of_lt hk, hr]
    obtain ⟨index', hindex', rfl⟩ := token_of_getElem? hr' (runAll_take ht hr hk)
    have hsame := index?_of_grows (grows_take rs n m) hindex'
    cases Option.some_inj.mp (hindex.symm.trans hsame)
    exact found_atIndex hindex' hfit
  · intro k k' r r' t t' hr ht hr' ht'
    obtain ⟨index, hindex, rfl⟩ := token_of_getElem? hr ht
    obtain ⟨index', hindex', rfl⟩ := token_of_getElem? hr' ht'
    refine ⟨?_, table_of_atIndex, ?_⟩
    · rintro rfl
      cases Option.some_inj.mp (hindex.symm.trans hindex')
      rfl
    · rintro ⟨_, hfound, hfit⟩ ⟨_, hfound', hfit'⟩ htoken
      cases Option.some_inj.mp (hindex.symm.trans hfound)
      cases Option.some_inj.mp (hindex'.symm.trans hfound')
      have h' := found_atIndex hindex' hfit'
      rw [← htoken] at h'
      exact eq_of_found (found_atIndex hindex hfit) h' (table_of_atIndex htoken)

/-- A string that the table lacks, and one that it holds twice. -/
theorem runAll_found_twice :
    ∃ (m : Module) (rs : List Request), m = { name := "", types := [], userStrings := ["a", "b", "a"] } ∧
      rs = [.string "c", .member ⟨"x", "T", "f", []⟩, .string "a", .string "c"] ∧
      (runAll rs m).1 = [⟨0x70000004⟩, ⟨0x0A000001⟩, ⟨0x70000001⟩, ⟨0x70000004⟩] ∧
      (∀ n, 0 < n → (runAll (rs.take n) m).2.string? ⟨0x70000004⟩ = some "c") ∧
      (runAll rs m).2.string? ⟨0x70000003⟩ = some "a" := by
  obtain ⟨-, -, hkept, hfound, -⟩ := runAll_found { name := "", types := [], userStrings := ["a", "b", "a"] }
    [.string "c", .member ⟨"x", "T", "f", []⟩, .string "a", .string "c"]
  refine ⟨_, _, rfl, rfl, by decide +kernel, ?_, ?_⟩
  · exact hfound 0 (.string "c") ⟨0x70000004⟩ rfl (by decide +kernel) ⟨3, by decide +kernel, by decide⟩
  · exact hkept ⟨0x70000003⟩ (.string "a") (by show Module.string? _ _ = _; decide +kernel)

/-- Behind the last row that tokens have room for, a string gets a token that names nothing. -/
theorem not_found_behind {value : String} (hlength : m.userStrings.length = 2 ^ 24 - 1) (hnone : value ∉ m.userStrings) :
    (runAll [.string value] m).1 = [⟨0x70000000⟩] ∧ ¬ Found (runAll [.string value] m).2 ⟨0x70000000⟩ (.string value) := by
  have hplace : (Interned.place m.userStrings value).1 = 2 ^ 24 - 1 := by rw [Interned.place_of_notMem hnone, hlength]
  have htoken : (m.internString value).1 = ⟨0x70000000⟩ := by
    rw [Module.internString_place, hplace]
    rfl
  refine ⟨congrArg (fun t => [t]) htoken, fun hfound => ?_⟩
  have hindex : (⟨0x70000000⟩ : Token).index? .userString = none := Token.index?_atIndex_limit .userString
  obtain ⟨index, h, -⟩ := Option.bind_eq_some_iff.mp hfound
  cases hindex.symm.trans h

/-- 2^24 - 1 rows leave no room for another string. -/
theorem runAll_found_limit : ∃ m : Module,
    m = { name := "", types := [], userStrings := List.replicate (2 ^ 24 - 1) "" } ∧
      (runAll [.string "h"] m).1 = [⟨0x70000000⟩] ∧
      ¬ Found (runAll [.string "h"] m).2 ⟨0x70000000⟩ (.string "h") := by
  refine ⟨_, rfl, not_found_behind ?_ ?_⟩
  · exact List.length_replicate
  · intro hmem
    exact absurd (List.eq_of_mem_replicate hmem) (by decide)

end Request

end CilProbes

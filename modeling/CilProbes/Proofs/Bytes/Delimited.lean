import CilProbes.Proofs.Bytes.Sized
import CilProbes.Proofs.Bytes.Taken

/-!
# Readers that know their end

A delimited reader decides how far it reads by what it has read: the bytes that it took from a cursor make it read just
them wherever else they come at that position, and it runs out of bounds on every proper prefix of them
(`Reader.Delimits`). Delimited readers compose (`Delimited.bind`, `Delimited.list`), and the parts that formats are made
of are delimited. A reader that also asks for the end of the data fails on less data and on more (`Reader.Whole`).
-/

namespace CilProbes.Reader

variable {α β : Type} {r : Reader α} {f : α → Reader β} {start n : Nat} {bytes more : List UInt8} {a : α} {b : β}

/-- Where a proper prefix of `bytes` is left at the position `start`, `r` reads out of bounds. -/
def ShortOf (r : Reader α) (start : Nat) (bytes : List UInt8) : Prop :=
  ∀ c : Cursor, c.pos = start → c.rest <+: bytes → c.rest.length < bytes.length →
    ∃ c', r c = .error .outOfBounds c'

/-- At the position `start`, `r` reads all of `bytes` for `a`, and no proper prefix is enough. -/
structure Delimits (r : Reader α) (start : Nat) (bytes : List UInt8) (a : α) : Prop where
  reads : ReadsAt r start bytes a
  short : ShortOf r start bytes

/-- Whatever `r` reads, it is delimited by the bytes that were taken for it. -/
def Delimited (r : Reader α) : Prop :=
  ∀ (c : Cursor) (a : α) (c' : Cursor), r c = .ok a c' → ∃ bytes, c.Took bytes c' ∧ Delimits r c.pos bytes a

/-! ## Composition -/

/-- The data may end in what is read first, or in what is read next. -/
theorem ShortOf.bind (h : Delimits r start bytes a) (hf : ShortOf (f a) (start + bytes.length) more) :
    ShortOf (r >>= f) start (bytes ++ more) := by
  intro c hpos hprefix hlt
  rw [List.length_append] at hlt
  by_cases hlen : c.rest.length < bytes.length
  · obtain ⟨c', hshort⟩ := h.short c hpos
      (List.prefix_of_prefix_length_le hprefix (List.prefix_append bytes more) (Nat.le_of_lt hlen)) hlen
    exact ⟨c', edit_bind_of_error hshort⟩
  · obtain ⟨left, hleft⟩ :=
      List.prefix_of_prefix_length_le (List.prefix_append bytes more) hprefix (Nat.le_of_not_lt hlen)
    obtain ⟨c₁, hr, hpos₁, hrest₁⟩ := h.reads c left hpos hleft.symm
    rw [← hleft] at hprefix hlt
    rw [List.length_append] at hlt
    obtain ⟨c', hshort⟩ := hf c₁ hpos₁ (hrest₁ ▸ (List.prefix_append_right_inj bytes).mp hprefix)
      (by rw [hrest₁]; omega)
    exact ⟨c', by rw [edit_bind_of_ok hr, hshort]⟩

theorem Delimits.bind (h : Delimits r start bytes a) (hf : Delimits (f a) (start + bytes.length) more b) :
    Delimits (r >>= f) start (bytes ++ more) b where
  reads := h.reads.bind hf.reads
  short := .bind h hf.short

theorem Delimited.bind (h : Delimited r) (hf : ∀ a, Delimited (f a)) : Delimited (r >>= f) := by
  intro c b c' hrun
  obtain ⟨a, c₁, hr, hrun⟩ := edit_bind_ok.mp hrun
  obtain ⟨front, htook, hfront⟩ := h c a c₁ hr
  obtain ⟨back, htook', hback⟩ := hf a c₁ b c' hrun
  exact ⟨front ++ back, htook.append htook', hfront.bind (htook.pos ▸ hback)⟩

/-- No proper prefix of no bytes is left anywhere. -/
theorem ShortOf.nil (r : Reader α) (start : Nat) : ShortOf r start [] :=
  fun _ _ _ h => absurd h (Nat.not_lt_zero _)

theorem Delimited.pure (a : α) : Delimited (Pure.pure a) := by
  intro c a' c' hrun
  cases hrun
  exact ⟨[], .refl c, .pure a c.pos, .nil _ _⟩

theorem Delimited.bind_pure (h : Delimited r) (g : α → β) : Delimited (r >>= fun a => Pure.pure (g a)) :=
  h.bind fun a => .pure (g a)

/-- A reader that always fails. -/
theorem Delimited.fail (cause : Malformation) : Delimited (Reader.fail cause : Reader α) :=
  fun _ _ _ hrun => nomatch hrun

theorem Delimited.ofExcept (e : Except Fault α) : Delimited (Edit.ofExcept e) := by
  cases e with
  | ok a => exact .pure a
  | error fault => exact fun _ _ _ hrun => nomatch hrun

theorem Delimited.ite {p : Prop} [Decidable p] {r r' : Reader α} (h : Delimited r) (h' : Delimited r') :
    Delimited (if p then r else r') := by
  split
  · exact h
  · exact h'

theorem delimited_pos : Delimited pos := by
  intro c a c' hrun
  cases hrun
  refine ⟨[], .refl c, fun c₁ tail hpos hrest => ?_, .nil _ _⟩
  exact ⟨c₁, by rw [← hpos]; rfl, hpos, hrest⟩

theorem Delimited.timesOnto (h : Delimited r) (n : Nat) (done : List α) : Delimited (timesOnto r n done) := by
  induction n generalizing done with
  | zero => exact .pure done.reverse
  | succ n ih =>
    rw [timesOnto_succ]
    exact h.bind fun a => ih (a :: done)

/-! ## Words and fields -/

theorem Sized.delimited (h : Sized r n) : Delimited r := by
  intro c a c' hrun
  have hn : n ≤ c.remaining := by
    by_contra hn
    obtain ⟨c₁, hshort⟩ := h.short c (Nat.not_le.mp hn)
    rw [hshort] at hrun
    cases hrun
  obtain ⟨a', c₁, hreads, hr, hpos, hrest⟩ := h.read hn
  cases hr.symm.trans hrun
  have hlen : (c.rest.take n).length = n := by rw [List.length_take, c.length_rest, Nat.min_eq_left hn]
  refine ⟨c.rest.take n, ⟨by rw [hrest, List.take_append_drop], by rw [hpos, hlen]⟩, hreads c.pos, ?_⟩
  intro c₂ _ _ hlt
  rw [hlen, c₂.length_rest] at hlt
  exact h.short c₂ hlt

theorem delimited_byte : Delimited byte := by
  intro c b c' hrun
  refine ⟨[b], byte_took hrun, reads_byte b c.pos, fun c₁ _ _ hlt => ⟨c₁, ?_⟩⟩
  have hnil : c₁.rest = [] := List.length_eq_zero_iff.mp (Nat.lt_one_iff.mp hlt)
  unfold byte
  split
  · rfl
  · next h => rw [hnil] at h; cases h

theorem delimited_bytes (n : Nat) : Delimited (Reader.bytes n) :=
  (sized_bytes n).delimited

theorem delimited_uint16 : Delimited uint16 :=
  (sized_word 2).delimited.bind_pure _

theorem delimited_uint32 : Delimited uint32 :=
  sized_uint32.delimited

theorem delimited_compressed : Delimited compressed := by
  refine delimited_byte.bind fun first => .ite (.pure _) (.ite ?two (.ite ?four (.fail _)))
  case two => exact delimited_byte.bind fun second => .pure _
  case four => exact delimited_byte.bind fun b1 => delimited_byte.bind fun b2 => delimited_byte.bind fun b3 => .pure _

theorem delimited_sevenBitFrom (left shift value : Nat) : Delimited (sevenBitFrom left shift value) := by
  induction left generalizing shift value with
  | zero => exact .fail _
  | succ left ih => exact delimited_byte.bind fun b => .ite (.pure _) (ih _ _)

/-- Whether the bytes of a string are text does not matter for where it ends. -/
theorem delimited_string : Delimited string := by
  refine (delimited_sevenBitFrom 5 0 0).bind fun size => delimited_pos.bind fun start => ?_
  refine (delimited_bytes size.toNat).bind fun piece => ?_
  cases Utf8.decode piece with
  | ok text => exact .pure text
  | error fault => exact .fail _

theorem delimited_blob : Delimited blob :=
  delimited_compressed.bind delimited_bytes

theorem Delimited.list (h : Delimited r) : Delimited (Reader.list r) :=
  delimited_compressed.bind fun count => h.timesOnto count []

/-! ## All of the data -/

/-- At the position `start`, all of `bytes` are needed, and no byte may follow them. -/
structure ReadsOnly (r : Reader α) (start : Nat) (bytes : List UInt8) : Prop where
  short : ShortOf r start bytes
  long : ∀ (c : Cursor) (more : List UInt8), c.pos = start → c.rest = bytes ++ more → more ≠ [] →
    ∃ c', r c = .error (.malformed (.trailingBytes more.length)) c'

/-- Wherever `r` reads something, that is all that is left. -/
def Whole (r : Reader α) : Prop :=
  ∀ (c : Cursor) (a : α) (c' : Cursor), r c = .ok a c' → ReadsOnly r c.pos c.rest

theorem Whole.bind (h : Delimited r) (hf : ∀ a, Whole (f a)) : Whole (r >>= f) := by
  intro c b c' hrun
  obtain ⟨a, c₁, hr, hrun⟩ := edit_bind_ok.mp hrun
  obtain ⟨front, htook, hfront⟩ := h c a c₁ hr
  have hback := htook.pos ▸ hf a c₁ b c' hrun
  rw [htook.rest]
  constructor
  · exact .bind hfront hback.short
  · intro c₂ more hpos hrest hmore
    rw [List.append_assoc] at hrest
    obtain ⟨c₃, hr₃, hpos₃, hrest₃⟩ := hfront.reads c₂ _ hpos hrest
    obtain ⟨c₄, hlong⟩ := hback.long c₃ more hpos₃ hrest₃ hmore
    exact ⟨c₄, by rw [edit_bind_of_ok hr₃, hlong]⟩

theorem Whole.ite {p : Prop} [Decidable p] {r r' : Reader α} (h : Whole r) (h' : Whole r') :
    Whole (if p then r else r') := by
  split
  · exact h
  · exact h'

theorem Whole.fail_bind (cause : Malformation) (f : α → Reader β) : Whole (Reader.fail cause >>= f) :=
  fun _ _ _ hrun => nomatch hrun

/-- The end of the data is where nothing is left. -/
theorem whole_remaining (r : Reader β) :
    Whole (do
      let left ← remaining
      if left ≠ 0 then Reader.fail (.trailingBytes left)
      r) := by
  intro c b c' hrun
  have hnil : c.rest = [] := by
    by_contra hrest
    have hleft : c.remaining ≠ 0 := by rwa [← c.length_rest, Ne, List.length_eq_zero_iff]
    obtain ⟨left, c₁, hr, hrun⟩ := edit_bind_ok.mp hrun
    cases hr
    rw [if_pos hleft] at hrun
    cases hrun
  rw [hnil]
  constructor
  · exact .nil _ _
  · intro c₁ more hpos hrest hmore
    have hleft : c₁.remaining = more.length := by rw [← c₁.length_rest, hrest, List.nil_append]
    have hne : more.length ≠ 0 := List.length_eq_zero_iff.not.mpr hmore
    refine ⟨c₁, (edit_bind_of_ok (show remaining c₁ = .ok more.length c₁ by rw [← hleft]; rfl)).trans ?_⟩
    rw [if_pos hne]
    rfl

/-- What is read as a whole cannot be cut off, nor can anything be put behind it. -/
theorem Whole.run {data : List UInt8} (h : Whole r) (hrun : r.run data = .ok a) :
    (∀ front back, data = front ++ back → back ≠ [] → r.run front = .error .outOfBounds) ∧
      ∀ more, more ≠ [] → r.run (data ++ more) = .error (.malformed (.trailingBytes more.length)) := by
  obtain ⟨c, hr⟩ := run_ok hrun
  have honly := h _ _ _ hr
  constructor
  · intro front back hdata hback
    have hlt : front.length < data.length := by
      rw [hdata, List.length_append]
      exact Nat.lt_add_of_pos_right (List.length_pos_iff.mpr hback)
    obtain ⟨c', hshort⟩ := honly.short (Cursor.start front) rfl (hdata ▸ List.prefix_append front back) hlt
    unfold Reader.run
    rw [hshort]
  · intro more hmore
    obtain ⟨c', hlong⟩ := honly.long (Cursor.start (data ++ more)) more rfl rfl hmore
    unfold Reader.run
    rw [hlong]

end CilProbes.Reader

import CilProbes.Proofs.Bytes.Delimited
import CilProbes.Module.Image

/-!
# Where images end

Every part of an image tells where it ends by what stands in front of it: counts, sizes and the byte that tells whether
a method has a body. So an image that is read is no longer one when something is cut off at its end, and no longer one
when something is put behind it (`Module.parse_only`).
-/

namespace CilProbes

open Reader (Delimited Whole delimited_byte delimited_uint16 delimited_uint32 delimited_string delimited_blob)

namespace Image

theorem delimited_readMember : Delimited readMember := by
  refine delimited_string.bind fun scope => delimited_string.bind fun typeName => ?_
  exact delimited_string.bind fun name => delimited_blob.bind fun signature => .pure _

/-- A body ends with its blob, whatever is in it. -/
theorem delimited_readBody (method : String) : Delimited (readBody method) := by
  refine delimited_byte.bind fun marker => ?_
  split
  · exact .pure none
  · exact delimited_blob.bind fun body => (Delimited.ofExcept _).bind_pure some
  · exact .fail _

theorem delimited_readMethod : Delimited readMethod := by
  refine delimited_uint16.bind fun flags => delimited_uint16.bind fun implFlags => delimited_string.bind fun name => ?_
  exact delimited_blob.bind fun signature => (delimited_readBody name).bind_pure _

theorem delimited_readType (levels : Nat) : Delimited (readType levels) := by
  induction levels with
  | zero => exact .fail _
  | succ levels ih =>
    refine delimited_uint32.bind fun flags => delimited_string.bind fun space => delimited_string.bind fun name => ?_
    exact delimited_readMethod.list.bind fun methods => ih.list.bind fun nested => .pure _

theorem whole_reader : Whole reader := by
  refine .bind delimited_uint32 fun found => .ite (.fail_bind _ _) ?_
  refine .bind delimited_uint16 fun major => .bind delimited_uint16 fun minor => .ite (.fail_bind _ _) ?_
  refine .bind delimited_string fun name => .bind delimited_string.list fun attributes => ?_
  refine .bind delimited_readMember.list fun memberRefs => .bind delimited_string.list fun userStrings => ?_
  exact .bind (delimited_readType _).list fun types => Reader.whole_remaining _

end Image

namespace Module

variable {m : Module} {data : List UInt8}

/--
Of an image that is read, no proper prefix is an image, since reading it runs out of bounds; and no proper extension is
one, since what was put behind it is left over.
-/
theorem parse_only (h : parse data = .ok m) :
    (∀ front back, data = front ++ back → back ≠ [] → parse front = .error .outOfBounds) ∧
      ∀ more, more ≠ [] → parse (data ++ more) = .error (.malformed (.trailingBytes more.length)) :=
  Image.whole_reader.run h

/-- The image of a module with one method, without its last byte, and with three bytes behind it. -/
theorem parse_only_method : ∃ data m, data = [0x43, 0x49, 0x4C, 0x4D, 1, 0, 0, 0, 0, 0, 0, 0, 1, 0, 0, 0, 0, 0, 0, 1,
      22, 0, 0, 0, 0, 0, 1, 2, 0x06, 0x2A, 0] ∧ parse data = .ok m ∧ m.methods.length = 1 ∧
    parse data.dropLast = .error .outOfBounds ∧
    parse (data ++ [0, 0, 0]) = .error (.malformed (.trailingBytes 3)) := by
  obtain ⟨m, hparse, hmethods⟩ : ∃ m, parse [0x43, 0x49, 0x4C, 0x4D, 1, 0, 0, 0, 0, 0, 0, 0, 1, 0, 0, 0, 0, 0, 0, 1, 22,
      0, 0, 0, 0, 0, 1, 2, 0x06, 0x2A, 0] = .ok m ∧ m.methods.length = 1 := by
    decide +kernel
  obtain ⟨hcut, hput⟩ := parse_only hparse
  exact ⟨_, m, rfl, hparse, hmethods, hcut _ [0] rfl (List.cons_ne_nil _ _), hput [0, 0, 0] (List.cons_ne_nil _ _)⟩

end Module

end CilProbes

import CilProbes.Module.Image
import CilProbes.Proofs.Machine.Body

/-!
# Scanning module images

Images as a machine reads them. A type knows how deep it lies in other types, and one that lies too deep is not read, so
the scan of a type within types has no more than a fixed number of levels (`follows_typeDef`).
-/

namespace CilProbes.Machine

def member : Scan MemberRef := do
  let scope ← string
  let typeName ← string
  let name ← string
  return { scope, typeName, name, signature := ← blob }

/-- The body of the method with the given name, if it has one. -/
def methodBody (method : String) : Scan (Option MethodBody) := do
  let marker ← byte
  if marker = 0 then return none
  else if marker = 1 then return some (← parseBody (← blob))
  else throw (.malformed (.bodyMarker marker method))

def method : Scan Method := do
  let flags ← uint16
  let implFlags ← uint16
  let name ← string
  let signature ← blob
  return { name, flags, implFlags, signature, body := ← methodBody name }

/-- A type that lies in `depth` others, in no more than `fuel` levels. -/
def typeDef : (fuel depth : Nat) → Scan TypeDef
  | 0, _ => (trap : Option TypeDef)
  | fuel + 1, depth => do
    if Image.maxNesting < depth then throw (.malformed (.nesting Image.maxNesting))
    let flags ← uint32
    let space ← string
    let name ← string
    let methods ← list method
    let nested ← list (do typeDef fuel (← add sizeBits depth 1))
    return { flags, space, name, methods, nested }

def image : Scan Module := do
  let found ← uint32
  if found ≠ Image.magic then throw (.malformed (.imageMagic found))
  let major ← uint16
  let _minor ← uint16
  if major ≠ Image.majorVersion then throw (.malformed (.imageVersion major))
  let name ← string
  let attributes ← list string
  let memberRefs ← list member
  let userStrings ← list string
  let types ← list (typeDef (Image.maxNesting + 2) 0)
  let left ← remaining
  if left ≠ 0 then throw (.malformed (.trailingBytes left))
  return { name, attributes, memberRefs, userStrings, types }

def parseImage (data : List UInt8) : Checked Module :=
  image.runFrom data 0

/-! ## Staying in range -/

theorem follows_member : Follows member Image.readMember :=
  follows_string.bind fun _ => follows_string.bind fun _ => follows_string.bind fun _ => follows_blob.bind_pure

theorem follows_methodBody (method : String) : Follows (methodBody method) (Image.readBody method) := by
  refine follows_byte.bind fun marker => ?_
  by_cases hnone : marker = 0
  · rw [if_pos hnone, hnone]
    exact .pure none
  rw [if_neg hnone]
  by_cases hsome : marker = 1
  · rw [if_pos hsome, hsome]
    refine follows_blob.bind_such (fun _ _ _ => blob_lt) fun body hbody => ?_
    exact (Follows.ofExcept (run_parseBody hbody)).bind_pure
  · rw [if_neg hsome]
    split
    · contradiction
    · contradiction
    · exact .fail _

theorem follows_method : Follows method Image.readMethod :=
  follows_uint16.bind fun _ => follows_uint16.bind fun _ => follows_string.bind fun name => follows_blob.bind fun _ =>
    (follows_methodBody name).bind_pure

/-- The deeper a type lies, the fewer levels are left for the types in it. -/
theorem follows_typeDef {fuel depth levels : Nat} (hlevels : depth + levels = Image.maxNesting + 1) (hfuel : levels < fuel) :
    Follows (typeDef fuel depth) (Image.readType levels) := by
  have hlimit : Image.maxNesting = 64 := rfl
  induction levels generalizing fuel depth with
  | zero =>
    cases fuel with
    | zero => exact absurd hfuel (Nat.not_lt_zero _)
    | succ fuel =>
      intro c _
      have hdeep : Image.readType 0 c = .error (.malformed (.nesting Image.maxNesting)) c := rfl
      rw [typeDef, if_pos (by omega)]
      exact .throw_bind hdeep
  | succ levels ih =>
    cases fuel with
    | zero => exact absurd hfuel (Nat.not_lt_zero _)
    | succ fuel =>
      rw [typeDef, Image.readType, if_neg (by omega)]
      refine follows_uint32.bind fun flags => follows_string.bind fun space => follows_string.bind fun name => ?_
      refine (follows_list follows_method).bind fun methods => ?_
      have hdepth : add sizeBits depth 1 = some (depth + 1) := add_eq (by unfold sizeBits; omega)
      have hnested : Follows (do typeDef fuel (← add sizeBits depth 1)) (Image.readType levels) :=
        fun c hc => FollowsAt.lift_bind hdepth (ih (by omega) (by omega) c hc)
      exact (follows_list hnested).bind_pure

theorem follows_image : Follows image Image.reader := by
  refine follows_uint32.bind fun found => ?_
  dsimp only
  split
  · exact .fail_bind _
  refine follows_uint16.bind fun major => follows_uint16.bind fun minor => ?_
  split
  · exact .fail_bind _
  refine follows_string.bind fun name => (follows_list follows_string).bind fun attributes => ?_
  refine (follows_list follows_member).bind fun memberRefs => (follows_list follows_string).bind fun userStrings => ?_
  have htypes : Follows (list (typeDef (Image.maxNesting + 2) 0)) (Reader.list (Image.readType (Image.maxNesting + 1))) :=
    follows_list (follows_typeDef (Nat.zero_add _) (Nat.lt_succ_self _))
  refine htypes.bind fun types c hc => FollowsAt.remaining_bind ?_
  have hread {f : Nat → Reader Module} : (Reader.remaining >>= f) c = f c.remaining c := edit_bind_of_ok rfl
  refine FollowsAt.congr ?_ hread.symm
  split
  · exact .fail_bind _
  · exact .pure _

/-- An image is read in range. -/
theorem run_parseImage {data : List UInt8} (hdata : data.length < dataLimit) :
    (parseImage data).run = some (Module.parse data) :=
  follows_image.run hdata

end CilProbes.Machine

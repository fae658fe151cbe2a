import Mathlib.Data.String.Basic
import Zodiac.Lib.GoMap

/-!
# Typed values as JSON

Values of Go's types as JSON values, written and read the way `encoding/json` does it. A
struct is an object with a member for each field, except for empty fields that are marked
`omitempty`. Reading stores into a value that is there: members change the fields that they
name and leave the others, the elements of a slice are read into those of its array, and `null`
changes nothing but slices and maps. A member names the field that has its name, or else the
first one whose name differs in case only.

A slice that gets shorter keeps the other elements of its array. A later member of the same name
may be longer again, and is then read into them.

* `GoType.Val`: the values of a type.
* `decode_encode`: reading back gives the value, whatever was in the fields that are written
  always, if slices, maps and omitted fields were empty.
* `fits_of_decode`: what is read has integers of 64 bits only.
* `known_of_decode`: where unknown members are refused, every member of an object that is read
  names a field.
-/

namespace TypedJson

/-! ## JSON values and types -/

/-- A JSON value. Numbers are integers. -/
inductive Json
  | null
  | bool (b : Bool)
  | number (i : Int)
  | text (s : String)
  | array (items : List Json)
  | object (members : List (String × Json))

mutual

/-- The types of the fields: strings, 64-bit integers, booleans, slices, maps from strings to
strings, and structs. -/
inductive GoType
  | string
  | int
  | bool
  | slice (elem : GoType)
  | map
  | struct (fields : Fields)

/-- The fields of a struct, with their names in JSON and whether they are marked
`omitempty`. -/
inductive Fields
  | nil
  | cons (name : String) (omitempty : Bool) (type : GoType) (rest : Fields)

end

/-! ## Values -/

/-- A slice: nil, or its elements and those of its array that are beyond its length. All others of
the array are zero. -/
abbrev Slice (α : Type) : Type := Option (List α × List α)

namespace Slice

variable {α : Type}

/-- The elements. -/
def elems (s : Slice α) : List α := (s.getD ([], [])).1

/-- The elements of the array. -/
def cells (s : Slice α) : List α := (s.getD ([], [])).1 ++ (s.getD ([], [])).2

end Slice

mutual

/-- The values of a type. A slice or a map may be nil. -/
@[reducible]
def GoType.Val : GoType → Type
  | .string => String
  | .int => Int
  | .bool => Bool
  | .slice elem => Slice elem.Val
  | .map => Option (GoMap String String)
  | .struct fields => fields.Val

/-- The values of the fields. -/
@[reducible]
def Fields.Val : Fields → Type
  | .nil => Unit
  | .cons _ _ type rest => type.Val × rest.Val

end

mutual

def GoType.zero : (t : GoType) → t.Val
  | .string => ""
  | .int => (0 : Int)
  | .bool => false
  | .slice _ => none
  | .map => none
  | .struct fields => fields.zero

def Fields.zero : (fs : Fields) → fs.Val
  | .nil => ()
  | .cons _ _ type rest => (type.zero, rest.zero)

end

/-- What `omitempty` leaves out. -/
def GoType.isEmpty : (t : GoType) → t.Val → Bool
  | .string, (s : String) => s == ""
  | .int, (i : Int) => i == 0
  | .bool, (b : Bool) => !b
  | .slice _, v => v.elems.isEmpty
  | .map, v => match v with
    | some m => decide (m = ∅)
    | none => true
  | .struct _, _ => false

/-! ## Writing -/

/-- The members for a map, sorted by key. -/
def mapMembers (m : GoMap String String) : List (String × Json) :=
  (m.keys.sort (· ≤ ·)).map fun k => (k, .text (m.read "" k).1)

mutual

def GoType.encode : (t : GoType) → t.Val → Json
  | .string, s => .text s
  | .int, i => .number i
  | .bool, b => .bool b
  | .slice elem, v => match v with
    | none => .null
    | some (vs, _) => .array (vs.map fun v => elem.encode v)
  | .map, v => match v with
    | none => .null
    | some m => .object (mapMembers m)
  | .struct fields, v => .object (fields.encode v)

def Fields.encode : (fs : Fields) → fs.Val → List (String × Json)
  | .nil, _ => []
  | .cons name omitempty type rest, v =>
    if omitempty && type.isEmpty v.1 then rest.encode v.2
    else (name, type.encode v.1) :: rest.encode v.2

end

/-! ## Reading -/

/-- The letter that a letter of a name is compared as. Two letters beyond ASCII are taken for
`k` and `s`. -/
def foldChar (c : Char) : Char :=
  if c = '\u212a' then 'k' else if c = '\u017f' then 's' else c.toLower

/-- The names differ in case only. -/
def sameFold (a b : String) : Bool := a.toList.map foldChar == b.toList.map foldChar

/-- Read the elements of a slice into those of its array, and into new ones. -/
def decodeItems {α : Type} (read : Json → α → Option α) (zero : α) :
    List Json → List α → Option (List α)
  | [], _ => some []
  | j :: js, vs => do
    let v ← read j (vs.head?.getD zero)
    let rest ← decodeItems read zero js vs.tail
    return v :: rest

/-- Read the members of an object into a map. -/
def decodeMap : List (String × Json) → GoMap String String → Option (GoMap String String)
  | [], m => some m
  | (k, .text s) :: ms, m => decodeMap ms (m.insert k s)
  | (k, .null) :: ms, m => decodeMap ms (m.insert k "")
  | _ :: _, _ => none

mutual

/-- Read a value into the one that is there, or none for an error. -/
def GoType.decode (strict : Bool) : (t : GoType) → Json → t.Val → Option t.Val
  | .string, j, old => match j with
    | .text s => some s
    | .null => some old
    | _ => none
  | .int, j, old => match j with
    | .number i => if -2 ^ 63 ≤ i ∧ i < 2 ^ 63 then some i else none
    | .null => some old
    | _ => none
  | .bool, j, old => match j with
    | .bool b => some b
    | .null => some old
    | _ => none
  | .slice elem, j, old => match j with
    | .array items =>
      (decodeItems (fun j v => elem.decode strict j v) elem.zero items old.cells).map fun vs =>
        -- an empty array makes a new slice
        some (vs, if items.isEmpty then [] else old.cells.drop items.length)
    | .null => some none
    | _ => none
  | .map, j, old => match j with
    | .object members => (decodeMap members (old.getD ∅)).map some
    | .null => some none
    | _ => none
  | .struct fields, j, old => match j with
    | .object members => members.foldlM (fun v member =>
        match fields.store strict (fun name => name == member.1) member.2 v with
        | some r => r
        | none => match fields.store strict (sameFold member.1) member.2 v with
          | some r => r
          | none => if strict then none else some v) old
    | .null => some old
    | _ => none

/-- Read a value into the first field whose name passes the test, or none if there is no such
field. -/
def Fields.store (strict : Bool) (test : String → Bool) :
    (fs : Fields) → Json → fs.Val → Option (Option fs.Val)
  | .nil, _, _ => none
  | .cons name _ type rest, j, v =>
    if test name then some ((type.decode strict j v.1).map fun x => (x, v.2))
    else (rest.store strict test j v.2).map (Option.map fun w => (v.1, w))

end

/-! ## Values that can be read back -/

def Fields.names : Fields → List String
  | .nil => []
  | .cons name _ _ rest => name :: rest.names

mutual

/-- No struct has two fields of the same name. -/
def GoType.distinct : GoType → Bool
  | .slice elem => elem.distinct
  | .struct fields => fields.distinct
  | .string | .int | .bool | .map => true

def Fields.distinct : Fields → Bool
  | .nil => true
  | .cons name _ type rest => !rest.names.contains name && type.distinct && rest.distinct

end

/-- Types of which only the zero value is empty. -/
def GoType.scalar : GoType → Bool
  | .string | .int | .bool => true
  | .slice _ | .map | .struct _ => false

mutual

/-- Only fields of such types are marked `omitempty`. -/
def GoType.plain : GoType → Bool
  | .slice elem => elem.plain
  | .struct fields => fields.plain
  | .string | .int | .bool | .map => true

def Fields.plain : Fields → Bool
  | .nil => true
  | .cons _ omitempty type rest => (!omitempty || type.scalar) && type.plain && rest.plain

end

mutual

/-- The integers have 64 bits, and what `omitempty` leaves out is zero. If `tight`, slices have
nothing beyond their length. -/
def GoType.Fits (tight : Bool) : (t : GoType) → t.Val → Prop
  | .int, i => -2 ^ 63 ≤ i ∧ i < 2 ^ 63
  | .slice elem, vs => (∀ v ∈ vs.cells, elem.Fits tight v) ∧
      (tight = true → vs.cells = vs.elems)
  | .struct fields, v => fields.Fits tight v
  | .string, _ | .bool, _ | .map, _ => True

def Fields.Fits (tight : Bool) : (fs : Fields) → fs.Val → Prop
  | .nil, _ => True
  | .cons _ omitempty type rest, v =>
    (omitempty = true → type.isEmpty v.1 = true → v.1 = type.zero) ∧ type.Fits tight v.1 ∧
      rest.Fits tight v.2

end

mutual

/-- Nothing of the value is left when another one is read into it. -/
def GoType.Clean : (t : GoType) → t.Val → Prop
  | .slice _, v => v.cells = []
  | .map, v => v.getD ∅ = ∅
  | .struct fields, v => fields.Clean v
  | .string, _ | .int, _ | .bool, _ => True

def Fields.Clean : (fs : Fields) → fs.Val → Prop
  | .nil, _ => True
  | .cons _ omitempty type rest, v =>
    (omitempty = true → v.1 = type.zero) ∧ type.Clean v.1 ∧ rest.Clean v.2

end

mutual

theorem GoType.clean_zero : (t : GoType) → t.Clean t.zero
  | .slice _ => rfl
  | .map => rfl
  | .struct fields => fields.clean_zero
  | .string | .int | .bool => trivial

theorem Fields.clean_zero : (fs : Fields) → fs.Clean fs.zero
  | .nil => trivial
  | .cons _ _ type rest => ⟨fun _ => rfl, type.clean_zero, rest.clean_zero⟩

end

/-! ## Reading back -/

section

variable {strict : Bool}

theorem decodeItems_encode {α : Type} {read : Json → α → Option α} {write : α → Json} {zero : α}
    (vs : List α) (h : ∀ v ∈ vs, read (write v) zero = some v) :
    decodeItems read zero (vs.map write) [] = some vs := by
  induction vs with
  | nil => rfl
  | cons v vs ih =>
    rw [List.forall_mem_cons] at h
    simp only [List.map_cons, decodeItems, List.head?_nil, Option.getD_none, List.tail_nil, h.1,
      ih h.2]
    rfl

theorem decodeMap_texts (f : String → String) (ks : List String) (m : GoMap String String) :
    decodeMap (ks.map fun k => (k, .text (f k))) m =
      some (ks.foldl (fun m k => m.insert k (f k)) m) := by
  induction ks generalizing m with
  | nil => rfl
  | cons k ks ih => exact ih (m.insert k (f k))

theorem lookup_foldl_insert (f : String → String) (ks : List String) (m : GoMap String String)
    (x : String) : (ks.foldl (fun m k => m.insert k (f k)) m).lookup x =
      if x ∈ ks then some (f x) else m.lookup x := by
  induction ks generalizing m with
  | nil => rfl
  | cons k ks ih =>
    rw [List.foldl_cons, ih, Finmap.lookup_insert_ite]
    by_cases hmem : x ∈ ks
    · simp [hmem]
    · by_cases hk : x = k
      · subst hk
        simp [hmem]
      · simp [hmem, hk]

theorem decodeMap_mapMembers (m : GoMap String String) : decodeMap (mapMembers m) ∅ = some m := by
  rw [mapMembers, decodeMap_texts fun k => (m.read "" k).1]
  refine congrArg some (Finmap.ext_lookup fun x => ?_)
  rw [lookup_foldl_insert]
  simp only [Finset.mem_sort, Finmap.mem_keys]
  split
  · next hmem =>
    obtain ⟨v, hv⟩ := Finmap.mem_iff.mp hmem
    rw [Finmap.read_of_some hv, hv]
  · next hmem => rw [Finmap.lookup_empty, Finmap.lookup_eq_none.mpr hmem]

/-- One member of an object, read into a struct. -/
def Fields.member (strict : Bool) (fs : Fields) (member : String × Json)
    (v : fs.Val) : Option fs.Val :=
  match fs.store strict (fun name => name == member.1) member.2 v with
  | some r => r
  | none => match fs.store strict (sameFold member.1) member.2 v with
    | some r => r
    | none => if strict then none else some v

theorem decode_object (fs : Fields) (members : List (String × Json)) (old : fs.Val) :
    (GoType.struct fs).decode strict (.object members) old =
      members.foldlM (fun v member => fs.member strict member v) old := by
  rw [GoType.decode]
  rfl

theorem names_encode : ∀ (fs : Fields) (v : fs.Val), ∀ member ∈ fs.encode v, member.1 ∈ fs.names
  | .nil, _, _, h => absurd h List.not_mem_nil
  | .cons name omitempty type rest, v, member, h => by
    rw [Fields.encode] at h
    split at h
    · exact List.mem_cons_of_mem _ (names_encode rest v.2 member h)
    · rcases List.mem_cons.mp h with rfl | h
      · exact List.mem_cons_self
      · exact List.mem_cons_of_mem _ (names_encode rest v.2 member h)

theorem store_known (strict : Bool) : ∀ (fs : Fields) {name : String}
    (_ : name ∈ fs.names) (j : Json) (v : fs.Val),
    ∃ r, fs.store strict (fun n => n == name) j v = some r
  | .nil, _, h, _, _ => absurd h List.not_mem_nil
  | .cons n omitempty type rest, name, h, j, v => by
    rw [Fields.store]
    split
    · exact ⟨_, rfl⟩
    · next hne =>
      have hrest : name ∈ rest.names := by
        rcases List.mem_cons.mp h with rfl | hrest
        · exact absurd (beq_self_eq_true _) hne
        · exact hrest
      obtain ⟨r, hr⟩ := store_known strict rest hrest j v.2
      rw [hr]
      exact ⟨_, rfl⟩

/-- A member that names a later field leaves the first one alone. -/
theorem member_rest (strict : Bool) {name : String} (omitempty : Bool)
    {type : GoType} {rest : Fields} (hname : name ∉ rest.names) {member : String × Json}
    (hmember : member.1 ∈ rest.names) (x : type.Val) (w : rest.Val) :
    (Fields.cons name omitempty type rest).member strict member (x, w) =
      (rest.member strict member w).map fun w => (x, w) := by
  have hne : (name == member.1) = false := by
    rw [beq_eq_false_iff_ne]
    rintro rfl
    exact hname hmember
  obtain ⟨r, hr⟩ := store_known strict rest hmember member.2 w
  simp only [Fields.member, Fields.store, hne, hr]
  rfl

theorem members_rest (strict : Bool) {name : String} (omitempty : Bool)
    {type : GoType} {rest : Fields} (hname : name ∉ rest.names) (x : type.Val)
    (members : List (String × Json)) :
    ∀ (w : rest.Val), (∀ member ∈ members, member.1 ∈ rest.names) →
      members.foldlM (fun v member => (Fields.cons name omitempty type rest).member strict member v)
        (x, w) =
      (members.foldlM (fun v member => rest.member strict member v) w).map fun w => (x, w) := by
  induction members with
  | nil => exact fun _ _ => rfl
  | cons member members ih =>
    intro w h
    rw [List.forall_mem_cons] at h
    rw [List.foldlM_cons, List.foldlM_cons, member_rest strict omitempty hname h.1]
    cases rest.member strict member w with
    | none => rfl
    | some w' => exact ih w' h.2

mutual

theorem GoType.decode_encode : (t : GoType) → t.distinct = true → (v old : t.Val) →
    t.Fits true v → t.Clean old → t.decode strict (t.encode v) old = some v
  | .string, _, _, _, _, _ => rfl
  | .bool, _, _, _, _, _ => rfl
  | .int, _, i, _, hfits, _ => if_pos hfits
  | .slice elem, hd, none, _, _, _ => rfl
  | .slice elem, hd, some (vs, spare), old, hfits, hclean => by
    obtain ⟨hvs, htight⟩ := hfits
    obtain rfl : spare = [] := List.append_right_eq_self.mp (htight rfl)
    have hitems : decodeItems (fun j v => elem.decode strict j v) elem.zero
        (vs.map fun v => elem.encode v) [] = some vs :=
      decodeItems_encode vs fun v hv =>
        elem.decode_encode hd v elem.zero (hvs v (List.mem_append_left _ hv)) elem.clean_zero
    have hold : old.cells = [] := hclean
    simp only [GoType.encode, GoType.decode, hold, hitems, List.drop_nil, ite_self, Option.map_some]
  | .map, _, none, _, _, _ => rfl
  | .map, _, some m, old, _, hclean => by
    have hold : old.getD ∅ = ∅ := hclean
    show (decodeMap (mapMembers m) (old.getD ∅)).map some = some (some m)
    rw [hold, decodeMap_mapMembers]
    rfl
  | .struct fields, hd, v, old, hfits, hclean => by
    have hfields := fields.decode_encode hd v old hfits hclean
    rw [GoType.encode, decode_object]
    exact hfields

theorem Fields.decode_encode : (fs : Fields) → fs.distinct = true → (v old : fs.Val) →
    fs.Fits true v → fs.Clean old →
    (fs.encode v).foldlM (fun v member => fs.member strict member v) old = some v
  | .nil, _, _, _, _, _ => rfl
  | .cons name omitempty type rest, hd, (x, w), (y, z), hfits, hclean => by
    simp only [Fields.distinct, Bool.and_eq_true, Bool.not_eq_true', List.contains_eq_mem,
      decide_eq_false_iff_not] at hd
    obtain ⟨⟨hname, htype⟩, hrest⟩ := hd
    obtain ⟨hempty, hx, hw⟩ := hfits
    obtain ⟨hzero, hy, hz⟩ := hclean
    have hrest := rest.decode_encode hrest w z hw hz
    have hlater := members_rest strict omitempty hname x (rest.encode w) z (names_encode rest w)
    rw [hrest] at hlater
    rw [Fields.encode]
    split
    · next homit =>
      -- the field is left out, and was zero before
      rw [Bool.and_eq_true] at homit
      obtain rfl : y = x := (hzero homit.1).trans (hempty homit.1 homit.2).symm
      exact hlater
    · have hfirst : (Fields.cons name omitempty type rest).member strict
          (name, type.encode x) (y, z) = some (x, z) := by
        simp only [Fields.member, Fields.store, beq_self_eq_true, if_true,
          type.decode_encode htype x y hx hy, Option.map_some]
      rw [List.foldlM_cons, hfirst]
      exact hlater

end

/-! ## What is read -/

theorem zero_of_isEmpty {t : GoType} (h : t.scalar = true) {v : t.Val} (hv : t.isEmpty v = true) :
    v = t.zero := by
  cases t with
  | string => exact beq_iff_eq.mp hv
  | int => exact beq_iff_eq.mp hv
  | bool => exact Bool.eq_false_of_not_eq_true' hv
  | slice _ => cases h
  | map => cases h
  | struct _ => cases h

section

variable {tight : Bool} {name : String} {type : GoType} {rest : Fields}

/-- A field that is not marked `omitempty`. -/
theorem fits_cons {v : (Fields.cons name false type rest).Val} :
    (Fields.cons name false type rest).Fits tight v ↔ type.Fits tight v.1 ∧ rest.Fits tight v.2 :=
  ⟨fun h => h.2, fun h => ⟨fun hno => absurd hno Bool.false_ne_true, h⟩⟩

/-- A field that is marked so, of a type with one empty value. -/
theorem fits_omitempty (hscalar : type.scalar = true) {v : (Fields.cons name true type rest).Val} :
    (Fields.cons name true type rest).Fits tight v ↔ type.Fits tight v.1 ∧ rest.Fits tight v.2 :=
  ⟨fun h => h.2, fun h => ⟨fun _ hempty => zero_of_isEmpty hscalar hempty, h⟩⟩

theorem fits_nil {v : Fields.nil.Val} : Fields.nil.Fits tight v ↔ True := Iff.rfl

theorem fits_string {v : GoType.string.Val} : GoType.string.Fits tight v ↔ True := Iff.rfl

theorem fits_bool {v : GoType.bool.Val} : GoType.bool.Fits tight v ↔ True := Iff.rfl

theorem fits_map {v : GoType.map.Val} : GoType.map.Fits tight v ↔ True := Iff.rfl

/-- A slice with nothing beyond its length. -/
theorem fits_slice {l : List type.Val} (h : ∀ v ∈ l, type.Fits tight v) :
    (GoType.slice type).Fits tight (some (l, [])) := by
  have hcells : Slice.cells (some (l, [])) = l := List.append_nil l
  refine ⟨fun v hv => h v ?_, fun _ => hcells⟩
  rwa [hcells] at hv

end

mutual

theorem GoType.fits_zero {tight : Bool} : (t : GoType) → t.Fits tight t.zero
  | .int => show -2 ^ 63 ≤ (0 : Int) ∧ (0 : Int) < 2 ^ 63 by decide
  | .slice _ => ⟨fun _ h => absurd h List.not_mem_nil, fun _ => rfl⟩
  | .struct fields => fields.fits_zero
  | .string | .bool | .map => trivial

theorem Fields.fits_zero {tight : Bool} : (fs : Fields) → fs.Fits tight fs.zero
  | .nil => trivial
  | .cons _ _ type rest => ⟨fun _ _ => rfl, type.fits_zero, rest.fits_zero⟩

end

theorem decodeItems_forall {α : Type} {read : Json → α → Option α} {zero : α} {P : α → Prop}
    (hzero : P zero) (hread : ∀ {j old v}, P old → read j old = some v → P v) (js : List Json) :
    ∀ {olds vs : List α}, (∀ v ∈ olds, P v) → decodeItems read zero js olds = some vs →
      ∀ v ∈ vs, P v := by
  induction js with
  | nil =>
    intro olds vs _ h
    cases h
    exact fun _ hmem => absurd hmem List.not_mem_nil
  | cons j js ih =>
    intro olds vs holds h
    obtain ⟨v, hv, h⟩ := Option.bind_eq_some_iff.mp h
    obtain ⟨rest, hrest, h⟩ := Option.bind_eq_some_iff.mp h
    cases h
    have hhead : P (olds.head?.getD zero) := by
      cases olds with
      | nil => exact hzero
      | cons old olds => exact holds old List.mem_cons_self
    exact List.forall_mem_cons.mpr
      ⟨hread hhead hv, ih (fun v hv => holds v (List.mem_of_mem_tail hv)) hrest⟩

mutual

theorem GoType.fits_of_decode : (t : GoType) → t.plain = true → {j : Json} → {old v : t.Val} →
    t.Fits false old → t.decode strict j old = some v → t.Fits false v
  | .string, _, _, _, _, _, _ => trivial
  | .bool, _, _, _, _, _, _ => trivial
  | .map, _, _, _, _, _, _ => trivial
  | .int, _, j, old, v, hold, h => by
    cases j with
    | number i =>
      simp only [GoType.decode] at h
      split at h
      · next hi =>
        cases h
        exact hi
      · cases h
    | null =>
      cases h
      exact hold
    | bool _ | text _ | array _ | object _ => cases h
  | .slice elem, hp, j, old, v, hold, h => by
    cases j with
    | array items =>
      obtain ⟨vs, hvs, rfl⟩ := Option.map_eq_some_iff.mp h
      refine ⟨fun v hv => ?_, fun hno => absurd hno Bool.false_ne_true⟩
      rcases List.mem_append.mp hv with hv | hv
      · exact decodeItems_forall elem.fits_zero
          (fun hw hdecode => elem.fits_of_decode hp hw hdecode) items hold.1 hvs v hv
      · -- the others are as they were
        simp only [Option.getD_some] at hv
        split at hv
        · cases hv
        · exact hold.1 v (List.mem_of_mem_drop hv)
    | null =>
      cases h
      exact GoType.fits_zero _
    | bool _ | text _ | number _ | object _ => cases h
  | .struct fields, hp, j, old, v, hold, h => by
    cases j with
    | object members =>
      rw [decode_object] at h
      induction members generalizing old with
      | nil =>
        cases h
        exact hold
      | cons member members ih =>
        rw [List.foldlM_cons] at h
        obtain ⟨w, hmember, hrest⟩ := Option.bind_eq_some_iff.mp h
        exact ih w (fields.fits_of_member hp hold hmember) hrest
    | null =>
      cases h
      exact hold
    | bool _ | text _ | number _ | array _ => cases h

theorem Fields.fits_of_member (fs : Fields) (hp : fs.plain = true) {member : String × Json}
    {old v : fs.Val} (hold : fs.Fits false old) (h : fs.member strict member old = some v) :
    fs.Fits false v := by
  unfold Fields.member at h
  split at h
  · next r hexact => exact fs.fits_of_store hp hold (hexact.trans (congrArg some h))
  · split at h
    · next r hfold => exact fs.fits_of_store hp hold (hfold.trans (congrArg some h))
    · split at h
      · cases h
      · cases h
        exact hold

theorem Fields.fits_of_store : (fs : Fields) → fs.plain = true → {test : String → Bool} →
    {j : Json} → {old v : fs.Val} → fs.Fits false old →
    fs.store strict test j old = some (some v) → fs.Fits false v
  | .nil, _, _, _, _, _, _, h => by simp [Fields.store] at h
  | .cons name omitempty type rest, hp, test, j, old, v, hold, h => by
    simp only [Fields.plain, Bool.and_eq_true, Bool.or_eq_true, Bool.not_eq_true'] at hp
    obtain ⟨⟨hscalar, htype⟩, hrest⟩ := hp
    obtain ⟨hempty, hfirst, hothers⟩ := hold
    rw [Fields.store] at h
    split at h
    · obtain ⟨x, hx, rfl⟩ := Option.map_eq_some_iff.mp (Option.some.inj h)
      refine ⟨fun homit hx => zero_of_isEmpty (hscalar.resolve_left ?_) hx,
        type.fits_of_decode htype hfirst hx, hothers⟩
      exact Bool.ne_false_iff.mpr homit
    · obtain ⟨r, hr, heq⟩ := Option.map_eq_some_iff.mp h
      obtain ⟨w, rfl, rfl⟩ := Option.map_eq_some_iff.mp heq
      exact ⟨hempty, hfirst, rest.fits_of_store hrest hothers hr⟩

end

/-! ## Members that are refused -/

theorem store_unknown : ∀ (fs : Fields) {test : String → Bool} {j : Json} {v : fs.Val}
    {r : Option fs.Val}, fs.store strict test j v = some r → ∃ name ∈ fs.names, test name = true
  | .nil, _, _, _, _, h => by simp [Fields.store] at h
  | .cons name omitempty type rest, test, j, v, r, h => by
    rw [Fields.store] at h
    split at h
    · next htest => exact ⟨name, List.mem_cons_self, htest⟩
    · obtain ⟨r', hr', -⟩ := Option.map_eq_some_iff.mp h
      obtain ⟨name', hmem, htest⟩ := store_unknown rest hr'
      exact ⟨name', List.mem_cons_of_mem _ hmem, htest⟩

theorem member_known {fs : Fields} {member : String × Json} {v v' : fs.Val}
    (h : fs.member true member v = some v') : ∃ name ∈ fs.names, sameFold member.1 name = true := by
  unfold Fields.member at h
  split at h
  · next hexact =>
    obtain ⟨name, hmem, htest⟩ := store_unknown fs hexact
    rw [beq_iff_eq] at htest
    exact ⟨name, hmem, by rw [htest, sameFold, beq_self_eq_true]⟩
  · split at h
    · next hfold => exact store_unknown fs hfold
    · cases h

/-- Where unknown members are refused, every member of an object that is read names a field. -/
theorem known_of_decode {fs : Fields} {members : List (String × Json)} {old v : fs.Val}
    (h : (GoType.struct fs).decode true (.object members) old = some v) :
    ∀ member ∈ members, ∃ name ∈ fs.names, sameFold member.1 name = true := by
  rw [decode_object] at h
  induction members generalizing old with
  | nil => exact fun _ hmem => absurd hmem List.not_mem_nil
  | cons member members ih =>
    rw [List.foldlM_cons] at h
    obtain ⟨w, hmember, hrest⟩ := Option.bind_eq_some_iff.mp h
    exact List.forall_mem_cons.mpr ⟨member_known hmember, ih hrest⟩

end

end TypedJson

import Mathlib.Data.Vector.Defs
import Mathlib.Algebra.Group.Nat.Defs
import AggKit.Lib.TextEncoding
import AggKit.Lib.Exec

/-!
# JSON values and their decoders

A JSON text as the tree of its values, and the decoders of a library that reads such a tree into typed
data the way `encoding/json` does: a key that is missing leaves the zero value, a key that is not known
is skipped, of two equal keys the last one counts, and `null` is the zero value of everything but a
type that decodes itself. Beside each decoder stands what it gives for the value that is written for
the data.
-/

/-- A JSON value. The numbers that are written are natural. -/
inductive JsonTree where
  | null
  | bool (b : Bool)
  | num (n : ℕ)
  | str (s : String)
  | arr (values : List JsonTree)
  | obj (fields : List (String × JsonTree))

namespace JsonTree

open TextEncoding
open List hiding Vector

/-- Why a value is not decoded. -/
inductive DecodeError where
  /-- The value is of another type than the data. -/
  | type
  /-- A number does not fit. -/
  | range
  /-- A string does not have the form of the data. -/
  | encoding
  /-- The pointer would be nil, and the type of the data has no nil. -/
  | nil
  /-- An error that a type which decodes itself returns. -/
  | message (text : String)
  /-- The error in the context of another. -/
  | wrap (text : String) (err : DecodeError)
deriving DecidableEq

variable {α β : Type}

/-! ## Scalars -/

/-- An unsigned integer below a bound. -/
def uint (bound : ℕ) : JsonTree → Except DecodeError ℕ
  | .null => .ok 0
  | .num n => if n < bound then .ok n else .error .range
  | _ => .error .type

/-- `uint32`. -/
def uint32 (j : JsonTree) : Except DecodeError UInt32 := (j.uint (2 ^ 32)).map UInt32.ofNat

/-- `uint64`. -/
def uint64 (j : JsonTree) : Except DecodeError UInt64 := (j.uint (2 ^ 64)).map UInt64.ofNat

def boolean : JsonTree → Except DecodeError Bool
  | .null => .ok false
  | .bool b => .ok b
  | _ => .error .type

def string : JsonTree → Except DecodeError String
  | .null => .ok ""
  | .str s => .ok s
  | _ => .error .type

/-- A slice of bytes, in base 64. -/
def bytes : JsonTree → Except DecodeError (List UInt8)
  | .null => .ok []
  | .str s => (base64Decode s.toList).elim (.error .encoding) .ok
  | _ => .error .type

/-- What is written for a slice of bytes. -/
def ofBytes (isNil : Bool) (bs : List UInt8) : JsonTree :=
  if bs.isEmpty && isNil then .null else .str (String.ofList (base64Encode bs))

/-- An array of `n` bytes, which decodes itself from `0x` and hexadecimal digits. -/
def fixedHex (n : ℕ) : JsonTree → Except DecodeError (Vector UInt8 n)
  | .str s =>
    match s.toList with
    | '0' :: 'x' :: digits | '0' :: 'X' :: digits =>
      match hexDecode digits with
      | some bs => if h : bs.length = n then .ok ⟨bs.toArray, h⟩ else .error .encoding
      | none => .error .encoding
    | _ => .error .encoding
  | _ => .error .type

/-- What is written for an array of bytes that encodes itself. -/
def hexText {n : ℕ} (v : Vector UInt8 n) : String := String.ofList ('0' :: 'x' :: hexEncode v.toList)

@[simp]
theorem uint_num {bound n : ℕ} (h : n < bound) : (JsonTree.num n).uint bound = .ok n := if_pos h

@[simp]
theorem uint32_num (n : UInt32) : (JsonTree.num n.toNat).uint32 = .ok n := by
  unfold uint32
  rw [uint_num n.toNat_lt]
  exact congrArg Except.ok UInt32.ofNat_toNat

@[simp]
theorem uint64_num (n : UInt64) : (JsonTree.num n.toNat).uint64 = .ok n := by
  unfold uint64
  rw [uint_num n.toNat_lt]
  exact congrArg Except.ok UInt64.ofNat_toNat

@[simp]
theorem boolean_bool (b : Bool) : (JsonTree.bool b).boolean = .ok b := rfl

@[simp]
theorem string_str (s : String) : (JsonTree.str s).string = .ok s := rfl

@[simp]
theorem bytes_ofBytes (isNil : Bool) (bs : List UInt8) : (ofBytes isNil bs).bytes = .ok bs := by
  unfold ofBytes
  split
  case isTrue hnil =>
    have hempty : bs = [] := List.isEmpty_iff.mp (Bool.and_eq_true_iff.mp hnil).1
    rw [hempty]
    rfl
  case isFalse =>
    rw [bytes, String.toList_ofList, base64Decode_base64Encode]
    rfl

@[simp]
theorem fixedHex_hexText {n : ℕ} (v : Vector UInt8 n) : (JsonTree.str (hexText v)).fixedHex n = .ok v := by
  have hlen : v.toList.length = n := v.length_toList
  rw [fixedHex, hexText, String.toList_ofList]
  simp only [hexDecode_hexEncode, dif_pos hlen]
  rfl

/-! ## Objects -/

/-- The value of a key: the last one, where there are several. -/
@[simp]
def get? : List (String × JsonTree) → String → Option JsonTree
  | [], _ => none
  | (k, v) :: rest, key => (get? rest key).or (if k = key then some v else none)

/-- The fields of a struct. -/
def object : JsonTree → Except DecodeError (List (String × JsonTree))
  | .null => .ok []
  | .obj fields => .ok fields
  | _ => .error .type

/-- A field of a struct; `zero` is the zero value of its type. -/
@[simp]
def field (fields : List (String × JsonTree)) (key : String) (zero : Except DecodeError α)
    (dec : JsonTree → Except DecodeError α) : Except DecodeError α :=
  (get? fields key).elim zero dec

/-- The value that a pointer points to, of a type that has no nil. -/
def required (dec : JsonTree → Except DecodeError α) : JsonTree → Except DecodeError α
  | .null => .error .nil
  | j => dec j

/-- A pointer. -/
def pointer (dec : JsonTree → Except DecodeError α) : JsonTree → Except DecodeError (Option α)
  | .null => .ok none
  | j => (dec j).map some

/-- The value of a key is put into a map. -/
def addEntry (dec : JsonTree → Except DecodeError α) (m : List (String × α))
    (kv : String × JsonTree) : Except DecodeError (List (String × α)) :=
  (dec kv.2).map fun a => m.filter (fun e => e.1 ≠ kv.1) ++ [(kv.1, a)]

/-- A map with strings as keys, as the list of its entries. -/
def entries (dec : JsonTree → Except DecodeError α) (j : JsonTree) :
    Except DecodeError (List (String × α)) := do
  let fields ← j.object
  fields.foldlM (addEntry dec) []

/-- What is written for a map. -/
def ofEntries (isNil : Bool) (enc : String → α → JsonTree) (m : List (String × α)) : JsonTree :=
  if m.isEmpty && isNil then .null else .obj (m.map fun e => (e.1, enc e.1 e.2))

@[simp]
theorem object_obj (fields : List (String × JsonTree)) : (JsonTree.obj fields).object = .ok fields := rfl

theorem get?_append (fields fields' : List (String × JsonTree)) (key : String) :
    get? (fields ++ fields') key = (get? fields' key).or (get? fields key) := by
  induction fields with
  | nil => exact (Option.or_none).symm
  | cons kv fields ih =>
    rw [cons_append, get?, get?, ih, Option.or_assoc]

variable {fields : List (String × JsonTree)} {key : String}

theorem get?_eq_none (h : key ∉ fields.map Prod.fst) : get? fields key = none := by
  induction fields with
  | nil => rfl
  | cons kv fields ih =>
    rw [map_cons, mem_cons, not_or] at h
    rw [get?, ih h.2, if_neg (Ne.symm h.1)]
    rfl

variable {dec : JsonTree → Except DecodeError α}

/-- A field is looked for where its key can be. -/
theorem field_append_left {fields' : List (String × JsonTree)} {zero : Except DecodeError α}
    (h : key ∉ fields'.map Prod.fst) :
    field (fields ++ fields') key zero dec = field fields key zero dec := by
  unfold field
  rw [get?_append, get?_eq_none h, Option.none_or]

theorem field_append_right {fields' : List (String × JsonTree)} {zero : Except DecodeError α}
    (h : key ∉ fields.map Prod.fst) :
    field (fields ++ fields') key zero dec = field fields' key zero dec := by
  unfold field
  rw [get?_append, get?_eq_none h, Option.or_none]

@[simp]
theorem required_obj (dec : JsonTree → Except DecodeError α) (fields : List (String × JsonTree)) :
    required dec (.obj fields) = dec (.obj fields) := rfl

/-- A key that the map does not have yet is added at its end. -/
theorem addEntry_eq {m : List (String × α)} {k : String} {j : JsonTree} {a : α}
    (hdec : dec j = .ok a) (hnew : ∀ e ∈ m, e.1 ≠ k) :
    addEntry dec m (k, j) = .ok (m ++ [(k, a)]) := by
  have hkeep : m.filter (fun e => e.1 ≠ k) = m :=
    filter_eq_self.mpr fun e he => decide_eq_true (hnew e he)
  unfold addEntry
  rw [hdec, hkeep]
  rfl

/-- The loop of `entries`: the entries of new keys are added in their order. -/
theorem foldlM_addEntry {enc : String → α → JsonTree} (hdec : ∀ k a, dec (enc k a) = .ok a)
    (done m : List (String × α)) (hnodup : ((done ++ m).map Prod.fst).Nodup) :
    (m.map fun e => (e.1, enc e.1 e.2)).foldlM (addEntry dec) done = .ok (done ++ m) := by
  induction m generalizing done with
  | nil => rw [append_nil]; rfl
  | cons e m ih =>
    have hnew : ∀ e' ∈ done, e'.1 ≠ e.1 := by
      intro e' he'
      rw [map_append, map_cons] at hnodup
      exact (nodup_append.mp hnodup).2.2 e'.1 (mem_map_of_mem he') e.1 mem_cons_self
    have hrest : ((done ++ [e] ++ m).map Prod.fst).Nodup := by
      rwa [append_assoc, singleton_append]
    calc ((e :: m).map fun e => (e.1, enc e.1 e.2)).foldlM (addEntry dec) done
        = (m.map fun e => (e.1, enc e.1 e.2)).foldlM (addEntry dec) (done ++ [e]) := by
          rw [map_cons, foldlM_cons, addEntry_eq (hdec e.1 e.2) hnew]
          rfl
      _ = .ok (done ++ [e] ++ m) := ih (done ++ [e]) hrest
      _ = .ok (done ++ e :: m) := by rw [append_assoc, singleton_append]

theorem entries_ofEntries {enc : String → α → JsonTree} (hdec : ∀ k a, dec (enc k a) = .ok a)
    (isNil : Bool) {m : List (String × α)} (hnodup : (m.map Prod.fst).Nodup) :
    (ofEntries isNil enc m).entries dec = .ok m := by
  unfold ofEntries
  split
  case isTrue hnil =>
    have hempty : m = [] := List.isEmpty_iff.mp (Bool.and_eq_true_iff.mp hnil).1
    rw [hempty]
    rfl
  case isFalse => exact foldlM_addEntry hdec [] m hnodup

/-! ## Lists and arrays -/

/-- A slice. -/
def list (dec : JsonTree → Except DecodeError α) : JsonTree → Except DecodeError (List α)
  | .null => .ok []
  | .arr values => values.mapM dec
  | _ => .error .type

/-- An array of `n` values: what is missing is zero, and values beyond it are skipped. -/
def array (n : ℕ) (zero : α) (dec : JsonTree → Except DecodeError α) :
    JsonTree → Except DecodeError (Vector α n)
  | .null => .ok (Vector.replicate n zero)
  | .arr values => do
    let as ← (values.take n).mapM dec
    return Vector.ofFn fun i => as.getD i.val zero
  | _ => .error .type

/-- What is written for a slice. -/
def ofList (isNil : Bool) (values : List JsonTree) : JsonTree :=
  if values.isEmpty && isNil then .null else .arr values

theorem list_ofList {values : List JsonTree} {l : List α}
    (h : List.Forall₂ (fun j a => dec j = .ok a) values l) (isNil : Bool) :
    (ofList isNil values).list dec = .ok l := by
  unfold ofList
  split
  case isTrue hnil =>
    have hempty : values = [] := List.isEmpty_iff.mp (Bool.and_eq_true_iff.mp hnil).1
    subst hempty
    rw [List.forall₂_nil_left_iff.mp h]
    rfl
  case isFalse => exact Exec.mapM_eq_ok_iff.mpr h

theorem array_arr {n : ℕ} {enc : α → JsonTree} (hdec : ∀ a, dec (enc a) = .ok a) (zero : α)
    (v : Vector α n) : (JsonTree.arr (v.toList.map enc)).array n zero dec = .ok v := by
  have htake : (v.toList.map enc).take n = v.toList.map enc :=
    take_of_length_le (by rw [length_map, v.length_toList])
  have hall : (v.toList.map enc).mapM dec = .ok v.toList := by
    refine Exec.mapM_eq_ok_iff.mpr ?_
    rw [List.forall₂_map_left_iff, List.forall₂_same]
    exact fun a _ => hdec a
  have hback : (Vector.ofFn fun i : Fin n => v.toList.getD i.val zero) = v := by
    simp
  rw [array, htake, hall]
  exact congrArg Except.ok hback

end JsonTree

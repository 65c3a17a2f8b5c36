import MUtils.Theory.Text

/-!
# TOML values

Values as a TOML parser gives them out. A table is iterated in an order of its own, so two values
are the same if arrays agree item by item and tables key by key.
-/

namespace MUtils

/-- A table: its keys in the order of iteration, and what they are bound to. -/
structure TomlTable (V : Type) where
  keys : List Text
  nodup : keys.Nodup
  /-- Read at `keys` only. -/
  value : Text → V

namespace TomlTable

variable {V : Type}

def empty [Inhabited V] : TomlTable V := ⟨[], .nil, fun _ => default⟩

def find? (t : TomlTable V) (key : Text) : Option V :=
  if key ∈ t.keys then some (t.value key) else none

/-- The assignment `t[key] = v`. -/
def set (t : TomlTable V) (key : Text) (v : V) : TomlTable V where
  keys := if key ∈ t.keys then t.keys else t.keys ++ [key]
  nodup := by
    split
    · exact t.nodup
    · next h => exact t.nodup.append (List.nodup_singleton key) (by simpa using h)
  value := Function.update t.value key v

variable {t : TomlTable V} {key key' : Text} {v : V}

end TomlTable

inductive TomlValue where
  /-- What stands for a document that could not be read. -/
  | empty
  | boolean (b : Bool)
  | string (s : Text)
  /-- A number, a date or a time, as it is written. -/
  | scalar (text : Text)
  | array (values : List TomlValue)
  | table (t : TomlTable TomlValue)

namespace TomlValue

instance : Inhabited TomlValue := ⟨empty⟩

def as_boolean : TomlValue → Option Bool
  | boolean b => some b
  | _ => none

def as_string : TomlValue → Option Text
  | string s => some s
  | _ => none

def as_array : TomlValue → Option (List TomlValue)
  | array values => some values
  | _ => none

def as_table : TomlValue → Option (TomlTable TomlValue)
  | table t => some t
  | _ => none

/-- The value at a key of a table. -/
def at? (v : TomlValue) (key : Text) : Option TomlValue :=
  v.as_table.bind (·.find? key)

/-- Equality up to the order of tables. -/
inductive Same : TomlValue → TomlValue → Prop
  | empty : Same empty empty
  | boolean : Same (boolean b) (boolean b)
  | string : Same (string s) (string s)
  | scalar : Same (scalar text) (scalar text)
  | array : List.Forall₂ Same vs ws → Same (array vs) (array ws)
  | table : (∀ key, Option.Rel Same (t.find? key) (u.find? key)) → Same (table t) (table u)

/-- Tables, arrays, strings and booleans only. -/
inductive Plain : TomlValue → Prop
  | boolean : Plain (boolean b)
  | string : Plain (string s)
  | array : (∀ v ∈ vs, Plain v) → Plain (array vs)
  | table : (∀ key v, t.find? key = some v → Plain v) → Plain (table t)

variable {v w : TomlValue} {vs : List TomlValue} {t u : TomlTable TomlValue} {key : Text}

theorem Plain.same (h : Plain v) : Same v v := by
  induction h with
  | boolean => exact .boolean
  | string => exact .string
  | array _ ih => exact .array (List.forall₂_same.2 ih)
  | @table t _ ih =>
    refine .table fun key => ?_
    cases hv : t.find? key with
    | none => exact .none
    | some v => exact .some (ih key v hv)

end TomlValue

/-- A printer and a parser, with what a file holds left open. -/
structure TomlFormat (Contents : Type) where
  print : TomlValue → Contents
  parse : Contents → Option TomlValue
  parse_print : ∀ v, v.Plain → ∃ w, parse (print v) = some w ∧ v.Same w

end MUtils

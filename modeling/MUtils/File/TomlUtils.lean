import MUtils.Theory.Toml
import MUtils.String.StringUtils

/-!
# Reading TOML

`none` stands for an exception of the TOML library.
-/

namespace MUtils

/-- The location of a file, by its parts. -/
abbrev Path := List Text

/-- `toml_get<T>`, with `toml::get<T>` for `get`. -/
def toml_get (get : TomlValue → Option T) (table : TomlTable TomlValue) (pszName : Text) (val : T) :
    Option T :=
  match table.find? pszName with
  | some v => get v
  | none => some val

/-- `toml::expect<T>(v, key)`, whose `is_ok` is `isSome`. -/
def toml_expect (get : TomlValue → Option T) (v : TomlValue) (key : Text) : Option T :=
  (v.at? key).bind get

def toml_read (format : TomlFormat Contents) (files : Path → Option Contents) (path : Path) :
    TomlValue :=
  ((files path).bind format.parse).getD .empty

/-- The literal `"\0"` is passed on as a C string. -/
def toml_sanitize (text : Text) : Text :=
  let text := string_right_trim text (cString ['\x00'])
  text ++ ['\n']

end MUtils

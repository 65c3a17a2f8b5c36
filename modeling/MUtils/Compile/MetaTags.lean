import MUtils.String.StringUtils

/-!
# The tags of a source text: `meta_tags.cpp`

A comment whose first word starts with `#` tags the text. `parse_meta_tags` goes through the lines
of the text and keeps, for each tag, its value and a line number.
-/

namespace MUtils
open Text

structure TagValue where
  value : Text
  line : Int := -1

/-- A `std::map<std::string, TagValue>`. -/
abbrev MetaTags := Text → Option TagValue

/-- The tag that the words of a comment make up, with its value. -/
def tokensTag : List Text → Option (Text × Text)
  | [] => none
  | token :: values =>
    if token.head? = some '#' then
      match values with
      | [] => some (token, [])
      | [value] => some (token, value)
      | _ => none
    else none

/-- The tag of a line, with its value. -/
def lineTag (line : Text) : Option (Text × Text) :=
  match findSub ['/', '/'] line with
  | none => none
  | some pos =>
    -- Always lower case
    tokensTag ((string_split (line.drop (pos + 2)) [' ', '\t', ',']).map string_tolower)

/-- `lineNumber++` on an `int32_t`, which wraps around. -/
def nextLine (lineNumber : Int) : Int := (lineNumber + 1).bmod (2 ^ 32)

/-- The body of the loop over the lines. -/
def parseTags (state : MetaTags × Int) (line : Text) : MetaTags × Int :=
  let tags := match lineTag line with
    | some (tag, value) => Function.update state.1 tag (some { value, line := state.2 })
    | none => state.1
  (tags, nextLine state.2)

def parse_meta_tags (text : Text) : MetaTags :=
  ((string_split_lines text).foldl parseTags (fun _ => none, 0)).1

end MUtils

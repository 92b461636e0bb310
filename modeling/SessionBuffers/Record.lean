/-!
# Records written out

One written form for every record that is shown field by field:
`Name { first: 1, second: 2 }`.
-/

namespace SessionBuffers

/-- A field of a written record: its label, a colon and the text of its value. -/
def recordField (field : String × String) : String := field.1 ++ ": " ++ field.2

/-- A record's name, then its fields in order between braces, with commas between them. -/
def recordText (name : String) (fields : List (String × String)) : String :=
  name ++ " \x7b " ++ ", ".intercalate (fields.map recordField) ++ " \x7d"

/-- The decimal digits of a word. -/
def wordText (n : UInt64) : String := toString n.toNat

/-- A truth value in lower case. -/
def flagText (b : Bool) : String := if b then "true" else "false"

end SessionBuffers

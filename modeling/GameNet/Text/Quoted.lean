/-!
Values inside messages: texts in double quotes, lists in brackets, optional values.
-/

namespace GameNet.Text

def escaped : List Char → List Char
  | [] => []
  | c :: cs =>
    if c = '"' ∨ c = '\\' then '\\' :: c :: escaped cs else c :: escaped cs

def quoted (s : String) : String :=
  "\"" ++ String.ofList (escaped s.toList) ++ "\""

def bracketed (items : List String) : String :=
  "[" ++ ", ".intercalate items ++ "]"

def optional : Option String → String
  | none => "None"
  | some s => "Some(" ++ s ++ ")"

end GameNet.Text

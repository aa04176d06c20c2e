import TreeEdit.Text.Quoted
import TreeEdit.Tree.Basic

/-!
# The two texts of a tree

`Tree.toJson` leaves out what is not there: an empty list of children, a missing value, data that
say nothing. `Tree.debug` names every field that is there and quotes all strings.
-/

namespace TreeEdit

namespace NodeData

def fields : NodeData → List (String × Json)
  | .none => []
  | .heading depth => [("depth", .nat depth)]
  | .list ordered => [("ordered", .bool ordered)]
  | .code lang => lang.toList.map fun l => ("lang", .str l)
  | .link url title => ("url", .str url) :: title.toList.map fun t => ("title", .str t)
  | .integer n => [("integer", .nat n)]

/-- A string that may be missing, with the word that says so. -/
def debugOption : Option String → String
  | Option.none => "None"
  | some s => "Some(" ++ Text.quoted s ++ ")"

/-- The data in words, unless there are none. -/
def debug? : NodeData → Option String
  | .none => Option.none
  | .heading depth => some ("Heading(" ++ toString depth ++ ")")
  | .list ordered => some ("List(" ++ toString ordered ++ ")")
  | .code lang => some ("Code(" ++ debugOption lang ++ ")")
  | .link url title =>
    some ("Link(LinkData \x7b url: " ++ Text.quoted url ++ ", title: " ++ debugOption title
      ++ " \x7d)")
  | .integer n => some ("Integer(" ++ toString n ++ ")")

end NodeData

namespace Tree

mutual

def toJson : Tree → Json
  | ⟨kind, span, value, data, children⟩ =>
    .obj (("type", .str kind) :: ("range", span.toPair) ::
      (childrenField children ++ value.toList.map (fun v => ("value", .str v)) ++ data.fields))

def childrenField : List Tree → List (String × Json)
  | [] => []
  | t :: ts => [("children", .arr (t.toJson :: toJsonList ts))]

def toJsonList : List Tree → List Json
  | [] => []
  | t :: ts => t.toJson :: toJsonList ts

end

mutual

/-- A tree on one line, with its fields named. -/
def debug : Tree → String
  | ⟨kind, span, value, data, children⟩ =>
    "SyntaxNode \x7b kind: " ++ Text.quoted kind ++ ", span: " ++ span.debug
      ++ (match value with
        | none => ""
        | some v => ", value: " ++ Text.quoted v)
      ++ (match data.debug? with
        | none => ""
        | some d => ", data: " ++ d)
      ++ debugChildren children ++ " \x7d"

def debugChildren : List Tree → String
  | [] => ""
  | t :: ts => ", children: [" ++ t.debug ++ debugRest ts ++ "]"

/-- The further children, each after a comma. -/
def debugRest : List Tree → String
  | [] => ""
  | t :: ts => ", " ++ t.debug ++ debugRest ts

end

end Tree

end TreeEdit

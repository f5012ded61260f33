import ColumnFlow.Codec.Argument
import ColumnFlow.Graph

/-!
# The JSON form of graphs

A task is an object of its work, its arguments and the tasks it only comes after, the last
of these left out if there are none. A function is written by name, so a graph is written
and not read back.
-/

namespace ColumnFlow

/-- The members that describe the work of a task. -/
def Work.toMembers : Work → List (String × Json)
  | .constant value => [("kind", .ofString "constant"), ("value", value.toJson)]
  | .eval expression => [("kind", .ofString "eval"), ("expression", .ofString expression)]
  | .call function => [("kind", .ofString "function"), ("function", .ofString function.name)]
  | .commit target => [("kind", .ofString "commit"), ("variable", .ofString target)]

def Task.toJson (t : Task) : Json :=
  .ofMembers (t.work.toMembers ++ [("args", .array (t.args.map Arg.toJson))] ++
    if t.after.isEmpty then [] else [("after", .array (t.after.map Json.ofString))])

namespace Graph

/-- A name, or null if there is none. -/
def nameToJson : Option String → Json
  | some name => .ofString name
  | none => .null

def toJson (g : Graph) : Json :=
  .ofMembers
    [ ("first", nameToJson g.first?),
      ("last", nameToJson g.last?),
      ("tasks", .ofMembers (g.tasks.entries.map fun e => (e.1, e.2.toJson))) ]

/-- The JSON text of a graph. -/
def json (g : Graph) : String := g.toJson.pretty

end Graph

end ColumnFlow

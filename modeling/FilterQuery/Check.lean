import FilterQuery.Query

/-!
# Check — queries against JSON

A JSON context holds neither capabilities nor hosts, so it comes with a world that has none
(`World.inert`) and a single pass is exact.
-/

namespace FilterQuery

/-- A world without behaviour: nothing answers. -/
def World.inert : World Unit where
  call _ _ world := (.immediate .null, world)
  lookup _ _ world := (none, world)

/-- What is to be checked: a query, the JSON text of the context if there is one, and whether the
syntax is all that matters. -/
structure Check where
  query : String
  input : Option String
  syntaxOnly : Bool
  deriving DecidableEq, Inhabited

namespace Check

/-- The result of a check. -/
inductive Result where
  | syntaxValid
  | matched (answer : Bool)
  deriving DecidableEq, Inhabited

/-- Why a check has no result. -/
inductive Error where
  | query (e : QueryError)
  | json (e : Json.Error)
  | notUtf8
  deriving DecidableEq, Inhabited

/-- The message of an error. -/
def Error.message : Error → String
  | query e => e.message
  | json e => "Invalid JSON: " ++ e.message
  | notUtf8 => "IO error: stream did not contain valid UTF-8"

/-- Performs a check. The tokens of the query come first, then its syntax if that is all; otherwise
the input is read before the query is parsed. -/
def perform (check : Check) : Except Error Result := do
  let query ← (Query.ofText check.query).mapError .query
  if check.syntaxOnly then
    let _ ← query.parse.mapError .query
    return .syntaxValid
  else
    let context ← check.input.mapM fun text => (Json.read text).mapError .json
    let answer ← (query.runOnce World.inert context ()).result.mapError .query
    return .matched answer

/-- The canonical form of a query. -/
def explain (source : String) : Except Error String := do
  let query ← (Query.ofText source).mapError .query
  return (← query.parse.mapError .query).render

end Check

end FilterQuery

import ContractSync.Emit.Text
import ContractSync.Name.Unique
import ContractSync.Route.Basic

/-!
# Structures of query parameters

The query parameters of a route are the fields of one structure, in the order of their names.
-/

namespace ContractSync.Emit

open ContractSync.Route (Parameter)

/-- An attribute that gives a field or variant its name in the data. -/
def renameLine (indent name : String) : String :=
  indent ++ "#[serde(rename = " ++ quoted name ++ ")]\n"

/-- The name of the structure. -/
def queryStructName (route : Route) : String := Name.pascal route.handlerName ++ "Query"

/-- The lines of a comment on a parameter. -/
def parameterDoc (p : Parameter) : List String :=
  match docLines [p.description] with
  | [] => ["Query parameter \x60" ++ p.name ++ "\x60."]
  | lines => lines

/-- The field `name` for a parameter. -/
def queryField (name : String) (p : Parameter) : String :=
  docComment "    " (parameterDoc p)
    ++ (if Name.bare name = p.name then "" else renameLine "    " p.name)
    ++ "    pub " ++ name ++ ": " ++ typeText p.type ++ ",\n"

/-- The fields for parameters, their names made distinct by the table. -/
def queryFields (names : Name.Table) : List Parameter → String
  | [] => ""
  | p :: rest =>
    let (name, names) := names.claim (Name.fieldName p.name)
    queryField name p ++ queryFields names rest

/-- The name and the declaration of the structure, if the route has query parameters. -/
def queryStruct (route : Route) : Option (String × String) :=
  match route.paramsIn .query with
  | [] => none
  | params =>
    let name := queryStructName route
    let sorted := params.mergeSort fun p q => decide (p.name ≤ q.name)
    some (name,
      "/// Query parameters for \x60" ++ route.handlerName ++ "\x60.\n"
        ++ "#[derive(Debug, Clone, Deserialize)]\n"
        ++ "pub struct " ++ name ++ " \x7b\n" ++ queryFields {} sorted ++ "\x7d\n")

end ContractSync.Emit

import ContractSync.Emit.Text
import ContractSync.Name.Identifier
import ContractSync.Route.Basic

/-!
# Registration of routes

Each group of handlers is a module. The configuration function of a service registers every handler
for its path and method.
-/

namespace ContractSync.Emit

/-- The methods that have a builder of their own. -/
def builderMethods : List String :=
  ["get", "post", "put", "delete", "patch", "head", "trace", "options"]

/-- A method in capitals. -/
def upperMethod (method : String) : String := String.ofList (Text.upper method.toList)

/-- The value that stands for a method without a builder. -/
def methodValue (method : String) : String :=
  "actix_web::http::Method::from_bytes(b\"" ++ upperMethod method ++ "\").unwrap()"

/-- The call that starts a route for a method. -/
def methodCall (method : String) : String :=
  let lower := Route.lowerMethod method
  if builderMethods.contains lower then lower ++ "()"
  else "method(" ++ methodValue method ++ ")"

/-- The name of the configuration function. -/
def configFunction : String := "config"

/-- A configuration file that registers nothing; `handlers` is the module of handlers. -/
def configScaffold (handlers : String) : String :=
  "use actix_web::web;\nuse " ++ handlers ++ ";\n\npub fn " ++ configFunction
    ++ "(cfg: &mut web::ServiceConfig) \x7b\n\x7d\n"

/-- The module of handlers, unless another one is given. -/
def defaultHandlers : String := "crate::handlers"

/-- The file of a group's handlers. -/
def groupFile (group : String) : String := Name.moduleName group ++ ".rs"

/-- The file that declares the modules of handlers. -/
def indexFile : String := "mod.rs"

/-- The first line of the file that declares the modules of handlers. -/
def indexHeader : String := "// Handler modules.\n"

/-- The declaration of a group's module. -/
def groupDeclaration (group : String) : String := "pub mod " ++ Name.moduleName group ++ ";"

/-- The path of a handler of a group. -/
def handlerPath (group handler : String) : String :=
  "handlers::" ++ Name.moduleName group ++ "::" ++ handler

/-- The statement that registers a handler for a route. -/
def registration (route : Route) (handler : String) : String :=
  "cfg.service(web::resource(" ++ quoted route.path ++ ").route(web::" ++ methodCall route.method
    ++ ".to(" ++ handler ++ ")));"

end ContractSync.Emit

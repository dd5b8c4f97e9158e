import ContractSync.Emit.Registration
import ContractSync.Emit.Text
import ContractSync.Route.Basic
import ContractSync.Route.Template

/-!
# Tests of routes

A test sends one request to a route and checks that the route exists.
-/

namespace ContractSync.Emit

open ContractSync.Route (RequestBody)

/-- The head of a file of tests. -/
def testHeader : String :=
  "#![allow(unused_imports, unused_variables, dead_code)]\n\n"
    ++ "use actix_web::\x7btest, web, App\x7d;\nuse serde_json::Value;\n"

/-- The name of the test of a route. -/
def testName (route : Route) : String := "test_" ++ route.handlerName

/-- Values for the variables of a path, by type. -/
def sampleValues : List (String × String) :=
  [("Uuid", "00000000-0000-0000-0000-000000000000"), ("i32", "1"), ("i64", "1"), ("f32", "1.0"),
   ("f64", "1.0"), ("bool", "true"), ("NaiveDate", "2024-01-01")]

/-- The value for a variable of a route's path. -/
def sampleValue (route : Route) (name : String) : String :=
  let type :=
    match (route.paramsIn .path).find? (·.name == name) with
    | some p => typeText p.type.required
    | none => "String"
  (sampleValues.lookup type).getD "test"

/-- The path of a route with a value for every variable. -/
def sampleUri (route : Route) : String := Route.fill (sampleValue route) route.path

/-- The line that gives a request a body. -/
def bodySetup : Option RequestBody → String
  | none => ""
  | some body =>
    match body.format with
    | .json => "        .set_json(serde_json::json!(\x7b\x7d))\n"
    | .text => "        .set_payload(\"\")\n"
    | .binary => "        .set_payload(Vec::<u8>::new())\n"
    | .form | .multipart => ""

/-- The methods for which requests have a builder of their own. -/
def requestMethods : List String := ["get", "post", "put", "delete", "patch"]

/-- The call that starts a request. -/
def requestCall (method : String) : String :=
  let lower := Route.lowerMethod method
  if requestMethods.contains lower then lower ++ "()"
  else "default().method(" ++ methodValue method ++ ")"

/-- The test of a route; `app` is the function that configures the service. -/
def testFunction (route : Route) (app : String) : String :=
  "#[actix_web::test]\nasync fn " ++ testName route ++ "() \x7b\n"
    ++ "    let app = test::init_service(App::new().configure(" ++ app ++ ")).await;\n"
    ++ "    let req = test::TestRequest::" ++ requestCall route.method ++ ".uri("
    ++ quoted (sampleUri route) ++ ")\n" ++ bodySetup route.body ++ "        .to_request();\n"
    ++ "    let resp = test::call_service(&app, req).await;\n"
    ++ "    assert_ne!(resp.status(), actix_web::http::StatusCode::NOT_FOUND, "
    ++ "\"Route should exist\");\n\x7d\n"

end ContractSync.Emit

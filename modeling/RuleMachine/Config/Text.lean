import RuleMachine.Config
import RuleMachine.Json.Reader

/-! # Configurations as text

A configuration is written as a compact JSON object. It is read from an object,
where missing settings take their standard value and unknown ones do not matter,
or from an array that holds the settings in order.
-/

namespace RuleMachine

namespace Strategy

def key : Strategy → String
  | eager => "eager"
  | lazy => "lazy"

def text : Strategy → String
  | eager => "Eager"
  | lazy => "Lazy"

def ofKey? (key : String) : Option Strategy :=
  [eager, lazy].find? (fun strategy => strategy.key = key)

end Strategy

namespace HookPolicy

def key : HookPolicy → String
  | onChangeOnly => "execute_on_change_only"
  | always => "execute_always"

def text : HookPolicy → String
  | onChangeOnly => "ExecuteOnChangeOnly"
  | always => "ExecuteAlways"

def ofKey? (key : String) : Option HookPolicy :=
  [onChangeOnly, always].find? (fun policy => policy.key = key)

end HookPolicy

/-- The name in a value that selects one of several names: a string, or an object
whose only field has the name and holds null. -/
def Json.selected? : Json → Option String
  | string text => text
  | object [(name, null)] => name
  | _ => none

namespace Config

/-- The settings in the order in which they are written. -/
def strategyName : String := "strategy"

def policyName : String := "actions_policy"

def toJson (config : Config) : String :=
  String.ofList ['\x7b'] ++ Json.quoted strategyName ++ ":" ++ Json.quoted config.strategy.key ++
    "," ++ Json.quoted policyName ++ ":" ++ Json.quoted config.hookPolicy.key ++
    String.ofList ['\x7d']

def text (config : Config) : String :=
  s!"FsmConfig \x7b strategy: {config.strategy.text}, " ++
    s!"actions_policy: {config.hookPolicy.text} \x7d"

/-- A setting among those given, or its standard value. -/
def setting? {α : Type} (name : String) (standard : α) (read : String → Option α)
    (fields : List (String × Json)) : Option α :=
  match fields.lookup name with
  | none => some standard
  | some value => value.selected?.bind read

def ofJson? (text : String) : Option Config := do
  let value ← Json.ofText? text
  let fields ← value.knownFields? [strategyName, policyName]
  let strategy ← setting? strategyName .eager Strategy.ofKey? fields
  let hookPolicy ← setting? policyName .onChangeOnly HookPolicy.ofKey? fields
  pure ⟨strategy, hookPolicy⟩

end Config

end RuleMachine

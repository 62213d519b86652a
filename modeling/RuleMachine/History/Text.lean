import RuleMachine.History
import RuleMachine.Json.Reader
import RuleMachine.Timestamp.Text

/-! # Histories as text

A history is written as a compact JSON object that holds the list of its records.
Reading accepts records and histories as objects, where unknown fields do not
matter, or as arrays of their fields in order; nothing may be missing.
-/

namespace RuleMachine

/-- The fields of a record in the order in which they are written. -/
def Record.fieldNames : List String := ["from", "to", "event", "timestamp"]

def Record.toJson (record : Record String) : String :=
  let fields := [record.source, record.target, record.event, record.timestamp.text]
  String.ofList ['\x7b'] ++ ",".intercalate ((fieldNames.zip fields).map
    (fun (name, value) => Json.quoted name ++ ":" ++ Json.quoted value)) ++ String.ofList ['\x7d']

def Record.ofJson? (value : Json) : Option (Record String) := do
  let fields ← value.knownFields? fieldNames
  let source ← (← fields.lookup "from").text?
  let target ← (← fields.lookup "to").text?
  let event ← (← fields.lookup "event").text?
  let timestamp ← Timestamp.ofText? (← (← fields.lookup "timestamp").text?)
  pure ⟨source, target, event, timestamp⟩

namespace History

def recordsName : String := "transitions"

def toJson (history : History String) : String :=
  String.ofList ['\x7b'] ++ Json.quoted recordsName ++ ":[" ++
    ",".intercalate (history.records.map Record.toJson) ++ "]" ++ String.ofList ['\x7d']

def ofJson? (text : String) : Option (History String) := do
  let value ← Json.ofText? text
  let fields ← value.knownFields? [recordsName]
  match ← fields.lookup recordsName with
  | .array items => (items.mapM Record.ofJson?).map History.mk
  | _ => none

end History

end RuleMachine

import Mathlib.Data.List.Forall2
import RuleMachine.Config.Text
import RuleMachine.History.Text
import RuleMachine.Proofs.Json.RoundTrip
import RuleMachine.Proofs.Timestamp.RoundTrip

/-! # Storing configurations and histories

What is written can be read back: a configuration gives itself, and so does a
history whose timestamps are instants that can be made. These are the timestamps
that a history has if it was read.
-/

namespace RuleMachine

open Json (quoted IsWritten isWritten_array isWritten_object isWritten_strings)

namespace Config

def json (config : Config) : Json :=
  .object [(some strategyName, .string (some config.strategy.key)),
    (some policyName, .string (some config.hookPolicy.key))]

theorem isWritten_toJson (config : Config) : IsWritten config.toJson.toList config.json := by
  have h := isWritten_strings
    [(strategyName, config.strategy.key), (policyName, config.hookPolicy.key)]
  simpa [toJson, json] using h

theorem ofJson?_toJson (config : Config) : ofJson? config.toJson = some config := by
  rw [ofJson?, Json.ofText?_of_isWritten (isWritten_toJson config)]
  obtain ⟨strategy, hookPolicy⟩ := config
  cases strategy <;> cases hookPolicy <;> rfl

end Config

namespace Record

def json (record : Record String) : Json :=
  .object [(some "from", .string (some record.source)), (some "to", .string (some record.target)),
    (some "event", .string (some record.event)),
    (some "timestamp", .string (some record.timestamp.text))]

theorem isWritten_toJson (record : Record String) :
    IsWritten record.toJson.toList record.json := by
  have h := isWritten_strings (fieldNames.zip
    [record.source, record.target, record.event, record.timestamp.text])
  simpa [toJson, json, fieldNames] using h

theorem ofJson?_json {record : Record String} (h : record.timestamp.IsValid) :
    ofJson? record.json = some record := by
  have hfields : record.json.knownFields? fieldNames = some
      [("from", .string (some record.source)), ("to", .string (some record.target)),
        ("event", .string (some record.event)),
        ("timestamp", .string (some record.timestamp.text))] := rfl
  simp [ofJson?, hfields, List.lookup_cons, Json.text?, Timestamp.ofText?_text h]

theorem isValid_of_ofJson? {value : Json} {record : Record String}
    (h : ofJson? value = some record) : record.timestamp.IsValid := by
  simp only [ofJson?, Option.bind_eq_bind, Option.bind_eq_some_iff] at h
  obtain ⟨_, -, _, -, _, -, _, -, _, -, _, -, _, -, _, -, _, -, timestamp, htimestamp, heq⟩ := h
  cases heq
  exact Timestamp.isValid_of_ofText? htimestamp

end Record

namespace History

def json (history : History String) : Json :=
  .object [(some recordsName, .array (history.records.map Record.json))]

theorem isWritten_toJson (history : History String) :
    IsWritten history.toJson.toList history.json := by
  have htext : history.toJson.toList = '\x7b' :: [','].intercalate
      [(quoted recordsName).toList ++ ':' :: ('[' ::
        [','].intercalate (history.records.map fun record => record.toJson.toList) ++ [']'])] ++
      ['\x7d'] := by
    simp [toJson, Function.comp_def]
  have hrecords : List.Forall₂ IsWritten
      (history.records.map fun record => record.toJson.toList)
      (history.records.map Record.json) := by
    rw [List.forall₂_map_left_iff, List.forall₂_map_right_iff, List.forall₂_same]
    exact fun record _ => record.isWritten_toJson
  rw [htext]
  exact isWritten_object (.cons ⟨_, _, _, rfl, rfl, isWritten_array hrecords⟩ .nil)

theorem mapM_ofJson?_json {records : List (Record String)}
    (h : ∀ record ∈ records, record.timestamp.IsValid) :
    (records.map Record.json).mapM Record.ofJson? = some records := by
  induction records with
  | nil => rfl
  | cons record records ih =>
      rw [List.map_cons, List.mapM_cons, Record.ofJson?_json (h record (List.mem_cons_self ..)),
        ih fun other hother => h other (List.mem_cons_of_mem _ hother)]
      rfl

/-- A history that is written is read back with all records, in order. -/
theorem ofJson?_toJson {history : History String}
    (h : ∀ record ∈ history.records, record.timestamp.IsValid) :
    ofJson? history.toJson = some history := by
  rw [ofJson?, Json.ofText?_of_isWritten (isWritten_toJson history)]
  change ((history.records.map Record.json).mapM Record.ofJson?).map History.mk = some history
  rw [mapM_ofJson?_json h, Option.map_some]

theorem isValid_of_mapM_ofJson? {items : List Json} {records : List (Record String)}
    (h : items.mapM Record.ofJson? = some records) :
    ∀ record ∈ records, record.timestamp.IsValid := by
  induction items generalizing records with
  | nil =>
      cases h
      simp
  | cons item items ih =>
      rw [List.mapM_cons] at h
      obtain ⟨record, hrecord, h⟩ := Option.bind_eq_some_iff.mp h
      obtain ⟨others, hothers, heq⟩ := Option.bind_eq_some_iff.mp h
      cases heq
      rw [List.forall_mem_cons]
      exact ⟨Record.isValid_of_ofJson? hrecord, ih hothers⟩

/-- A history that was read gives itself when it is written and read again. -/
theorem ofJson?_toJson_of_ofJson? {text : String} {history : History String}
    (h : ofJson? text = some history) : ofJson? history.toJson = some history := by
  obtain ⟨value, -, h⟩ := Option.bind_eq_some_iff.mp h
  obtain ⟨fields, -, h⟩ := Option.bind_eq_some_iff.mp h
  obtain ⟨records, -, h⟩ := Option.bind_eq_some_iff.mp h
  split at h
  next items =>
    obtain ⟨records, hrecords, rfl⟩ := Option.map_eq_some_iff.mp h
    exact ofJson?_toJson (isValid_of_mapM_ofJson? hrecords)
  next => cases h

end History

end RuleMachine

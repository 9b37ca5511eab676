import Cuca.Lib.History
import Cuca.Request

/-!
# What provider adapters put on the wire

The bodies of the adapters are JSON. What a provider requires of the tool messages in one: each result answers an earlier call.

* `Serde` : what serde_json makes of floats and of values;
* `Contains` : a JSON value has this text in it;
* `Exchange`, `Paired` : calls and results, in order.
-/

namespace Cuca.Provider

/-- What is used of serde_json. -/
structure Serde where
  /-- `json!` of an `f32`. -/
  ofF32 : UInt32 → Value
  /-- `to_string` -/
  toString : Value → String

/-- A string with this text stands in the value. -/
inductive Contains (text : String) : Value → Prop
  | here : Contains text (.string text)
  | element {elements value} : value ∈ elements → Contains text value → Contains text (.array elements)
  | member {members key value} : (key, value) ∈ members → Contains text value → Contains text (.object members)

def optional {α : Type} (key : String) (toValue : α → Value) (value : Option α) : List (String × Value) :=
  (value.map fun a => (key, toValue a)).toList

def number (n : Nat) : Value := .number (.posInt n)

/-- The texts of the text blocks. -/
def texts (content : List MessageContentBlock) : List String :=
  content.filterMap fun
    | .text text => some text
    | _ => none

/-- The outputs of the tool results. -/
def outputs (content : List MessageContentBlock) : List String :=
  content.filterMap fun
    | .toolResult _ output => some output
    | _ => none

/-! ## Calls and results -/

/-- A tool call or a tool result, by what the provider pairs them with; `none` if that is missing. -/
inductive Exchange where
  | call (key : Option String)
  | answer (key : Option String)
  deriving DecidableEq

/-- A result has a key, and a call with it stands before. -/
def Answered (before : List Exchange) : Exchange → Prop
  | .call _ => True
  | .answer key => key.isSome ∧ .call key ∈ before

def Paired (exchanges : List Exchange) : Prop := History.Every Answered exchanges

theorem paired_concat_answer_iff {exchanges : List Exchange} {id : String} :
    Paired (exchanges ++ [.answer (some id)]) ↔ Paired exchanges ∧ .call (some id) ∈ exchanges := by
  rw [Paired, History.every_concat_iff, Answered]
  exact and_congr_right fun _ => and_iff_right rfl

end Cuca.Provider

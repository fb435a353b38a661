import UsageTypes.Fault
import UsageTypes.Json.Read
import UsageTypes.Options
import UsageTypes.Text.Lower
import UsageTypes.Text.White

/-!
Options from JSON. An object gives options by name, an array by position; what is not given has its
default. Complaints come in document order, and the values are checked last.
-/

namespace UsageTypes

/-- The name of a strategy, in any case. -/
def StrategyKind.parse (word : String) : Except Fault StrategyKind :=
  match StrategyKind.ofName? (lower word) with
  | some kind => .ok kind
  | none => .error (.config (.unknownStrategy (lower word)))

/-- The options by name, in their order. -/
inductive OptionField where
  | strategy | appendMethods | conflictPolicy | maxDepth | fileName
  deriving DecidableEq, Repr, Inhabited

namespace OptionField

def all : List OptionField := [strategy, appendMethods, conflictPolicy, maxDepth, fileName]

def name : OptionField → String
  | strategy => "strategy"
  | appendMethods => "append_methods"
  | conflictPolicy => "conflict_policy"
  | maxDepth => "max_depth"
  | fileName => "file_name"

def ofName? (key : String) : Option OptionField := all.find? (·.name = key)

end OptionField

namespace Json

/-- The complaint that a value is not of the expected type. -/
def unlike (expected : String) : Json → JsonFault
  | .broken f => f
  | v => .content ("invalid type: " ++ v.describe ++ ", expected " ++ expected)

def asString : Json → Except JsonFault String
  | .string s => .ok s
  | v => .error (v.unlike "a string")

def asNatural : Json → Except JsonFault Nat
  | .number (.natural n) => .ok n
  | .number (.negative n) =>
    .error (.content ("invalid value: integer `-" ++ toString n ++ "`, expected usize"))
  | v => .error (v.unlike "usize")

/-- The fault that ends a list or an object, if any. -/
def ended {α : Type} (ending : Option JsonFault) (value : α) : Except JsonFault α :=
  match ending with
  | none => .ok value
  | some f => .error f

def asStrings : Json → Except JsonFault (List String)
  | .array items ending =>
    match items.mapM asString with
    | .ok texts => ended ending texts
    | .error f => .error f
  | v => .error (v.unlike "a sequence")

def unknownVariant (names : List String) (word : String) : JsonFault :=
  .content ("unknown variant `" ++ word ++ "`, expected "
    ++ String.intercalate " or " (names.map fun n => "`" ++ n ++ "`"))

/-- One of several words, as a string or as the only key of an object without a value. -/
def asVariant {α : Type} (names : List String) (ofName? : String → Option α) :
    Json → Except JsonFault α
  | .string word =>
    match ofName? word with
    | some x => .ok x
    | none => .error (unknownVariant names word)
  | .object ((word, v) :: more) ending =>
    match ofName? word with
    | none => .error (unknownVariant names word)
    | some x =>
      match v with
      | .null =>
        match more, ending with
        | [], none => .ok x
        | [], some .endInObject => .error .endInObject
        | _, _ => .error .expectedValue
      | v => .error (v.unlike "unit")
  | .object [] (some (.keyNotString found)) =>
    .error (if found.isEmpty then .expectedValue
      else .content ("invalid type: " ++ found ++ ", expected variant identifier"))
  | .object [] (some f) => .error f
  | .broken f => .error f
  | _ => .error .expectedValue

end Json

namespace Options

/-- Sets one option. -/
def set (options : Options) (field : OptionField) (v : Json) : Except JsonFault Options :=
  match field with
  | .strategy =>
    (v.asVariant ["baseline", "refined"] StrategyKind.ofName?).map ({ options with strategy := · })
  | .appendMethods => v.asStrings.map ({ options with appendMethods := · })
  | .conflictPolicy =>
    (v.asVariant ["keep-first", "unresolved"] ConflictPolicy.ofName?).map
      ({ options with conflictPolicy := · })
  | .maxDepth => v.asNatural.map ({ options with maxDepth := · })
  | .fileName => v.asString.map ({ options with fileName := · })

def unknownField (key : String) : JsonFault :=
  .content ("unknown field `" ++ key ++ "`, expected one of "
    ++ String.intercalate ", " (OptionField.all.map fun f => "`" ++ f.name ++ "`"))

/-- Sets options by name; no name may be given twice. -/
def setEntries (options : Options) (given : List OptionField) :
    List (String × Json) → Except JsonFault Options
  | [] => .ok options
  | (key, v) :: entries =>
    match OptionField.ofName? key with
    | none => .error (unknownField key)
    | some field =>
      if field ∈ given then .error (.content ("duplicate field `" ++ key ++ "`"))
      else match options.set field v with
        | .ok options => options.setEntries (field :: given) entries
        | .error f => .error f

/-- Sets options by position. -/
def setItems (options : Options) : List OptionField → List Json → Except JsonFault Options
  | _, [] => .ok options
  | [], _ :: _ => .error .trailingText
  | field :: fields, v :: items =>
    match options.set field v with
    | .ok options => options.setItems fields items
    | .error f => .error f

def ofJson : Json → Except JsonFault Options
  | .object entries ending =>
    match setEntries {} [] entries with
    | .ok options => Json.ended ending options
    | .error f => .error f
  | .array items ending =>
    match setItems {} OptionField.all items with
    | .ok options =>
      -- when every option is given, nothing but the bracket may follow
      let cut := items.length = OptionField.all.length && ending ∈ [some .expectedListEnd, some .endInValue]
      Json.ended (if cut then some .trailingText else ending) options
    | .error f => .error f
  | v => .error (v.unlike "struct InferenceOptions")

/-- Options must have a depth, and no append method may be blank. -/
def check (options : Options) : Except Fault Options :=
  if options.maxDepth = 0 then .error (.config .zeroDepth)
  else match options.appendMethods.find? isWhiteText with
    | some method => .error (.config (.blankMethod method))
    | none => .ok options

/-- Options from a value and the fault of what stands behind it. -/
def ofValue (v : Json) (trailing : Option JsonFault) : Except Fault Options :=
  match ofJson v with
  | .error f => .error (.json f)
  | .ok options =>
    match trailing with
    | some f => .error (.json f)
    | none => options.check

/-- Reads options from a JSON text. -/
def parse (text : String) : Except Fault Options :=
  let (v, trailing) := Json.read text
  ofValue v trailing

end Options

end UsageTypes

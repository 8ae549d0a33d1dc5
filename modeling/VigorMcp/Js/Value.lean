import Mathlib.Data.Rat.Defs
import VigorMcp.Js.Text
import VigorMcp.Lib.OrderedMap

/-!
# JavaScript values and errors

`JsValue` is what a tool argument can hold after JSON parsing and validation.
A number carries its printed text. `Thrown` is what a call can throw: the two
error classes of the program, the SDK's, any other `Error`, or a bare value. `stringOf`
and `stringify` are `String(v)` and `JSON.stringify(v)`.
-/

namespace VigorMcp

inductive ConfirmErrorCode where
  | invalidToken | tokenUsed | tokenExpired | mismatch | badSignature
  deriving DecidableEq, Repr

inductive VigorErrorCode where
  | connect | auth | timeout | closed | invalid | unauthorized
  deriving DecidableEq, Repr

def ConfirmErrorCode.text : ConfirmErrorCode → JStr
  | invalidToken => js "invalid_token"
  | tokenUsed => js "token_used"
  | tokenExpired => js "token_expired"
  | mismatch => js "mismatch"
  | badSignature => js "bad_signature"

def VigorErrorCode.text : VigorErrorCode → JStr
  | connect => js "connect"
  | auth => js "auth"
  | timeout => js "timeout"
  | closed => js "closed"
  | invalid => js "invalid"
  | unauthorized => js "unauthorized"

/-- Codes of the SDK's errors. -/
inductive SdkErrorCode where
  | outputLimitExceeded | sessionClosed | executionTimeout | commandFramingRejected
  | commandRejected
  | other (text : JStr)
  deriving DecidableEq

def SdkErrorCode.text : SdkErrorCode → JStr
  | outputLimitExceeded => js "output_limit_exceeded"
  | sessionClosed => js "session_closed"
  | executionTimeout => js "execution_timeout"
  | commandFramingRejected => js "command_framing_rejected"
  | commandRejected => js "command_rejected"
  | other text => text

structure ConfirmError where
  code : ConfirmErrorCode
  message : JStr
  deriving DecidableEq

structure VigorCommandError where
  code : VigorErrorCode
  message : JStr
  deriving DecidableEq

/-- What a call can throw. -/
inductive Thrown where
  | confirm (e : ConfirmError)
  | vigor (e : VigorCommandError)
  | sdk (code : SdkErrorCode) (message : JStr)
  | error (code : Option JStr) (message : JStr)
  | value (text : JStr)
  deriving DecidableEq

def errCode : Thrown → Option JStr
  | .confirm e => some e.code.text
  | .vigor e => some e.code.text
  | .sdk code _ => some code.text
  | .error code _ => code
  | .value _ => none

def errMsg : Thrown → JStr
  | .confirm e => e.message
  | .vigor e => e.message
  | .sdk _ message => message
  | .error _ message => message
  | .value text => text

inductive JsNumber where
  | finite (value : ℚ) (text : JStr)
  | nonFinite (text : JStr)
  deriving DecidableEq

def JsNumber.text : JsNumber → JStr
  | finite _ text => text
  | nonFinite text => text

/-- An integer, printed by its digits. -/
def JsNumber.ofInt (n : Int) : JsNumber := .finite n (decimal n)

inductive JsValue where
  | undefined
  | null
  | bool (b : Bool)
  | num (n : JsNumber)
  | str (s : JStr)
  | arr (items : List JsValue)
  | obj (fields : List (JStr × JsValue))

/-- `typeof value === 'string' ? value : undefined`. -/
def JsValue.string? : JsValue → Option JStr
  | .str s => some s
  | _ => none

/-- `value === true`. -/
def JsValue.isTrue : JsValue → Bool
  | .bool true => true
  | _ => false

/-- A record of arguments: `Record<string, unknown>`, in the order of `Object.entries`. -/
abbrev Args := OrderedMap JStr JsValue

/-- `args[key]` of an own property: no tool names an argument after a property that every object
inherits. -/
def Args.value (args : Args) (key : JStr) : JsValue := (args.get key).getD .undefined

/-! ## `String(v)` -/

mutual

/-- An object whose own `toString` is no function has no primitive value. -/
def stringOf : JsValue → Except Thrown JStr
  | .undefined => .ok (js "undefined")
  | .null => .ok (js "null")
  | .bool b => .ok (if b then js "true" else js "false")
  | .num n => .ok n.text
  | .str s => .ok s
  | .arr items => (join (js ",")) <$> itemsOf items
  | .obj fields =>
    if (fields.map Prod.fst).contains (js "toString") then
      .error (.error none (js "Cannot convert object to primitive value"))
    else .ok (js "[object Object]")

/-- The texts an array joins: an absent item is empty. -/
def itemsOf : List JsValue → Except Thrown (List JStr)
  | [] => .ok []
  | .undefined :: items => ([] :: ·) <$> itemsOf items
  | .null :: items => ([] :: ·) <$> itemsOf items
  | item :: items => do
    let s ← stringOf item
    return s :: (← itemsOf items)

end

/-! ## `JSON.stringify(v)` -/

def hexDigit (n : UInt16) : UInt16 := if n < 10 then 48 + n else 87 + n

/-- `\uXXXX`. -/
def unicodeEscape (u : UInt16) : JStr :=
  js "\\u" ++ [hexDigit (u >>> 12), hexDigit ((u >>> 8) &&& 15), hexDigit ((u >>> 4) &&& 15),
    hexDigit (u &&& 15)]

/-- A code unit inside a JSON string, surrogates apart. -/
def escapeUnit (u : UInt16) : JStr :=
  if u = 34 then js "\\\"" else if u = 92 then js "\\\\"
  else if u = 8 then js "\\b" else if u = 12 then js "\\f" else if u = 10 then js "\\n"
  else if u = 13 then js "\\r" else if u = 9 then js "\\t"
  else if u < 32 then unicodeEscape u
  else [u]

def isHighSurrogate (u : UInt16) : Bool := 0xD800 ≤ u && u ≤ 0xDBFF

def isLowSurrogate (u : UInt16) : Bool := 0xDC00 ≤ u && u ≤ 0xDFFF

/-- The inside of a JSON string: a surrogate without its partner is escaped. -/
def escape : JStr → JStr
  | [] => []
  | [u] => if isHighSurrogate u || isLowSurrogate u then unicodeEscape u else escapeUnit u
  | u :: v :: s =>
    if isHighSurrogate u then
      if isLowSurrogate v then u :: v :: escape s else unicodeEscape u ++ escape (v :: s)
    else if isLowSurrogate u then unicodeEscape u ++ escape (v :: s)
    else escapeUnit u ++ escape (v :: s)

def quote (s : JStr) : JStr := js "\"" ++ escape s ++ js "\""

mutual

/-- The JSON text of a value that is not `undefined`. -/
def stringify : JsValue → JStr
  | .undefined => js "null"
  | .null => js "null"
  | .bool b => if b then js "true" else js "false"
  | .num (.finite _ text) => text
  | .num (.nonFinite _) => js "null"
  | .str s => quote s
  | .arr items => js "[" ++ join (js ",") (stringifyItems items) ++ js "]"
  | .obj fields => js "\x7b" ++ join (js ",") (stringifyFields fields) ++ js "\x7d"

def stringifyItems : List JsValue → List JStr
  | [] => []
  | item :: items => stringify item :: stringifyItems items

/-- A field that holds `undefined` is left out. -/
def stringifyFields : List (JStr × JsValue) → List JStr
  | [] => []
  | (_, .undefined) :: fields => stringifyFields fields
  | (key, value) :: fields => (quote key ++ js ":" ++ stringify value) :: stringifyFields fields

end

end VigorMcp

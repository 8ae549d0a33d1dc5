import Mathlib.Algebra.Order.Ring.Nat
import Mathlib.Data.List.Sort
import VigorMcp.Lib.Template
import VigorMcp.Tools.ApproveCrypto

/-!
# Redaction of commands and arguments

`redactCommand` replaces the secret arguments of a rendered command by named
placeholders, longest value first, and only in the parts of the text that the
placeholder pattern does not match; `restoreCommand` puts values back;
`verifyReentry` checks a restored command against the digest of a pending view.
-/

namespace VigorMcp

def marker : JStr := js "<redacted:"

def placeholder (field : JStr) : JStr := marker ++ (field ++ js ">")

/-- The matcher of `/<redacted:[^>]*>/`. -/
def placeholderAt (s : JStr) : Nat :=
  if marker.isPrefixOf s then
    match (s.drop marker.length).dropWhile (fun u => decide (u ≠ 62)) with
    | [] => 0
    | _ :: rest => s.length - rest.length
  else 0

/-- A key with neither `<` nor `>` in it. -/
abbrev SafeKey (key : JStr) : Prop := 60 ∉ key ∧ 62 ∉ key

structure Secret where
  key : JStr
  value : JStr

/-- A listed key with the text of its argument, when that is there and not empty. -/
def secretOf (args : Args) (key : JStr) : Except Thrown (Option Secret) :=
  match args.value key with
  | .undefined => .ok none
  | .null => .ok none
  | value => do
    let s ← stringOf value
    return if s.length > 0 then some ⟨key, s⟩ else none

def pickSecrets (args : Args) : List JStr → Except Thrown (List Secret)
  | [] => .ok []
  | key :: keys => do
    let secret ← secretOf args key
    let rest ← pickSecrets args keys
    return secret.toList ++ rest

/-- Longer values first; of values of one length, the one listed first. -/
def sortSecrets (secrets : List Secret) : List Secret :=
  secrets.insertionSort fun a b => b.value.length ≤ a.value.length

/-- One pass of the loop over the secrets: the new text, and whether the value was found. -/
def redactOne (secret : Secret) (out : JStr) : JStr × Bool :=
  let redactPart (part : JStr) : JStr :=
    if !includes part secret.value then part
    else join (placeholder secret.key) (Scan.splitOn secret.value part)
  let parts := Scan.scan placeholderAt out
  (Scan.unscan (redactPart parts.1, parts.2.map fun p => (p.1, redactPart p.2)),
    (Scan.texts parts).any fun part => includes part secret.value)

structure Redacted where
  preview : JStr
  fields : List JStr
  deriving DecidableEq

def redactStep (r : Redacted) (secret : Secret) : Redacted :=
  let (out, replaced) := redactOne secret r.preview
  ⟨out, if replaced then r.fields ++ [secret.key] else r.fields⟩

/-- Replace secret values with named placeholders so a human can re-enter them. -/
def redactCommand (command : JStr) (args : Args) (secretArgs : List JStr) :
    Except Thrown Redacted :=
  if includes command marker then
    .error (.error (some (js "invalid")) (js "command contains reserved redaction marker"))
  else do
    let secrets ← pickSecrets args secretArgs
    return (sortSecrets secrets).foldl redactStep ⟨command, []⟩

/-- The JSON text of the arguments with secret values replaced by `***`. -/
def redactArgs (args : Args) (secretArgs : List JStr) : JStr :=
  stringify (.obj (args.entries.map fun e =>
    (e.1, if secretArgs.contains e.1 then .str (js "***") else e.2)))

def restoreCommand (preview : JStr) (values : OrderedMap JStr JStr) : JStr :=
  values.entries.foldl (fun command e => join e.2 (Scan.splitOn (placeholder e.1) command)) preview

/-- Public view of a pending intent for the approve CLI / model preview. -/
structure PendingIntentView where
  confirmationId : JStr
  toolId : JStr
  commandDigest : JStr
  commandPreview : JStr
  redactedFields : List JStr
  nonce : JStr
  createdAt : Int
  expiresAt : Int
  createdAt_safe : createdAt.natAbs < 2 ^ 53
  expiresAt_safe : expiresAt.natAbs < 2 ^ 53

def verifyReentry (C : Crypto) (view : PendingIntentView) (values : OrderedMap JStr JStr) : Bool :=
  if view.redactedFields.any fun field => !values.has field then false
  else C.digestCommand (restoreCommand view.commandPreview values) == view.commandDigest

end VigorMcp

import CatalogEdit.Text.Basic

/-!
# Addresses to listen on

An address is a host and a port with a colon between them. A host that holds colons itself may
stand in square brackets; without them the last colon counts. An empty host stands for every
interface.

## Main definitions

* `SocketAddress` — host and port.
* `SocketAddress.parse` — the address written by a text.
* `SocketAddress.Fault` — why a text is no address.
-/

namespace CatalogEdit

structure SocketAddress where
  host : Text
  port : Nat
deriving DecidableEq, Repr

namespace SocketAddress

inductive Fault where
  | malformed (spec : Text)
  | missingPort (spec : Text)
  | invalidPort (spec : Text)
  | portOutOfRange (spec : Text)
deriving DecidableEq, Repr

def Fault.wording : Fault → Text
  | .malformed spec => utf8 "Invalid listen address: " ++ spec
  | .missingPort spec => utf8 "Invalid listen address (missing port): " ++ spec
  | .invalidPort spec => utf8 "Invalid listen port: " ++ spec
  | .portOutOfRange spec => utf8 "Listen port out of range: " ++ spec

def Fault.message (f : Fault) : Text := f.wording.untilNul

/-! ## Host and port -/

/-- The host in brackets and the text of the port; `t` is what follows the opening bracket. -/
def splitBracketed? (t : Text) : Option (Text × Text) :=
  let host := t.takeWhile (· != Byte.closeBracket)
  match t.drop host.length with
  | _ :: Byte.colon :: port => some (host, port)
  | _ => none

/-- What stands before and after the last colon. -/
def splitAtLastColon? : Text → Option (Text × Text)
  | [] => none
  | b :: rest =>
    match splitAtLastColon? rest with
    | some (host, port) => some (b :: host, port)
    | none => if b == Byte.colon then some ([], rest) else none

def split (spec : Text) : Except Fault (Text × Text) :=
  match spec with
  | Byte.openBracket :: rest =>
    match splitBracketed? rest with
    | some parts => .ok parts
    | none => .error (.malformed spec)
  | _ =>
    match splitAtLastColon? spec with
    | some parts => .ok parts
    | none => .error (.missingPort spec)

abbrev maxPort : Nat := 65535

abbrev maxPortDigits : Nat := 5

def isPortText (t : Text) : Bool :=
  !t.isEmpty && t.length ≤ maxPortDigits && t.all Byte.isDigit

def anyHost : Text := utf8 "0.0.0.0"

def parse (spec : Text) : Except Fault SocketAddress :=
  match split spec with
  | .error fault => .error fault
  | .ok (host, port) =>
    if !isPortText port then
      .error (.invalidPort spec)
    else if maxPort < Text.digitsValue port then
      .error (.portOutOfRange spec)
    else
      .ok { host := if host.isEmpty then anyHost else host, port := Text.digitsValue port }

end SocketAddress

end CatalogEdit

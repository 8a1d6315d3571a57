import TokenWatch.Url.Host

/-!
URLs as their parts, and their text.
-/
namespace TokenWatch

namespace Url

/-- The scheme's own port, for schemes whose URLs have a host of known form. -/
def specialPorts : List (String × Option Nat) :=
  [("http", some 80), ("https", some 443), ("ws", some 80), ("wss", some 443), ("ftp", some 21),
   ("file", none)]

def isSpecialScheme (scheme : String) : Bool := (specialPorts.lookup scheme).isSome

def defaultPort? (scheme : String) : Option Nat := (specialPorts.lookup scheme).join

/-- Either a text without structure, or segments, each after a slash. -/
inductive Path where
  | opaqueText (text : String)
  | segments (list : List String)
deriving DecidableEq

namespace Path

def toText : Path → List Char
  | opaqueText text => text.toList
  | segments list => list.flatMap fun s => '/' :: s.toList

end Path
end Url

/-- A URL in normal form. The port is left out where it is the scheme's own. -/
structure Url where
  scheme : String
  username : String
  password : String
  host : Option Url.Host
  port : Option Nat
  path : Url.Path
  query : Option String
  fragment : Option String
deriving DecidableEq

namespace Url

def isSpecial (u : Url) : Bool := isSpecialScheme u.scheme

def isOpaque (u : Url) : Bool :=
  match u.path with
  | .opaqueText _ => true
  | .segments _ => false

def credentialsText (u : Url) : List Char :=
  if u.username = "" ∧ u.password = "" then []
  else
    u.username.toList ++ (if u.password = "" then [] else ':' :: u.password.toList) ++ ['@']

def portText (u : Url) : List Char :=
  match u.port with
  | some p => ':' :: Nat.toDigits 10 p
  | none => []

/-- Without a host, a path that starts with an empty segment is kept apart from one. -/
def authorityText (u : Url) : List Char :=
  match u.host with
  | some h => '/' :: '/' :: (u.credentialsText ++ h.toText ++ u.portText)
  | none =>
    match u.path with
    | .segments ("" :: _ :: _) => ['/', '.']
    | _ => []

def markedText (mark : Char) : Option String → List Char
  | some s => mark :: s.toList
  | none => []

def toChars (u : Url) : List Char :=
  u.scheme.toList ++ ':' :: (u.authorityText ++ u.path.toText ++ markedText '?' u.query ++
    markedText '#' u.fragment)

def toText (u : Url) : String := String.ofList u.toChars

end Url
end TokenWatch

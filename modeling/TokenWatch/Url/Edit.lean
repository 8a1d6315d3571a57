import TokenWatch.Url.Parser

/-!
Changes to one part of a URL.
-/
namespace TokenWatch.Url

/-- Makes the path end in a slash, so that other URLs can be given relative to this one. A text
without structure may not start with a slash, so there the code of one stands for it. -/
def directory (u : Url) : Url :=
  match u.path with
  | .opaqueText "" => { u with path := .opaqueText "%2F" }
  | .opaqueText text =>
    if text.toList.getLast? = some '/' then u else { u with path := .opaqueText (text ++ "/") }
  | .segments list =>
    if list.getLast? = some "" then u else { u with path := .segments (list ++ [""]) }

def endpoint (base : Url) (path : String) : Except Error Url := base.directory.join path

def appendPair (u : Url) (name value : String) : Url :=
  let pair := String.ofList (formPair name value)
  let query := match u.query with
    | none => pair
    | some "" => pair
    | some q => q ++ "&" ++ pair
  { u with query := some query }

def appendPairs (u : Url) (pairs : List (String × String)) : Url :=
  pairs.foldl (fun u (name, value) => u.appendPair name value) u

def hasHost (u : Url) : Bool :=
  match u.host with
  | none => false
  | some h => h ≠ .name ""

/-- Changes the scheme to a special one. Only special schemes can be exchanged for each other, and
the URL needs a host. -/
def withSpecialScheme? (u : Url) (scheme : String) : Option Url :=
  if u.isSpecial && u.hasHost then
    some { u with scheme, port := if u.port = defaultPort? scheme then none else u.port }
  else none

end TokenWatch.Url

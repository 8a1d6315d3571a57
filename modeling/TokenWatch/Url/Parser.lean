import TokenWatch.Url.Basic

/-!
Reading URLs, alone or relative to another one. A text is first cut at its fragment and query
marks; scheme, authority and path are read from what stands in front of them.
-/
namespace TokenWatch.Url
open Text

/-- A text cut into the parts that its marks tell apart. -/
structure Parts where
  body : List Char
  query : Option (List Char)
  fragment : Option (List Char)

def cutAt (mark : Char) (cs : List Char) : List Char × Option (List Char) :=
  match cs.dropWhile (· ≠ mark) with
  | [] => (cs, none)
  | _ :: rest => (cs.takeWhile (· ≠ mark), some rest)

def isControlOrSpace (c : Char) : Bool := c.toNat ≤ 0x20

def isLineMark (c : Char) : Bool := c == '\t' || c == '\n' || c == '\r'

/-- Drops controls and spaces at both ends, and tabs and line ends everywhere. -/
def clean (cs : List Char) : List Char :=
  let trimmed := ((cs.dropWhile isControlOrSpace).reverse.dropWhile isControlOrSpace).reverse
  trimmed.filter fun c => !isLineMark c

def Parts.ofText (cs : List Char) : Parts :=
  let (front, fragment) := cutAt '#' (clean cs)
  let (body, query) := cutAt '?' front
  ⟨body, query, fragment⟩

def isSchemePart (c : Char) : Bool := c.isAlphanum || c == '+' || c == '-' || c == '.'

def cutScheme? (cs : List Char) : Option (String × List Char) :=
  match cutAt ':' cs with
  | (scheme, some rest) =>
    if (scheme.head?.any Char.isAlpha) && scheme.all isSchemePart then
      some (String.ofList (scheme.map Char.toLower), rest)
    else none
  | (_, none) => none

def isSlash (special : Bool) (c : Char) : Bool := c == '/' || (special && c == '\\')

/-! Paths -/

def rawSegments (special : Bool) (cs : List Char) : List (List Char) :=
  pieces '/' (cs.map fun c => if isSlash special c then '/' else c)

def dotForms : List String := [".", "%2e", "%2E"]

def isSingleDot (s : List Char) : Bool := dotForms.contains (String.ofList s)

def isDoubleDot (s : List Char) : Bool :=
  dotForms.any fun a => dotForms.any fun b => a ++ b == String.ofList s

def isDriveLetter (s : List Char) : Bool :=
  match s with
  | [a, b] => a.isAlpha && (b == ':' || b == '|')
  | _ => false

/-- Takes the last segment away, unless it is the drive of a file. -/
def shorten (file : Bool) (path : List String) : List String :=
  match path with
  | [s] => if file && isDriveLetter s.toList && s.toList.getLast? == some ':' then [s] else []
  | path => path.dropLast

def encodeSegment (file : Bool) (path : List String) (s : List Char) : String :=
  if file && path.isEmpty && isDriveLetter s then String.ofList [s.headD 'C', ':']
  else String.ofList (percentEncode pathSet s)

/-- Appends segments to a path. A dot stands for no segment, two dots for going back by one; as
the last segment either leaves an empty one. -/
def walk (file : Bool) (path : List String) : List (List Char) → List String
  | [] => path
  | s :: rest =>
    if isDoubleDot s then
      let path := shorten file path
      if rest = [] then path ++ [""] else walk file path rest
    else if isSingleDot s then
      if rest = [] then path ++ [""] else walk file path rest
    else walk file (path ++ [encodeSegment file path s]) rest

/-- The path after an authority, with or without the slash in front of it. -/
def readPath (scheme : String) (start : List String) (cs : List Char) : Path :=
  .segments (walk (scheme = "file") start (rawSegments (isSpecialScheme scheme) cs))

def readRootPath (scheme : String) (cs : List Char) : Path :=
  let special := isSpecialScheme scheme
  match cs with
  | [] => if special then .segments [""] else .segments []
  | c :: rest => if isSlash special c then readPath scheme [] rest else readPath scheme [] cs

/-! Authorities -/

structure Authority where
  username : String
  password : String
  host : Host
  port : Option Nat

def cutUserinfo (cs : List Char) : Option (List Char) × List Char :=
  let back := cs.reverse
  match back.dropWhile (· ≠ '@') with
  | [] => (none, cs)
  | _ :: front => (some front.reverse, (back.takeWhile (· ≠ '@')).reverse)

/-- Cuts a port off, at the last colon that is not inside brackets. -/
def cutPort (cs : List Char) : List Char × Option (List Char) :=
  let back := cs.reverse
  let tail := back.takeWhile fun c => c ≠ ':' ∧ c ≠ ']'
  match back.drop tail.length with
  | ':' :: front => (front.reverse, some tail.reverse)
  | _ => (cs, none)

def readPort (scheme : String) (cs : List Char) : Except Error (Option Nat) :=
  if cs = [] then .ok none
  else if cs.all Char.isDigit then
    let n := Nat.ofDigitChars 10 cs 0
    if n < 65536 then .ok (if defaultPort? scheme = some n then none else some n)
    else .error .invalidPort
  else .error .invalidPort

def readAuthority (scheme : String) (cs : List Char) : Except Error Authority := do
  let special := isSpecialScheme scheme
  let (userinfo, rest) := cutUserinfo cs
  let (hostText, portText) := cutPort rest
  if hostText = [] ∧ (special ∨ userinfo.isSome ∨ portText.isSome) then .error .emptyHost
  else
    let host ← Host.parse special hostText
    let port ← readPort scheme (portText.getD [])
    let (username, password) := cutAt ':' (userinfo.getD [])
    return {
      username := String.ofList (percentEncode userinfoSet username)
      password := String.ofList (percentEncode userinfoSet (password.getD []))
      host
      port }

/-! Whole URLs -/

def encodeQuery (scheme : String) (cs : List Char) : String :=
  String.ofList (percentEncode (if isSpecialScheme scheme then specialQuerySet else querySet) cs)

def encodeFragment (cs : List Char) : String := String.ofList (percentEncode fragmentSet cs)

def ofParts (scheme : String) (p : Parts) : Url :=
  { scheme, username := "", password := "", host := none, port := none, path := .segments [],
    query := p.query.map (encodeQuery scheme), fragment := p.fragment.map encodeFragment }

def readFromAuthority (scheme : String) (p : Parts) (cs : List Char) : Except Error Url := do
  let isEnd := isSlash (isSpecialScheme scheme)
  let a ← readAuthority scheme (cs.takeWhile fun c => !isEnd c)
  return { ofParts scheme p with
    username := a.username
    password := a.password
    host := some a.host
    port := a.port
    path := readRootPath scheme (cs.dropWhile fun c => !isEnd c) }

/-- The host of a file's URL; the local one is not named. -/
def readFileHost (cs : List Char) : Except Error Host :=
  if cs = [] then .ok (.name "")
  else do
    let h ← Host.parse true cs
    return if h = .name "localhost" then .name "" else h

def readFile (base : Option Url) (p : Parts) (cs : List Char) : Except Error Url := do
  let scheme := "file"
  let isMark := isSlash true
  let blank := { ofParts scheme p with host := some (.name "") }
  match cs with
  | a :: b :: rest =>
    if isMark a && isMark b then
      let hostText := rest.takeWhile fun c => !isMark c
      if isDriveLetter hostText then return { blank with path := readRootPath scheme rest }
      else
        let host ← readFileHost hostText
        return { blank with
          host := some host
          path := readRootPath scheme (rest.dropWhile fun c => !isMark c) }
    else if isMark a then
      return { blank with
        host := base.elim (some (.name "")) (·.host)
        path := readRootPath scheme (b :: rest) }
    else return relative blank (a :: b :: rest)
  | [a] =>
    if isMark a then return { blank with path := .segments [""] }
    else return relative blank [a]
  | [] => return relative blank []
where
  relative (blank : Url) (cs : List Char) : Url :=
    match base with
    | none => { blank with path := readRootPath "file" cs }
    | some b =>
      match cs, b.path with
      | [], _ => { b with query := if p.query.isSome then blank.query else b.query,
                          fragment := blank.fragment }
      | cs, .segments list =>
        { blank with host := b.host, path := readPath "file" (shorten true list) cs }
      | cs, .opaqueText _ => { blank with path := readRootPath "file" cs }

def readAbsolute (scheme : String) (p : Parts) (rest : List Char) : Except Error Url :=
  if isSpecialScheme scheme then
    readFromAuthority scheme p (rest.dropWhile (isSlash true))
  else
    match rest with
    | '/' :: '/' :: cs => readFromAuthority scheme p cs
    | '/' :: cs => .ok { ofParts scheme p with path := readPath scheme [] cs }
    | cs =>
      .ok { ofParts scheme p with
        path := .opaqueText (String.ofList (percentEncode controlSet cs)) }

/-- A URL that takes what its text does not name from `base`. -/
def readRelative (base : Url) (p : Parts) (cs : List Char) : Except Error Url :=
  let special := base.isSpecial
  let kept := { ofParts base.scheme p with
    username := base.username, password := base.password, host := base.host, port := base.port }
  match cs with
  | [] =>
    .ok { kept with
      path := base.path
      query := if p.query.isSome then kept.query else base.query }
  | a :: rest =>
    if isSlash special a then
      match rest with
      | b :: rest' =>
        if isSlash special b then
          let authority := if special then rest'.dropWhile (isSlash true) else rest'
          readFromAuthority base.scheme p authority
        else .ok { kept with path := readPath base.scheme [] rest }
      | [] => .ok { kept with path := readPath base.scheme [] [] }
    else
      match base.path with
      | .segments list =>
        .ok { kept with path := readPath base.scheme (shorten false list) cs }
      | .opaqueText _ => .error .relativeWithOpaqueBase

def read (base : Option Url) (text : List Char) : Except Error Url :=
  let p := Parts.ofText text
  match cutScheme? p.body with
  | some (scheme, rest) =>
    if scheme = "file" then readFile (base.filter (·.scheme = "file")) p rest
    else
      match base with
      | some b =>
        let slashes := (rest.takeWhile (isSlash true)).length
        if isSpecialScheme scheme && b.scheme = scheme && slashes < 2 then readRelative b p rest
        else readAbsolute scheme p rest
      | none => readAbsolute scheme p rest
  | none =>
    match base with
    | none => .error .relativeWithoutBase
    | some b =>
      if b.isOpaque then
        if p.body = [] ∧ p.query = none ∧ p.fragment ≠ none then
          .ok { b with fragment := p.fragment.map encodeFragment }
        else .error .relativeWithOpaqueBase
      else if b.scheme = "file" then readFile (some b) p p.body
      else readRelative b p p.body

def parse (text : String) : Except Error Url := read none text.toList

def join (base : Url) (text : String) : Except Error Url := read (some base) text.toList

end TokenWatch.Url

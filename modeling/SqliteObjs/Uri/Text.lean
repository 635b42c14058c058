import SqliteObjs.Data.PercentEncoding

/-!
# The URI of a database

`UriBuilder::build` writes the name of a database and its parameters as a URI, and SQLite takes
the URI apart when the database is opened. SQLite's result is one buffer: the file name, then the
names and the values of the parameters, each ended by a zero byte, with zero bytes after the last.
A character stands for a byte.
-/

set_option autoImplicit false

namespace SqliteObjs

open PercentEncoding

/-! ## The builder -/

inductive UriBuilder.PrefetchMode
  | all | none
  deriving DecidableEq

def UriBuilder.PrefetchMode.asUriValue : UriBuilder.PrefetchMode → List Char
  | .all => "all".toList
  | .none => "none".toList

@[ext]
structure UriBuilder where
  database : String
  account : String
  container : String
  sasToken : Option String
  accountKey : Option String
  endpoint : Option String
  cacheDir : Option String
  cacheReuse : Bool
  prefetch : Option UriBuilder.PrefetchMode

/-- The bytes of a string. -/
def utf8 (s : String) : List Char := s.toUTF8.data.toList.map fun b => Char.ofNat b.toNat

/-- The bytes that `percent_encode` keeps. -/
def rfcUnreserved (c : Char) : Bool :=
  ('A' ≤ c && c ≤ 'Z') || ('a' ≤ c && c ≤ 'z') || ('0' ≤ c && c ≤ '9') ||
    c == '-' || c == '_' || c == '.' || c == '~'

def percentEncode (s : String) : List Char := encode rfcUnreserved (utf8 s)

/-- A parameter that is written if it is set. -/
def pushParam (uri name : List Char) : Option (List Char) → List Char
  | some value => uri ++ name ++ value
  | none => uri

/-- `build` prefers the SAS token to the account key. -/
def UriBuilder.pushCredential (b : UriBuilder) (uri : List Char) : List Char :=
  match b.sasToken with
  | some sas => uri ++ "&azure_sas=".toList ++ percentEncode sas
  | none => pushParam uri "&azure_key=".toList (b.accountKey.map percentEncode)

/-- `UriBuilder::build`. -/
def UriBuilder.build (b : UriBuilder) : List Char :=
  let uri := "file:".toList ++ percentEncode b.database ++
    "?azure_account=".toList ++ percentEncode b.account ++
    "&azure_container=".toList ++ percentEncode b.container
  let uri := b.pushCredential uri
  let uri := pushParam uri "&azure_endpoint=".toList (b.endpoint.map percentEncode)
  let uri := pushParam uri "&cache_dir=".toList (b.cacheDir.map percentEncode)
  let uri := if b.cacheReuse then uri ++ "&cache_reuse=1".toList else uri
  pushParam uri "&prefetch=".toList (b.prefetch.map UriBuilder.PrefetchMode.asUriValue)

/-! ## SQLite -/

/-- `eState` of `sqlite3ParseUri`: what is being read. -/
inductive UriState
  | path | name | value
  deriving DecidableEq

/-- An escape at the beginning of a text, with what follows it. -/
def octet : List Char → Option (Nat × List Char)
  | '%' :: a :: b :: rest =>
    match hexValue a, hexValue b with
    | some m, some n => some (m * 16 + n, rest)
    | _, _ => none
  | _ => none

/-- What `%00` hides of the part it stands in. -/
def UriState.hides : UriState → Char → Bool
  | .path, c => c != '#' && c != '?'
  | .name, c => c != '#' && c != '=' && c != '&'
  | .value, c => c != '#' && c != '&'

/-- The rest of a parameter without a name; `last` is the character before the text. -/
def skipOption (last : Char) : List Char → List Char
  | [] => []
  | c :: input => if c = '#' ∨ last = '&' then c :: input else skipOption c input

/-- The loop of `sqlite3ParseUri` over a text without zero bytes. The first argument bounds its
rounds; `out` is what is in `zFile`. -/
def parseUriLoop : Nat → UriState → List Char → List Char → UriState × List Char
  | 0, state, _, out => (state, out)
  | _ + 1, state, [], out => (state, out)
  | fuel + 1, state, c :: input, out =>
    if c = '#' then (state, out)
    else match octet (c :: input) with
    | some (0, rest) => parseUriLoop fuel state (rest.dropWhile state.hides) out
    | some (n, rest) => parseUriLoop fuel state rest (out ++ [Char.ofNat n])
    | none =>
      if state = .name ∧ (c = '&' ∨ c = '=') then
        if out.getLast? = some '\x00' then parseUriLoop fuel state (skipOption c input) out
        else if c = '&' then parseUriLoop fuel state input (out ++ ['\x00', '\x00'])
        else parseUriLoop fuel .value input (out ++ ['\x00'])
      else if (state = .path ∧ c = '?') ∨ (state = .value ∧ c = '&') then
        parseUriLoop fuel .name input (out ++ ['\x00'])
      else parseUriLoop fuel state input (out ++ [c])

/-- The path and the query of a URI, decoded. -/
def decodeUri (input : List Char) : List Char :=
  match parseUriLoop (input.length + 1) .path input [] with
  | (.name, out) => out ++ ['\x00']
  | (_, out) => out

/-- `sqlite3ParseUri` up to the options it interprets itself: the buffer, or the authority that it
does not accept. -/
def sqlite3ParseUri (uri : List Char) : Except (List Char) (List Char) :=
  match uri with
  | 'f' :: 'i' :: 'l' :: 'e' :: ':' :: input =>
    match input with
    | '/' :: '/' :: rest =>
      let authority := rest.takeWhile (· ≠ '/')
      if authority ≠ [] ∧ authority ≠ "localhost".toList then .error authority
      else .ok (decodeUri (rest.dropWhile (· ≠ '/')))
    | _ => .ok (decodeUri input)
  | _ => .ok uri

/-- The text at the beginning of a buffer, and what follows its terminator. -/
def readCString (buffer : List Char) : List Char × List Char :=
  (buffer.takeWhile (· ≠ '\x00'), (buffer.dropWhile (· ≠ '\x00')).drop 1)

/-- The parameters after the file name, up to one without a name. -/
def uriOptions : Nat → List Char → List (List Char × List Char)
  | 0, _ => []
  | fuel + 1, buffer =>
    let (name, rest) := readCString buffer
    if name = [] then []
    else
      let (value, rest) := readCString rest
      (name, value) :: uriOptions fuel rest

/-- The file name and the parameters in a buffer. -/
def uriContent (buffer : List Char) : List Char × List (List Char × List Char) :=
  let (file, rest) := readCString buffer
  (file, uriOptions (rest.length + 1) rest)

end SqliteObjs

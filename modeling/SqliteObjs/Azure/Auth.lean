import SqliteObjs.Data.Base64
import SqliteObjs.Data.Canonical
import SqliteObjs.Data.Text
import SqliteObjs.Vfs.World

/-!
# Signed requests

A request signed with the shared key carries a signature of its `StringToSign`: the standard
headers, the `x-ms-*` headers in the order of their names, and the resource with the parameters
of the query in the order of theirs. `azureAuthSignRequest` builds that text in a buffer of 4096
bytes. A character stands for a byte, and `NULL` for a text is the empty text where the code
takes both for the same.

Put Page is signed in two places, for one request and for a batch of them, and they hand over
the same headers in different orders.
-/

set_option autoImplicit false

namespace SqliteObjs

open CS CS.Program Canonical

/-- `azure_client_t`, what requests are named and signed with. -/
structure AzureClient where
  account : List Char
  container : List Char
  endpoint : List Char
  keyRaw : List UInt8

/-- A client of the default endpoint. -/
def someClient : AzureClient where
  account := "acct".toList
  container := "db".toList
  endpoint := []
  keyRaw := [1, 2, 3]

/-- The arguments of `azure_auth_sign_request` but the client. -/
structure SignArgs where
  method : List Char
  path : List Char
  query : List Char
  contentLength : List Char
  contentType : List Char
  range : List Char
  ifMatch : List Char
  xMsHeaders : List (List Char)

/-- What `snprintf` leaves in a buffer of `size` bytes. -/
def snprintf (size : Nat) (s : List Char) : List Char := s.take (size - 1)

/-- A text that fits is not cut. -/
theorem snprintf_eq {size : Nat} {s : List Char} (h : s.length < size) : snprintf size s = s :=
  List.take_of_length_le (by omega)

/-- `azure_base64_encode` into a buffer of `size` bytes. -/
def azureBase64Encode (input : List UInt8) (size : Nat) : Option (List Char) :=
  if input = [] then none
  else if size < (Base64.encode input).length + 1 then none
  else some (Base64.encode input)

/-! ## The text that is signed -/

/-- The size of `string_to_sign`. -/
def stringToSignSize : Nat := 4096

/-- The key of `strcasecmp`. -/
def lowered (s : List Char) : List Char := s.map Char.toLower

/-- `qsort` with `compare_headers`. -/
def sortHeaders (headers : List (List Char)) : List (List Char) := sortBy lowered headers

/-- `snprintf` at `p`, with a check that all of it went in. -/
def appendText (p s : List Char) : Option (List Char) :=
  if stringToSignSize ≤ p.length + s.length then none else some (p ++ s)

/-- The twelve standard lines. -/
def standardLines (a : SignArgs) : List Char :=
  [a.method, [], [], a.contentLength, [], a.contentType, [], [], a.ifMatch, [], [], a.range].flatMap
    (· ++ ['\n'])

/-- The name of a header, in lower case. -/
def appendName : List Char → List Char → Option (List Char)
  | p, [] => some p
  | p, c :: name =>
    if stringToSignSize - 1 ≤ p.length then none else appendName (p ++ [c.toLower]) name

/-- The line of a header; a text without a colon is none. -/
def appendHeader (p header : List Char) : Option (List Char) :=
  match Text.splitOnce ':' header with
  | none => some p
  | some (name, value) =>
    match appendName p name with
    | none => none
    | some p =>
      if stringToSignSize ≤ p.length + (':' :: value).length + 1 then none
      else some (p ++ ':' :: value ++ ['\n'])

/-- The sorted array of headers; `none` when there is no memory for it. -/
def sortedXMsHeaders (headers : List (List Char)) : Prog (Option (List (List Char))) :=
  if headers = [] then return some []
  else do
    let sorted ← sys (.malloc (8 * headers.length))
    if !sorted.ok then return none else return some (sortHeaders headers)

/-- The parameters of a query: `qbuf` takes 1023 characters of it, `pairs` takes 32 of them. -/
def queryPairs (query : List Char) : List (List Char) :=
  sortHeaders ((tokens '&' (query.take 1023)).take 32)

/-- The line of a parameter. -/
def pairLine (pair : List Char) : List Char :=
  match Text.splitOnce '=' pair with
  | some (name, value) => '\n' :: name ++ ':' :: value
  | none => '\n' :: pair ++ [':']

/-- The resource and the lines of its parameters. -/
def appendResource (p account path query : List Char) : Option (List Char) :=
  match appendText p ('/' :: account ++ path) with
  | none => none
  | some p => (queryPairs query).foldlM (fun p pair => appendText p (pairLine pair)) p

/-- The `StringToSign` of `azure_auth_sign_request`. -/
def stringToSign (c : AzureClient) (a : SignArgs) : Prog (Except AzErr (List Char)) :=
  match appendText [] (standardLines a) with
  | none => return .error .invalidArg
  | some p => do
    match ← sortedXMsHeaders a.xMsHeaders with
    | none => return .error .nomem
    | some headers =>
      match headers.foldlM appendHeader p with
      | none => return .error .invalidArg
      | some p =>
        match appendResource p c.account a.path a.query with
        | none => return .error .invalidArg
        | some s => return .ok s

/-- The `Authorization` header, in a buffer of `size` bytes. -/
def azureAuthSignRequest (hmacSha256 : List UInt8 → List Char → Option (List UInt8))
    (c : AzureClient) (a : SignArgs) (size : Nat) : Prog (Except AzErr (List Char)) := do
  match ← stringToSign c a with
  | .error e => return .error e
  | .ok s =>
    match hmacSha256 c.keyRaw s with
    | none => return .error .auth
    | some hmac =>
      match azureBase64Encode hmac 64 with
      | none => return .error .auth
      | some sig => return .ok (snprintf size ("SharedKey ".toList ++ c.account ++ ':' :: sig))

/-! ## Requests -/

/-- `AZURE_API_VERSION`. -/
def azureApiVersion : List Char := "2024-08-04".toList

/-- A header as it is signed. -/
def xMsHeader (size : Nat) (name : String) (value : List Char) : List Char :=
  snprintf size (name.toList ++ ':' :: value)

/-- `path[1024]`. An endpoint of its own has the account in the path. -/
def signedPath (c : AzureClient) (blobName : List Char) : List Char :=
  snprintf 1024 (if c.endpoint ≠ [] then '/' :: c.account ++ '/' :: c.container ++ '/' :: blobName
    else '/' :: c.container ++ '/' :: blobName)

/-- What `execute_single` signs; `date` is what `azure_rfc1123_time` wrote. -/
def executeSingleArgs (c : AzureClient) (date method blobName query : List Char)
    (extraXMs : List (List Char)) (contentType : List Char) (bodyLen : Nat)
    (rangeHeader ifMatch : List Char) : SignArgs where
  method := method
  path := signedPath c blobName
  query := query
  contentLength := if 0 < bodyLen then snprintf 32 (Nat.toDigits 10 bodyLen) else []
  contentType := contentType
  range := rangeHeader
  ifMatch := ifMatch
  xMsHeaders := xMsHeader 128 "x-ms-date" date :: xMsHeader 64 "x-ms-version" azureApiVersion ::
    extraXMs.take 28

/-- The value of a range header. -/
def rangeValue (offset : Int64) (len : Nat) : List Char :=
  "bytes=".toList ++ Text.printInt offset.toInt ++
    '-' :: Text.printInt (offset + Int64.ofNat len - 1).toInt

/-- What `az_page_blob_write` signs, if it does not refuse its arguments. -/
def azPageBlobWriteArgs (c : AzureClient) (date name : List Char) (offset : Int64) (len : Nat)
    (leaseId ifMatch : List Char) : Option SignArgs :=
  if offset < 0 ∨ offset % 512 ≠ 0 ∨ len % 512 ≠ 0 then none
  else if 4 * 1024 * 1024 < len then none
  else if len = 0 then none
  else
    let rangeHeader := xMsHeader 128 "x-ms-range" (rangeValue offset len)
    let extra := ["x-ms-page-write:update".toList, rangeHeader] ++
      if leaseId ≠ [] then [xMsHeader 128 "x-ms-lease-id" leaseId] else []
    some (executeSingleArgs c date "PUT".toList name "comp=page".toList extra
      "application/octet-stream".toList len [] ifMatch)

/-- What `batch_init_easy` signs. -/
def batchInitEasyArgs (c : AzureClient) (date blobName : List Char) (offset : Int64) (len : Nat)
    (leaseId ifMatch : List Char) : SignArgs where
  method := "PUT".toList
  path := signedPath c blobName
  query := "comp=page".toList
  contentLength := snprintf 32 (Nat.toDigits 10 len)
  contentType := "application/octet-stream".toList
  range := []
  ifMatch := ifMatch
  xMsHeaders := xMsHeader 128 "x-ms-date" date ::
    ((if leaseId ≠ [] then [xMsHeader 192 "x-ms-lease-id" leaseId] else []) ++
      [snprintf 64 "x-ms-page-write:update".toList,
        xMsHeader 192 "x-ms-range" (snprintf 128 (rangeValue offset len)),
        xMsHeader 64 "x-ms-version" azureApiVersion])

end SqliteObjs

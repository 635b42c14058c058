import SqliteObjs.Azure.Auth
import SqliteObjs.Azure.PageRanges
import SqliteObjs.Azure.Retry

/-!
# The response of one attempt

The callbacks of a request collect the body in a buffer that the caller may own, and the headers
in a record. The memory of a buffer is kept between attempts, and `azure_parse_error_xml` reads it
as a C string, beyond the body.
-/

set_option autoImplicit false

namespace SqliteObjs
namespace Http

open Search

/-! ## The buffer -/

/-- `azure_buffer_t`. The memory from `data` on is told as far as it can be read: the block, and
what stands behind it. -/
structure AzureBuffer where
  data : List Char
  size : Nat
  capacity : Nat

namespace AzureBuffer

/-- `azure_buffer_init`. -/
def init : AzureBuffer := ⟨[], 0, 0⟩

/-- The bytes that were put into a buffer. -/
def content (buf : AzureBuffer) : List Char := buf.data.take buf.size

end AzureBuffer

/-- `SIZE_MAX`. -/
def sizeMax : Nat := 2 ^ 64 - 1

/-- A piece of a body; `realloc` fails, or moves the buffer to where these bytes stand behind
those it keeps. -/
structure Chunk where
  bytes : List Char
  moved : Option (List Char)

/-- The loop that doubles `new_cap`; the first argument bounds its rounds. -/
def newCapacity (needed : Nat) : Nat → Nat → Nat
  | 0, newCap => newCap
  | n + 1, newCap =>
    if newCap < needed then
      if sizeMax / 2 < newCap then needed else newCapacity needed n (newCap * 2)
    else newCap

/-- The `memcpy` at the end of a buffer. -/
def AzureBuffer.put (buf : AzureBuffer) (bytes : List Char) : AzureBuffer :=
  { buf with
    data := buf.data.take buf.size ++ bytes ++ buf.data.drop (buf.size + bytes.length)
    size := buf.size + bytes.length }

/-- `azure_buffer_append`, if it succeeds. -/
def azureBufferAppend (buf : AzureBuffer) (chunk : Chunk) : Option AzureBuffer :=
  if sizeMax - buf.size < chunk.bytes.length then none
  else
    let needed := buf.size + chunk.bytes.length
    if buf.capacity < needed then
      match chunk.moved with
      | none => none
      | some behind =>
        let newCap := if buf.capacity = 0 then 4096 else buf.capacity
        some (AzureBuffer.put { buf with
          data := buf.data.take buf.capacity ++ behind
          capacity := newCapacity needed 64 newCap } chunk.bytes)
    else some (buf.put chunk.bytes)

/-- The pieces of a body, up to one that `curl_write_cb` does not take: then curl gives up. -/
def receive : List Chunk → AzureBuffer → AzureBuffer × Bool
  | [], buf => (buf, true)
  | chunk :: chunks, buf =>
    match azureBufferAppend buf chunk with
    | none => (buf, false)
    | some buf => receive chunks buf

/-! ## The headers -/

/-- `azure_response_headers_t`. An array of characters is the text in it. -/
structure AzureResponseHeaders where
  leaseId : List Char := []
  leaseState : List Char := []
  leaseStatus : List Char := []
  requestId : List Char := []
  errorCode : List Char := []
  etag : List Char := []
  snapshot : List Char := []
  contentLength : Int := 0
  leaseTime : Int := 0
  retryAfter : Int := 0
  deriving DecidableEq

/-- A text cut to an array of `size` bytes. -/
def fitted (size : Nat) (s : List Char) : List Char := cstr (s.take (size - 1))

/-- The value of a header: no spaces before it, no line end behind it. -/
def headerValue (s : List Char) : List Char :=
  ((s.dropWhile (· == ' ')).reverse.dropWhile fun c => c == '\r' || c == '\n').reverse

/-- `curl_header_cb`. -/
def curlHeaderCb (h : AzureResponseHeaders) (line : List Char) : AzureResponseHeaders :=
  if ':' ∉ line then h
  else
    let name := lowered (line.takeWhile (· ≠ ':'))
    let value := headerValue ((line.dropWhile (· ≠ ':')).drop 1)
    if name = "x-ms-lease-id".toList then { h with leaseId := fitted 64 value }
    else if name = "x-ms-lease-state".toList then { h with leaseState := fitted 32 value }
    else if name = "x-ms-lease-status".toList then { h with leaseStatus := fitted 32 value }
    else if name = "x-ms-request-id".toList then { h with requestId := fitted 64 value }
    else if name = "x-ms-error-code".toList then { h with errorCode := fitted 128 value }
    else if name = "etag".toList then { h with etag := fitted 128 value }
    else if name = "x-ms-snapshot".toList then { h with snapshot := fitted 128 value }
    else if name = "content-length".toList then
      { h with contentLength := strtoll (fitted 32 value) }
    else if name = "x-ms-lease-time".toList then
      { h with leaseTime := cInt (strtoll (fitted 32 value)) }
    else if name = "retry-after".toList then
      { h with retryAfter := cInt (strtoll (fitted 32 value)) }
    else h

/-! ## The error -/

/-- `azure_error_t`. -/
structure AzureError where
  code : AzErr := .ok
  httpStatus : Nat := 0
  errorCode : List Char := []
  errorMessage : List Char := []
  requestId : List Char := []
  etag : List Char := []
  deriving DecidableEq

/-- `extract_xml_tag`, into an array of `outSize` bytes. -/
def extractXmlTag (xml tag : List Char) (outSize : Nat) : Option (List Char) :=
  let openTag := '<' :: (tag ++ ['>'])
  let closeTag := '<' :: '/' :: (tag ++ ['>'])
  match find openTag (cstr xml) with
  | none => none
  | some start =>
    let rest := (cstr xml).drop (start + openTag.length)
    match find closeTag rest with
    | none => none
    | some len => some ((rest.take len).take (outSize - 1))

/-- `azure_parse_error_xml`. The length of the text is not used. -/
def azureParseErrorXml (xml : List Char) (err : AzureError) : AzureError :=
  { err with
    errorCode := (extractXmlTag xml "Code".toList 128).getD []
    errorMessage := (extractXmlTag xml "Message".toList 256).getD [] }

/-! ## The attempt -/

/-- How `curl_easy_perform` ends. -/
inductive CurlCode
  | ok | operationTimedout | couldntConnect | other
  deriving DecidableEq

/-- What happens in an attempt: no request is sent, or curl delivers headers and a body, an error of
its own with its text, and a status. -/
inductive Delivery
  | unsigned (rc : AzErr) (failed : rc ≠ .ok)
  | noSlist
  | performed (headers : List (List Char)) (chunks : List Chunk) (res : CurlCode)
    (strerror : List Char) (httpStatus : Nat)

/-- What an attempt tells. -/
structure Reply where
  rc : AzErr
  headers : AzureResponseHeaders
  err : AzureError
  deriving DecidableEq

/-- The record of headers before an attempt. -/
def noResponseHeaders : AzureResponseHeaders := { retryAfter := -1 }

/-- `INT_MAX`. -/
def intMax : Nat := 2 ^ 31 - 1

/-- `execute_single` after the request; `xml` is what the error is read from, if there is a body. -/
def respond (rh : AzureResponseHeaders) (res : CurlCode) (strerror : List Char) (httpStatus : Nat)
    (size : Nat) (xml : List Char) : Reply :=
  if res ≠ .ok then
    let err : AzureError :=
      { code := .network, errorMessage := ("curl error: ".toList ++ strerror).take 255 }
    if res = .operationTimedout ∨ res = .couldntConnect then ⟨.server, rh, err⟩
    else ⟨.network, rh, err⟩
  else
    let err : AzureError :=
      { httpStatus := min httpStatus intMax, requestId := rh.requestId.take 63,
        etag := rh.etag.take 127 }
    if 400 ≤ httpStatus then
      let err := if 0 < size then azureParseErrorXml xml err else err
      let err :=
        if rh.errorCode ≠ [] ∧ err.errorCode = [] then
          { err with errorCode := rh.errorCode.take 127 }
        else err
      let code := azureClassifyHttpError httpStatus (String.ofList err.errorCode)
      ⟨code, rh, { err with code := code }⟩
    else ⟨.ok, rh, err⟩

/-- `execute_single`, with the buffer of the attempt. -/
def executeSingle (d : Delivery) (buf : AzureBuffer) : Reply × AzureBuffer :=
  match d with
  | .unsigned rc _ => (⟨rc, noResponseHeaders, { code := rc }⟩, buf)
  | .noSlist =>
    (⟨.nomem, noResponseHeaders,
      { code := .nomem, errorMessage := "curl_slist_append allocation failed".toList }⟩, buf)
  | .performed headers chunks res strerror httpStatus =>
    let (buf, taken) := receive chunks buf
    let rh := headers.foldl curlHeaderCb noResponseHeaders
    (respond rh (if taken then res else .other) strerror httpStatus buf.size buf.data, buf)

/-! ## What an attempt delivers -/

/-- A buffer has the bytes that were put into it. -/
structure AzureBuffer.Valid (buf : AzureBuffer) : Prop where
  data : buf.size ≤ buf.data.length
  capacity : buf.size ≤ buf.capacity

/-- The bytes of the pieces that are taken into a buffer with `size` bytes, and whether all are. -/
def accepted : List Chunk → Nat → Nat → List Char × Bool
  | [], _, _ => ([], true)
  | chunk :: chunks, size, capacity =>
    let needed := size + chunk.bytes.length
    if sizeMax - size < chunk.bytes.length ∨ (capacity < needed ∧ chunk.moved = none) then
      ([], false)
    else
      let newCap := if capacity = 0 then 4096 else capacity
      let (bytes, taken) := accepted chunks needed
        (if capacity < needed then newCapacity needed 64 newCap else capacity)
      (chunk.bytes ++ bytes, taken)

/-- The reply of an attempt, if its error is read from its own body. -/
def ownReply (d : Delivery) (capacity : Nat) : Reply :=
  match d with
  | .unsigned rc _ => ⟨rc, noResponseHeaders, { code := rc }⟩
  | .noSlist =>
    ⟨.nomem, noResponseHeaders,
      { code := .nomem, errorMessage := "curl_slist_append allocation failed".toList }⟩
  | .performed headers chunks res strerror httpStatus =>
    let (body, taken) := accepted chunks 0 capacity
    respond (headers.foldl curlHeaderCb noResponseHeaders) (if taken then res else .other) strerror
      httpStatus body.length body

/-- The body that an attempt delivers. -/
def ownBody (d : Delivery) (capacity : Nat) : List Char :=
  match d with
  | .performed _ chunks _ _ _ => (accepted chunks 0 capacity).1
  | _ => []

namespace AzureBuffer

theorem Valid.put {buf : AzureBuffer} (h : buf.Valid) {bytes : List Char}
    (hcap : buf.size + bytes.length ≤ buf.capacity) : (buf.put bytes).Valid where
  data := by
    have hdata := h.data
    unfold AzureBuffer.put
    simp only [List.length_append, List.length_take, List.length_drop]
    omega
  capacity := hcap

theorem Valid.content_put {buf : AzureBuffer} (h : buf.Valid) (bytes : List Char) :
    (buf.put bytes).content = buf.content ++ bytes := by
  have hlength : (buf.data.take buf.size ++ bytes).length = buf.size + bytes.length := by
    rw [List.length_append, List.length_take, Nat.min_eq_left h.data]
  unfold AzureBuffer.put content
  dsimp only
  rw [← hlength, List.take_left']
  rfl

end AzureBuffer

theorem le_newCapacity {needed : Nat} : ∀ (n newCap : Nat), 0 < newCap → needed ≤ newCap * 2 ^ n →
    needed ≤ newCapacity needed n newCap
  | 0, newCap, _, h => by
    unfold newCapacity
    omega
  | n + 1, newCap, hpos, h => by
    unfold newCapacity
    split
    · split
      · exact Nat.le_refl needed
      · apply le_newCapacity n (newCap * 2) (by omega)
        rw [Nat.mul_assoc, ← Nat.pow_succ']
        exact h
    · next hle => exact Nat.not_lt.mp hle

/-- The capacity of a buffer with room for `needed` bytes. -/
theorem le_grownCapacity {needed capacity : Nat} (h : needed ≤ sizeMax) :
    needed ≤ newCapacity needed 64 (if capacity = 0 then 4096 else capacity) := by
  have hpos : 0 < if capacity = 0 then 4096 else capacity := by
    split <;> omega
  apply le_newCapacity 64 _ hpos
  calc needed ≤ 1 * 2 ^ 64 := by unfold sizeMax at h; omega
    _ ≤ _ := Nat.mul_le_mul_right _ hpos

/-- A piece is put behind the bytes of a buffer, or refused. -/
theorem azureBufferAppend_spec {buf : AzureBuffer} (h : buf.Valid) (chunk : Chunk) :
    match azureBufferAppend buf chunk with
    | none => sizeMax - buf.size < chunk.bytes.length ∨
        (buf.capacity < buf.size + chunk.bytes.length ∧ chunk.moved = none)
    | some buf' => ¬ (sizeMax - buf.size < chunk.bytes.length ∨
        (buf.capacity < buf.size + chunk.bytes.length ∧ chunk.moved = none)) ∧
      buf'.Valid ∧ buf'.content = buf.content ++ chunk.bytes ∧
      buf'.size = buf.size + chunk.bytes.length ∧
      buf'.capacity = if buf.capacity < buf.size + chunk.bytes.length then
          newCapacity (buf.size + chunk.bytes.length) 64
            (if buf.capacity = 0 then 4096 else buf.capacity)
        else buf.capacity := by
  unfold azureBufferAppend
  by_cases hlong : sizeMax - buf.size < chunk.bytes.length
  · rw [if_pos hlong]
    exact .inl hlong
  rw [if_neg hlong]
  dsimp only
  by_cases hgrow : buf.capacity < buf.size + chunk.bytes.length
  · rw [if_pos hgrow]
    cases hmoved : chunk.moved with
    | none => exact .inr ⟨hgrow, rfl⟩
    | some behind =>
      dsimp only
      rw [if_pos hgrow]
      generalize hcap : newCapacity _ 64 _ = newCap
      have hroom : buf.size + chunk.bytes.length ≤ newCap := by
        rw [← hcap]
        apply le_grownCapacity
        have := h.capacity
        omega
      have hkept : ((buf.data.take buf.capacity ++ behind).take buf.size) =
          buf.data.take buf.size := by
        rw [List.take_append_of_le_length, List.take_take, Nat.min_eq_left h.capacity]
        rw [List.length_take]
        exact Nat.le_min.mpr ⟨h.capacity, h.data⟩
      have hvalid : AzureBuffer.Valid { buf with
          data := buf.data.take buf.capacity ++ behind, capacity := newCap } := by
        refine ⟨?_, Nat.le_trans (Nat.le_add_right _ _) hroom⟩
        dsimp only
        rw [List.length_append, List.length_take]
        have := Nat.le_min.mpr ⟨h.capacity, h.data⟩
        omega
      refine ⟨?_, hvalid.put hroom, ?_, rfl, rfl⟩
      · rintro (hno | ⟨-, hno⟩)
        · exact hlong hno
        · cases hno
      · rw [hvalid.content_put]
        exact congrArg (· ++ chunk.bytes) hkept
  · rw [if_neg hgrow]
    dsimp only
    rw [if_neg hgrow]
    refine ⟨?_, h.put (Nat.not_lt.mp hgrow), h.content_put chunk.bytes, rfl, rfl⟩
    rintro (hno | ⟨hno, -⟩)
    · exact hlong hno
    · exact hgrow hno

/-- A buffer gets the accepted bytes, whatever stands in its memory. -/
theorem receive_accepted : ∀ (chunks : List Chunk) {buf : AzureBuffer}, buf.Valid →
    (receive chunks buf).1.Valid ∧
    (receive chunks buf).1.content = buf.content ++ (accepted chunks buf.size buf.capacity).1 ∧
    (receive chunks buf).1.size = buf.size + (accepted chunks buf.size buf.capacity).1.length ∧
    (receive chunks buf).2 = (accepted chunks buf.size buf.capacity).2
  | [], buf, h => ⟨h, (List.append_nil _).symm, rfl, rfl⟩
  | chunk :: chunks, buf, h => by
    have hspec := azureBufferAppend_spec h chunk
    unfold receive accepted
    dsimp only
    cases happend : azureBufferAppend buf chunk with
    | none =>
      rw [happend] at hspec
      dsimp only at hspec ⊢
      rw [if_pos hspec]
      exact ⟨h, (List.append_nil _).symm, rfl, rfl⟩
    | some buf' =>
      rw [happend] at hspec
      dsimp only at hspec ⊢
      obtain ⟨hfits, hvalid, hcontent, hsize, hcap⟩ := hspec
      rw [if_neg hfits, ← hcap, ← hsize]
      obtain ⟨ih₁, ih₂, ih₃, ih₄⟩ := receive_accepted chunks hvalid
      refine ⟨ih₁, ?_, ?_, ih₄⟩
      · rw [ih₂, hcontent, List.append_assoc]
      · rw [ih₃, hsize, List.length_append, Nat.add_assoc]

end Http
end SqliteObjs

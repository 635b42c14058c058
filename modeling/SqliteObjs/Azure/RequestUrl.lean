import SqliteObjs.Azure.Auth
import SqliteObjs.Data.PercentEncoding

/-!
# The URL of a request

`uri_encode` writes an encoded name into an array and reports the length, or -1 when the array is
too small. An array is a piece of memory here, so that one can say where it is written.
`build_blob_url` puts the name into a URL; when the encoded name is too long it takes the raw one.
-/

set_option autoImplicit false

namespace SqliteObjs

open PercentEncoding

/-- The characters that `uri_encode` keeps. -/
def uriUnreserved (c : Char) : Bool :=
  ('A' ≤ c && c ≤ 'Z') || ('a' ≤ c && c ≤ 'z') || ('0' ≤ c && c ≤ '9') ||
    c == '-' || c == '.' || c == '_' || c == '~' || c == '/'

/-- Memory, from the start of an array on. -/
abbrev Memory := Nat → Char

/-- The loop of `uri_encode` with `output[j]` next: the index of the terminator, unless there is
no room for it. -/
def uriEncodeFrom (outputSize : Nat) : List Char → Nat → Memory → Option Nat × Memory
  | [], j, output =>
    if outputSize ≤ j then (none, output) else (some j, Function.update output j '\x00')
  | c :: input, j, output =>
    if uriUnreserved c then
      if outputSize ≤ j + 1 then (none, output)
      else uriEncodeFrom outputSize input (j + 1) (Function.update output j c)
    else if outputSize ≤ j + 3 then (none, output)
    else
      let output := Function.update output j '%'
      let output := Function.update output (j + 1) (hexDigit (c.toNat / 16))
      let output := Function.update output (j + 2) (hexDigit (c.toNat % 16))
      uriEncodeFrom outputSize input (j + 3) output

/-- `uri_encode`: what it returns, and the memory it leaves. -/
def uriEncode (input : List Char) (output : Memory) (outputSize : Nat) : Int × Memory :=
  match uriEncodeFrom outputSize input 0 output with
  | (none, output) => (-1, output)
  | (some j, output) => (cInt j, output)

/-- The text in an array of `size` bytes. -/
def textIn (memory : Memory) (size : Nat) : List Char :=
  ((List.range size).map memory).takeWhile (· ≠ '\x00')

/-- An array with the encoded text, or with the raw one when that does not fit. -/
def uriEncodeOrRaw (input : List Char) (size : Nat) : List Char :=
  let res := uriEncode input (fun _ => '\x00') size
  if res.1 < 0 then snprintf size input else textIn res.2 size

/-- The default endpoint of an account. -/
def hostUrl (c : AzureClient) : List Char :=
  "https://".toList ++ c.account ++ ".blob.core.windows.net".toList

/-- The URL of a blob before it is put into its array. -/
def blobUrl (c : AzureClient) (encodedName : List Char) : List Char :=
  if c.endpoint ≠ [] then
    c.endpoint ++ '/' :: c.account ++ '/' :: c.container ++ '/' :: encodedName
  else hostUrl c ++ '/' :: c.container ++ '/' :: encodedName

/-- `build_blob_url`. -/
def buildBlobUrl (c : AzureClient) (blobName : List Char) (size : Nat) : List Char :=
  snprintf size (blobUrl c (uriEncodeOrRaw blobName 2048))

/-- The URL of a request with a query. -/
def requestUrl (c : AzureClient) (blobName query : List Char) : List Char :=
  if query ≠ [] then
    buildBlobUrl c blobName 4096 ++
      snprintf (4096 - (buildBlobUrl c blobName 4096).length) ('?' :: query)
  else buildBlobUrl c blobName 4096

/-! ## What `uri_encode` writes -/

/-- A text stands in memory at `j`. -/
def HoldsAt (memory : Memory) : Nat → List Char → Prop
  | _, [] => True
  | j, c :: s => memory j = c ∧ HoldsAt memory (j + 1) s

theorem HoldsAt.append {memory : Memory} {j : Nat} {s t : List Char} (hs : HoldsAt memory j s)
    (ht : HoldsAt memory (j + s.length) t) : HoldsAt memory j (s ++ t) := by
  induction s generalizing j with
  | nil => exact ht
  | cons c s ih =>
    obtain ⟨hc, hs⟩ := hs
    refine ⟨hc, ih hs ?_⟩
    rwa [List.length_cons, ← Nat.add_assoc, Nat.add_right_comm] at ht

theorem HoldsAt.congr {memory memory' : Memory} {j : Nat} {s : List Char}
    (h : ∀ k < j + s.length, memory' k = memory k) (hs : HoldsAt memory j s) :
    HoldsAt memory' j s := by
  induction s generalizing j with
  | nil => trivial
  | cons c s ih =>
    rw [List.length_cons] at h
    exact ⟨(h j (by omega)).trans hs.1, ih (fun k hk => h k (by omega)) hs.2⟩

/-- How the loop ends: nothing before `j` or from `outputSize` on is written, there is room if and
only if the encoding is shorter than the rest, and then it is there with a terminator. -/
structure Encoded (outputSize : Nat) (input : List Char) (j : Nat) (output : Memory)
    (res : Option Nat × Memory) : Prop where
  before : ∀ k < j, res.2 k = output k
  outside : ∀ k, outputSize ≤ k → res.2 k = output k
  result : res.1 = if outputSize ≤ j + (encode uriUnreserved input).length then none
    else some (j + (encode uriUnreserved input).length)
  text : j + (encode uriUnreserved input).length < outputSize →
    HoldsAt res.2 j (encode uriUnreserved input ++ ['\x00'])

/-- One round: the code of a character is written, and the loop goes on after it. -/
theorem Encoded.cons {outputSize j : Nat} {input code : List Char} {c : Char}
    {output output' : Memory} {res : Option Nat × Memory}
    (hcode : encode uriUnreserved (c :: input) = code ++ encode uriUnreserved input)
    (hroom : j + code.length < outputSize)
    (hbefore : ∀ k < j, output' k = output k)
    (hafter : ∀ k, j + code.length ≤ k → output' k = output k) (htext : HoldsAt output' j code)
    (h : Encoded outputSize input (j + code.length) output' res) :
    Encoded outputSize (c :: input) j output res where
  before k hk := (h.before k (by omega)).trans (hbefore k hk)
  outside k hk := (h.outside k hk).trans (hafter k (by omega))
  result := by rw [h.result, hcode, List.length_append, Nat.add_assoc]
  text hfits := by
    rw [hcode, List.length_append, ← Nat.add_assoc] at hfits
    rw [hcode, List.append_assoc]
    exact (htext.congr h.before).append (h.text hfits)

/-- A code that leaves no room for the terminator ends the loop. -/
theorem Encoded.full {outputSize j : Nat} {input code : List Char} {c : Char} {output : Memory}
    (hcode : encode uriUnreserved (c :: input) = code ++ encode uriUnreserved input)
    (hroom : outputSize ≤ j + code.length) :
    Encoded outputSize (c :: input) j output (none, output) where
  before _ _ := rfl
  outside _ _ := rfl
  result := by
    rw [hcode, List.length_append, if_pos (by omega)]
  text hfits := by
    rw [hcode, List.length_append] at hfits
    omega

theorem uriEncodeFrom_encoded {outputSize : Nat} {input : List Char}
    (hbytes : ∀ c ∈ input, c.toNat < 256) (j : Nat) (output : Memory) :
    Encoded outputSize input j output (uriEncodeFrom outputSize input j output) := by
  induction input generalizing j output with
  | nil =>
    rw [uriEncodeFrom]
    split
    · next h => exact ⟨fun _ _ => rfl, fun _ _ => rfl, by rw [if_pos (by simpa using h)],
        fun hroom => absurd h (by simp at hroom; omega)⟩
    · next h =>
      refine ⟨fun k hk => ?_, fun k hk => ?_, ?_, fun _ => ⟨?_, trivial⟩⟩
      · exact Function.update_of_ne (by omega) _ _
      · exact Function.update_of_ne (by omega) _ _
      · rw [if_neg (by simpa using h)]
        rfl
      · exact Function.update_self _ _ _
  | cons c input ih =>
    have ih := ih fun d hd => hbytes d (List.mem_cons_of_mem c hd)
    rw [uriEncodeFrom]
    by_cases hc : uriUnreserved c = true
    · have hcode : encode uriUnreserved (c :: input) = [c] ++ encode uriUnreserved input :=
        encode_cons_keep hc input
      rw [if_pos hc]
      split
      · next hroom => exact .full hcode hroom
      · next hroom =>
        refine .cons hcode (by simpa using hroom) (fun k hk => ?_) (fun k hk => ?_) ?_ (ih _ _)
        · exact Function.update_of_ne (by omega) _ _
        · exact Function.update_of_ne (by rw [List.length_singleton] at hk; omega) _ _
        · exact ⟨Function.update_self _ _ _, trivial⟩
    · have hbyte := hbytes c List.mem_cons_self
      have hcode : encode uriUnreserved (c :: input) =
          ['%', hexDigit (c.toNat / 16), hexDigit (c.toNat % 16)] ++
            encode uriUnreserved input := by
        rw [encode_cons, if_neg hc, percent, Nat.mod_eq_of_lt (show c.toNat / 16 < 16 by omega)]
      rw [if_neg hc]
      split
      · next hroom => exact .full hcode hroom
      · next hroom =>
        refine .cons hcode (by simpa using hroom) (fun k hk => ?_) (fun k hk => ?_) ?_ (ih _ _)
        · simp only [Function.update_apply]
          rw [if_neg (by omega), if_neg (by omega), if_neg (by omega)]
        · simp only [List.length_cons, List.length_nil] at hk
          simp only [Function.update_apply]
          rw [if_neg (by omega), if_neg (by omega), if_neg (by omega)]
        · refine ⟨?_, ?_, ?_, trivial⟩
          · simp only [Function.update_apply]
            rw [if_neg (by omega), if_neg (by omega), if_pos trivial]
          · simp only [Function.update_apply]
            rw [if_neg (by omega), if_pos trivial]
          · exact Function.update_self _ _ _

theorem HoldsAt.map_range' {memory : Memory} {j : Nat} {s : List Char} (h : HoldsAt memory j s) :
    (List.range' j s.length).map memory = s := by
  induction s generalizing j with
  | nil => rfl
  | cons c s ih =>
    rw [List.length_cons, List.range'_succ, List.map_cons, h.1, ih h.2]

/-- A text with its terminator in an array is what is read from there. -/
theorem textIn_eq {memory : Memory} {size : Nat} {s : List Char} (hnul : '\x00' ∉ s)
    (hsize : s.length < size) (h : HoldsAt memory 0 (s ++ ['\x00'])) : textIn memory size = s := by
  have hall : ∀ c ∈ s, decide (c ≠ '\x00') = true := fun c hc =>
    decide_eq_true fun h0 => hnul (h0 ▸ hc)
  have hmap := h.map_range'
  rw [List.length_append, List.length_singleton] at hmap
  obtain ⟨n, rfl⟩ : ∃ n, size = s.length + 1 + n := ⟨size - (s.length + 1), by omega⟩
  unfold textIn
  rw [List.range_eq_range', ← List.range'_append_1, List.map_append, hmap, List.append_assoc,
    List.takeWhile_append_of_pos hall, List.singleton_append, List.takeWhile_cons,
    if_neg (by simp), List.append_nil]

theorem nul_not_mem_encode (s : List Char) : '\x00' ∉ encode uriUnreserved s := by
  intro h
  rcases mem_encode h with h | h | h
  · exact absurd h (by decide)
  · exact absurd h (by decide)
  · exact absurd h (by decide)

/-- The result of `uri_encode`: the length as an `int`, unless the encoding does not fit. -/
theorem uriEncode_fst {input : List Char} (hbytes : ∀ c ∈ input, c.toNat < 256) (output : Memory)
    (outputSize : Nat) : (uriEncode input output outputSize).1 =
      if outputSize ≤ (encode uriUnreserved input).length then -1
      else cInt (encode uriUnreserved input).length := by
  have h := @uriEncodeFrom_encoded outputSize _ hbytes 0 output
  have hresult := h.result
  rw [Nat.zero_add] at hresult
  unfold uriEncode
  generalize uriEncodeFrom outputSize input 0 output = res at hresult ⊢
  obtain ⟨r, memory⟩ := res
  dsimp only at hresult ⊢
  subst hresult
  by_cases hfits : outputSize ≤ (encode uriUnreserved input).length
  · rw [if_pos hfits, if_pos hfits]
  · rw [if_neg hfits, if_neg hfits]

theorem uriEncode_snd (input : List Char) (output : Memory) (outputSize : Nat) :
    (uriEncode input output outputSize).2 = (uriEncodeFrom outputSize input 0 output).2 := by
  unfold uriEncode
  split
  · next h => rw [h]
  · next h => rw [h]

/-- A text of bytes whose encoding fits in a buffer of at most 2 GiB is encoded. -/
theorem uriEncodeOrRaw_eq {input : List Char} (hbytes : ∀ c ∈ input, c.toNat < 256) {size : Nat}
    (hroom : (encode uriUnreserved input).length < size) (hsize : size ≤ 2 ^ 31) :
    uriEncodeOrRaw input size = encode uriUnreserved input := by
  have h := @uriEncodeFrom_encoded size _ hbytes 0 (fun _ => '\x00')
  have hfst := uriEncode_fst hbytes (fun _ => '\x00') size
  rw [if_neg (by omega), cInt_of_lt (by omega)] at hfst
  unfold uriEncodeOrRaw
  dsimp only
  rw [if_neg (by rw [hfst]; omega), uriEncode_snd]
  exact textIn_eq (nul_not_mem_encode input) hroom (h.text (by omega))

/-- A C string: bytes, none of them zero. -/
def CString (s : List Char) : Prop := ∀ c ∈ s, c ≠ '\x00' ∧ c.toNat < 256

instance (s : List Char) : Decidable (CString s) := List.decidableBAll _ s

theorem CString.byte {s : List Char} (h : CString s) : ∀ c ∈ s, c.toNat < 256 :=
  fun c hc => (h c hc).2

/-- The name of a blob fits: encoded, in `encoded_name`, and with the rest of the URL in its
array. -/
structure NameFits (c : AzureClient) (name : List Char) (size : Nat) : Prop where
  bytes : CString name
  encodedName : (encode uriUnreserved name).length < 2048
  url : (blobUrl c (encode uriUnreserved name)).length < size

theorem buildBlobUrl_eq {c : AzureClient} {name : List Char} {size : Nat}
    (h : NameFits c name size) :
    buildBlobUrl c name size = blobUrl c (encode uriUnreserved name) := by
  unfold buildBlobUrl
  rw [uriEncodeOrRaw_eq h.bytes.byte h.encodedName (by decide), snprintf_eq h.url]

theorem blobUrl_injective (c : AzureClient) : Function.Injective (blobUrl c) := by
  intro s t h
  unfold blobUrl at h
  split at h
  · exact (List.cons.inj (List.append_cancel_left h)).2
  · exact (List.cons.inj (List.append_cancel_left h)).2

/-- If the length of the encoding is an `int`, or the encoding does not fit, `uri_encode` reports -1
if and only if the encoding does not fit with its terminator, writes nothing behind the buffer, and
otherwise leaves a text of kept characters and codes that decodes to its input; and different names
that fit give different URLs. -/
theorem uri_encode_exact :
    (∀ (s : List Char) (output : Memory) (outputSize : Nat), CString s →
      ((encode uriUnreserved s).length < 2 ^ 31 ∨ outputSize ≤ (encode uriUnreserved s).length) →
      ((uriEncode s output outputSize).1 = -1 ↔ outputSize ≤ (encode uriUnreserved s).length) ∧
      (∀ k, outputSize ≤ k → (uriEncode s output outputSize).2 k = output k) ∧
      ((uriEncode s output outputSize).1 ≠ -1 →
        (uriEncode s output outputSize).1 = (encode uriUnreserved s).length ∧
        HoldsAt (uriEncode s output outputSize).2 0 (encode uriUnreserved s ++ ['\x00']) ∧
        '\x00' ∉ encode uriUnreserved s ∧ Escaped uriUnreserved (encode uriUnreserved s) ∧
        decode (encode uriUnreserved s) = s)) ∧
    (∀ (c : AzureClient) (name name' : List Char) (size : Nat), NameFits c name size →
      NameFits c name' size → name ≠ name' →
        buildBlobUrl c name size ≠ buildBlobUrl c name' size) := by
  constructor
  · intro s output outputSize hs hint
    have h := @uriEncodeFrom_encoded outputSize _ hs.byte 0 output
    have hfst := uriEncode_fst hs.byte output outputSize
    rw [uriEncode_snd]
    by_cases hroom : outputSize ≤ (encode uriUnreserved s).length
    · rw [if_pos hroom] at hfst
      exact ⟨iff_of_true hfst hroom, h.outside, fun hne => absurd hfst hne⟩
    · rw [if_neg hroom, cInt_of_lt (by omega)] at hfst
      refine ⟨iff_of_false (by omega) hroom, h.outside, fun _ => ⟨hfst, h.text (by omega),
        nul_not_mem_encode s, escaped_encode s, decode_encode rfl hs.byte⟩⟩
  · intro c name name' size h h' hne heq
    rw [buildBlobUrl_eq h, buildBlobUrl_eq h'] at heq
    have hencode := blobUrl_injective c heq
    apply hne
    rw [← @decode_encode uriUnreserved rfl _ h.bytes.byte, hencode,
      decode_encode rfl h'.bytes.byte]

theorem uri_encode_exact_space :
    ((uriEncode "a b".toList (fun _ => 'x') 5).1 = -1 ↔
      5 ≤ (encode uriUnreserved "a b".toList).length) ∧
    buildBlobUrl someClient "a b".toList 4096 ≠ buildBlobUrl someClient "a%20b".toList 4096 := by
  refine ⟨(uri_encode_exact.1 "a b".toList (fun _ => 'x') 5 (by decide) (.inl (by decide))).1,
    uri_encode_exact.2 someClient "a b".toList "a%20b".toList 4096 ⟨by decide, by decide, by decide⟩
      ⟨by decide, by decide, by decide⟩ (by decide)⟩

/-- A text of 2 GiB in a buffer that has room for it: what is returned is not its length. -/
theorem uri_encode_two_gib : ∃ (s : List Char) (output : Memory) (outputSize : Nat), CString s ∧
    (encode uriUnreserved s).length < outputSize ∧
    (uriEncode s output outputSize).1 ≠ (encode uriUnreserved s).length := by
  have hall : ∀ c ∈ List.replicate (2 ^ 31) 'a', c = 'a' := fun c hc => List.eq_of_mem_replicate hc
  have hs : CString (List.replicate (2 ^ 31) 'a') := by
    intro c hc
    rw [hall c hc]
    decide
  have hencode : encode uriUnreserved (List.replicate (2 ^ 31) 'a') = List.replicate (2 ^ 31) 'a' :=
    encode_of_forall fun c hc => by rw [hall c hc]; rfl
  have hlength : (List.replicate (2 ^ 31) 'a').length = 2 ^ 31 := List.length_replicate
  refine ⟨List.replicate (2 ^ 31) 'a', fun _ => 'x', 2 ^ 31 + 1, hs, ?_, ?_⟩
  · rw [hencode, hlength]
    omega
  · rw [uriEncode_fst hs.byte, hencode, hlength, if_neg (by omega)]
    decide

end SqliteObjs

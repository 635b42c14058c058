import SqliteObjs.Azure.BlockIds
import SqliteObjs.Azure.RequestUrl

/-!
# The resource that is signed and the URL that is sent

The resource in the `StringToSign` is made of the raw name of the blob and of the query as it
is. The URL has the name percent-encoded, and the service reads the resource off the URL: the path
as it was sent, and the parameters of the query decoded. The two are the same for a name of
characters that are not encoded, and, where the query has the time of a snapshot in it, for a
time of such characters.
-/

set_option autoImplicit false

namespace SqliteObjs

open CS CS.Program Canonical PercentEncoding

/-- The queries of the operations of `azure_ops_t`. -/
inductive OpsQuery
  | none | page | properties | blocklist | undelete | lease | appendblock | snapshot
  | block (chunkIdx : Nat)
  /-- The caller keeps the time of a snapshot in 128 bytes. -/
  | pagelist (prevSnapshot : List Char) (bytes : CString prevSnapshot)
    (fits : prevSnapshot.length < 128)

def OpsQuery.text : OpsQuery → List Char
  | .none => []
  | .page => "comp=page".toList
  | .properties => "comp=properties".toList
  | .blocklist => "comp=blocklist".toList
  | .undelete => "comp=undelete".toList
  | .lease => "comp=lease".toList
  | .appendblock => "comp=appendblock".toList
  | .snapshot => "comp=snapshot".toList
  | .block chunkIdx =>
    snprintf 256 ("comp=block&blockid=".toList ++ (blockMakeId chunkIdx 32).getD [])
  | .pagelist prevSnapshot _ _ =>
    snprintf 768 ("comp=pagelist&prevsnapshot=".toList ++ uriEncodeOrRaw prevSnapshot 512)

/-! ## The resource -/

/-- The lines of the parameters, as they are signed. -/
def canonicalizedQuery (query : List Char) : List Char := (queryPairs query).flatMap pairLine

/-- What `azure_auth_sign_request` ends the text with. -/
def canonicalizedResource (account path query : List Char) : List Char :=
  '/' :: account ++ path ++ canonicalizedQuery query

theorem appendText_eq {p s t : List Char} (h : appendText p s = some t) : t = p ++ s := by
  unfold appendText at h
  split at h
  · cases h
  · exact (Option.some.inj h).symm

theorem foldlM_appendText {pairs : List (List Char)} {p s : List Char}
    (h : pairs.foldlM (fun p pair => appendText p (pairLine pair)) p = some s) :
    s = p ++ pairs.flatMap pairLine := by
  induction pairs generalizing p with
  | nil =>
    obtain rfl := Option.some.inj h
    simp
  | cons pair pairs ih =>
    rw [List.foldlM_cons] at h
    obtain ⟨q, hq, hs⟩ := Option.bind_eq_some_iff.mp h
    rw [ih hs, appendText_eq hq, List.flatMap_cons, List.append_assoc]

theorem appendResource_eq {p account path query s : List Char}
    (h : appendResource p account path query = some s) :
    s = p ++ canonicalizedResource account path query := by
  unfold appendResource at h
  split at h
  · cases h
  next q hq =>
  rw [foldlM_appendText h, appendText_eq hq, canonicalizedResource, canonicalizedQuery]
  simp only [List.append_assoc, List.cons_append]

/-! ## The service -/

/-- The path of a URL, as it was sent. -/
def uriPath (url : List Char) : List Char :=
  ((url.drop 8).dropWhile (· ≠ '/')).takeWhile (· ≠ '?')

/-- What follows the first `?`. -/
def uriQuery (url : List Char) : List Char := (url.dropWhile (· ≠ '?')).drop 1

/-- A parameter with its name in lower case, decoded. -/
def decodedParam (param : List Char) : List Char × List Char :=
  match Text.splitOnce '=' param with
  | some (name, value) => (lowered (decode name), decode value)
  | none => (lowered (decode param), [])

/-- The lines of the parameters, as the service reads them. -/
def serviceQuery (query : List Char) : List Char :=
  (sortBy Prod.fst ((tokens '&' query).map decodedParam)).flatMap fun p =>
    '\n' :: p.1 ++ ':' :: p.2

/-- The resource that the service reads off a URL. -/
def serviceResource (account url : List Char) : List Char :=
  '/' :: account ++ uriPath url ++ serviceQuery (uriQuery url)

/-! ## What is sent -/

/-- `SQLITE_OBJS_MAX_PATHNAME`, the `mxPathname` of the VFS. -/
def maxPathname : Nat := 512

/-- A name that SQLite passes to `xOpen` and that `xOpen` does not refuse. -/
structure OpenName (name : List Char) : Prop where
  bytes : CString name
  nonempty : name ≠ []
  fits : name.length ≤ maxPathname

/-- A client of the default endpoint: the names are in their arrays of 256 bytes and are no URL
syntax. -/
structure DefaultEndpoint (c : AzureClient) : Prop where
  endpoint : c.endpoint = []
  account_fits : c.account.length ≤ 255
  container_fits : c.container.length ≤ 255
  account_plain : '/' ∉ c.account ∧ '?' ∉ c.account
  container_plain : '?' ∉ c.container

variable {c : AzureClient} {name : List Char}

/-- The path of a blob. -/
def blobPath (c : AzureClient) (blobName : List Char) : List Char :=
  '/' :: c.container ++ '/' :: blobName

theorem length_hostUrl (c : AzureClient) : (hostUrl c).length = c.account.length + 30 := by
  have hscheme : "https://".toList.length = 8 := rfl
  have hhost : ".blob.core.windows.net".toList.length = 22 := rfl
  unfold hostUrl
  rw [List.length_append, List.length_append, hscheme, hhost]
  omega

theorem length_blobPath (c : AzureClient) (blobName : List Char) :
    (blobPath c blobName).length = c.container.length + blobName.length + 2 := by
  unfold blobPath
  rw [List.length_append, List.length_cons, List.length_cons]
  omega

theorem blobUrl_eq (hc : DefaultEndpoint c) (encodedName : List Char) :
    blobUrl c encodedName = hostUrl c ++ blobPath c encodedName := by
  unfold blobUrl
  rw [if_neg (not_not_intro hc.endpoint), List.append_assoc]
  rfl

theorem nameFits (hc : DefaultEndpoint c) (hname : OpenName name) : NameFits c name 4096 where
  bytes := hname.bytes
  encodedName := by
    have hfits : name.length ≤ 512 := hname.fits
    have hencode := @length_encode_le uriUnreserved name
    omega
  url := by
    have hfits : name.length ≤ 512 := hname.fits
    have haccount := hc.account_fits
    have hcontainer := hc.container_fits
    have hencode := @length_encode_le uriUnreserved name
    rw [blobUrl_eq hc, List.length_append, length_hostUrl, length_blobPath]
    omega

/-- The URL is not cut. -/
theorem requestUrl_eq (hc : DefaultEndpoint c) (hname : OpenName name) {query : List Char}
    (hquery : query.length ≤ 767) :
    requestUrl c name query = hostUrl c ++ blobPath c (encode uriUnreserved name) ++
      if query ≠ [] then '?' :: query else [] := by
  have hfits : name.length ≤ 512 := hname.fits
  have haccount := hc.account_fits
  have hcontainer := hc.container_fits
  have hencode := @length_encode_le uriUnreserved name
  have hhost := length_hostUrl c
  have hpath := length_blobPath c (encode uriUnreserved name)
  have hroom : ('?' :: query).length <
      4096 - (hostUrl c ++ blobPath c (encode uriUnreserved name)).length := by
    rw [List.length_append, List.length_cons]
    omega
  unfold requestUrl
  rw [buildBlobUrl_eq (nameFits hc hname), blobUrl_eq hc]
  by_cases hnil : query = []
  · rw [if_neg (not_not_intro hnil), if_neg (not_not_intro hnil), List.append_nil]
  · rw [if_pos hnil, if_pos hnil, snprintf_eq hroom]

theorem not_mem_encode (s : List Char) : '?' ∉ encode uriUnreserved s := by
  intro h
  rcases mem_encode h with h | h | h
  · exact absurd h (by decide)
  · exact absurd h (by decide)
  · exact absurd h (by decide)

/-- A path ends at the `?` of the query, if there is one. -/
theorem takeWhile_query {path query : List Char} (hpath : '?' ∉ path) :
    (path ++ if query ≠ [] then '?' :: query else []).takeWhile (· ≠ '?') = path := by
  have hall : ∀ d ∈ path, decide (d ≠ '?') = true := fun d hd =>
    decide_eq_true fun h => hpath (h ▸ hd)
  rw [List.takeWhile_append_of_pos hall]
  split
  · rw [List.takeWhile_cons, if_neg (by decide), List.append_nil]
  · rw [List.takeWhile_nil, List.append_nil]

theorem dropWhile_query {path query : List Char} (hpath : '?' ∉ path) :
    ((path ++ if query ≠ [] then '?' :: query else []).dropWhile (· ≠ '?')).drop 1 = query := by
  have hall : ∀ d ∈ path, decide (d ≠ '?') = true := fun d hd =>
    decide_eq_true fun h => hpath (h ▸ hd)
  rw [List.dropWhile_append_of_pos hall]
  by_cases hnil : query = []
  · subst hnil
    rfl
  · rw [if_pos hnil, List.dropWhile_cons, if_neg (by decide)]
    rfl

theorem not_mem_blobPath (hc : DefaultEndpoint c) (name : List Char) :
    '?' ∉ blobPath c (encode uriUnreserved name) := by
  have hencode := not_mem_encode name
  have hcontainer := hc.container_plain
  unfold blobPath
  intro h
  rcases List.mem_append.mp h with h | h
  · rcases List.mem_cons.mp h with h | h
    · exact absurd h (by decide)
    · exact hcontainer h
  · rcases List.mem_cons.mp h with h | h
    · exact absurd h (by decide)
    · exact hencode h

theorem not_mem_hostUrl (hc : DefaultEndpoint c) : '?' ∉ hostUrl c := by
  have haccount := hc.account_plain.2
  unfold hostUrl
  intro h
  rcases List.mem_append.mp h with h | h
  · rcases List.mem_append.mp h with h | h
    · exact absurd h (by decide)
    · exact haccount h
  · exact absurd h (by decide)

theorem drop_hostUrl (c : AzureClient) (s : List Char) :
    (hostUrl c ++ s).drop 8 = (c.account ++ ".blob.core.windows.net".toList) ++ s := by
  have hscheme : "https://".toList.length = 8 := rfl
  unfold hostUrl
  simp only [List.append_assoc]
  exact List.drop_left' hscheme

/-- The service sees the encoded name, and the query as it is. -/
theorem serviceResource_requestUrl (hc : DefaultEndpoint c) (hname : OpenName name)
    {query : List Char} (hquery : query.length ≤ 767) :
    serviceResource c.account (requestUrl c name query) =
      '/' :: c.account ++ blobPath c (encode uriUnreserved name) ++ serviceQuery query := by
  have hhost : ∀ d ∈ c.account ++ ".blob.core.windows.net".toList, decide (d ≠ '/') = true := by
    intro d hd
    apply decide_eq_true
    rintro rfl
    rcases List.mem_append.mp hd with hd | hd
    · exact hc.account_plain.1 hd
    · exact absurd hd (by decide)
  have hpath : uriPath (requestUrl c name query) = blobPath c (encode uriUnreserved name) := by
    rw [requestUrl_eq hc hname hquery]
    unfold uriPath
    rw [List.append_assoc, drop_hostUrl, List.dropWhile_append_of_pos hhost]
    exact takeWhile_query (not_mem_blobPath hc name)
  have hquery : uriQuery (requestUrl c name query) = query := by
    rw [requestUrl_eq hc hname hquery]
    apply dropWhile_query
    intro h
    rcases List.mem_append.mp h with h | h
    · exact not_mem_hostUrl hc h
    · exact not_mem_blobPath hc name h
  unfold serviceResource
  rw [hpath, hquery]

/-! ## Queries -/

/-- Parameters are in order if their first characters are. -/
theorem lowered_lt {d e : Char} (h : d.toLower < e.toLower) (s t : List Char) :
    lowered (d :: s) < lowered (e :: t) := List.Lex.rel h

/-- The tokens of a query of two parameters. -/
theorem tokens_pair {p q : List Char} (hp : '&' ∉ p) (hq : '&' ∉ q) (hpne : p ≠ [])
    (hqne : q ≠ []) :
    tokens '&' (p ++ '&' :: q) = [p, q] := by
  have h := @tokens_intercalate Char '&' _ [p, q] (by
    intro t ht
    rcases List.mem_cons.mp ht with rfl | ht
    · exact hp
    · rw [List.mem_singleton.mp ht]
      exact hq)
  rw [List.intercalate_cons_cons, List.intercalate_singleton, List.append_assoc,
    List.singleton_append] at h
  rw [h]
  simp [hpne, hqne]

theorem canonicalizedQuery_pair {p q : List Char} (hp : '&' ∉ p) (hq : '&' ∉ q) (hpne : p ≠ [])
    (hqne : q ≠ []) (hlength : (p ++ '&' :: q).length ≤ 1023) :
    canonicalizedQuery (p ++ '&' :: q) = (sortHeaders [p, q]).flatMap pairLine := by
  unfold canonicalizedQuery queryPairs
  rw [List.take_of_length_le hlength, tokens_pair hp hq hpne hqne]
  rfl

theorem serviceQuery_pair {p q : List Char} (hp : '&' ∉ p) (hq : '&' ∉ q) (hpne : p ≠ [])
    (hqne : q ≠ []) :
    serviceQuery (p ++ '&' :: q) = (sortBy Prod.fst [decodedParam p, decodedParam q]).flatMap
      fun p => '\n' :: p.1 ++ ':' :: p.2 := by
  unfold serviceQuery
  rw [tokens_pair hp hq hpne hqne]
  rfl

theorem pairLine_param {name : List Char} (h : '=' ∉ name) (value : List Char) :
    pairLine (name ++ '=' :: value) = '\n' :: name ++ ':' :: value := by
  unfold pairLine
  rw [Text.splitOnce_append h]

theorem decodedParam_param {name : List Char} (h : '=' ∉ name) (value : List Char) :
    decodedParam (name ++ '=' :: value) = (lowered (decode name), decode value) := by
  unfold decodedParam
  rw [Text.splitOnce_append h]

/-- The id of a block is neither encoded nor split. -/
theorem blockId_plain {chunkIdx : Nat} {d : Char} (h : d ∈ blockId chunkIdx) :
    d ≠ '&' ∧ d ≠ '%' := by
  have hall : ('=' :: Base64.alphabet).all (fun e => e != '&' && e != '%') = true := rfl
  have hd := List.all_eq_true.mp hall d (Base64.mem_encode h)
  rwa [Bool.and_eq_true, bne_iff_ne, bne_iff_ne] at hd

/-- Where the value of the second parameter goes. -/
theorem append_param (p name value : List Char) (d e : Char) :
    (p ++ d :: (name ++ [e])) ++ value = p ++ d :: (name ++ e :: value) := by simp

theorem text_block (chunkIdx : Nat) : (OpsQuery.block chunkIdx).text =
    "comp=block".toList ++ '&' :: ("blockid".toList ++ '=' :: blockId chunkIdx) := by
  have hid := length_blockId_le chunkIdx
  have hprefix : "comp=block&blockid=".toList.length = 19 := rfl
  have hsplit : "comp=block&blockid=".toList =
      "comp=block".toList ++ '&' :: ("blockid".toList ++ ['=']) :=
    rfl
  have hfits : ("comp=block&blockid=".toList ++ blockId chunkIdx).length < 256 := by
    rw [List.length_append]
    omega
  have htext : (OpsQuery.block chunkIdx).text =
      snprintf 256 ("comp=block&blockid=".toList ++ blockId chunkIdx) := by
    have hid : (blockMakeId chunkIdx 32).getD [] = blockId chunkIdx := by
      rw [blockMakeId_eq, Option.getD_some]
    exact congrArg (fun id => snprintf 256 ("comp=block&blockid=".toList ++ id)) hid
  calc (OpsQuery.block chunkIdx).text
    _ = snprintf 256 ("comp=block&blockid=".toList ++ blockId chunkIdx) := htext
    _ = "comp=block&blockid=".toList ++ blockId chunkIdx := snprintf_eq hfits
    _ = "comp=block".toList ++ '&' :: ("blockid".toList ++ ['=']) ++ blockId chunkIdx :=
      congrArg (· ++ blockId chunkIdx) hsplit
    _ = _ := append_param _ _ _ _ _

/-- The id of a block is signed as the service reads it. -/
theorem canonicalizedQuery_block (chunkIdx : Nat) :
    canonicalizedQuery (OpsQuery.block chunkIdx).text =
    serviceQuery (OpsQuery.block chunkIdx).text := by
  have hid := length_blockId_le chunkIdx
  have hcomp : "comp=block".toList.length = 10 := rfl
  have hname : "blockid".toList.length = 7 := rfl
  have hq : '&' ∉ "blockid".toList ++ '=' :: blockId chunkIdx := by
    intro h
    rcases List.mem_append.mp h with h | h
    · exact absurd h (by decide)
    rcases List.mem_cons.mp h with h | h
    · exact absurd h (by decide)
    · exact (blockId_plain h).1 rfl
  have hqne : "blockid".toList ++ '=' :: blockId chunkIdx ≠ [] := by simp
  have hdecode : decode (blockId chunkIdx) = blockId chunkIdx :=
    decode_of_forall fun h => (blockId_plain h).2 rfl
  have hsigned : sortHeaders ["comp=block".toList, "blockid".toList ++ '=' :: blockId chunkIdx] =
      ["blockid".toList ++ '=' :: blockId chunkIdx, "comp=block".toList] :=
    sortBy_pair_swap _ (lowered_lt (by decide) _ _)
  have hread : decodedParam "comp=block".toList = ("comp".toList, "block".toList) := by decide
  have hlower : lowered (decode "blockid".toList) = "blockid".toList := by decide
  have hserved : sortBy Prod.fst
    [("comp".toList, "block".toList), ("blockid".toList, blockId chunkIdx)] =
      [("blockid".toList, blockId chunkIdx), ("comp".toList, "block".toList)] :=
    sortBy_pair_swap _ (show "blockid".toList < "comp".toList by decide)
  rw [text_block, canonicalizedQuery_pair (by decide) hq (by decide) hqne
    (by rw [List.length_append, List.length_cons, List.length_append, List.length_cons]; omega),
    serviceQuery_pair (by decide) hq (by decide) hqne, hsigned,
    decodedParam_param (by decide), hdecode, hread, hlower, hserved, List.flatMap_cons,
    List.flatMap_cons, pairLine_param (by decide)]
  rfl

theorem text_pagelist (snap : List Char) (hb : CString snap) (h : snap.length < 128) :
    (OpsQuery.pagelist snap hb h).text =
    "comp=pagelist".toList ++ '&' ::
      ("prevsnapshot".toList ++ '=' :: encode uriUnreserved snap) := by
  have hencode := @length_encode_le uriUnreserved snap
  have hprefix : "comp=pagelist&prevsnapshot=".toList.length = 27 := rfl
  have hsplit : "comp=pagelist&prevsnapshot=".toList =
      "comp=pagelist".toList ++ '&' :: ("prevsnapshot".toList ++ ['=']) := rfl
  have hfits : ("comp=pagelist&prevsnapshot=".toList ++ encode uriUnreserved snap).length <
      768 := by
    rw [List.length_append]
    omega
  have htext : (OpsQuery.pagelist snap hb h).text =
      snprintf 768 ("comp=pagelist&prevsnapshot=".toList ++ encode uriUnreserved snap) :=
    congrArg (fun s => snprintf 768 ("comp=pagelist&prevsnapshot=".toList ++ s))
      (uriEncodeOrRaw_eq hb.byte (by omega) (by decide))
  calc (OpsQuery.pagelist snap hb h).text
    _ = snprintf 768 ("comp=pagelist&prevsnapshot=".toList ++ encode uriUnreserved snap) := htext
    _ = "comp=pagelist&prevsnapshot=".toList ++ encode uriUnreserved snap := snprintf_eq hfits
    _ = "comp=pagelist".toList ++ '&' :: ("prevsnapshot".toList ++ ['=']) ++
        encode uriUnreserved snap := congrArg (· ++ encode uriUnreserved snap) hsplit
    _ = _ := append_param _ _ _ _ _

theorem ampersand_not_mem_encode (s : List Char) : '&' ∉ encode uriUnreserved s := by
  intro h
  rcases mem_encode h with h | h | h
  · exact absurd h (by decide)
  · exact absurd h (by decide)
  · exact absurd h (by decide)

/-- The time of a snapshot is signed encoded, and read decoded. -/
theorem query_pagelist (snap : List Char) (hb : CString snap) (h : snap.length < 128) :
    canonicalizedQuery (OpsQuery.pagelist snap hb h).text =
      "\ncomp:pagelist\nprevsnapshot:".toList ++ encode uriUnreserved snap ∧
    serviceQuery (OpsQuery.pagelist snap hb h).text =
      "\ncomp:pagelist\nprevsnapshot:".toList ++ decode (encode uriUnreserved snap) := by
  have hencode := @length_encode_le uriUnreserved snap
  have hcomp : "comp=pagelist".toList.length = 13 := rfl
  have hname : "prevsnapshot".toList.length = 12 := rfl
  have hq : '&' ∉ "prevsnapshot".toList ++ '=' :: encode uriUnreserved snap := by
    intro h
    rcases List.mem_append.mp h with h | h
    · exact absurd h (by decide)
    rcases List.mem_cons.mp h with h | h
    · exact absurd h (by decide)
    · exact ampersand_not_mem_encode snap h
  have hqne : "prevsnapshot".toList ++ '=' :: encode uriUnreserved snap ≠ [] := by simp
  have hsigned : sortHeaders
    ["comp=pagelist".toList, "prevsnapshot".toList ++ '=' :: encode uriUnreserved snap] =
      ["comp=pagelist".toList, "prevsnapshot".toList ++ '=' :: encode uriUnreserved snap] :=
    sortBy_pair _ (le_of_lt (lowered_lt (by decide) _ _))
  have hread : decodedParam "comp=pagelist".toList = ("comp".toList, "pagelist".toList) := by decide
  have hlower : lowered (decode "prevsnapshot".toList) = "prevsnapshot".toList := by decide
  have hserved : sortBy Prod.fst [("comp".toList, "pagelist".toList),
      ("prevsnapshot".toList, decode (encode uriUnreserved snap))] =
      [("comp".toList, "pagelist".toList),
        ("prevsnapshot".toList, decode (encode uriUnreserved snap))] :=
    sortBy_pair _ (show "comp".toList ≤ "prevsnapshot".toList by decide)
  rw [text_pagelist snap hb h]
  constructor
  · rw [canonicalizedQuery_pair (by decide) hq (by decide) hqne
      (by rw [List.length_append, List.length_cons, List.length_append, List.length_cons]; omega),
      hsigned, List.flatMap_cons, List.flatMap_cons, pairLine_param (by decide)]
    simp only [List.flatMap_nil, List.append_nil]
    rfl
  · rw [serviceQuery_pair (by decide) hq (by decide) hqne, decodedParam_param (by decide), hread,
      hlower, hserved]
    simp only [List.flatMap_cons, List.flatMap_nil, List.append_nil]
    rfl

/-- A query that the operations issue fits in the URL. -/
theorem length_text (q : OpsQuery) : q.text.length ≤ 767 := by
  cases q with
  | block chunkIdx =>
    have hcut : ∀ s : List Char, (snprintf 256 s).length ≤ 255 := fun s => by
      unfold snprintf
      rw [List.length_take]
      omega
    exact le_trans (hcut _) (by decide)
  | pagelist snap hb h =>
    unfold OpsQuery.text snprintf
    dsimp only
    rw [List.length_take]
    omega
  | none | page | properties | blocklist | undelete | lease | appendblock | snapshot => decide

/-- The lines of the parameters begin a line. -/
theorem head?_canonicalizedQuery (query : List Char) :
    ∀ d ∈ (canonicalizedQuery query).head?, d ≠ '2' ∧ d ≠ '5' := by
  have hline : ∀ pair : List Char, ∃ s, pairLine pair = '\n' :: s := by
    intro pair
    unfold pairLine
    split
    · exact ⟨_, rfl⟩
    · exact ⟨_, rfl⟩
  unfold canonicalizedQuery
  cases queryPairs query with
  | nil => exact fun d hd => nomatch hd
  | cons pair pairs =>
    obtain ⟨s, hs⟩ := hline pair
    intro d hd
    rw [List.flatMap_cons, hs] at hd
    obtain rfl := Option.some.inj hd
    decide

/-- The parameters of a query without the time of a snapshot are signed as they are read. -/
theorem canonicalizedQuery_eq_iff (q : OpsQuery) :
    canonicalizedQuery q.text = serviceQuery q.text ↔
      ∀ snap hb h, q = .pagelist snap hb h → ∀ d ∈ snap, uriUnreserved d = true := by
  cases q with
  | pagelist snap hb h =>
    obtain ⟨hsigned, hserved⟩ := query_pagelist snap hb h
    rw [hsigned, hserved, List.append_cancel_left_eq, eq_comm, decode_encode_eq_iff (by decide)]
    constructor
    · rintro hkeep snap' hb' h' heq
      obtain rfl := (OpsQuery.pagelist.inj heq)
      exact hkeep
    · exact fun hkeep => hkeep snap hb h rfl
  | block chunkIdx => exact iff_of_true (canonicalizedQuery_block chunkIdx) (by rintro _ _ _ ⟨⟩)
  | none | page | properties | blocklist | undelete | lease | appendblock | snapshot =>
    exact iff_of_true (by decide +kernel) (by rintro _ _ _ ⟨⟩)

/-- Names of up to 512 bytes are not cut in the path that is signed. -/
theorem signedPath_eq (hc : DefaultEndpoint c) (hname : OpenName name) :
    signedPath c name = blobPath c name := by
  have hfits : name.length ≤ 512 := hname.fits
  have hcontainer := hc.container_fits
  have hpath := length_blobPath c name
  unfold signedPath
  rw [if_neg (not_not_intro hc.endpoint)]
  exact snprintf_eq (by unfold blobPath at hpath; omega)

theorem blobPath_append (c : AzureClient) (name t : List Char) :
    blobPath c name ++ t = ('/' :: c.container ++ ['/']) ++ (name ++ t) := by
  simp [blobPath]

/-- What is signed ends with the resource. -/
theorem stringToSign_resource {A : (r : Req) → Ans r → Prop} (c : AzureClient) (a : SignArgs) :
    Returns A (fun res => ∀ s, res = .ok s →
      ∃ head, s = head ++ canonicalizedResource c.account a.path a.query) (stringToSign c a) := by
  unfold stringToSign
  split
  · exact fun s h => nomatch h
  apply returns_bind
  intro headers
  split
  · exact fun s h => nomatch h
  split
  · exact fun s h => nomatch h
  next p _ =>
  split
  · exact fun s h => nomatch h
  next s hs =>
  rintro t ⟨⟩
  exact ⟨p, appendResource_eq hs⟩

/-- What is signed ends with a resource, and that is the one the service reads off the URL if and
only if the name has only characters that are not encoded, and so has the time of a snapshot in
the query. -/
theorem signed_resource_iff (c : AzureClient) (hc : DefaultEndpoint c) (name : List Char)
    (hname : OpenName name) (q : OpsQuery) :
    (∀ (date method contentType rangeHeader ifMatch : List Char) (extraXMs : List (List Char))
      (bodyLen : Nat), Returns (fun _ _ => True) (fun res => ∀ s, res = .ok s →
        ∃ head, s = head ++ canonicalizedResource c.account (signedPath c name) q.text)
      (stringToSign c (executeSingleArgs c date method name q.text extraXMs contentType bodyLen
        rangeHeader ifMatch))) ∧
    (canonicalizedResource c.account (signedPath c name) q.text =
        serviceResource c.account (requestUrl c name q.text) ↔
      (∀ d ∈ name, uriUnreserved d = true) ∧
        ∀ snap hb h, q = .pagelist snap hb h → ∀ d ∈ snap, uriUnreserved d = true) := by
  constructor
  · intro date method contentType rangeHeader ifMatch extraXMs bodyLen
    exact stringToSign_resource c (executeSingleArgs c date method name q.text extraXMs contentType
      bodyLen rangeHeader ifMatch)
  rw [serviceResource_requestUrl hc hname (length_text q), canonicalizedResource,
    signedPath_eq hc hname, List.append_assoc, List.append_assoc, List.append_cancel_left_eq,
    blobPath_append, blobPath_append, List.append_cancel_left_eq, ← canonicalizedQuery_eq_iff q]
  constructor
  · intro h
    have hkeep := @keep_of_append_eq uriUnreserved rfl rfl _ _ (head?_canonicalizedQuery q.text) _ h
    rw [encode_of_forall hkeep, List.append_cancel_left_eq] at h
    exact ⟨hkeep, h⟩
  · rintro ⟨hkeep, h⟩
    rw [encode_of_forall hkeep, h]

theorem defaultEndpoint_someClient : DefaultEndpoint someClient where
  endpoint := rfl
  account_fits := by decide
  container_fits := by decide
  account_plain := by decide
  container_plain := by decide

theorem signed_resource_iff_plain :
    canonicalizedResource someClient.account (signedPath someClient "a/b.db".toList)
        OpsQuery.page.text =
      serviceResource someClient.account
        (requestUrl someClient "a/b.db".toList OpsQuery.page.text) :=
  (signed_resource_iff someClient defaultEndpoint_someClient "a/b.db".toList
    ⟨by decide, by decide, by decide⟩ .page).2.mpr ⟨List.all_eq_true.mp rfl, by rintro _ _ _ ⟨⟩⟩

/-- A space in a name, or the `:` in the time of a snapshot, and another resource is signed. -/
theorem signed_resource_differs :
    canonicalizedResource someClient.account (signedPath someClient "my db".toList)
        OpsQuery.page.text ≠
      serviceResource someClient.account (requestUrl someClient "my db".toList OpsQuery.page.text) ∧
    ∃ hb h, canonicalizedResource someClient.account (signedPath someClient "x.db".toList)
        (OpsQuery.pagelist "2024-01-01T00:00:00.0000000Z".toList hb h).text ≠
      serviceResource someClient.account (requestUrl someClient "x.db".toList
        (OpsQuery.pagelist "2024-01-01T00:00:00.0000000Z".toList hb h).text) := by
  constructor
  · decide +kernel
  · exact ⟨by decide, by decide, by decide +kernel⟩

end SqliteObjs

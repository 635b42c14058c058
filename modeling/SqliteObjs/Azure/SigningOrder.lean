import SqliteObjs.Azure.Auth

/-!
# Signing does not depend on the order of headers and parameters

Headers and parameters are sorted as whole texts, letters in lower case, and a text with
another name is another text. So what is signed is the same for every order of headers, and
for every order of parameters as long as none of them is dropped. The two places that sign Put
Page hand over the same headers, up to their order, as long as neither cuts the lease id.
-/

set_option autoImplicit false

namespace SqliteObjs

open CS CS.Program Canonical

/-! ## Names -/

/-- The name of a header, up to case. -/
def headerName (header : List Char) : List Char := lowered (header.takeWhile (· ≠ ':'))

/-- The name of a parameter, up to case. -/
def paramName (param : List Char) : List Char := lowered (param.takeWhile (· ≠ '='))

/-- Only letters have a lower case. -/
theorem toLower_eq_iff {c d : Char} (hd : d.isAlpha = false) : c.toLower = d ↔ c = d := by
  change (decide ('A'.val ≤ d.val ∧ d.val ≤ 'Z'.val) ||
    decide ('a'.val ≤ d.val) && decide (d.val ≤ 'z'.val)) = false at hd
  simp only [UInt32.le_iff_toNat_le, Char.reduceVal, UInt32.reduceToNat, Bool.or_eq_false_iff,
    Bool.and_eq_false_iff, decide_eq_false_iff_not] at hd
  unfold Char.toLower
  split
  · next hc =>
    simp only [ge_iff_le, UInt32.le_iff_toNat_le, Char.reduceVal, UInt32.reduceToNat] at hc
    have hsum : (c.val + ('a'.val - 'A'.val)).toNat = c.val.toNat + 32 := by
      rw [UInt32.toNat_add]
      exact Nat.mod_eq_of_lt (show c.val.toNat + 32 < 4294967296 by omega)
    constructor
    · rintro rfl
      simp only [hsum] at hd
      omega
    · rintro rfl
      omega
  · rfl

theorem lowered_takeWhile {d : Char} (hd : d.isAlpha = false) (s : List Char) :
    lowered (s.takeWhile (· ≠ d)) = (lowered s).takeWhile (· ≠ d) := by
  unfold lowered
  induction s with
  | nil => rfl
  | cons c s ih =>
    by_cases hc : c = d
    · simp [hc, (toLower_eq_iff hd).mpr rfl]
    · have hlow : c.toLower ≠ d := mt (toLower_eq_iff hd).mp hc
      simp only [List.map_cons, List.takeWhile_cons, decide_eq_true hc,
        decide_eq_true hlow, if_true]
      rw [ih]

/-- Texts that sort alike have the same name. -/
theorem headerName_congr {a b : List Char} (h : lowered a = lowered b) :
    headerName a = headerName b := by
  unfold headerName
  rw [lowered_takeWhile (by decide), lowered_takeWhile (by decide), h]

theorem paramName_congr {a b : List Char} (h : lowered a = lowered b) :
    paramName a = paramName b := by
  unfold paramName
  rw [lowered_takeWhile (by decide), lowered_takeWhile (by decide), h]

/-- Texts with different names are sorted into one order. -/
theorem sortHeaders_eq_of_perm {name : List Char → List Char} {l l' : List (List Char)}
    (hname : ∀ {a b}, lowered a = lowered b → name a = name b) (h : l.Perm l')
    (hnodup : (l.map name).Nodup) : sortHeaders l = sortHeaders l' := by
  apply sortBy_eq_of_perm h
  intro a ha b hb hab
  exact List.inj_on_of_nodup_map hnodup ha hb (hname hab)

/-! ## The text that is signed -/

theorem sortedXMsHeaders_perm {headers headers' : List (List Char)} (h : headers.Perm headers')
    (hnodup : (headers.map headerName).Nodup) :
    sortedXMsHeaders headers = sortedXMsHeaders headers' := by
  unfold sortedXMsHeaders
  rw [sortHeaders_eq_of_perm headerName_congr h hnodup, h.length_eq]
  by_cases hnil : headers = []
  · subst hnil
    obtain rfl := h.nil_eq
    rfl
  · have hnil' : headers' ≠ [] := fun h' => hnil (by subst h'; exact h.eq_nil)
    rw [if_neg hnil, if_neg hnil']

/-- A query that the buffer holds, of parameters that the array holds. -/
theorem queryPairs_perm {params params' : List (List Char)} (h : params.Perm params')
    (hnodup : (params.map paramName).Nodup) (hsep : ∀ p ∈ params, '&' ∉ p)
    (hcount : params.length ≤ 32) (hlength : (['&'].intercalate params).length ≤ 1023) :
    queryPairs (['&'].intercalate params) = queryPairs (['&'].intercalate params') := by
  have hsep' : ∀ p ∈ params', '&' ∉ p := fun p hp => hsep p (h.mem_iff.mpr hp)
  have hlength' : (['&'].intercalate params').length ≤ 1023 := by
    rw [← length_intercalate_perm h]
    exact hlength
  have hfilter : (params.filter fun t => !t.isEmpty).length ≤ 32 :=
    le_trans (List.length_filter_le _ _) hcount
  have hfilter' : (params'.filter fun t => !t.isEmpty).length ≤ 32 :=
    le_trans (List.length_filter_le _ _) (h.length_eq ▸ hcount)
  unfold queryPairs
  rw [List.take_of_length_le hlength, List.take_of_length_le hlength', tokens_intercalate hsep,
    tokens_intercalate hsep', List.take_of_length_le hfilter, List.take_of_length_le hfilter']
  exact sortHeaders_eq_of_perm paramName_congr (h.filter _)
    ((List.filter_sublist.map paramName).nodup hnodup)

/-- The text to sign is a function of the sorted headers and the sorted parameters. -/
theorem stringToSign_congr (c : AzureClient) {a b : SignArgs}
    (hlines : standardLines a = standardLines b) (hpath : a.path = b.path)
    (hheaders : sortedXMsHeaders a.xMsHeaders = sortedXMsHeaders b.xMsHeaders)
    (hquery : queryPairs a.query = queryPairs b.query) : stringToSign c a = stringToSign c b := by
  unfold stringToSign appendResource
  rw [hlines, hpath, hheaders, hquery]

/-- The text to sign is the same for every order of the headers and the parameters. -/
theorem stringToSign_perm (c : AzureClient) (a : SignArgs) {headers headers' : List (List Char)}
    {params params' : List (List Char)} (hheaders : headers.Perm headers')
    (hnames : (headers.map headerName).Nodup) (hparams : params.Perm params')
    (hparamNames : (params.map paramName).Nodup) (hsep : ∀ p ∈ params, '&' ∉ p)
    (hcount : params.length ≤ 32) (hlength : (['&'].intercalate params).length ≤ 1023) :
    stringToSign c { a with xMsHeaders := headers, query := ['&'].intercalate params } =
      stringToSign c { a with xMsHeaders := headers', query := ['&'].intercalate params' } :=
  stringToSign_congr c rfl rfl (sortedXMsHeaders_perm hheaders hnames)
    (queryPairs_perm hparams hparamNames hsep hcount hlength)

/-! ## Put Page -/

theorem length_printInt_toInt (x : Int64) : (Text.printInt x.toInt).length ≤ 20 := by
  have hlow := x.le_toInt
  have hhigh := x.toInt_lt
  have hdigits : (Nat.toDigits 10 x.toInt.natAbs).length ≤ 19 :=
    (Nat.length_toDigits_le_iff (by decide) (by decide)).mpr (by omega)
  unfold Text.printInt
  split
  · rw [List.length_cons]
    omega
  · omega

theorem length_rangeValue (offset : Int64) (len : Nat) : (rangeValue offset len).length ≤ 47 := by
  have hfirst := length_printInt_toInt offset
  have hlast := length_printInt_toInt (offset + Int64.ofNat len - 1)
  unfold rangeValue
  simp only [List.length_append, List.length_cons]
  have hbytes : "bytes=".toList.length = 6 := rfl
  omega

/-- A header that fits is not cut. -/
theorem xMsHeader_eq {size : Nat} {name : String} {value : List Char}
    (h : name.toList.length + value.length + 1 < size) :
    xMsHeader size name value = name.toList ++ ':' :: value := by
  apply snprintf_eq
  rw [List.length_append, List.length_cons]
  omega

/-- A header has the name it was given if the buffer holds that. -/
theorem headerName_xMsHeader {size : Nat} {name : String} {value : List Char}
    (hsize : name.toList.length + 1 < size) (hname : ':' ∉ name.toList) :
    headerName (xMsHeader size name value) = lowered name.toList := by
  have hcut : xMsHeader size name value =
      name.toList ++ ':' :: value.take (size - name.toList.length - 2) := by
    unfold xMsHeader snprintf
    rw [List.take_append, List.take_of_length_le (by omega),
      show size - 1 - name.toList.length = size - name.toList.length - 2 + 1 by omega,
      List.take_succ_cons]
  unfold headerName
  rw [hcut, List.takeWhile_append_of_pos, List.takeWhile_cons]
  · simp
  · intro c hc
    have hne : c ≠ ':' := fun h => hname (h ▸ hc)
    simp [hne]

/-- The `x-ms-*` headers of Put Page, as a single request lists them. -/
def putPageHeaders (date range : List Char) (lease : List (List Char)) : List (List Char) :=
  xMsHeader 128 "x-ms-date" date :: xMsHeader 64 "x-ms-version" azureApiVersion ::
    "x-ms-page-write:update".toList :: xMsHeader 128 "x-ms-range" range :: lease

/-- The lease header, if there is a lease. -/
def leaseHeaders (size : Nat) (leaseId : List Char) : List (List Char) :=
  if leaseId ≠ [] then [xMsHeader size "x-ms-lease-id" leaseId] else []

theorem leaseHeaders_eq {size : Nat} {leaseId : List Char} (h : leaseId.length + 14 < size) :
    leaseHeaders size leaseId =
      if leaseId ≠ [] then ["x-ms-lease-id".toList ++ ':' :: leaseId] else [] := by
  unfold leaseHeaders
  rw [xMsHeader_eq]
  have hname : "x-ms-lease-id".toList.length = 13 := rfl
  omega

theorem nodup_putPageHeaders (date range leaseId : List Char) :
    ((putPageHeaders date range (leaseHeaders 128 leaseId)).map headerName).Nodup := by
  have hpage : headerName "x-ms-page-write:update".toList = "x-ms-page-write".toList := by decide
  unfold putPageHeaders leaseHeaders
  simp only [List.map_cons]
  rw [headerName_xMsHeader (by decide) (by decide), headerName_xMsHeader (by decide) (by decide),
    headerName_xMsHeader (by decide) (by decide), hpage]
  split
  · rw [List.map_singleton, headerName_xMsHeader (by decide) (by decide)]
    decide
  · decide

/-- A batch has the same headers as a single request, in another order. -/
theorem perm_putPageHeaders {date leaseId : List Char} (offset : Int64) (len : Nat)
    (hlease : leaseId.length ≤ 113) :
    (putPageHeaders date (rangeValue offset len) (leaseHeaders 128 leaseId)).Perm
      (xMsHeader 128 "x-ms-date" date :: (leaseHeaders 192 leaseId ++
        [snprintf 64 "x-ms-page-write:update".toList,
          xMsHeader 192 "x-ms-range" (snprintf 128 (rangeValue offset len)),
          xMsHeader 64 "x-ms-version" azureApiVersion])) := by
  have hlength := length_rangeValue offset len
  have hname : "x-ms-range".toList.length = 10 := rfl
  have hvalue : snprintf 128 (rangeValue offset len) = rangeValue offset len :=
    snprintf_eq (by omega)
  have hpage : snprintf 64 "x-ms-page-write:update".toList = "x-ms-page-write:update".toList := rfl
  unfold putPageHeaders
  rw [hvalue, hpage, @xMsHeader_eq 128 "x-ms-range" _ (by omega),
    @xMsHeader_eq 192 "x-ms-range" _ (by omega), @leaseHeaders_eq 128 _ (by omega),
    @leaseHeaders_eq 192 _ (by omega)]
  apply List.Perm.cons
  generalize xMsHeader 64 "x-ms-version" azureApiVersion = version
  generalize "x-ms-page-write:update".toList = page
  generalize "x-ms-range".toList ++ ':' :: rangeValue offset len = range
  generalize (if leaseId ≠ [] then _ else _) = lease
  calc [version, page, range] ++ lease
    _ |>.Perm (lease ++ [version, page, range]) := List.perm_append_comm
    _ |>.Perm (lease ++ [page, range, version]) :=
      (@List.perm_append_comm _ [version] [page, range]).append_left lease

/-- None of the headers of Put Page is dropped. -/
theorem xMsHeaders_putPage (c : AzureClient) (date method blobName query contentType : List Char)
    (range leaseId rangeHeader ifMatch : List Char) (len : Nat) :
    (executeSingleArgs c date method blobName query
      (["x-ms-page-write:update".toList, xMsHeader 128 "x-ms-range" range] ++
        if leaseId ≠ [] then [xMsHeader 128 "x-ms-lease-id" leaseId] else [])
      contentType len rangeHeader ifMatch).xMsHeaders =
      putPageHeaders date range (leaseHeaders 128 leaseId) := by
  by_cases hlease : leaseId = []
  · subst hlease
    rfl
  · simp only [executeSingleArgs, putPageHeaders, leaseHeaders, if_pos hlease]
    rfl

/-- A single request and a batch sign the same text. -/
theorem stringToSign_putPage {c : AzureClient} {date name leaseId ifMatch : List Char}
    {offset : Int64} {len : Nat} {a : SignArgs} (hlease : leaseId.length ≤ 113)
    (h : azPageBlobWriteArgs c date name offset len leaseId ifMatch = some a) :
    stringToSign c a = stringToSign c
      (batchInitEasyArgs c date name offset len leaseId ifMatch) := by
  unfold azPageBlobWriteArgs at h
  split at h
  · cases h
  split at h
  · cases h
  split at h
  · cases h
  next hlen =>
  obtain rfl := Option.some.inj h
  apply stringToSign_congr
  · unfold standardLines executeSingleArgs batchInitEasyArgs
    rw [if_pos (by omega)]
  · rfl
  · rw [xMsHeaders_putPage]
    exact sortedXMsHeaders_perm (perm_putPageHeaders offset len hlease) (nodup_putPageHeaders ..)
  · rfl

/-- What is signed does not depend on the order of headers and parameters, as long as no
parameter is dropped; and Put Page is signed the same in both places, as long as the lease id
is not cut. -/
theorem azure_auth_sign_request_order :
    (∀ (c : AzureClient) (a : SignArgs) (headers headers' params params' : List (List Char)),
      headers.Perm headers' → (headers.map headerName).Nodup →
      params.Perm params' → (params.map paramName).Nodup → (∀ p ∈ params, '&' ∉ p) →
      params.length ≤ 32 → (['&'].intercalate params).length ≤ 1023 →
      stringToSign c { a with xMsHeaders := headers, query := ['&'].intercalate params } =
        stringToSign c { a with xMsHeaders := headers', query := ['&'].intercalate params' }) ∧
    (∀ (hmacSha256 : List UInt8 → List Char → Option (List UInt8)) (c : AzureClient)
      (date name leaseId ifMatch : List Char) (offset : Int64) (len size : Nat) (a : SignArgs),
      leaseId.length ≤ 113 → azPageBlobWriteArgs c date name offset len leaseId ifMatch = some a →
      azureAuthSignRequest hmacSha256 c a size = azureAuthSignRequest hmacSha256 c
        (batchInitEasyArgs c date name offset len leaseId ifMatch) size) := by
  constructor
  · intro c a headers headers' params params' hh hhn hp hpn hsep hcount hlength
    exact stringToSign_perm c a hh hhn hp hpn hsep hcount hlength
  · intro hmacSha256 c date name leaseId ifMatch offset len size a hlease h
    unfold azureAuthSignRequest
    rw [stringToSign_putPage hlease h]

/-- Arguments to sign but headers and query. -/
def someArgs : SignArgs where
  method := "GET".toList
  path := "/db/x".toList
  query := []
  contentLength := []
  contentType := []
  range := []
  ifMatch := []
  xMsHeaders := []

theorem azure_auth_sign_request_order_two :
    stringToSign someClient { someArgs with
      xMsHeaders := ["x-ms-date:d".toList, "X-MS-Version:v".toList],
      query := "comp=page&timeout=30".toList } =
    stringToSign someClient { someArgs with
      xMsHeaders := ["X-MS-Version:v".toList, "x-ms-date:d".toList],
      query := "timeout=30&comp=page".toList } ∧
    ∃ a, azPageBlobWriteArgs someClient "d".toList "x".toList 512 512 "lease".toList [] = some a ∧
      azureAuthSignRequest (fun _ s => some (s.map fun c => UInt8.ofNat c.toNat)) someClient a 512 =
        azureAuthSignRequest (fun _ s => some (s.map fun c => UInt8.ofNat c.toNat)) someClient
          (batchInitEasyArgs someClient "d".toList "x".toList 512 512 "lease".toList []) 512 := by
  constructor
  · exact azure_auth_sign_request_order.1 someClient someArgs _ _
      ["comp=page".toList, "timeout=30".toList] ["timeout=30".toList, "comp=page".toList]
      (List.Perm.swap _ _ _) (by decide) (List.Perm.swap _ _ _) (by decide) (by decide) (by decide)
      (by decide)
  · exact ⟨_, rfl, azure_auth_sign_request_order.2 _ _ _ _ _ _ _ _ _ _ (by decide) rfl⟩

/-- The text that is signed when there is memory. -/
def signedText : Prog (Except AzErr (List Char)) → List Char
  | .ret (.ok s) => s
  | .ret (.error _) => []
  | .call (.sys _) k => signedText (k { ok := true })
  | .call (.azure _) _ => []

/-- No name is another one, or its beginning. -/
def NamesApart (names : List (List Char)) : Prop := names.Pairwise fun a b => ¬ a <+: b ∧ ¬ b <+: a

instance (names : List (List Char)) : Decidable (NamesApart names) := by
  unfold NamesApart
  infer_instance

/-- Thirty-three parameters, one of which is dropped. -/
def manyParams : List (List Char) := "0123456789abcdefghijklmnopqrstuvw".toList.map fun c => [c]

/-- Two parameters, only one of which fits. -/
def longParams : List (List Char) := ['a' :: '=' :: List.replicate 1100 'x', ['b', '=', '1']]

/-- What is signed depends on the order of 33 parameters, on the order of two parameters of more
than 1023 characters, and on the place where Put Page is signed if the lease id has 114. -/
theorem azure_auth_sign_request_drops :
    (∃ params params' : List (List Char), params.Perm params' ∧
      NamesApart (params.map paramName) ∧ (∀ p ∈ params, '&' ∉ p) ∧
      stringToSign someClient { someArgs with query := ['&'].intercalate params } ≠
        stringToSign someClient { someArgs with query := ['&'].intercalate params' }) ∧
    (∃ params params' : List (List Char), params.length = 2 ∧ params.Perm params' ∧
      NamesApart (params.map paramName) ∧ (∀ p ∈ params, '&' ∉ p) ∧
      stringToSign someClient { someArgs with query := ['&'].intercalate params } ≠
        stringToSign someClient { someArgs with query := ['&'].intercalate params' }) ∧
    ∃ a, azPageBlobWriteArgs someClient "d".toList "x".toList 512 512
        (List.replicate 114 'l') [] = some a ∧
      stringToSign someClient a ≠ stringToSign someClient
        (batchInitEasyArgs someClient "d".toList "x".toList 512 512
          (List.replicate 114 'l') []) := by
  refine ⟨⟨manyParams, manyParams.reverse, List.reverse_perm _ |>.symm, by decide +kernel,
    by decide +kernel, fun h => ?_⟩, ⟨longParams, longParams.reverse, rfl,
    List.reverse_perm _ |>.symm, by decide +kernel, by decide +kernel, fun h => ?_⟩,
    ⟨_, rfl, fun h => ?_⟩⟩
  · exact absurd (congrArg signedText h) (by decide +kernel)
  · exact absurd (congrArg signedText h) (by decide +kernel)
  · exact absurd (congrArg signedText h) (by decide +kernel)

end SqliteObjs

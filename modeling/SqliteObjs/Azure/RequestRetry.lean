import SqliteObjs.Azure.Response

/-!
# A request and its attempts

`execute_with_retry` empties the response body and the records of headers and of the error before
each attempt, so nothing of an earlier attempt is handed back with one exception: the memory of
the response body still holds the end of a longer body, and the error of the attempt is read from
that memory. The caller gets the reply of the last attempt exactly if this text does not matter.
-/

set_option autoImplicit false

namespace SqliteObjs
namespace Http

/-! ## The loop -/

/-- `azure_compute_retry_delay`, with a random number. -/
def azureComputeRetryDelay (attempt : Nat) (retryAfterSecs : Int) (random : Nat) : Int :=
  let delayMs : Int :=
    if 0 < retryAfterSecs then
      if (intMax / 1000 : Nat) < retryAfterSecs then 30000 else retryAfterSecs * 1000
    else (500 * 2 ^ attempt + random % 500 : Nat)
  if 30000 < delayMs then 30000 else delayMs

/-- What the caller gets, and the times that were slept between the attempts. -/
structure Handed where
  reply : Reply
  body : Option AzureBuffer
  slept : List Int

/-- The buffer of an attempt: that of the caller, emptied, or a local one. -/
def attemptBuffer (responseBody : Option AzureBuffer) : AzureBuffer :=
  match responseBody with
  | some buf => { buf with size := 0 }
  | none => .init

/-- The loop of `execute_with_retry` from an attempt on, with `left` more attempts after it. -/
def executeWithRetryFrom (ds : Nat → Delivery) (random : Nat → Nat) :
    (left attempt : Nat) → Option AzureBuffer → Handed
  | left, attempt, responseBody =>
    let (reply, buf) := executeSingle (ds attempt) (attemptBuffer responseBody)
    let responseBody := responseBody.map fun _ => buf
    if reply.rc = .ok then ⟨reply, responseBody, []⟩
    else if !azureIsRetryable reply.rc then ⟨reply, responseBody, []⟩
    else
      match left with
      | 0 => ⟨reply, responseBody, []⟩
      | left + 1 =>
        let delay := azureComputeRetryDelay attempt reply.headers.retryAfter (random attempt)
        let handed := executeWithRetryFrom ds random left (attempt + 1) responseBody
        { handed with slept := delay :: handed.slept }

/-- `execute_with_retry`, if the attempts go as `ds` says. -/
def executeWithRetry (ds : Nat → Delivery) (random : Nat → Nat)
    (responseBody : Option AzureBuffer) :
    Handed :=
  executeWithRetryFrom ds random azureMaxRetries 0 responseBody

/-! ## What a request should hand back -/

section Request

variable (ds : Nat → Delivery) (random : Nat → Nat) (responseBody : Option AzureBuffer)

/-- The response body of the caller before an attempt. -/
def bufferBefore : Nat → Option AzureBuffer
  | 0 => responseBody
  | n + 1 => (bufferBefore n).map fun _ => (executeSingle (ds n) (attemptBuffer (bufferBefore n))).2

/-- The buffer in which an attempt begins. -/
def bufferOf (n : Nat) : AzureBuffer := attemptBuffer (bufferBefore ds responseBody n)

/-- The reply of an attempt to its own response. -/
def replyOf (n : Nat) : Reply := ownReply (ds n) (bufferOf ds responseBody n).capacity

/-- An attempt is the last one: the sixth, or the first that is a success or an error for which one
does not try again. -/
structure LastAttempt (n : Nat) : Prop where
  six : n ≤ azureMaxRetries
  again : ∀ i, i < n → azureIsRetryable (replyOf ds responseBody i).rc = true
  stop : n = azureMaxRetries ∨ azureIsRetryable (replyOf ds responseBody n).rc = false

/-- The caller gets what the last attempt delivered, and nothing else. -/
def Transparent (handed : Handed) : Prop :=
  ∃ n, LastAttempt ds responseBody n ∧
    handed.reply = replyOf ds responseBody n ∧
    handed.body.map AzureBuffer.content =
      responseBody.map (fun _ => ownBody (ds n) (bufferOf ds responseBody n).capacity) ∧
    handed.slept = (List.range n).map fun i =>
      azureComputeRetryDelay i (replyOf ds responseBody i).headers.retryAfter (random i)

end Request

/-! ## What an error is read from -/

/-- The code and the message of an error with these headers. -/
def errorTexts (rh : AzureResponseHeaders) (xml : List Char) : List Char × List Char :=
  let err := azureParseErrorXml xml {}
  (if rh.errorCode ≠ [] ∧ err.errorCode = [] then rh.errorCode.take 127 else err.errorCode,
    err.errorMessage)

/-- An error whose text is read: `P` holds of its status, its headers, its body, and the memory from
its body on. -/
def Delivery.Parsed (d : Delivery) (buf : AzureBuffer)
    (P : Nat → AzureResponseHeaders → List Char → List Char → Prop) : Prop :=
  match d with
  | .performed headers chunks res _ httpStatus =>
    (receive chunks buf).2 = true → res = .ok → 400 ≤ httpStatus → 0 < (receive chunks buf).1.size →
      P httpStatus (headers.foldl curlHeaderCb noResponseHeaders) (receive chunks buf).1.content
        (receive chunks buf).1.data
  | _ => True

/-- What stands behind the body does not change the error. -/
def Delivery.ReadsBody (d : Delivery) (buf : AzureBuffer) : Prop :=
  d.Parsed buf fun _ rh body memory => errorTexts rh memory = errorTexts rh body

/-- With what stands behind the body one still tries again. -/
def Delivery.ReadsTransient (d : Delivery) (buf : AzureBuffer) : Prop :=
  d.Parsed buf fun httpStatus rh _ memory =>
    azureIsRetryable (azureClassifyHttpError httpStatus (String.ofList (errorTexts rh memory).1)) =
    true

/-! ## One attempt -/

theorem valid_attemptBuffer (responseBody : Option AzureBuffer) :
    (attemptBuffer responseBody).Valid := by
  cases responseBody with
  | none => exact ⟨Nat.le_refl 0, Nat.le_refl 0⟩
  | some buf => exact ⟨Nat.zero_le _, Nat.zero_le _⟩

theorem size_attemptBuffer (responseBody : Option AzureBuffer) :
    (attemptBuffer responseBody).size = 0 := by
  cases responseBody <;> rfl

/-- The error of a response with a body. -/
theorem respond_parsed (rh : AzureResponseHeaders) (strerror : List Char) {httpStatus size : Nat}
    (hstatus : 400 ≤ httpStatus) (hsize : 0 < size) (xml : List Char) :
    respond rh .ok strerror httpStatus size xml =
      ⟨azureClassifyHttpError httpStatus (String.ofList (errorTexts rh xml).1), rh,
        { code := azureClassifyHttpError httpStatus (String.ofList (errorTexts rh xml).1)
          httpStatus := min httpStatus intMax
          errorCode := (errorTexts rh xml).1
          errorMessage := (errorTexts rh xml).2
          requestId := rh.requestId.take 63
          etag := rh.etag.take 127 }⟩ := by
  unfold respond errorTexts azureParseErrorXml
  rw [if_neg (fun h => h rfl), if_pos hstatus, if_pos hsize]
  dsimp only
  split <;> rfl

/-- The text is read for an error with a body only. -/
theorem respond_eq (rh : AzureResponseHeaders) {res : CurlCode} (strerror : List Char)
    {httpStatus size : Nat} (h : ¬ (res = .ok ∧ 400 ≤ httpStatus ∧ 0 < size))
    (xml xml' : List Char) :
    respond rh res strerror httpStatus size xml = respond rh res strerror httpStatus size xml' := by
  unfold respond
  split
  · rfl
  · next hres =>
    split
    · next hstatus =>
      have hsize : ¬ 0 < size := fun hsize => h ⟨not_not.mp hres, hstatus, hsize⟩
      dsimp only
      rw [if_neg hsize, if_neg hsize]
    · rfl

theorem headers_respond (rh : AzureResponseHeaders) (res : CurlCode) (strerror : List Char)
    (httpStatus size : Nat) (xml : List Char) :
    (respond rh res strerror httpStatus size xml).headers = rh := by
  unfold respond
  dsimp only
  repeat' split
  all_goals rfl

theorem executeSingle_performed (buf : AzureBuffer) (headers : List (List Char))
    (chunks : List Chunk) (res : CurlCode)
    (strerror : List Char) (httpStatus : Nat) :
    (executeSingle (.performed headers chunks res strerror httpStatus) buf).1 =
      respond (headers.foldl curlHeaderCb noResponseHeaders)
        (if (receive chunks buf).2 then res else .other) strerror httpStatus
        (receive chunks buf).1.size (receive chunks buf).1.data := rfl

section Attempt

variable {buf : AzureBuffer} (hvalid : buf.Valid) (hsize : buf.size = 0)

include hvalid hsize

theorem content_executeSingle (d : Delivery) :
    (executeSingle d buf).2.content = ownBody d buf.capacity := by
  have hempty : buf.content = [] := by
    unfold AzureBuffer.content
    rw [hsize, List.take_zero]
  cases d with
  | unsigned rc failed => exact hempty
  | noSlist => exact hempty
  | performed headers chunks res strerror httpStatus =>
    have hcontent := (receive_accepted chunks hvalid).2.1
    rw [hempty, List.nil_append, hsize] at hcontent
    exact hcontent

theorem ownReply_performed (headers : List (List Char)) (chunks : List Chunk) (res : CurlCode)
    (strerror : List Char) (httpStatus : Nat) :
    ownReply (.performed headers chunks res strerror httpStatus) buf.capacity =
      respond (headers.foldl curlHeaderCb noResponseHeaders)
        (if (receive chunks buf).2 then res else .other) strerror httpStatus
        (receive chunks buf).1.size (receive chunks buf).1.content := by
  obtain ⟨-, hcontent, hlength, htaken⟩ := receive_accepted chunks hvalid
  have hempty : buf.content = [] := by
    unfold AzureBuffer.content
    rw [hsize, List.take_zero]
  rw [hempty, List.nil_append, hsize] at hcontent
  rw [hsize, Nat.zero_add] at hlength
  rw [hsize] at htaken
  unfold ownReply
  dsimp only
  rw [hcontent, hlength, htaken]

/-- The reply of an attempt is its own exactly if what stands behind its body does not change its
error. -/
theorem executeSingle_eq_iff (d : Delivery) :
    (executeSingle d buf).1 = ownReply d buf.capacity ↔ d.ReadsBody buf := by
  cases d with
  | unsigned rc failed => exact iff_of_true rfl trivial
  | noSlist => exact iff_of_true rfl trivial
  | performed headers chunks res strerror httpStatus =>
    rw [executeSingle_performed, ownReply_performed hvalid hsize]
    unfold Delivery.ReadsBody Delivery.Parsed
    dsimp only
    generalize (receive chunks buf).1.content = body
    generalize (receive chunks buf).1.data = memory
    generalize (receive chunks buf).1.size = size
    generalize headers.foldl curlHeaderCb noResponseHeaders = rh
    by_cases hread : (receive chunks buf).2 = true ∧ res = .ok ∧ 400 ≤ httpStatus ∧ 0 < size
    · obtain ⟨htaken, rfl, hstatus, hpos⟩ := hread
      rw [htaken, if_pos rfl, respond_parsed rh strerror hstatus hpos,
        respond_parsed rh strerror hstatus hpos]
      constructor
      · intro heq _ _ _ _
        injection heq with _ _ herr
        injection herr with _ _ hcode hmessage
        exact Prod.ext hcode hmessage
      · intro htexts
        rw [htexts rfl rfl hstatus hpos]
    · refine iff_of_true (respond_eq rh strerror ?_ memory body) fun h₁ h₂ h₃ h₄ =>
        absurd ⟨h₁, h₂, h₃, h₄⟩ hread
      rintro ⟨hok, hstatus, hpos⟩
      split at hok
      · next htaken => exact hread ⟨htaken, hok, hstatus, hpos⟩
      · cases hok

/-- After an attempt for which one tries again by its own response, one does so exactly if what
stands behind its body still says so. -/
theorem retryable_executeSingle_iff (d : Delivery)
    (hown : azureIsRetryable (ownReply d buf.capacity).rc = true) :
    azureIsRetryable (executeSingle d buf).1.rc = true ↔ d.ReadsTransient buf := by
  by_cases heq : d.ReadsBody buf
  · rw [(executeSingle_eq_iff hvalid hsize d).mpr heq]
    refine iff_of_true hown ?_
    cases d with
    | unsigned rc failed => trivial
    | noSlist => trivial
    | performed headers chunks res strerror httpStatus =>
      rw [ownReply_performed hvalid hsize] at hown
      intro htaken hres hstatus hpos
      have htexts := heq htaken hres hstatus hpos
      subst hres
      rw [htaken, if_pos rfl, respond_parsed _ strerror hstatus hpos] at hown
      rw [htexts]
      exact hown
  · cases d with
    | unsigned rc failed => exact absurd trivial heq
    | noSlist => exact absurd trivial heq
    | performed headers chunks res strerror httpStatus =>
      unfold Delivery.ReadsBody Delivery.Parsed at heq
      simp only [Classical.not_imp] at heq
      obtain ⟨htaken, rfl, hstatus, hpos, -⟩ := heq
      rw [executeSingle_performed, htaken, if_pos rfl, respond_parsed _ strerror hstatus hpos]
      exact ⟨fun h _ _ _ _ => h, fun h => h htaken rfl hstatus hpos⟩

theorem headers_executeSingle (d : Delivery) :
    (executeSingle d buf).1.headers = (ownReply d buf.capacity).headers := by
  cases d with
  | unsigned rc failed => rfl
  | noSlist => rfl
  | performed headers chunks res strerror httpStatus =>
    rw [executeSingle_performed, ownReply_performed hvalid hsize, headers_respond, headers_respond]

end Attempt

/-! ## All attempts -/

section Request

variable (ds : Nat → Delivery) (random : Nat → Nat) (responseBody : Option AzureBuffer)

/-- What the code tells of an attempt. -/
def toldOf (n : Nat) : Reply := (executeSingle (ds n) (bufferOf ds responseBody n)).1

variable {ds responseBody}

theorem toldOf_eq_iff {n : Nat} : toldOf ds responseBody n = replyOf ds responseBody n ↔
    (ds n).ReadsBody (bufferOf ds responseBody n) :=
  executeSingle_eq_iff (valid_attemptBuffer _) (size_attemptBuffer _) _

theorem retryable_toldOf_iff {n : Nat}
    (h : azureIsRetryable (replyOf ds responseBody n).rc = true) :
    azureIsRetryable (toldOf ds responseBody n).rc = true ↔
      (ds n).ReadsTransient (bufferOf ds responseBody n) :=
  retryable_executeSingle_iff (valid_attemptBuffer _) (size_attemptBuffer _) _ h

theorem headers_toldOf (n : Nat) :
    (toldOf ds responseBody n).headers = (replyOf ds responseBody n).headers :=
  headers_executeSingle (valid_attemptBuffer _) (size_attemptBuffer _) _

theorem content_bufferBefore_succ (n : Nat) :
    (bufferBefore ds responseBody (n + 1)).map AzureBuffer.content =
      responseBody.map fun _ => ownBody (ds n) (bufferOf ds responseBody n).capacity := by
  have hsome : ∀ n, (bufferBefore ds responseBody n).isSome = responseBody.isSome := by
    intro n
    induction n with
    | zero => rfl
    | succ n ih => rw [bufferBefore, Option.isSome_map, ih]
  have hcontent := content_executeSingle (valid_attemptBuffer (bufferBefore ds responseBody n))
    (size_attemptBuffer _) (ds n)
  have hn := hsome n
  rw [bufferBefore, Option.map_map]
  cases hbefore : bufferBefore ds responseBody n with
  | none =>
    rw [hbefore] at hn
    cases responseBody with
    | none => rfl
    | some buf => cases hn
  | some buf =>
    rw [hbefore] at hn
    cases responseBody with
    | none => cases hn
    | some buf' =>
      unfold bufferOf
      rw [hbefore] at hcontent ⊢
      exact congrArg some hcontent

/-- One does not try again. -/
theorem executeWithRetryFrom_stop (left : Nat) {k : Nat}
    (h : azureIsRetryable (toldOf ds responseBody k).rc = false) :
    executeWithRetryFrom ds random left k (bufferBefore ds responseBody k) =
      ⟨toldOf ds responseBody k, bufferBefore ds responseBody (k + 1), []⟩ := by
  unfold executeWithRetryFrom
  dsimp only
  split
  · rfl
  · exact if_pos ((Bool.not_eq_true' _).mpr h)

/-- There are no attempts left. -/
theorem executeWithRetryFrom_zero (k : Nat) :
    executeWithRetryFrom ds random 0 k (bufferBefore ds responseBody k) =
      ⟨toldOf ds responseBody k, bufferBefore ds responseBody (k + 1), []⟩ := by
  unfold executeWithRetryFrom
  dsimp only
  split
  · rfl
  split <;> rfl

/-- One tries again. -/
theorem executeWithRetryFrom_again (left : Nat) {k : Nat}
    (h : azureIsRetryable (toldOf ds responseBody k).rc = true) :
    executeWithRetryFrom ds random (left + 1) k (bufferBefore ds responseBody k) =
      let handed := executeWithRetryFrom ds random left (k + 1)
        (bufferBefore ds responseBody (k + 1))
      ⟨handed.reply, handed.body, azureComputeRetryDelay k
        (toldOf ds responseBody k).headers.retryAfter (random k) :: handed.slept⟩ := by
  have hnotOk : (toldOf ds responseBody k).rc ≠ .ok := by
    intro hok
    rw [hok] at h
    cases h
  rw [executeWithRetryFrom]
  exact (if_neg hnotOk).trans (if_neg fun hstop =>
    Bool.false_ne_true (((Bool.not_eq_true' _).mp hstop).symm.trans h))

/-- The loop ends after the first attempt that the code takes for the last one. -/
theorem executeWithRetryFrom_spec (left k : Nat) :
    ∃ m, m ≤ left ∧
      (∀ i, i < m → azureIsRetryable (toldOf ds responseBody (k + i)).rc = true) ∧
      (m = left ∨ azureIsRetryable (toldOf ds responseBody (k + m)).rc = false) ∧
      executeWithRetryFrom ds random left k (bufferBefore ds responseBody k) =
        ⟨toldOf ds responseBody (k + m), bufferBefore ds responseBody (k + m + 1),
          (List.range m).map fun i => azureComputeRetryDelay (k + i)
            (toldOf ds responseBody (k + i)).headers.retryAfter (random (k + i))⟩ := by
  induction left generalizing k with
  | zero =>
    exact ⟨0, Nat.le_refl 0, fun i hi => absurd hi (Nat.not_lt_zero i), .inl rfl,
      executeWithRetryFrom_zero random k⟩
  | succ left ih =>
    cases hagain : azureIsRetryable (toldOf ds responseBody k).rc with
    | true =>
      obtain ⟨m, hm, hall, hstop, hrun⟩ := ih (k + 1)
      have hshift : ∀ i, k + 1 + i = k + (i + 1) := fun i => by omega
      refine ⟨m + 1, Nat.succ_le_succ hm, ?_, ?_, ?_⟩
      · intro i hi
        cases i with
        | zero => exact hagain
        | succ i => exact hshift i ▸ hall i (Nat.lt_of_succ_lt_succ hi)
      · rw [hshift] at hstop
        exact hstop.imp (congrArg Nat.succ) id
      · rw [executeWithRetryFrom_again random left hagain, hrun, List.range_succ_eq_map,
          List.map_cons, List.map_map]
        simp only [hshift]
        rfl
    | false =>
      exact ⟨0, Nat.zero_le _, fun i hi => absurd hi (Nat.not_lt_zero i), .inr hagain,
        executeWithRetryFrom_stop random _ hagain⟩

theorem LastAttempt.unique {n m : Nat} (hn : LastAttempt ds responseBody n)
    (hm : LastAttempt ds responseBody m) : n = m := by
  have hle : ∀ {n m : Nat}, LastAttempt ds responseBody n → LastAttempt ds responseBody m →
      n ≤ m := by
    intro n m hn hm
    apply Nat.le_of_not_lt
    intro hlt
    rcases hm.stop with rfl | hstop
    · exact absurd hn.six (Nat.not_le.mpr hlt)
    · exact Bool.false_ne_true (hstop.symm.trans (hn.again m hlt))
  exact Nat.le_antisymm (hle hn hm) (hle hm hn)

theorem exists_lastAttempt : ∃ n, LastAttempt ds responseBody n := by
  by_cases hsome : ∃ n, n ≤ azureMaxRetries ∧
      azureIsRetryable (replyOf ds responseBody n).rc = false
  · classical
    have hfirst := fun i (hi : i < Nat.find hsome) => Nat.find_min hsome hi
    obtain ⟨hle, hstop⟩ := Nat.find_spec hsome
    refine ⟨Nat.find hsome, hle, fun i hi => ?_, .inr hstop⟩
    apply Bool.of_not_eq_false
    exact fun hno => hfirst i hi ⟨Nat.le_trans (Nat.le_of_lt hi) hle, hno⟩
  · refine ⟨azureMaxRetries, Nat.le_refl _, fun i hi => ?_, .inl rfl⟩
    apply Bool.of_not_eq_false
    exact fun hno => hsome ⟨i, Nat.le_of_lt hi, hno⟩

variable (ds responseBody)

/-- The caller gets the code, the headers, the body and the error of the last attempt, after at most
six attempts, exactly if what stands in the memory behind the bodies does not matter: before the
last attempt it leaves the error one for which one tries again, and in the last attempt it leaves
the code and the message of the error as they are in the body. -/
theorem retry_transparent_iff :
    Transparent ds random responseBody (executeWithRetry ds random responseBody) ↔
    ∀ n, LastAttempt ds responseBody n →
      (∀ i, i < n → (ds i).ReadsTransient (bufferOf ds responseBody i)) ∧
      (ds n).ReadsBody (bufferOf ds responseBody n) := by
  obtain ⟨m, hm, hall, hstop, hrun⟩ :=
    @executeWithRetryFrom_spec ds random responseBody azureMaxRetries 0
  simp only [Nat.zero_add] at hall hstop hrun
  have hrun : executeWithRetry ds random responseBody = _ := hrun
  constructor
  · rintro ⟨n', hlast', hreply, -, hslept⟩ n hlast
    obtain rfl := hlast.unique hlast'
    rw [hrun] at hreply hslept
    have hlength := congrArg List.length hslept
    simp only [List.length_map, List.length_range] at hlength
    subst hlength
    refine ⟨fun i hi => ?_, toldOf_eq_iff.mp hreply⟩
    exact (retryable_toldOf_iff (hlast.again i hi)).mp (hall i hi)
  · intro hclean
    obtain ⟨n, hlast⟩ : ∃ n, LastAttempt ds responseBody n := exists_lastAttempt
    obtain ⟨hagain, hbody⟩ := hclean n hlast
    have htold : toldOf ds responseBody n = replyOf ds responseBody n := toldOf_eq_iff.mpr hbody
    have hsame : m = n := by
      rcases Nat.lt_trichotomy m n with hlt | heq | hgt
      · -- the code stops too early
        have hretry := (retryable_toldOf_iff (hlast.again m hlt)).mpr (hagain m hlt)
        rcases hstop with rfl | hstop
        · exact absurd hlast.six (Nat.not_le.mpr hlt)
        · exact absurd (hstop.symm.trans hretry) Bool.false_ne_true
      · exact heq
      · -- the code goes on after the last attempt
        have hretry := hall n hgt
        rw [htold] at hretry
        rcases hlast.stop with rfl | hstop
        · exact absurd hm (Nat.not_le.mpr hgt)
        · exact absurd (hstop.symm.trans hretry) Bool.false_ne_true
    subst hsame
    rw [hrun]
    refine ⟨m, hlast, htold, content_bufferBefore_succ m, ?_⟩
    simp only [headers_toldOf]

end Request

/-- A busy server, and after that a proxy that does not find the blob. -/
def busyThenNotFound : Nat → Delivery
  | 0 =>
    .performed [] [⟨"<?xml version=1.0?><Error><Code>ServerBusy</Code></Error>".toList, some []⟩]
    .ok []
      503
  | _ => .performed [] [⟨"Not found".toList, none⟩] .ok [] 404

/-- The 404 is taken for a busy server: the request is tried four times more. -/
theorem retry_reads_leftover :
    ¬ Transparent busyThenNotFound (fun _ => 0) (some .init)
      (executeWithRetry busyThenNotFound (fun _ => 0) (some .init)) := by
  have hlast : LastAttempt busyThenNotFound (some .init) 1 := by
    refine ⟨by decide, fun i hi => ?_, .inr (by decide +kernel)⟩
    obtain rfl := Nat.lt_one_iff.mp hi
    decide +kernel
  rintro ⟨n, hn, -, -, hslept⟩
  obtain rfl := hn.unique hlast
  have hlength := congrArg List.length hslept
  exact absurd hlength (by decide +kernel)

end Http
end SqliteObjs

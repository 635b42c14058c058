import SqliteObjs.Azure.Client
import SqliteObjs.CS.Log

/-!
# The attempts of a transfer

A transfer of many pieces sends the pieces that are not done, takes the answers in the order
they came back, and tries again if the first error among them is a transient one. Here the
transfer also returns what it did, attempt by attempt, so that one can say what holds between
attempts: a piece that was answered with success is not sent again, and an attempt with a
permanent first error is the last one.

The ways a single request can end are `Outcome`; the client sees them as error codes.
-/

set_option autoImplicit false

namespace SqliteObjs

open CS CS.Program

/-! ## Outcomes -/

/-- How a request of a transfer can end: with an answer, or with an error of the transport. -/
inductive Outcome
  | http (status : Nat) (errorCode : String)
  | operationTimedout
  | couldntConnect
  | transport
  deriving DecidableEq

/-- `azure_classify_http_error`. -/
def azureClassifyHttpError (httpStatus : Nat) (errorCode : String) : AzErr :=
  if 200 ≤ httpStatus ∧ httpStatus < 300 then .ok
  else if httpStatus = 429 then .throttled
  else if httpStatus ∈ [408, 500, 502, 503, 504] then .server
  else if errorCode ∈ ["ServerBusy", "InternalError", "OperationTimedOut"] then .server
  else if httpStatus ∈ [401, 403] then .auth
  else if httpStatus = 404 then .notFound
  else if httpStatus = 409 then .conflict
  else if httpStatus = 412 then .precondition
  else .badRequest

namespace Outcome

/-- The error code the client makes of an outcome. -/
def err : Outcome → AzErr
  | .http status errorCode => azureClassifyHttpError status errorCode
  | .operationTimedout | .couldntConnect => .server
  | .transport => .network

/-- A success. -/
def Is2xx : Outcome → Prop
  | .http status _ => 200 ≤ status ∧ status < 300
  | _ => False

/-- A status that says to try again, or an error that does. -/
def Transient : Outcome → Prop
  | .http status errorCode => ¬ (200 ≤ status ∧ status < 300) ∧
      (status ∈ [408, 429, 500, 502, 503, 504] ∨
        errorCode ∈ ["ServerBusy", "InternalError", "OperationTimedOut"])
  | .operationTimedout | .couldntConnect => True
  | .transport => False

theorem err_eq_ok_iff (o : Outcome) : o.err = .ok ↔ o.Is2xx := by
  cases o with
  | http status errorCode =>
    unfold err Is2xx azureClassifyHttpError
    dsimp only
    by_cases h : 200 ≤ status ∧ status < 300
    · rw [if_pos h]
      exact iff_of_true rfl h
    · rw [if_neg h]
      refine iff_of_false ?_ h
      repeat' split
      all_goals simp
  | operationTimedout => simp [err, Is2xx]
  | couldntConnect => simp [err, Is2xx]
  | transport => simp [err, Is2xx]

/-- The client tries again exactly after transient outcomes. -/
theorem retryable_err_iff (o : Outcome) : azureIsRetryable o.err = true ↔ o.Transient := by
  cases o with
  | http status errorCode =>
    unfold err Transient azureClassifyHttpError
    dsimp only
    by_cases h : 200 ≤ status ∧ status < 300
    · rw [if_pos h]
      exact iff_of_false (by decide) fun ⟨hno, _⟩ => hno h
    rw [if_neg h]
    by_cases hthrottled : status = 429
    · rw [if_pos hthrottled]
      exact iff_of_true rfl ⟨h, Or.inl (by simp [hthrottled])⟩
    rw [if_neg hthrottled]
    by_cases hserver : status ∈ [408, 500, 502, 503, 504]
    · rw [if_pos hserver]
      refine iff_of_true rfl ⟨h, Or.inl ?_⟩
      simp only [List.mem_cons] at hserver ⊢
      tauto
    rw [if_neg hserver]
    by_cases hcode : errorCode ∈ ["ServerBusy", "InternalError", "OperationTimedOut"]
    · rw [if_pos hcode]
      exact iff_of_true rfl ⟨h, Or.inr hcode⟩
    rw [if_neg hcode]
    refine iff_of_false ?_ ?_
    · repeat' split
      all_goals decide
    · rintro ⟨-, hstatus | hcode'⟩
      · simp only [List.mem_cons] at hstatus hserver
        tauto
      · exact hcode hcode'
  | operationTimedout => exact iff_of_true rfl trivial
  | couldntConnect => exact iff_of_true rfl trivial
  | transport => exact iff_of_false (by decide) id

end Outcome

/-! ## Attempts -/

/-- What one attempt did: the pieces it sent in the order the service saw them, and the
answers in the order they came back. When the lease was lost none are taken. -/
structure Attempt where
  sent : List Nat
  reported : List (Nat × AzReply)
  leaseLost : Bool

namespace Attempt

/-- A piece was answered with success. -/
def Done (a : Attempt) (i : Nat) : Prop := ∃ m ∈ a.reported, m.1 = i ∧ m.2.err = .ok

/-- The first error of an attempt, if there is one. -/
def firstErr (a : Attempt) : AzErr := ((a.reported.map (·.2.err)).find? (· != .ok)).getD .ok

end Attempt

section Traced

variable {σ : Type} (send : List Nat → σ → Prog (Option (List (Nat × AzReply) × σ)))
  (note : List (Nat × AzReply) → σ → σ)

/-- `transfer`, with its attempts. -/
def transferTraced : Nat → List Nat → σ → Prog ((AzErr × σ) × List Attempt)
  | 0, _, s => return ((.io, s), [])
  | n + 1, pending, s => do
    let reqs ← sys (.malloc pending.length)
    if !reqs.ok then return ((.nomem, s), []) else
    let handles ← sys (.malloc pending.length)
    if !handles.ok then return ((.network, s), []) else
    let order ← shuffle pending
    match ← send order s with
    | none => return ((.leaseExpired, s), [⟨order, [], true⟩])
    | some (replies, s) =>
      let msgs ← shuffle replies
      let s := note msgs s
      let left := pending.filter fun i => !msgs.any fun m => m.1 == i && m.2.err == .ok
      let attempt : Attempt := ⟨order, msgs, false⟩
      if left = [] then return ((.ok, s), [attempt])
      else if !azureIsRetryable attempt.firstErr || n == 0 then
        return ((if attempt.firstErr = .ok then .io else attempt.firstErr, s), [attempt])
      else do
        let (res, log) ← transferTraced n left s
        return (res, attempt :: log)

/-- The transfer does the same without the trace. -/
theorem fst_transferTraced : ∀ (n : Nat) (pending : List Nat) (s : σ),
    Prod.fst <$> transferTraced send note n pending s = transfer send note n pending s
  | 0, _, _ => rfl
  | n + 1, pending, s => by
    unfold transferTraced transfer
    simp only [map_bind]
    congr 1
    funext reqs
    split
    · rfl
    simp only [map_bind]
    congr 1
    funext handles
    split
    · rfl
    simp only [map_bind]
    congr 1
    funext order
    congr 1
    funext sent
    cases sent with
    | none => rfl
    | some rs =>
      obtain ⟨replies, s'⟩ := rs
      simp only [map_bind]
      congr 1
      funext msgs
      rw [show ((msgs.map (·.2.err)).find? (· != .ok)).getD .ok =
        Attempt.firstErr ⟨order, msgs, false⟩ from rfl]
      split
      · rfl
      split
      · rfl
      · rw [map_bind, ← fst_transferTraced n, map_eq_pure_bind]
        rfl

end Traced

/-! ## What the attempts of a transfer are -/

/-- The attempts of a transfer of the pieces in `pending` that may try `n` times. -/
structure Attempts (n : Nat) (pending : List Nat) (e : AzErr) (log : List Attempt) : Prop where
  length : log.length ≤ n
  sent : ∀ a ∈ log, a.sent.Nodup ∧ ∀ i ∈ a.sent, i ∈ pending
  done : e = .ok → ∀ i ∈ pending, ∃ a ∈ log, a.Done i
  once : log.Pairwise fun a a' => ∀ i, a.Done i → i ∉ a'.sent
  again : log.Pairwise fun a _ => a.leaseLost = false ∧ azureIsRetryable a.firstErr = true

theorem attempts_nil {n : Nat} {pending : List Nat} {e : AzErr} (he : e ≠ .ok) :
    Attempts n pending e [] where
  length := Nat.zero_le _
  sent _ ha := absurd ha List.not_mem_nil
  done h := absurd h he
  once := .nil
  again := .nil

section Attempts

variable {A : (r : Req) → Ans r → Prop}

theorem returns_shuffle {β : Type} : ∀ l : List β, Returns A (fun l' => l'.Perm l) (shuffle l)
  | [] => .nil
  | a :: l => by
    unfold shuffle
    refine (returns_shuffle l).bind fun l' hl => ?_
    intro k _
    exact (List.perm_insertIdx a l' (Nat.min_le_right _ _)).trans (hl.cons a)

/-- A transfer keeps to its rules, whatever it is answered. -/
theorem returns_transferTraced {σ : Type}
    (send : List Nat → σ → Prog (Option (List (Nat × AzReply) × σ)))
    (note : List (Nat × AzReply) → σ → σ) : ∀ (n : Nat) (pending : List Nat) (s : σ),
    pending.Nodup → Returns A (fun r => Attempts n pending r.1.1 r.2)
      (transferTraced send note n pending s)
  | 0, _, _, _ => attempts_nil (by simp)
  | n + 1, pending, s, hnd => by
    unfold transferTraced
    intro reqs _
    refine .ite (attempts_nil (by simp)) ?_
    intro handles _
    refine .ite (attempts_nil (by simp)) ?_
    refine (returns_shuffle pending).bind fun order horder => ?_
    have hsent : order.Nodup ∧ ∀ i ∈ order, i ∈ pending :=
      ⟨horder.nodup_iff.mpr hnd, fun i hi => horder.mem_iff.mp hi⟩
    -- an attempt that is the last one
    have hlast : ∀ {e : AzErr} {a : Attempt}, a.sent = order → (e = .ok → ∀ i ∈ pending, a.Done i) →
        Attempts (n + 1) pending e [a] := by
      intro e a ha hdone
      refine ⟨by simp, fun a' ha' => ?_, fun h i hi => ⟨a, by simp, hdone h i hi⟩,
        List.pairwise_singleton _ _, List.pairwise_singleton _ _⟩
      rw [List.mem_singleton.mp ha', ha]
      exact hsent
    refine returns_bind _ fun res => ?_
    cases res with
    | none => exact hlast rfl fun h => by cases h
    | some rs =>
      obtain ⟨replies, s'⟩ := rs
      refine returns_bind _ fun msgs => ?_
      dsimp only
      generalize ha : Attempt.mk order msgs false = a
      have hsent' : a.sent = order := by rw [← ha]
      -- the pieces left are those without a success
      have hleft : ∀ i, i ∈
        pending.filter (fun i => !msgs.any fun m => m.1 == i && m.2.err == .ok) ↔
          i ∈ pending ∧ ¬ a.Done i := by
        intro i
        unfold Attempt.Done
        subst ha
        simp only [List.mem_filter, Bool.not_eq_true', List.any_eq_false,
          Bool.and_eq_true, beq_iff_eq]
        simp only [not_exists, not_and]
      generalize hl : pending.filter (fun i => !msgs.any fun m => m.1 == i && m.2.err == .ok) = left
        at hleft ⊢
      have hleftNd : left.Nodup := hl ▸ hnd.filter _
      split
      · next hnil =>
        refine hlast hsent' fun _ i hi => ?_
        by_contra hno
        have := (hleft i).mpr ⟨hi, hno⟩
        rw [hnil] at this
        exact List.not_mem_nil this
      split
      · next hstop =>
        refine hlast hsent' fun h => ?_
        split at h
        · cases h
        · next hne => exact absurd h hne
      next hagain =>
      -- the next attempt is handed what is left, so it sends nothing again that this one did
      refine (returns_transferTraced send note n left _ hleftNd).bind fun (res, log) h => ?_
      dsimp only at h ⊢
      have hin : ∀ i, i ∈ left → i ∈ pending := fun i hi => ((hleft i).mp hi).1
      refine ⟨?_, ?_, ?_, ?_, ?_⟩
      · have := h.length
        simp only [List.length_cons]
        omega
      · intro a' ha'
        rcases List.mem_cons.mp ha' with rfl | ha'
        · rw [hsent']
          exact hsent
        · exact ⟨(h.sent a' ha').1, fun i hi => hin i ((h.sent a' ha').2 i hi)⟩
      · intro hok i hi
        by_cases hd : a.Done i
        · exact ⟨a, List.mem_cons_self, hd⟩
        · obtain ⟨a', ha', hd'⟩ := h.done hok i ((hleft i).mpr ⟨hi, hd⟩)
          exact ⟨a', List.mem_cons_of_mem _ ha', hd'⟩
      · refine List.pairwise_cons.mpr ⟨fun a' ha' i hd hi => ?_, h.once⟩
        exact ((hleft i).mp ((h.sent a' ha').2 i hi)).2 hd
      · refine List.pairwise_cons.mpr ⟨fun a' _ => ⟨by rw [← ha], ?_⟩, h.again⟩
        simp only [Bool.or_eq_true, Bool.not_eq_true', beq_iff_eq, not_or] at hagain
        exact Bool.not_eq_false _ ▸ hagain.1

end Attempts

/-! ## A batch of page writes -/

/-- `azPageBlobWriteBatch`, with its attempts. -/
def azPageBlobWriteBatchTraced (b : BlobId) (ranges : List PageRange) (lease : Option LeaseId)
    (ifMatch : Option ETag) : Prog (AzReply × List Attempt) :=
  match ranges with
  | [] => return ({ err := .ok }, [])
  | [r] => do
    let x ← azPageBlobWrite b r.offset r.data lease ifMatch
    return (x, [])
  | ranges => do
    let e ← transferSetup ranges.length
    if e ≠ .ok then return ({ err := e }, []) else
    let (res, log) ← transferTraced
      (fun order s => do
        let start ← sys .time
        let replies ← batchSend b ranges lease ifMatch order start.n
        return replies.map (·, s))
      (fun msgs (s : Option ETag) =>
        msgs.foldl (fun s m => if m.2.err = .ok then m.2.etag.or s else s) s)
      (transferRetries + 1) (List.range ranges.length) none
    if res.1 = .ok then return ({ err := .ok, etag := res.2 }, log)
    else return ({ err := res.1 }, log)

/-- The batch does the same without the trace. -/
theorem fst_azPageBlobWriteBatchTraced (b : BlobId) (ranges : List PageRange)
    (lease : Option LeaseId)
    (ifMatch : Option ETag) : Prod.fst <$> azPageBlobWriteBatchTraced b ranges lease ifMatch =
      azPageBlobWriteBatch b ranges lease ifMatch := by
  match ranges with
  | [] => rfl
  | [r] =>
    unfold azPageBlobWriteBatchTraced azPageBlobWriteBatch
    rw [map_bind]
    exact Program.bind_ret _
  | r :: r' :: rs =>
    unfold azPageBlobWriteBatchTraced azPageBlobWriteBatch
    simp only [map_bind]
    congr 1
    funext e
    split
    · rfl
    rw [map_bind, ← fst_transferTraced, map_eq_pure_bind, LawfulMonad.bind_assoc]
    congr 1
    funext res
    obtain ⟨⟨e, etag⟩, log⟩ := res
    dsimp only
    by_cases he : e = .ok
    · rw [if_pos he]
      exact (if_pos he).symm
    · rw [if_neg he]
      exact (if_neg he).symm

/-! ## The page writes of a batch -/

def Req.isPageWrite : Req → Bool
  | .azure (.pageBlobWrite _ _ _ _ _) => true
  | _ => false

/-- Answer as `serve` does, and log the page writes. -/
abbrev pageWrites {W : Type} (serve : (r : Req) → W → Ans r → W → Prop) :
    (r : Req) → Logged W Ans → Ans r → Logged W Ans → Prop :=
  Logged.serveOf Req.isPageWrite serve

/-- The page writes of some pieces of a batch with their answers, oldest first. -/
def putPages (b : BlobId) (ranges : List PageRange) (lease : Option LeaseId) (ifMatch : Option ETag)
    (served : List (Nat × AzReply)) : List ((r : Req) × Ans r) :=
  served.filterMap fun s => ranges[s.1]?.map fun r =>
    ⟨.azure (.pageBlobWrite b r.offset r.data lease ifMatch), s.2⟩

/-- An attempt with the pieces whose page writes were served. Of an attempt that took answers
these are all it sent, and what it took are their answers; of one that lost the lease they are
some of them. -/
structure ServedAttempt extends Attempt where
  served : List (Nat × AzReply)
  sublist : (served.map Prod.fst).Sublist sent
  lost : leaseLost = true → reported = []
  all : leaseLost = false → served.map Prod.fst = sent ∧ reported.Perm served

section Log

variable {W : Type} {serve : (r : Req) → W → Ans r → W → Prop} {w : Logged W Ans} {b : BlobId}
  {ranges : List PageRange} {lease : Option LeaseId} {ifMatch : Option ETag}

/-- The page writes of `served` came on top of the log of `w`. -/
def Wrote (b : BlobId) (ranges : List PageRange) (lease : Option LeaseId) (ifMatch : Option ETag)
    (served : List (Nat × AzReply)) (w w' : Logged W Ans) : Prop :=
  w'.log = (putPages b ranges lease ifMatch served).reverse ++ w.log

theorem wrote_nil {w w' : Logged W Ans} (h : w'.log = w.log) :
    Wrote b ranges lease ifMatch [] w w' := h

theorem Wrote.trans {w w' w'' : Logged W Ans} {served served' : List (Nat × AzReply)}
    (h : Wrote b ranges lease ifMatch served w w')
    (h' : Wrote b ranges lease ifMatch served' w' w'') :
    Wrote b ranges lease ifMatch (served ++ served') w w'' := by
  unfold Wrote putPages at *
  rw [h', h, List.filterMap_append, List.reverse_append, List.append_assoc]

/-- One page write is answered. -/
theorem wrote_one {w w' : Logged W Ans} {i : Nat} {r : PageRange} {x : AzReply}
    (hr : ranges[i]? = some r)
    (hs : pageWrites serve (.azure (.pageBlobWrite b r.offset r.data lease ifMatch)) w x w') :
    Wrote b ranges lease ifMatch [(i, x)] w w' := by
  have hlog : w'.log = ⟨.azure (.pageBlobWrite b r.offset r.data lease ifMatch), x⟩ :: w.log := hs.2
  unfold Wrote putPages
  rw [hlog, List.filterMap_cons, hr]
  rfl

/-- Some of the abandoned requests are served, in their order. -/
theorem wp_batchAbandon_wrote : ∀ (order : List Nat) {w : Logged W Ans},
    wp (.alone (pageWrites serve)) (batchAbandon b ranges lease ifMatch order) (fun _ w' =>
      ∃ served, (served.map Prod.fst).Sublist order ∧ Wrote b ranges lease ifMatch served w w') w
  | [], w => wp_alone_ret.mpr ⟨[], .slnil, wrote_nil rfl⟩
  | i :: order, w => by
    have hskip : ∀ {w₁ : Logged W Ans}, w₁.log = w.log → wp (.alone (pageWrites serve))
        (batchAbandon b ranges lease ifMatch order) (fun _ w' => ∃ served,
          (served.map Prod.fst).Sublist (i :: order) ∧ Wrote b ranges lease ifMatch served w w')
          w₁ := by
      intro w₁ hlog
      refine wp_mono ?_ (wp_batchAbandon_wrote order)
      rintro _ w' ⟨served, hsub, hwrote⟩
      exact ⟨served, hsub.cons i, (wrote_nil hlog).trans hwrote⟩
    unfold batchAbandon
    apply wp_alone_call.mpr
    intro n w₁ hs
    have hlog : w₁.log = w.log := hs.2
    cases hr : ranges[i]? with
    | none =>
      show wp _ (batchAbandon b ranges lease ifMatch order) _ w₁
      exact hskip hlog
    | some r =>
      show wp _ (if n.n = 0 then _ else _) _ w₁
      split
      · exact hskip hlog
      apply wp_alone_call.mpr
      intro x w₂ hs
      refine wp_mono ?_ (wp_batchAbandon_wrote order)
      rintro _ w' ⟨served, hsub, hwrote⟩
      refine ⟨(i, x) :: served, hsub.cons_cons i, ?_⟩
      exact ((wrote_nil hlog).trans (wrote_one hr hs)).trans hwrote

/-- The event loop writes its pieces in their order, and what it takes are their answers; where
the lease is lost it takes none, and some of them are written. -/
theorem wp_batchSend_wrote : ∀ (order : List Nat) (lastRenewal : Nat) {w : Logged W Ans},
    (∀ i ∈ order, i < ranges.length) →
    wp (.alone (pageWrites serve)) (batchSend b ranges lease ifMatch order lastRenewal)
      (fun r w' => ∃ served, Wrote b ranges lease ifMatch served w w' ∧
        (served.map Prod.fst).Sublist order ∧
        ∀ replies, r = some replies → served = replies ∧ served.map Prod.fst = order) w
  | [], _, w, _ => by
    refine wp_alone_ret.mpr ⟨[], wrote_nil rfl, .slnil, ?_⟩
    rintro _ ⟨⟩
    exact ⟨rfl, rfl⟩
  | i :: order, lastRenewal, w, hin => by
    have hr : ranges[i]? = some (ranges.get ⟨i, hin i List.mem_cons_self⟩) :=
      List.getElem?_eq_getElem _
    generalize ranges.get ⟨i, hin i List.mem_cons_self⟩ = r at hr
    unfold batchSend
    rw [hr]
    apply wp_alone_call.mpr
    intro x w₁ hs
    have hfirst := wrote_one hr hs
    show wp _ (batchRenewLease b lease lastRenewal >>= _) _ w₁
    rw [wp_bind]
    refine wp_mono ?_ (Logged.wp_serveOf
      (within_batchRenewLease (fun _ => rfl) (fun _ => rfl) lease lastRenewal))
    rintro renewed w₂ ⟨-, hlog⟩
    have hfirst := hfirst.trans (wrote_nil hlog)
    cases renewed with
    | none =>
      -- the lease is lost
      show wp _ (batchAbandon b ranges lease ifMatch order >>= _) _ w₂
      rw [wp_bind]
      refine wp_mono ?_ (wp_batchAbandon_wrote order)
      rintro _ w' ⟨served, hsub, hwrote⟩
      refine wp_alone_ret.mpr ⟨(i, x) :: served, hfirst.trans hwrote, hsub.cons_cons i, ?_⟩
      intro replies h
      cases h
    | some t =>
      show wp _ (batchSend b ranges lease ifMatch order t >>= _) _ w₂
      rw [wp_bind]
      refine wp_mono ?_ (wp_batchSend_wrote order t fun j hj => hin j (List.mem_cons_of_mem _ hj))
      rintro rest w' ⟨served, hwrote, hsub, hrest⟩
      refine wp_alone_ret.mpr ⟨(i, x) :: served, hfirst.trans hwrote, hsub.cons_cons i, ?_⟩
      intro replies h
      obtain ⟨replies', rfl, rfl⟩ := Option.map_eq_some_iff.mp h
      obtain ⟨rfl, hall⟩ := hrest replies' rfl
      exact ⟨rfl, congrArg (i :: ·) hall⟩

theorem wp_shuffle_wrote {β : Type} (l : List β) : wp (.alone (pageWrites serve)) (shuffle l)
    (fun l' w' => l'.Perm l ∧ w'.log = w.log) w := by
  have hperm : wp (.alone (pageWrites serve)) (shuffle l) (fun l' _ => l'.Perm l) w :=
    (returns_shuffle l).wp_alone (A := fun _ _ => True) fun _ _ _ _ _ => trivial
  refine wp_mono ?_ (wp_and hperm (Logged.wp_serveOf (within_shuffle (fun _ => rfl) l)))
  rintro l' w' ⟨hp, -, hlog⟩
  exact ⟨hp, hlog⟩

/-- What a transfer wrote are the page writes of its attempts, one attempt after the other. -/
theorem wp_transferTraced_wrote {σ : Type}
    {send : List Nat → σ → Prog (Option (List (Nat × AzReply) × σ))}
    {note : List (Nat × AzReply) → σ → σ}
    (hsend : ∀ (order : List Nat) (s : σ) (w : Logged W Ans), (∀ i ∈ order, i < ranges.length) →
      wp (.alone (pageWrites serve)) (send order s) (fun r w' => ∃ served,
        Wrote b ranges lease ifMatch served w w' ∧ (served.map Prod.fst).Sublist order ∧
        ∀ replies s', r = some (replies, s') → served = replies ∧ served.map Prod.fst = order) w) :
    ∀ (n : Nat) (pending : List Nat) (s : σ) {w : Logged W Ans},
    (∀ i ∈ pending, i < ranges.length) →
      wp (.alone (pageWrites serve)) (transferTraced send note n pending s) (fun r w' =>
        ∃ as : List ServedAttempt, as.map ServedAttempt.toAttempt = r.2 ∧
          Wrote b ranges lease ifMatch (as.flatMap ServedAttempt.served) w w') w
  | 0, _, _, w, _ => wp_alone_ret.mpr ⟨[], rfl, wrote_nil rfl⟩
  | n + 1, pending, s, w, hin => by
    have hstop : ∀ {res : AzErr × σ} {w₁ : Logged W Ans}, w₁.log = w.log →
        wp (.alone (pageWrites serve)) (.ret (res, [])) (fun r w' =>
          ∃ as : List ServedAttempt, as.map ServedAttempt.toAttempt = r.2 ∧
            Wrote b ranges lease ifMatch (as.flatMap ServedAttempt.served) w w') w₁ :=
      fun hlog => wp_alone_ret.mpr ⟨[], rfl, wrote_nil hlog⟩
    unfold transferTraced
    apply wp_alone_call.mpr
    intro reqs w₁ hs
    have hlog₁ : w₁.log = w.log := hs.2
    show wp _ (if !SysReply.ok reqs then _ else _) _ w₁
    split
    · exact hstop hlog₁
    apply wp_alone_call.mpr
    intro handles w₂ hs
    have hlog₂ : w₂.log = w.log := (show w₂.log = w₁.log from hs.2).trans hlog₁
    show wp _ (if !SysReply.ok handles then _ else _) _ w₂
    split
    · exact hstop hlog₂
    show wp _ (shuffle pending >>= _) _ w₂
    rw [wp_bind]
    refine wp_mono ?_ (wp_shuffle_wrote pending)
    rintro order w₃ ⟨horder, hlog⟩
    have hstart : Wrote b ranges lease ifMatch [] w w₃ := wrote_nil (hlog.trans hlog₂)
    rw [wp_bind]
    refine wp_mono ?_ (hsend order s w₃ fun i hi => hin i (horder.mem_iff.mp hi))
    rintro res w₄ ⟨served, hwrote, hsub, hres⟩
    have hsent := hstart.trans hwrote
    cases res with
    | none =>
      -- the lease is lost: some of the requests removed with it were served
      refine wp_alone_ret.mpr ⟨[⟨⟨order, [], true⟩, served, hsub, fun _ => rfl, ?_⟩], rfl, ?_⟩
      · intro h
        cases h
      · rw [List.flatMap_singleton]
        exact hsent
    | some rs =>
      obtain ⟨replies, s'⟩ := rs
      obtain ⟨rfl, hall⟩ := hres replies s' rfl
      show wp _ (shuffle served >>= _) _ w₄
      rw [wp_bind]
      refine wp_mono ?_ (wp_shuffle_wrote served)
      rintro msgs w₅ ⟨hmsgs, hlog⟩
      -- the loop takes the answers in another order than the service gave them
      have hsent := hsent.trans (wrote_nil hlog)
      rw [List.nil_append, List.append_nil] at hsent
      let a : ServedAttempt := ⟨⟨order, msgs, false⟩, served, hsub,
        fun h => Bool.noConfusion h, fun _ => ⟨hall, hmsgs⟩⟩
      have hone : Wrote b ranges lease ifMatch ([a].flatMap ServedAttempt.served) w w₅ := by
        rw [List.flatMap_singleton]
        exact hsent
      dsimp only
      split
      · exact wp_alone_ret.mpr ⟨[a], rfl, hone⟩
      split
      · exact wp_alone_ret.mpr ⟨[a], rfl, hone⟩
      -- the attempts that follow come on top of the log
      rw [wp_bind]
      refine wp_mono ?_ (wp_transferTraced_wrote hsend n _ _ fun i hi =>
        hin i (List.mem_of_mem_filter hi))
      rintro ⟨res, log⟩ w' ⟨as, has, hwrote⟩
      refine wp_alone_ret.mpr ⟨a :: as, congrArg (a.toAttempt :: ·) has, ?_⟩
      rw [List.flatMap_cons]
      exact hsent.trans hwrote

end Log

/-! ## The rules of a batch -/

/-- The piece was answered in this attempt, with an outcome like `o`. -/
def ServedAttempt.Saw (a : ServedAttempt) (i : Nat) (o : Outcome) : Prop :=
  ∃ x : AzReply, (i, x) ∈ a.served ∧ x.err = o.err

/-- The first error the attempt reported is an outcome like `o`. -/
def Attempt.FirstError (a : Attempt) (o : Outcome) : Prop :=
  (a.reported.map (·.2.err)).find? (· != .ok) = some o.err

/-- The rules for a batch of `n` ranges: success only if each range was answered with a 2xx, no
range sent again after that, none sent more than four times, and no further attempt after a
lost lease or a first error that is not transient. -/
structure SoundRetry (n : Nat) (r : AzReply) (as : List ServedAttempt) : Prop where
  success : r.err = .ok → ∀ i, i < n → ∃ a ∈ as, ∃ o : Outcome, o.Is2xx ∧ a.Saw i o
  sent : ∀ a ∈ as, a.sent.Nodup ∧ ∀ i ∈ a.sent, i < n
  once : as.Pairwise fun a a' => ∀ i (o : Outcome), o.Is2xx → a.Saw i o → i ∉ a'.sent
  bounded : ∀ i, (as.map fun a => a.sent.count i).sum ≤ 4
  stops : as.Pairwise fun a _ => a.leaseLost = false ∧ ∀ o : Outcome, a.FirstError o → o.Transient

/-- What an attempt took was served, and all that was served unless the lease was lost. -/
theorem ServedAttempt.mem_served {a : ServedAttempt} {m : Nat × AzReply} (h : m ∈ a.reported) :
    m ∈ a.served := by
  cases hlost : a.leaseLost with
  | true =>
    rw [a.lost hlost] at h
    cases h
  | false => exact (a.all hlost).2.mem_iff.mp h

theorem ServedAttempt.done_of_saw {a : ServedAttempt} {i : Nat} {o : Outcome} (ho : o.Is2xx)
    (hlost : a.leaseLost = false) (h : a.Saw i o) : a.Done i := by
  obtain ⟨x, hx, herr⟩ := h
  exact ⟨(i, x), (a.all hlost).2.mem_iff.mpr hx, rfl, herr.trans (o.err_eq_ok_iff.mpr ho)⟩

theorem ServedAttempt.saw_of_done {a : ServedAttempt} {i : Nat} (h : a.Done i) :
    ∃ o : Outcome, o.Is2xx ∧ a.Saw i o := by
  obtain ⟨⟨_, x⟩, hx, rfl, hok⟩ := h
  have h2xx : (Outcome.http 201 "").Is2xx := ⟨by decide, by decide⟩
  exact ⟨_, h2xx, x, a.mem_served hx, hok.trans ((Outcome.err_eq_ok_iff _).mpr h2xx).symm⟩

theorem sum_count_le (log : List Attempt) (h : ∀ a ∈ log, a.sent.Nodup) (i : Nat) :
    (log.map fun a => a.sent.count i).sum ≤ log.length := by
  induction log with
  | nil => exact Nat.le_refl _
  | cons a log ih =>
    have hle := List.nodup_iff_count_le_one.mp (h a List.mem_cons_self) i
    have := ih fun a' ha' => h a' (List.mem_cons_of_mem _ ha')
    simp only [List.map_cons, List.sum_cons, List.length_cons]
    omega

/-- The attempts of a batch are sound. -/
theorem Attempts.soundRetry {n : Nat} {r : AzReply} {as : List ServedAttempt}
    (h : Attempts 4 (List.range n) r.err (as.map ServedAttempt.toAttempt)) : SoundRetry n r as where
  success hok i hi := by
    obtain ⟨a, ha, hd⟩ := h.done hok i (List.mem_range.mpr hi)
    obtain ⟨a', ha', rfl⟩ := List.mem_map.mp ha
    exact ⟨a', ha', a'.saw_of_done hd⟩
  sent a ha := by
    obtain ⟨hnd, hin⟩ := h.sent a.toAttempt (List.mem_map_of_mem ha)
    exact ⟨hnd, fun i hi => List.mem_range.mp (hin i hi)⟩
  once := by
    have hnot := (List.pairwise_map.mp h.once).and (List.pairwise_map.mp h.again)
    exact hnot.imp fun {a a'} ⟨hnot, hlost, _⟩ i o ho hs => hnot i (a.done_of_saw ho hlost hs)
  bounded i := by
    have hle := sum_count_le (as.map ServedAttempt.toAttempt) (fun a ha => (h.sent a ha).1) i
    rw [List.map_map] at hle
    exact Nat.le_trans hle h.length
  stops := (List.pairwise_map.mp h.again).imp fun {a _} ⟨hlease, hretry⟩ => ⟨hlease, fun o ho => by
    rw [← o.retryable_err_iff]
    have hfirst : a.toAttempt.firstErr = o.err := by
      unfold Attempt.firstErr
      rw [show _ = some o.err from ho]
      rfl
    rw [← hfirst]
    exact hretry⟩

section Batch

variable {A : (r : Req) → Ans r → Prop} {W : Type} {serve : (r : Req) → W → Ans r → W → Prop}
  {w : Logged W Ans} {ranges : List PageRange}

/-- A batch of at least two ranges is a transfer. -/
theorem returns_azPageBlobWriteBatchTraced (b : BlobId) (lease : Option LeaseId)
    (ifMatch : Option ETag) (htwo : 2 ≤ ranges.length) :
    Returns A (fun r => Attempts 4 (List.range ranges.length) r.1.err r.2)
      (azPageBlobWriteBatchTraced b ranges lease ifMatch) := by
  match ranges, htwo with
  | r :: r' :: rs, _ =>
    unfold azPageBlobWriteBatchTraced
    refine returns_bind _ fun e => ?_
    split
    · next he => exact attempts_nil he
    refine (returns_transferTraced _ _ _ _ _ List.nodup_range).bind fun ⟨⟨e, etag⟩, log⟩ h => ?_
    dsimp only at h ⊢
    split
    · next he => exact he ▸ h
    · exact h

/-- One attempt of a batch. -/
theorem wp_batchAttempt_wrote {b : BlobId} {lease : Option LeaseId} {ifMatch : Option ETag}
    (order : List Nat) (s : Option ETag) (w : Logged W Ans) (hin : ∀ i ∈ order, i < ranges.length) :
    wp (.alone (pageWrites serve))
      (do
        let start ← sys .time
        let replies ← batchSend b ranges lease ifMatch order start.n
        return replies.map (·, s))
      (fun r w' => ∃ served, Wrote b ranges lease ifMatch served w w' ∧
        (served.map Prod.fst).Sublist order ∧
        ∀ replies s', r = some (replies, s') → served = replies ∧ served.map Prod.fst = order)
        w := by
  apply wp_alone_call.mpr
  intro start w₁ hs
  have hlog : w₁.log = w.log := hs.2
  show wp _ (batchSend b ranges lease ifMatch order _ >>= _) _ w₁
  rw [wp_bind]
  refine wp_mono ?_ (wp_batchSend_wrote order _ hin)
  rintro res w' ⟨served, hwrote, hsub, hall⟩
  refine wp_alone_ret.mpr ⟨served, (wrote_nil hlog).trans hwrote, hsub, ?_⟩
  intro replies s' h
  obtain ⟨replies', rfl, heq⟩ := Option.map_eq_some_iff.mp h
  obtain ⟨rfl, -⟩ := Prod.mk.inj heq
  exact hall replies' rfl

theorem wp_azPageBlobWriteBatchTraced_wrote (b : BlobId) (lease : Option LeaseId)
    (ifMatch : Option ETag) (htwo : 2 ≤ ranges.length) :
    wp (.alone (pageWrites serve)) (azPageBlobWriteBatchTraced b ranges lease ifMatch) (fun r w' =>
      ∃ as : List ServedAttempt, as.map ServedAttempt.toAttempt = r.2 ∧
        Wrote b ranges lease ifMatch (as.flatMap ServedAttempt.served) w w') w := by
  match ranges, htwo with
  | r :: r' :: rs, _ =>
    unfold azPageBlobWriteBatchTraced
    dsimp only
    rw [wp_bind]
    refine wp_mono ?_ (Logged.wp_serveOf (within_transferSetup fun _ => rfl))
    rintro e w₁ ⟨-, hlog⟩
    split
    · exact wp_alone_ret.mpr ⟨[], rfl, wrote_nil hlog⟩
    rw [wp_bind]
    refine wp_mono ?_ (wp_transferTraced_wrote wp_batchAttempt_wrote _ _ _
      fun i hi => List.mem_range.mp hi)
    rintro ⟨⟨e, etag⟩, log⟩ w' ⟨as, has, hwrote⟩
    have hwrote := (wrote_nil hlog).trans hwrote
    dsimp only
    split
    · exact wp_alone_ret.mpr ⟨as, has, hwrote⟩
    · exact wp_alone_ret.mpr ⟨as, has, hwrote⟩

end Batch

/-- A batch of at least two ranges keeps to the rules in every run, whoever answers: the program
with the trace is the batch itself, the page writes that were answered are those of its attempts
in their order, and the attempts are sound. -/
theorem batch_retry_sound (b : BlobId) {ranges : List PageRange} (lease : Option LeaseId)
    (ifMatch : Option ETag) (htwo : 2 ≤ ranges.length) :
    Prod.fst <$> azPageBlobWriteBatchTraced b ranges lease ifMatch =
      azPageBlobWriteBatch b ranges lease ifMatch ∧
    ∀ {W : Type} (serve : (r : Req) → W → Ans r → W → Prop) (w : W) (r : AzReply)
      (attempts : List Attempt) (w' : Logged W Ans),
      Runs (pageWrites serve) (azPageBlobWriteBatchTraced b ranges lease ifMatch) ⟨w, []⟩
        (r, attempts) w' →
      ∃ as : List ServedAttempt, as.map ServedAttempt.toAttempt = attempts ∧
        w'.log.reverse = putPages b ranges lease ifMatch (as.flatMap ServedAttempt.served) ∧
        SoundRetry ranges.length r as := by
  refine ⟨fst_azPageBlobWriteBatchTraced b ranges lease ifMatch, ?_⟩
  intro W serve w r attempts w' hr
  have hattempts : Attempts 4 (List.range ranges.length) r.err attempts :=
    (returns_azPageBlobWriteBatchTraced (A := fun _ _ => True) b lease ifMatch htwo).of_runs
      (fun _ _ _ _ _ => trivial) hr
  obtain ⟨as, has, hwrote⟩ :=
    wp_alone_iff.mp (wp_azPageBlobWriteBatchTraced_wrote b lease ifMatch htwo) _ _ hr
  have hattempts : Attempts 4 (List.range ranges.length) r.err
      (as.map ServedAttempt.toAttempt) := by
    rw [has]
    exact hattempts
  refine ⟨as, has, ?_, hattempts.soundRetry⟩
  rw [show w'.log = _ from hwrote, List.append_nil, List.reverse_reverse]

/-- An account with an empty page blob of two sectors. -/
def twoSectorWorld : World :=
  { World.new with
    azure := World.new.azure.create ⟨0, "db"⟩ (Data.SparseFile.empty.truncate 1024) }

/-- Two sectors. -/
def twoSectors : List PageRange :=
  [⟨0, Data.SparseFile.empty.truncate 512⟩, ⟨512, Data.SparseFile.empty.truncate 512⟩]

/-- Two sectors in a batch, where the server is busy for the second one: the second attempt sends
it again and succeeds. -/
theorem batch_retry_sound_busy : ∃ r attempts w' as,
    Runs (pageWrites (Served (fun _ => True) World.respond))
      (azPageBlobWriteBatchTraced ⟨0, "db"⟩ twoSectors none none) ⟨twoSectorWorld, []⟩
      (r, attempts) w' ∧
    r.err = .ok ∧ attempts.map Attempt.sent = [[0, 1], [1]] ∧
    as.map ServedAttempt.toAttempt = attempts ∧
    w'.log.reverse = putPages ⟨0, "db"⟩ twoSectors none none (as.flatMap ServedAttempt.served) ∧
    SoundRetry 2 r as := by
  obtain ⟨r, attempts, w₁, hr, hok, hsent⟩ : ∃ r attempts w₁,
      Runs (Served (fun _ => True) World.respond)
        (azPageBlobWriteBatchTraced ⟨0, "db"⟩ twoSectors none none) twoSectorWorld
        (r, attempts) w₁ ∧ r.err = .ok ∧ attempts.map Attempt.sent = [[0, 1], [1]] :=
    ⟨_, _, _, runs_of_exec (List.replicate 8 ({} : Choice) ++ { fault := some (.server, false) } ::
      List.replicate 8 ({} : Choice)) (fun _ _ => trivial) rfl, rfl, rfl⟩
  obtain ⟨log, hlogged⟩ := Logged.exists_runs_of Req.isPageWrite hr []
  obtain ⟨as, has, hwrote, hsound⟩ :=
    (batch_retry_sound ⟨0, "db"⟩ none none (show 2 ≤ twoSectors.length by decide)).2
      _ _ _ _ _ hlogged
  exact ⟨r, attempts, _, as, hlogged, hok, hsent, has, hwrote, hsound⟩

end SqliteObjs

import SqliteObjs.CS.Session
import SqliteObjs.Vfs.Open

/-!
# Proof rules for programs of the VFS

Rules for the requests of the VFS and for the loops of the Azure client, over any
setting: what the others may do between two requests is the setting's rely.

* `wp_azure_bind`, `wp_sys_bind`: one request, from a fact the others keep.
* `wp_quiet_bind`: allocation, time and order, which touch nothing.
* `wp_executeWithRetry`: the retry loop.
* `wp_transfer`: the attempts of a transfer of many pieces.
-/

set_option autoImplicit false

namespace SqliteObjs

open CS CS.Program

/-- System calls that only tell the program something. -/
def SysReq.isQuiet : SysReq → Bool
  | .malloc _ | .time | .pick _ | .uninit => true
  | _ => false

section Rules

variable {W α : Type} {E : Setting W Ans} {w : W}

/-- A fact the others keep. -/
def Stable (E : Setting W Ans) (P : W → Prop) : Prop := ∀ w w', E.rely w w' → P w → P w'

/-- The quiet system calls leave the world alone. -/
def Quiet (E : Setting W Ans) : Prop :=
  ∀ r : SysReq, r.isQuiet = true → ∀ w (x : SysReply) w', E.serve (.sys r) w x w' →
    w' = w ∧ E.guar w w

theorem wp_azure_bind {r : AzReq} {f : AzReply → Prog α} {Q : α → W → Prop} {P : W → Prop}
    (hP : P w) (hst : Stable E P)
    (h : ∀ w (x : AzReply) w', P w → E.serve (.azure r) w x w' →
      E.guar w w' ∧ wp E (f x) Q w') : wp E (azure r >>= f) Q w :=
  fun w₁ hw x w₂ hs => h w₁ x w₂ (hst w w₁ hw hP) hs

theorem wp_sys_bind {r : SysReq} {f : SysReply → Prog α} {Q : α → W → Prop} {P : W → Prop}
    (hP : P w) (hst : Stable E P)
    (h : ∀ w (x : SysReply) w', P w → E.serve (.sys r) w x w' →
      E.guar w w' ∧ wp E (f x) Q w') : wp E (sys r >>= f) Q w :=
  fun w₁ hw x w₂ hs => h w₁ x w₂ (hst w w₁ hw hP) hs

theorem wp_quiet_bind (hE : Quiet E) {r : SysReq} (hr : r.isQuiet = true)
    {f : SysReply → Prog α} {Q : α → W → Prop}
    (h : ∀ x : SysReply, (∃ w₁ w₂, E.serve (.sys r) w₁ x w₂) → wp E (f x) Q w) :
    wp E (sys r >>= f) Q w := by
  intro w₁ hw x w₂ hs
  obtain ⟨rfl, hg⟩ := hE r hr w₁ x w₂ hs
  exact ⟨hg, wp_stable hw (h x ⟨_, _, hs⟩)⟩

theorem wp_ret_of {a : α} {Q : α → W → Prop} {P : W → Prop} (hP : P w) (hst : Stable E P)
    (h : ∀ w, P w → Q a w) : wp E (.ret a) Q w :=
  fun w₁ hw => h w₁ (hst w w₁ hw hP)

theorem stable_and {P P' : W → Prop} (h : Stable E P) (h' : Stable E P') :
    Stable E fun w => P w ∧ P' w :=
  fun w w' hw hP => ⟨h w w' hw hP.1, h' w w' hw hP.2⟩

/-- Allocation never fails. -/
def Allocates (E : Setting W Ans) : Prop :=
  ∀ n w (x : SysReply) w', E.serve (.sys (.malloc n)) w x w' → x.ok = true

theorem Allocates.ok (h : Allocates E) {n : Nat} {x : SysReply}
    (hx : ∃ w₁ w₂, E.serve (.sys (.malloc n)) w₁ x w₂) : x.ok = true := by
  obtain ⟨w₁, w₂, hx⟩ := hx
  exact h n w₁ x w₂ hx

/-! ## The retry loop -/

/-- What one attempt preserves holds before each further attempt. -/
theorem wp_executeWithRetry {r : AzReq} {I : W → Prop} {Q : AzReply → W → Prop}
    (hI : Stable E I) (hQ : ∀ x, Stable E (Q x))
    (hstep : ∀ w (x : AzReply) w', I w → E.serve (.azure r) w x w' →
      E.guar w w' ∧ (azureIsRetryable x.err = true → I w') ∧ Q x w') (n : Nat) :
    ∀ {w}, I w → wp E (executeWithRetry r n) Q w := by
  induction n with
  | zero =>
    intro w hw
    refine wp_azure_bind (f := .ret) hw hI fun w x w' hP hs => ?_
    obtain ⟨hg, -, hq⟩ := hstep w x w' hP hs
    exact ⟨hg, wp_ret_of hq (hQ x) fun _ h => h⟩
  | succ n ih =>
    intro w hw
    unfold executeWithRetry
    refine wp_azure_bind hw hI fun w x w' hP hs => ?_
    obtain ⟨hg, hI', hq⟩ := hstep w x w' hP hs
    refine ⟨hg, ?_⟩
    split
    · exact wp_ret_of hq (hQ x) fun _ h => h
    · split
      · exact wp_ret_of hq (hQ x) fun _ h => h
      · next hr => exact ih (hI' (by simpa using hr))

theorem wp_execute {r : AzReq} {I : W → Prop} {Q : AzReply → W → Prop}
    (hI : Stable E I) (hQ : ∀ x, Stable E (Q x)) (hw : I w)
    (hstep : ∀ w (x : AzReply) w', I w → E.serve (.azure r) w x w' →
      E.guar w w' ∧ (azureIsRetryable x.err = true → I w') ∧ Q x w') :
    wp E (execute r) Q w :=
  wp_executeWithRetry hI hQ hstep azureMaxRetries hw

theorem wp_execute_bind {r : AzReq} {f : AzReply → Prog α} {I : W → Prop} {Q : α → W → Prop}
    (hI : Stable E I) (hw : I w)
    (hstep : ∀ w (x : AzReply) w', I w → E.serve (.azure r) w x w' →
      E.guar w w' ∧ (azureIsRetryable x.err = true → I w') ∧ wp E (f x) Q w') :
    wp E (execute r >>= f) Q w :=
  wp_bind.mpr (wp_execute hI (fun _ _ _ h hq => wp_stable h hq) hw hstep)

/-! ## Transfers -/

/-- An order nobody controls is a permutation. -/
theorem wp_shuffle {β : Type} (hE : Quiet E) : ∀ (l : List β) {Q : List β → W → Prop} {w : W},
    (∀ l', l'.Perm l → Stable E (Q l') ∧ Q l' w) → wp E (shuffle l) Q w
  | [], Q, w, h => wp_ret_of (h [] .nil).2 (h [] .nil).1 fun _ hq => hq
  | a :: l, Q, w, h => by
    unfold shuffle
    rw [wp_bind]
    refine wp_shuffle hE l fun l' hl => ⟨fun _ _ hw hq => wp_stable hw hq, ?_⟩
    refine wp_quiet_bind hE rfl fun k _ => ?_
    have hp : (l'.insertIdx (min k.n l'.length) a).Perm (a :: l) :=
      (List.perm_insertIdx a l' (Nat.min_le_right _ _)).trans (hl.cons a)
    exact wp_ret_of (h _ hp).2 (h _ hp).1 fun _ hq => hq

section Transfer

variable {σ : Type} {send : List Nat → σ → Prog (Option (List (Nat × AzReply) × σ))}
  {note : List (Nat × AzReply) → σ → σ}

/-- The pieces that are done after some answers came in. -/
def doneBy (A : Nat → Prop) (msgs : List (Nat × AzReply)) (i : Nat) : Prop :=
  A i ∨ ∃ m ∈ msgs, m.1 = i ∧ m.2.err = .ok

variable (note) in
/-- The attempts of a transfer of pieces in `P`. `J A s` says that the pieces of `A` are
done; one attempt sends pieces that are not, each once, and extends `A` by those that were
answered with success. A transfer that succeeds did all its pieces. -/
theorem wp_transfer_of (hE : Quiet E) {J : (Nat → Prop) → σ → W → Prop} {P : Nat → Prop}
    (hJ : ∀ A s, Stable E (J A s))
    (hmono : ∀ {A B s w}, (∀ i, B i → A i) → J A s w → J B s w)
    (hsend : ∀ A order s w, order.Nodup → (∀ i ∈ order, ¬ A i) → (∀ i ∈ order, P i) → J A s w →
      wp E (send order s) (fun r w' => (r = none → J A s w') ∧
      ∀ replies s', r = some (replies, s') → ∀ msgs, msgs.Perm replies →
        J (doneBy A msgs) (note msgs s') w') w) (n : Nat) :
    ∀ (A : Nat → Prop) (pending : List Nat) (s : σ) {w : W}, pending.Nodup →
      (∀ i ∈ pending, ¬ A i) → (∀ i ∈ pending, P i) → J A s w →
      wp E (transfer send note n pending s) (fun r w' => J A r.2 w' ∧
        (r.1 = .ok → J (fun i => A i ∨ i ∈ pending) r.2 w')) w := by
  induction n with
  | zero =>
    intro A pending s w _ _ _ h
    exact wp_ret_of h (hJ A s) fun w' h' => ⟨h', fun e => by simp at e⟩
  | succ n ih =>
    intro A pending s w hnd hnew hP h
    have hfail : ∀ {e : AzErr} {s : σ} {w : W}, e ≠ .ok → J A s w →
        wp E (.ret (e, s)) (fun r w' => J A r.2 w' ∧
          (r.1 = .ok → J (fun i => A i ∨ i ∈ pending) r.2 w')) w := by
      intro e s w he hj
      exact wp_ret_of hj (hJ A s) fun w' h' => ⟨h', fun e' => absurd e' he⟩
    unfold transfer
    refine wp_quiet_bind hE rfl fun reqs _ => ?_
    split
    · exact hfail (by decide) h
    refine wp_quiet_bind hE rfl fun handles _ => ?_
    split
    · exact hfail (by decide) h
    rw [wp_bind]
    refine wp_shuffle hE pending fun order hp => ⟨fun _ _ hw hq => wp_stable hw hq, ?_⟩
    rw [wp_bind]
    refine wp_mono ?_ (hsend A order s w (hp.nodup_iff.mpr hnd)
      (fun i hi => hnew i (hp.mem_iff.mp hi)) (fun i hi => hP i (hp.mem_iff.mp hi)) h)
    rintro (_ | ⟨replies, s'⟩) w₁ ⟨hnone, hsome⟩
    · exact hfail (by decide) (hnone rfl)
    · dsimp only
      rw [wp_bind]
      refine wp_shuffle hE replies fun msgs hp => ⟨fun _ _ hw hq => wp_stable hw hq, ?_⟩
      have hj := hsome replies s' rfl msgs hp
      have hA : J A (note msgs s') w₁ := hmono (fun i hi => Or.inl hi) hj
      split
      · next hleft =>
        -- every piece was answered with success
        refine wp_ret_of hj (hJ _ _) fun w' h' => ⟨hmono (fun i hi => Or.inl hi) h', fun _ => ?_⟩
        refine hmono ?_ h'
        rintro i (hi | hi)
        · exact Or.inl hi
        · have hi' := (List.filter_eq_nil_iff.mp hleft) i hi
          simp only [Bool.not_eq_eq_eq_not, Bool.not_true, Bool.not_eq_false,
            List.any_eq_true, Bool.and_eq_true, beq_iff_eq] at hi'
          exact Or.inr hi'
      · split
        · next he =>
          refine hfail ?_ hA
          split
          · decide
          · next hne => exact hne
        · -- the next attempt sends what is left
          next hleft hretry =>
          refine wp_mono ?_ (ih (doneBy A msgs) _ (note msgs s') (hnd.filter _) ?_
            (fun i hi => hP i (List.mem_filter.mp hi).1) hj)
          rotate_left
          · intro i hi
            obtain ⟨hi, hd⟩ := List.mem_filter.mp hi
            simp only [Bool.not_eq_eq_eq_not, Bool.not_true, List.any_eq_false, Bool.and_eq_true,
              beq_iff_eq, not_and] at hd
            rintro (ha | ⟨m, hm, hmi, hok⟩)
            · exact hnew i hi ha
            · exact hd m hm hmi hok
          rintro r w' ⟨h₁, h₂⟩
          refine ⟨hmono (fun i hi => Or.inl hi) h₁, fun hok => hmono ?_ (h₂ hok)⟩
          rintro i (hi | hi)
          · exact Or.inl (Or.inl hi)
          · by_cases hd : ∃ m ∈ msgs, m.1 = i ∧ m.2.err = .ok
            · exact Or.inl (Or.inr hd)
            · refine Or.inr (List.mem_filter.mpr ⟨hi, ?_⟩)
              simp only [Bool.not_eq_eq_eq_not, Bool.not_true, List.any_eq_false,
                Bool.and_eq_true, beq_iff_eq, not_and]
              exact fun m hm hi ho => hd ⟨m, hm, hi, ho⟩

variable (note) in
/-- The attempts of a transfer of any pieces. -/
theorem wp_transfer (hE : Quiet E) {J : (Nat → Prop) → σ → W → Prop}
    (hJ : ∀ A s, Stable E (J A s))
    (hmono : ∀ {A B s w}, (∀ i, B i → A i) → J A s w → J B s w)
    (hsend : ∀ A order s w, order.Nodup → (∀ i ∈ order, ¬ A i) → J A s w →
      wp E (send order s) (fun r w' => (r = none → J A s w') ∧
      ∀ replies s', r = some (replies, s') → ∀ msgs, msgs.Perm replies →
        J (doneBy A msgs) (note msgs s') w') w) (n : Nat)
    (A : Nat → Prop) (pending : List Nat) (s : σ) {w : W} (hnd : pending.Nodup)
    (hnew : ∀ i ∈ pending, ¬ A i) (h : J A s w) :
    wp E (transfer send note n pending s) (fun r w' => J A r.2 w' ∧
      (r.1 = .ok → J (fun i => A i ∨ i ∈ pending) r.2 w')) w :=
  wp_transfer_of note hE (P := fun _ => True) hJ hmono
    (fun A order s w hnd hnew _ => hsend A order s w hnd hnew) n A pending s hnd hnew
    (fun _ _ => trivial) h

/-- A transfer whose pieces are all answered with success succeeds. -/
theorem wp_transfer_ok (hE : Quiet E)
    (hm : Allocates E) {pending : List Nat} {s : σ}
    (hsend : ∀ order, order.Perm pending → wp E (send order s) (fun r _ =>
      ∃ replies s', r = some (replies, s') ∧ ∀ i ∈ order, ∃ m ∈ replies, m.1 = i ∧
        m.2.err = .ok) w) (n : Nat) :
    wp E (transfer send note (n + 1) pending s) (fun r _ => r.1 = .ok) w := by
  unfold transfer
  refine wp_quiet_bind hE rfl fun reqs hx => ?_
  rw [hm.ok hx]
  refine wp_quiet_bind hE rfl fun handles hx => ?_
  rw [hm.ok hx]
  simp only [Bool.not_true, Bool.false_eq_true, if_false]
  rw [wp_bind]
  refine wp_shuffle hE pending fun order hp => ⟨fun _ _ hw hq => wp_stable hw hq, ?_⟩
  rw [wp_bind]
  refine wp_mono ?_ (hsend order hp)
  rintro r w₃ ⟨replies, s', rfl, hall⟩
  dsimp only
  rw [wp_bind]
  refine wp_shuffle hE replies fun msgs hpm => ⟨fun _ _ hw hq => wp_stable hw hq, ?_⟩
  have hleft : (pending.filter fun i => !msgs.any fun m => m.1 == i && m.2.err == .ok) = [] := by
    rw [List.filter_eq_nil_iff]
    intro i hi
    obtain ⟨m, hmem, h₁, h₂⟩ := hall i (hp.mem_iff.mpr hi)
    simp only [Bool.not_eq_eq_eq_not, Bool.not_true, Bool.not_eq_false, List.any_eq_true,
      Bool.and_eq_true, beq_iff_eq]
    exact ⟨m, hpm.mem_iff.mpr hmem, h₁, h₂⟩
  rw [if_pos hleft]
  exact fun _ _ => rfl

end Transfer

/-- Setting up a transfer touches nothing. -/
theorem wp_transferSetup_bind (hE : Quiet E) {n : Nat} {f : AzErr → Prog α} {Q : α → W → Prop}
    (h : ∀ e, (Allocates E → e = .ok) → wp E (f e) Q w) :
    wp E (transferSetup n >>= f) Q w := by
  rw [wp_bind]
  unfold transferSetup
  have hret : ∀ e : AzErr, (Allocates E → e = .ok) →
      wp E (.ret e) (fun e w => wp E (f e) Q w) w :=
    fun e he w₁ hw => wp_stable hw (h e he)
  refine wp_quiet_bind hE rfl fun x hx => ?_
  split
  · next hn => exact hret _ fun ha => by rw [ha.ok hx] at hn; exact Bool.noConfusion hn
  refine wp_quiet_bind hE rfl fun y hy => ?_
  split
  · next hn => exact hret _ fun ha => by rw [ha.ok hy] at hn; exact Bool.noConfusion hn
  · exact hret _ fun _ => rfl

end Rules
end SqliteObjs

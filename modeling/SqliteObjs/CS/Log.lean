import SqliteObjs.CS.Program

/-!
# Worlds with a log

A logged world carries the requests answered so far with their answers, the last one
first. Programs do not see the log: a statement about what a run asked and was told is
a statement about the log at its end.
-/

set_option autoImplicit false

namespace CS

variable {W Req : Type} {Ans : Req → Type} {α : Type}

/-- A world and what was answered in it. -/
structure Logged (W : Type) {Req : Type} (Ans : Req → Type) where
  world : W
  log : List ((r : Req) × Ans r)

namespace Logged

open Program

/-- Answer as `serve` does, and log the answer. -/
def serve (serve : (r : Req) → W → Ans r → W → Prop) (r : Req) (w : Logged W Ans) (x : Ans r)
    (w' : Logged W Ans) : Prop :=
  serve r w.world x w'.world ∧ w'.log = ⟨r, x⟩ :: w.log

variable {s : (r : Req) → W → Ans r → W → Prop} {P : Req → Prop} {Q : α → Prop}

/-- A program whose requests are in `P` keeps what the answers to such requests keep. -/
theorem wp_of_within {m : Program Ans α} {I : Logged W Ans → Prop} {R : α → Logged W Ans → Prop}
    {w : Logged W Ans} (hm : Within P Q m)
    (hI : ∀ r w x w', P r → Logged.serve s r w x w' → I w → I w') (hw : I w)
    (hR : ∀ a w', Q a → I w' → R a w') : wp (.alone (Logged.serve s)) m R w :=
  wp_alone_iff.mpr fun a w' hr => hR a w' (hm.of_runs hr) (hm.inv_of_runs hI hr hw)

/-- Every run can be logged. -/
theorem exists_runs {m : Program Ans α} {w w' : W} {a : α} (hr : Runs s m w a w')
    (log : List ((r : Req) × Ans r)) :
    ∃ log', Runs (Logged.serve s) m ⟨w, log⟩ a ⟨w', log'⟩ := by
  induction hr generalizing log with
  | ret a w => exact ⟨log, .ret a _⟩
  | @call r k w w₁ w₂ x a hs _ ih =>
    obtain ⟨log', hlog⟩ := ih (⟨r, x⟩ :: log)
    have hserve : Logged.serve s r ⟨w, log⟩ x ⟨w₁, ⟨r, x⟩ :: log⟩ := ⟨hs, rfl⟩
    exact ⟨log', .call hserve hlog⟩

/-- Answer as `serve` does, and log the answers to the requests in `keep` only. -/
def serveOf (keep : Req → Bool) (serve : (r : Req) → W → Ans r → W → Prop) (r : Req)
    (w : Logged W Ans) (x : Ans r) (w' : Logged W Ans) : Prop :=
  serve r w.world x w'.world ∧ w'.log = if keep r then ⟨r, x⟩ :: w.log else w.log

theorem serveOf_skip {keep : Req → Bool} {r : Req} {w w' : Logged W Ans} {x : Ans r}
    (h : serveOf keep s r w x w') (hr : keep r = false) : w' = ⟨w'.world, w.log⟩ := by
  obtain ⟨w₁, log⟩ := w'
  have hlog : log = _ := h.2
  rw [hr] at hlog
  rw [hlog]
  rfl

/-- A program whose requests are not kept leaves the log. -/
theorem wp_serveOf {keep : Req → Bool} {m : Program Ans α} {w : Logged W Ans}
    (hm : Within (fun r => keep r = false) Q m) :
    wp (.alone (serveOf keep s)) m (fun a w' => Q a ∧ w'.log = w.log) w := by
  refine wp_alone_iff.mpr fun a w' hr => ⟨hm.of_runs hr, ?_⟩
  refine hm.inv_of_runs (I := fun w' => w'.log = w.log) ?_ hr rfl
  intro r w₁ x w₂ hkeep hs hlog
  rw [serveOf_skip hs hkeep]
  exact hlog

theorem exists_runs_of (keep : Req → Bool) {m : Program Ans α} {w w' : W} {a : α}
    (hr : Runs s m w a w') (log : List ((r : Req) × Ans r)) :
    ∃ log', Runs (serveOf keep s) m ⟨w, log⟩ a ⟨w', log'⟩ := by
  induction hr generalizing log with
  | ret a w => exact ⟨log, .ret a _⟩
  | @call r k w w₁ w₂ x a hs _ ih =>
    obtain ⟨log', hlog⟩ := ih (if keep r then ⟨r, x⟩ :: log else log)
    have hserve : serveOf keep s r ⟨w, log⟩ x ⟨w₁, if keep r then ⟨r, x⟩ :: log else log⟩ :=
      ⟨hs, rfl⟩
    exact ⟨log', .call hserve hlog⟩

end Logged
end CS

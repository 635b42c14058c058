import SqliteObjs.CS.Program

/-!
# Programs that hold a mutex

A program may lock and unlock one mutex between its other requests. The mutex is not recursive:
whoever locks it while it is held by himself waits for ever. So there are three ways for a
program to end under given answers (`Ends`): it returns with the mutex free, it returns with the
mutex held, or it locks a mutex that it holds.

`lwp` is the weakest precondition for these endings, with an observer that sees every answer.
`Erases` relates such a program to the program without its mutex.
-/

set_option autoImplicit false

namespace CS

/-- Requests, and the calls on the mutex. -/
inductive Locking (Req : Type)
  | lock
  | unlock
  | op (r : Req)

/-- The answers: the calls on the mutex have none. -/
abbrev LockAns {Req : Type} (Ans : Req → Type) : Locking Req → Type
  | .lock | .unlock => Unit
  | .op r => Ans r

/-- A program that may lock and unlock. -/
abbrev LockProgram {Req : Type} (Ans : Req → Type) (α : Type) : Type := Program (LockAns Ans) α

/-- How a program ends. -/
inductive Ending
  | returned (held : Bool)
  | relocked
  deriving DecidableEq

namespace Mutex

variable {Req : Type} {Ans : Req → Type} {α β S : Type}

def lock : LockProgram Ans Unit := .call .lock .ret

def unlock : LockProgram Ans Unit := .call .unlock .ret

def op (r : Req) : LockProgram Ans (Ans r) := .call (.op r) .ret

/-- The program ends so if its requests are answered as the log says. -/
inductive Ends : LockProgram Ans α → Bool → List ((r : Req) × Ans r) → Ending → Prop
  | ret (a : α) (held : Bool) : Ends (.ret a) held [] (.returned held)
  | relock (k : Unit → LockProgram Ans α) : Ends (.call .lock k) true [] .relocked
  | lock {k : Unit → LockProgram Ans α} {log : List ((r : Req) × Ans r)} {e : Ending} :
      Ends (k ()) true log e → Ends (.call .lock k) false log e
  | unlock {k : Unit → LockProgram Ans α} {held : Bool} {log : List ((r : Req) × Ans r)}
      {e : Ending} : Ends (k ()) false log e → Ends (.call .unlock k) held log e
  | op {r : Req} {k : Ans r → LockProgram Ans α} {held : Bool} {x : Ans r}
      {log : List ((r : Req) × Ans r)} {e : Ending} :
      Ends (k x) held log e → Ends (.call (.op r) k) held (⟨r, x⟩ :: log) e

/-! ## Weakest preconditions -/

section Lwp

variable (step : S → (r : Req) → Ans r → S)

/-- Every way to return satisfies `Q`, and every way to lock twice satisfies `R`. -/
def lwp (Q : α → Bool → S → Prop) (R : S → Prop) : LockProgram Ans α → Bool → S → Prop
  | .ret a, held, s => Q a held s
  | .call .lock k, held, s => if held then R s else lwp Q R (k ()) true s
  | .call .unlock k, _, s => lwp Q R (k ()) false s
  | .call (.op r) k, held, s => ∀ x, lwp Q R (k x) held (step s r x)

/-- The observer after a log. -/
def observe (s : S) (log : List ((r : Req) × Ans r)) : S := log.foldl (fun s e => step s e.1 e.2) s

variable {step} {Q Q' : α → Bool → S → Prop} {R : S → Prop} {m : LockProgram Ans α} {held : Bool}
  {s : S}

theorem lwp_mono (hQ : ∀ a h s, Q a h s → Q' a h s) :
    lwp step Q R m held s → lwp step Q' R m held s := by
  induction m generalizing held s with
  | ret a => exact hQ a held s
  | call r k ih =>
    cases r with
    | lock =>
      unfold lwp
      split
      · exact id
      · exact ih ()
    | unlock => exact ih ()
    | op r => exact fun h x => ih x (h x)

theorem lwp_bind {f : α → LockProgram Ans β} {Q : β → Bool → S → Prop} :
    lwp step Q R (m >>= f) held s ↔ lwp step (fun a => lwp step Q R (f a)) R m held s := by
  induction m generalizing held s with
  | ret a => rfl
  | call r k ih =>
    cases r with
    | lock =>
      rw [Program.call_bind]
      unfold lwp
      split
      · rfl
      · exact ih ()
    | unlock => exact ih ()
    | op r => exact forall_congr' fun x => ih x

/-- The parts of a program one after the other. -/
theorem lwp_bind_of {f : α → LockProgram Ans β} {Q : β → Bool → S → Prop}
    {Q' : α → Bool → S → Prop} (hm : lwp step Q' R m held s)
    (hf : ∀ a h s, Q' a h s → lwp step Q R (f a) h s) : lwp step Q R (m >>= f) held s :=
  lwp_bind.mpr (lwp_mono hf hm)

theorem lwp_op {r : Req} {f : Ans r → LockProgram Ans β} {Q : β → Bool → S → Prop}
    (h : ∀ x, lwp step Q R (f x) held (step s r x)) : lwp step Q R (op r >>= f) held s := h

theorem lwp_ite {c : Prop} [Decidable c] {m' : LockProgram Ans α} (hpos : c → lwp step Q R m held s)
    (hneg : ¬ c → lwp step Q R m' held s) : lwp step Q R (if c then m else m') held s := by
  split
  · next h => exact hpos h
  · next h => exact hneg h

/-- The precondition is about all the ways to end. -/
theorem Ends.of_lwp {Q : Bool → S → Prop} {log : List ((r : Req) × Ans r)} {e : Ending}
    (h : lwp step (fun _ => Q) R m held s) (he : Ends m held log e) :
    (∀ held', e = .returned held' → Q held' (observe step s log)) ∧
      (e = .relocked → R (observe step s log)) := by
  induction he generalizing s with
  | ret a held =>
    refine ⟨?_, fun he => by cases he⟩
    rintro _ ⟨⟩
    exact h
  | relock k => exact ⟨fun _ he => (by cases he), fun _ => h⟩
  | lock _ ih => exact ih h
  | unlock _ ih => exact ih h
  | op _ ih => exact ih (h _)

end Lwp

/-! ## Without the mutex -/

section Erases

variable {Req' : Type} {Ans' : Req' → Type} (reqOf : Req → Req')
  (ansOf : (r : Req) → Ans r → Ans' (reqOf r)) (relock : Req')

/-- The second program does what the first one does, but for the mutex: a lock that is not free
is the request `relock`, and what comes after it does not matter. -/
def Erases (Q : α → Bool → Prop) : LockProgram Ans α → Bool → Program Ans' α → Prop
  | .ret a, held, m => m = .ret a ∧ Q a held
  | .call .lock k, held, m =>
    if held then ∃ k', m = .call relock k' else Erases Q (k ()) true m
  | .call .unlock k, _, m => Erases Q (k ()) false m
  | .call (.op r) k, held, m =>
    ∃ k', m = .call (reqOf r) k' ∧ ∀ x, Erases Q (k x) held (k' (ansOf r x))

variable {reqOf} {ansOf} {relock}

theorem Erases.mono {Q Q' : α → Bool → Prop} {m : LockProgram Ans α} {held : Bool}
    {m' : Program Ans' α} (hQ : ∀ a h, Q a h → Q' a h)
    (hm : Erases reqOf ansOf relock Q m held m') :
    Erases reqOf ansOf relock Q' m held m' := by
  induction m generalizing held m' with
  | ret a => exact ⟨hm.1, hQ a held hm.2⟩
  | call r k ih =>
    cases r with
    | lock =>
      unfold Erases at hm ⊢
      split
      · next h =>
        rw [if_pos h] at hm
        exact hm
      · next h =>
        rw [if_neg h] at hm
        exact ih () hm
    | unlock => exact ih () hm
    | op r =>
      obtain ⟨k', rfl, hk⟩ := hm
      exact ⟨k', rfl, fun x => ih x (hk x)⟩

theorem Erases.bind {Q : α → Bool → Prop} {Q' : β → Bool → Prop} {m : LockProgram Ans α}
    {held : Bool} {m' : Program Ans' α} {f : α → LockProgram Ans β} {f' : α → Program Ans' β}
    (hm : Erases reqOf ansOf relock Q m held m')
    (hf : ∀ a h, Q a h → Erases reqOf ansOf relock Q' (f a) h (f' a)) :
    Erases reqOf ansOf relock Q' (m >>= f) held (m' >>= f') := by
  induction m generalizing held m' with
  | ret a =>
    obtain ⟨rfl, hQ⟩ := hm
    exact hf a held hQ
  | call r k ih =>
    cases r with
    | lock =>
      rw [Program.call_bind]
      unfold Erases at hm ⊢
      split
      · next h =>
        rw [if_pos h] at hm
        obtain ⟨k', rfl⟩ := hm
        exact ⟨_, rfl⟩
      · next h =>
        rw [if_neg h] at hm
        exact ih () hm
    | unlock => exact ih () hm
    | op r =>
      obtain ⟨k', rfl, hk⟩ := hm
      exact ⟨_, rfl, fun x => ih x (hk x)⟩

end Erases

end Mutex
end CS

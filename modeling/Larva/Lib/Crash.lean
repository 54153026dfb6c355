import Mathlib.Algebra.Order.Ring.Int
import Mathlib.Algebra.BigOperators.Group.List.Basic
import Mathlib.Logic.Basic

/-!
# Programs that a power cut can stop

A program over a state `σ` whose writes to stable storage are the only steps
the outside world can see. It may return, return an error code, fail an
assertion, or be cut: the supply allows it a number of storage operations,
and the first one past that number is never made. A loop that ends on fuel
answers `spin`, which is kept apart from a failed assertion so that a
statement can say which of the two it excludes.

Everything is stated over an arbitrary state, so the same rules serve every
component that writes to flash. The judgment `Wp` says at once what holds
where the program returns, where it fails and wherever the supply may drop
out, and an uncut run is the special case of an unlimited supply.
-/

namespace Larva.Crash

/-- How a run ends. `left` is what the supply still allows, `none` when it is
never cut. -/
inductive Out (σ ε α : Type) where
  | ok (a : α) (s : σ) (left : Option Nat)
  | err (e : ε) (s : σ) (left : Option Nat)
  | cut (s : σ)
  | abort
  | spin
deriving DecidableEq

/-- A program: a state and a supply to an outcome. -/
def Prog (σ ε α : Type) := σ → Option Nat → Out σ ε α

namespace Prog

variable {σ ε α β : Type}

def pure (a : α) : Prog σ ε α := fun s left => .ok a s left

def bind (m : Prog σ ε α) (f : α → Prog σ ε β) : Prog σ ε β := fun s left =>
  match m s left with
  | .ok a s' left' => f a s' left'
  | .err e s' left' => .err e s' left'
  | .cut s' => .cut s'
  | .abort => .abort
  | .spin => .spin

instance : Monad (Prog σ ε) where
  pure := Prog.pure
  bind := Prog.bind

/-- An error return; what was done so far stays done. -/
def fail (e : ε) : Prog σ ε α := fun s left => .err e s left

/-- A call whose error code the caller looks at, or ignores. -/
def attempt (m : Prog σ ε α) : Prog σ ε (Except ε α) := fun s left =>
  match m s left with
  | .ok a s' left' => .ok (.ok a) s' left'
  | .err e s' left' => .ok (.error e) s' left'
  | .cut s' => .cut s'
  | .abort => .abort
  | .spin => .spin

/-- A failed assertion, or a step the language leaves undefined. -/
def abort : Prog σ ε α := fun _ _ => .abort

def assert (b : Bool) : Prog σ ε Unit := if b then pure () else abort

/-- The answer of a loop whose fuel ran out. -/
def spin : Prog σ ε α := fun _ _ => .spin

def get : Prog σ ε σ := fun s left => .ok s s left

def modify (f : σ → σ) : Prog σ ε Unit := fun s left => .ok () (f s) left

/-- One operation on stable storage: made whole, or not at all. -/
def persist (f : σ → σ) : Prog σ ε Unit := fun s left =>
  match left with
  | some 0 => .cut s
  | some (n + 1) => .ok () (f s) (some n)
  | none => .ok () (f s) none

/-- A program over a part of the state, run on the whole. -/
def zoom {τ : Type} (view : σ → τ) (put : τ → σ → σ) (m : Prog τ ε α) : Prog σ ε α := fun s left =>
  match m (view s) left with
  | .ok a t left' => .ok a (put t s) left'
  | .err e t left' => .err e (put t s) left'
  | .cut t => .cut (put t s)
  | .abort => .abort
  | .spin => .spin

end Prog

/-- What is wanted of a run, outcome by outcome. -/
structure Post (σ ε α : Type) where
  ok : α → σ → Prop
  err : ε → σ → Prop
  cut : σ → Prop
  stuck : Prop

/-- An outcome meets a `Post`. An unlimited supply stays unlimited and never
cuts; a loop that ran out of fuel meets none. -/
def Out.Sat {σ ε α : Type} (left : Option Nat) (Q : Post σ ε α) : Out σ ε α → Prop
  | .ok a s left' => Q.ok a s ∧ (left = none → left' = none)
  | .err e s left' => Q.err e s ∧ (left = none → left' = none)
  | .cut s => Q.cut s ∧ left ≠ none
  | .abort => Q.stuck
  | .spin => False

/-- Started in `s`, on any supply, the program ends as `Q` says. -/
def Wp {σ ε α : Type} (m : Prog σ ε α) (Q : Post σ ε α) (s : σ) : Prop :=
  ∀ left, (m s left).Sat left Q

section Rules

variable {σ ε α β : Type} {s : σ} {Q : Post σ ε α} {m : Prog σ ε α} {f : α → Prog σ ε β} {a : α}
  {ok : α → σ → Prop} {b : Bool}

/-- What is left of a supply is spent as the supply is. -/
theorem Out.Sat.of_left {left left' : Option Nat} {o : Out σ ε α} (h : o.Sat left' Q)
    (hl : left = none → left' = none) : o.Sat left Q := by
  cases o with
  | ok | err | cut => exact ⟨h.1, fun hn => h.2 (hl hn)⟩
  | abort | spin => exact h

theorem Wp.bind {Q : Post σ ε β} (h : Wp m ⟨fun a s' => Wp (f a) Q s', Q.err, Q.cut, Q.stuck⟩ s) :
    Wp (m >>= f) Q s := by
  intro left
  have hm := h left
  show Out.Sat left Q (Prog.bind m f s left)
  simp only [Prog.bind]
  cases ho : m s left with
  | ok a s' left' =>
    rw [ho] at hm
    exact (hm.1 left').of_left hm.2
  | _ => rw [ho] at hm; exact hm

theorem Wp.pure (h : Q.ok a s) :
    Wp (Pure.pure a : Prog σ ε α) Q s :=
  fun _ => ⟨h, id⟩

theorem Wp.fail {e : ε} (h : Q.err e s) :
    Wp (Prog.fail e : Prog σ ε α) Q s :=
  fun _ => ⟨h, id⟩

theorem Wp.assert {Q : Post σ ε Unit} (hb : b = true) (h : Q.ok () s) :
    Wp (Prog.assert b : Prog σ ε Unit) Q s := by
  subst hb
  exact fun _ => ⟨h, id⟩

/-- An assertion that may fail. -/
theorem Wp.assert_or {Q : Post σ ε Unit} (h : b = true → Q.ok () s) (hst : b = false → Q.stuck) :
    Wp (Prog.assert b : Prog σ ε Unit) Q s := by
  cases b with
  | false => exact fun _ => hst rfl
  | true => exact fun _ => ⟨h rfl, id⟩

theorem Wp.get {Q : Post σ ε σ} (h : Q.ok s s) :
    Wp (Prog.get : Prog σ ε σ) Q s :=
  fun _ => ⟨h, id⟩

theorem Wp.modify {f : σ → σ} {Q : Post σ ε Unit} (h : Q.ok () (f s)) :
    Wp (Prog.modify f : Prog σ ε Unit) Q s :=
  fun _ => ⟨h, id⟩

theorem Wp.get_bind {f : σ → Prog σ ε β} {Q : Post σ ε β} (h : Wp (f s) Q s) :
    Wp (Prog.get >>= f) Q s :=
  Wp.bind (Wp.get h)

theorem Wp.modify_bind {g : σ → σ} {f : Unit → Prog σ ε β} {Q : Post σ ε β}
    (h : Wp (f ()) Q (g s)) : Wp (Prog.modify g >>= f) Q s :=
  Wp.bind (Wp.modify h)

/-- A storage operation asks for two things: the supply may drop out just
before it, and the program goes on just after it. -/
theorem Wp.persist {f : σ → σ} {Q : Post σ ε Unit} (hc : Q.cut s)
    (h : Q.ok () (f s)) : Wp (Prog.persist f : Prog σ ε Unit) Q s := by
  intro left
  match left with
  | none => exact ⟨h, fun _ => rfl⟩
  | some 0 => exact ⟨hc, by simp⟩
  | some (n + 1) => exact ⟨h, by simp⟩

theorem Wp.attempt {Q : Post σ ε (Except ε α)}
    (h : Wp m ⟨fun a s' => Q.ok (.ok a) s', fun e s' => Q.ok (.error e) s',
      Q.cut, Q.stuck⟩ s) : Wp (Prog.attempt m) Q s := by
  intro left
  have hm := h left
  simp only [Prog.attempt]
  cases ho : m s left
  all_goals
    rw [ho] at hm
    exact hm

theorem Wp.zoom {τ : Type} {view : σ → τ} {put : τ → σ → σ} {m : Prog τ ε α}
    (h : Wp m ⟨fun a t => Q.ok a (put t s), fun e t => Q.err e (put t s),
      fun t => Q.cut (put t s), Q.stuck⟩ (view s)) : Wp (Prog.zoom view put m) Q s := by
  intro left
  have hm := h left
  simp only [Prog.zoom]
  cases ho : m (view s) left
  all_goals
    rw [ho] at hm
    exact hm

theorem Wp.mono {R : Post σ ε α} (h : Wp m Q s) (hok : ∀ a s', Q.ok a s' → R.ok a s')
    (herr : ∀ e s', Q.err e s' → R.err e s') (hcut : ∀ s', Q.cut s' → R.cut s')
    (hst : Q.stuck → R.stuck) : Wp m R s := by
  intro left
  have hm := h left
  cases ho : m s left with
  | ok a s' left' => rw [ho] at hm; exact ⟨hok _ _ hm.1, hm.2⟩
  | err e s' left' => rw [ho] at hm; exact ⟨herr _ _ hm.1, hm.2⟩
  | cut s' => rw [ho] at hm; exact ⟨hcut _ hm.1, hm.2⟩
  | abort => rw [ho] at hm; exact hst hm
  | spin => rw [ho] at hm; exact hm

theorem Wp.bind_pure (h : Wp (m >>= Pure.pure) Q s) : Wp m Q s := by
  have he : (m >>= Pure.pure) = m := by
    funext s left
    show Prog.bind m Prog.pure s left = m s left
    unfold Prog.bind
    cases m s left <;> rfl
  rw [← he]
  exact h

/-- The program returns, without an error, and no cut can stop it. -/
def Post.total (ok : α → σ → Prop) : Post σ ε α :=
  ⟨ok, fun _ _ => False, fun _ => False, False⟩

/-- The program returns or fails an assertion; it never spins. -/
def Post.orAborts (ok : α → σ → Prop) : Post σ ε α :=
  ⟨ok, fun _ _ => False, fun _ => False, True⟩

theorem Wp.abort (h : Q.stuck) :
    Wp (Prog.abort : Prog σ ε α) Q s :=
  fun _ => h

theorem Wp.bind_total {Q : Post σ ε β} (h : Wp m (.total ok) s)
    (hf : ∀ a s', ok a s' → Wp (f a) Q s') : Wp (m >>= f) Q s :=
  Wp.bind (h.mono hf (fun _ _ => False.elim) (fun _ => False.elim) False.elim)

/-- A call of which the result and the state it leaves are known. -/
theorem Wp.bind_known {Q : Post σ ε β} {s1 : σ} (hm : Wp m (.total fun r s' => r = a ∧ s' = s1) s)
    (hf : Wp (f a) Q s1) :
    Wp (m >>= f) Q s :=
  hm.bind_total fun _ _ h => h.1 ▸ h.2 ▸ hf

theorem Wp.mono_ok {ok' : α → σ → Prop} (h : Wp m Q s) (hok : ∀ a s', Q.ok a s' → ok' a s') :
    Wp m ⟨ok', Q.err, Q.cut, Q.stuck⟩ s :=
  h.mono hok (fun _ _ => id) (fun _ => id) id

theorem Wp.run_total (h : Wp m (.total ok) s) : ∃ a s', m s none = .ok a s' none ∧ ok a s' := by
  have hm := h none
  cases ho : m s none with
  | ok a s' left' =>
    rw [ho] at hm
    obtain rfl := hm.2 rfl
    exact ⟨a, s', rfl, hm.1⟩
  | err e s' left' => rw [ho] at hm; exact hm.1.elim
  | cut s' => rw [ho] at hm; exact hm.1.elim
  | _ => rw [ho] at hm; exact hm.elim

/-- Two statements about a program that returns are about the same return. -/
theorem Wp.meet {P : α → σ → Prop} (h : Wp m (.total P) s) (h' : Wp m Q s) :
    ∃ a s', P a s' ∧ Q.ok a s' := by
  obtain ⟨a, s', hrun, hP⟩ := h.run_total
  have hQ := h' none
  rw [hrun] at hQ
  exact ⟨a, s', hP, hQ.1⟩

end Rules

/-! ## Runs that return

`Wp` asks for something of every outcome. Where nothing is known of the
state, as when a program starts on whatever a file holds, only the runs that
return can be spoken of: an assertion that fails or a loop that spins is then
no outcome to answer for. -/

/-- Every run from `s` that returns does so as `Q` says. -/
def Returns {σ ε α : Type} (m : Prog σ ε α) (Q : α → σ → Prop) (s : σ) :
    Prop :=
  ∀ left a s' left', m s left = .ok a s' left' → Q a s'

section Returns

variable {σ ε α β : Type} {s : σ} {m : Prog σ ε α} {f : α → Prog σ ε β} {Q : α → σ → Prop}

theorem Returns.bind {Q : β → σ → Prop} (h : Returns m (fun a s' => Returns (f a) Q s') s) :
    Returns (m >>= f) Q s := by
  intro left b s' left' ho
  have ho' : Prog.bind m f s left = .ok b s' left' := ho
  simp only [Prog.bind] at ho'
  cases hm : m s left with
  | ok a s1 left1 =>
    rw [hm] at ho'
    exact h left a s1 left1 hm left1 b s' left' ho'
  | _ => rw [hm] at ho'; cases ho'

theorem Returns.pure {a : α} (h : Q a s) : Returns (Pure.pure a : Prog σ ε α) Q s := by
  intro left b s' left' ho
  have ho' : Out.ok a s left = (.ok b s' left') := ho
  cases ho'
  exact h

theorem Returns.fail {e : ε} : Returns (Prog.fail e : Prog σ ε α) Q s := by
  intro left a s' left' ho
  cases ho

theorem Returns.abort : Returns (Prog.abort : Prog σ ε α) Q s := by
  intro left a s' left' ho
  cases ho

theorem Returns.spin : Returns (Prog.spin : Prog σ ε α) Q s := by
  intro left a s' left' ho
  cases ho

theorem Returns.get {Q : σ → σ → Prop} (h : Q s s) : Returns (Prog.get : Prog σ ε σ) Q s := by
  intro left a s' left' ho
  cases ho
  exact h

theorem Returns.modify {f : σ → σ} {Q : Unit → σ → Prop} (h : Q () (f s)) :
    Returns (Prog.modify f : Prog σ ε Unit) Q s := by
  intro left a s' left' ho
  cases ho
  exact h

theorem Returns.persist {f : σ → σ} {Q : Unit → σ → Prop} (h : Q () (f s)) :
    Returns (Prog.persist f : Prog σ ε Unit) Q s := by
  intro left a s' left' ho
  match left with
  | none => cases ho; exact h
  | some 0 => cases ho
  | some (n + 1) => cases ho; exact h

/-- An assertion may be taken to hold from there on. -/
theorem Returns.assert {b : Bool} {Q : Unit → σ → Prop}
    (h : b = true → Q () s) : Returns (Prog.assert b : Prog σ ε Unit) Q s := by
  cases b with
  | false => exact Returns.abort
  | true => exact Returns.pure (h rfl)

/-- Of an error nothing is known. -/
theorem Returns.attempt {Q : Except ε α → σ → Prop} (h : Returns m (fun a s' => Q (.ok a) s') s)
    (herr : ∀ e s', Q (.error e) s') : Returns (Prog.attempt m) Q s := by
  intro left r s' left' ho
  simp only [Prog.attempt] at ho
  split at ho <;> cases ho
  · next hm => exact h _ _ _ _ hm
  · exact herr _ _

theorem Returns.mono {R : α → σ → Prop} (h : Returns m Q s) (hQ : ∀ a s', Q a s' → R a s') :
    Returns m R s :=
  fun left a s' left' ho => hQ a s' (h left a s' left' ho)

/-- What is known of every outcome is known of those that return. -/
theorem Wp.returns {Q : Post σ ε α} (h : Wp m Q s) : Returns m Q.ok s := by
  intro left a s' left' ho
  have hm := h left
  rw [ho] at hm
  exact hm.1

theorem Wp.bind_returns {Q : β → σ → Prop}
    (h : Wp m ⟨fun a s' => Returns (f a) Q s', fun _ _ => True, fun _ => True, True⟩ s) :
    Returns (m >>= f) Q s :=
  Returns.bind h.returns

end Returns

/-! ## Runs that end

Where it plays no part how long a loop runs, a run that spins is left out and
every other outcome is spoken of. -/

/-- Every run from `s` that does not spin ends as `Q` says. -/
def Ends {σ ε α : Type} (m : Prog σ ε α) (Q : Post σ ε α) (s : σ) : Prop :=
  ∀ left, m s left ≠ .spin → (m s left).Sat left Q

section Ends

variable {σ ε α β : Type} {s : σ} {m : Prog σ ε α} {f : α → Prog σ ε β} {Q : Post σ ε α}

theorem Wp.ends (h : Wp m Q s) : Ends m Q s := fun left _ => h left

theorem Ends.spin : Ends (Prog.spin : Prog σ ε α) Q s := fun _ h => absurd rfl h

theorem Ends.bind {Q : Post σ ε β}
    (h : Ends m ⟨fun a s' => Ends (f a) Q s', Q.err, Q.cut, Q.stuck⟩ s) : Ends (m >>= f) Q s := by
  intro left
  have hm := h left
  show Prog.bind m f s left ≠ .spin → Out.Sat left Q (Prog.bind m f s left)
  simp only [Prog.bind]
  cases ho : m s left with
  | ok a s' left' =>
    rw [ho] at hm
    intro hne
    obtain ⟨hf, hleft⟩ := hm (by simp)
    exact (hf left' hne).of_left hleft
  | spin => exact fun hne => absurd rfl hne
  | _ =>
    rw [ho] at hm
    exact fun _ => hm (by simp)

theorem Ends.bind_wp {Q : Post σ ε β}
    (h : Wp m ⟨fun a s' => Ends (f a) Q s', Q.err, Q.cut, Q.stuck⟩ s) : Ends (m >>= f) Q s :=
  .bind h.ends

theorem Ends.mono {ok : α → σ → Prop} (h : Ends m Q s) (hok : ∀ a s', Q.ok a s' → ok a s') :
    Ends m ⟨ok, Q.err, Q.cut, Q.stuck⟩ s := by
  intro left hne
  have hm := h left hne
  cases ho : m s left with
  | ok a s' left' => rw [ho] at hm; exact ⟨hok a s' hm.1, hm.2⟩
  | _ => rw [ho] at hm; exact hm

theorem Ends.attempt {Q : Post σ ε (Except ε α)}
    (h : Ends m ⟨fun a s' => Q.ok (.ok a) s', fun e s' => Q.ok (.error e) s',
      Q.cut, Q.stuck⟩ s) : Ends (Prog.attempt m) Q s := by
  intro left
  have hm := h left
  simp only [Prog.attempt]
  cases ho : m s left with
  | spin => exact fun hne => absurd rfl hne
  | _ =>
    rw [ho] at hm
    exact fun _ => hm (by simp)

end Ends

end Larva.Crash

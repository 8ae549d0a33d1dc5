import Mathlib.Logic.Basic

/-!
# Interacting programs

`Prog I ε α` is a program that makes the calls of an interface `I`, may throw
an `ε` and ends with an `α`: a tree with one branch for every answer a call can
have. `exec` runs it against a handler that keeps a world, and records the calls
with their answers. A `Monitor` watches such a record and says in each of its
states which calls are allowed; `Obeys` says that every path of a program stays
within it, with one rule for each way to build a program, and `Obeys.exec`
carries it to runs. `Along` says what holds of the worlds of one run, with the
same rules. `Twin` relates two programs that make the same calls whenever their
answers are related.
-/

/-- The calls a program can make, and what each is answered with. -/
structure Interface where
  Op : Type
  Ans : Op → Type

/-- An answered call. -/
structure Event (I : Interface) where
  op : I.Op
  ans : I.Ans op

inductive Prog (I : Interface) (ε α : Type) where
  | ret (a : α)
  | raise (e : ε)
  | ask (op : I.Op) (next : I.Ans op → Prog I ε α)

/-- How a run ended, what it called on the way, and the world it left. -/
structure Outcome (I : Interface) (ε α W : Type) where
  result : Except ε α
  trace : List (Event I)
  world : W

namespace Prog

variable {I : Interface} {ε α β W : Type}

def bind (p : Prog I ε α) (f : α → Prog I ε β) : Prog I ε β :=
  match p with
  | ret a => f a
  | raise e => raise e
  | ask op next => ask op fun a => (next a).bind f

/-- `p`, with what it throws handed to `f`. -/
def handle (p : Prog I ε α) (f : ε → Prog I ε α) : Prog I ε α :=
  match p with
  | ret a => ret a
  | raise e => f e
  | ask op next => ask op fun a => (next a).handle f

instance : Monad (Prog I ε) where
  pure := ret
  bind := bind

instance : MonadExceptOf ε (Prog I ε) where
  throw := raise
  tryCatch := handle

/-- The program that makes one call. -/
def op (o : I.Op) : Prog I ε (I.Ans o) := ask o ret

def ofExcept : Except ε α → Prog I ε α
  | .ok a => ret a
  | .error e => raise e

theorem bind_eq (p : Prog I ε α) (f : α → Prog I ε β) : p >>= f = p.bind f := rfl

theorem tryCatch_eq (p : Prog I ε α) (f : ε → Prog I ε α) : tryCatch p f = p.handle f := rfl

/-! ## Running a program -/

/-- A handler answers a call and moves the world. -/
abbrev Handler (I : Interface) (W : Type) := (o : I.Op) → W → I.Ans o × W

def exec (h : Handler I W) : Prog I ε α → W → Outcome I ε α W
  | ret a, w => ⟨.ok a, [], w⟩
  | raise e, w => ⟨.error e, [], w⟩
  | ask o next, w =>
    let r := (next (h o w).1).exec h (h o w).2
    ⟨r.result, ⟨o, (h o w).1⟩ :: r.trace, r.world⟩

end Prog

namespace Outcome

variable {I : Interface} {ε α β W : Type}

/-- A run with a call in front of it. -/
def prepend (e : Event I) (r : Outcome I ε α W) : Outcome I ε α W := { r with trace := e :: r.trace }

end Outcome

namespace Prog

variable {I : Interface} {ε α β W : Type} {h : Handler I W}

/-- A record of calls that a handler answers as recorded, from one world to another. -/
inductive Steps (h : Handler I W) : W → List (Event I) → W → Prop where
  | nil (w : W) : Steps h w [] w
  | cons {o : I.Op} {w w' : W} {t : List (Event I)} (rest : Steps h (h o w).2 t w') :
      Steps h w (⟨o, (h o w).1⟩ :: t) w'

/-- A run goes on where its first part ended. -/
theorem exec_bind {p : Prog I ε α} {f : α → Prog I ε β} {w : W} {a : α}
    (hp : (p.exec h w).result = .ok a) :
    (p >>= f).exec h w = ⟨((f a).exec h (p.exec h w).world).result,
      (p.exec h w).trace ++ ((f a).exec h (p.exec h w).world).trace,
      ((f a).exec h (p.exec h w).world).world⟩ := by
  rw [bind_eq]
  induction p generalizing w with
  | ret b =>
    obtain rfl := Except.ok.inj hp
    rfl
  | raise e => cases hp
  | ask o next ih =>
    have := ih (h o w).1 (w := (h o w).2) hp
    simp only [bind, exec, this, List.cons_append]

/-- A run whose first part throws ends with it. -/
theorem exec_bind_error {p : Prog I ε α} {f : α → Prog I ε β} {w : W} {e : ε}
    (hp : (p.exec h w).result = .error e) :
    (p >>= f).exec h w = ⟨.error e, (p.exec h w).trace, (p.exec h w).world⟩ := by
  rw [bind_eq]
  induction p generalizing w with
  | ret b => cases hp
  | raise e' =>
    obtain rfl := Except.error.inj hp
    rfl
  | ask o next ih =>
    have := ih (h o w).1 (w := (h o w).2) hp
    simp only [bind, exec, this]

theorem exec_steps (p : Prog I ε α) (w : W) :
    Steps h w (p.exec h w).trace (p.exec h w).world := by
  induction p generalizing w with
  | ret a => exact .nil w
  | raise e => exact .nil w
  | ask o next ih => exact .cons (ih _ _)

/-- What every step of a record keeps, the record keeps. -/
theorem Steps.keeps {R : W → W → Prop} (refl : ∀ w, R w w)
    (trans : ∀ a b c, R a b → R b c → R a c) {quiet : Event I → Prop}
    (step : ∀ o w, quiet ⟨o, (h o w).1⟩ → R w (h o w).2) {w w' : W} {t : List (Event I)}
    (ht : Steps h w t w') (hq : ∀ e ∈ t, quiet e) : R w w' := by
  induction ht with
  | nil w => exact refl w
  | cons _ ih =>
    rw [List.forall_mem_cons] at hq
    exact trans _ _ _ (step _ _ hq.1) (ih hq.2)

end Prog

/-! ## Monitors -/

/-- A watcher of calls: what it allows in a state, and where an answered call takes it. -/
structure Monitor (I : Interface) where
  State : Type
  allow : State → I.Op → Prop
  next : State → Event I → State

namespace Monitor

variable {I : Interface} (M : Monitor I)

/-- The state a record of calls leads to. -/
def after (q : M.State) (t : List (Event I)) : M.State := t.foldl M.next q

/-- Every call of the record was allowed when it was made. -/
def Accepts : M.State → List (Event I) → Prop
  | _, [] => True
  | q, e :: t => M.allow q e.op ∧ Accepts (M.next q e) t

variable {M} {q : M.State} {t : List (Event I)} {e : Event I}

theorem after_concat : M.after q (t ++ [e]) = M.next (M.after q t) e := by
  simp [after]

theorem Accepts.concat (h : M.Accepts q t) (he : M.allow (M.after q t) e.op) :
    M.Accepts q (t ++ [e]) := by
  induction t generalizing q with
  | nil => exact ⟨he, trivial⟩
  | cons a t ih => exact ⟨h.1, ih h.2 he⟩

/-- Each call of an accepted record was allowed after those before it. -/
theorem Accepts.allows {before after : List (Event I)} (h : M.Accepts q (before ++ e :: after)) :
    M.allow (M.after q before) e.op := by
  induction before generalizing q with
  | nil => exact h.1
  | cons a t ih => exact ih h.2

/-- Allows every call and keeps the record. -/
def recording (I : Interface) : Monitor I where
  State := List (Event I)
  allow _ _ := True
  next t e := t ++ [e]

theorem after_recording (t t' : List (Event I)) : (recording I).after t t' = t ++ t' := by
  induction t' generalizing t with
  | nil => exact (List.append_nil t).symm
  | cons e t' ih => exact (ih (t ++ [e])).trans (List.append_cons t e t').symm

end Monitor

namespace Prog

variable {I : Interface} {ε α β W : Type} {M : Monitor I}

/-- Every call of `p` is allowed from `q` on, and `p` ends in a state its outcome belongs to. -/
def Obeys (M : Monitor I) (post : M.State → Except ε α → Prop) : M.State → Prog I ε α → Prop
  | q, ret a => post q (.ok a)
  | q, raise e => post q (.error e)
  | q, ask o next => M.allow q o ∧ ∀ a, Obeys M post (M.next q ⟨o, a⟩) (next a)

variable {post : M.State → Except ε α → Prop} {q : M.State}

theorem Obeys.pure {a : α} (h : post q (.ok a)) : Obeys M post q (pure a) := h

theorem Obeys.throw {e : ε} (h : post q (.error e)) : Obeys M post q (throw e) := h

theorem Obeys.op {o : I.Op} {post : M.State → Except ε (I.Ans o) → Prop} (ho : M.allow q o)
    (h : ∀ a, post (M.next q ⟨o, a⟩) (.ok a)) : Obeys M post q (Prog.op o) := ⟨ho, h⟩

/-- A call, then the rest. -/
theorem Obeys.ask {o : I.Op} {f : I.Ans o → Prog I ε β} {post : M.State → Except ε β → Prop}
    (ho : M.allow q o) (h : ∀ a, Obeys M post (M.next q ⟨o, a⟩) (f a)) :
    Obeys M post q (Prog.op o >>= f) := ⟨ho, h⟩

theorem Obeys.bind {p : Prog I ε α} {f : α → Prog I ε β} {post : M.State → Except ε β → Prop}
    (hp : Obeys M (fun q r => match r with
      | .ok a => Obeys M post q (f a)
      | .error e => post q (.error e)) q p) : Obeys M post q (p >>= f) := by
  rw [bind_eq]
  induction p generalizing q with
  | ret a => exact hp
  | raise e => exact hp
  | ask o next ih => exact ⟨hp.1, fun a => ih a (hp.2 a)⟩

theorem Obeys.tryCatch {p : Prog I ε α} {f : ε → Prog I ε α}
    (hp : Obeys M (fun q r => match r with
      | .ok a => post q (.ok a)
      | .error e => Obeys M post q (f e)) q p) : Obeys M post q (tryCatch p f) := by
  rw [tryCatch_eq]
  induction p generalizing q with
  | ret a => exact hp
  | raise e => exact hp
  | ask o next ih => exact ⟨hp.1, fun a => ih a (hp.2 a)⟩

theorem Obeys.mono {p : Prog I ε α} {post' : M.State → Except ε α → Prop} (hp : Obeys M post q p)
    (h : ∀ q r, post q r → post' q r) : Obeys M post' q p := by
  induction p generalizing q with
  | ret a => exact h _ _ hp
  | raise e => exact h _ _ hp
  | ask o next ih => exact ⟨hp.1, fun a => ih a (hp.2 a)⟩

/-- The rule for a sequence whose first part has a specification of its own. -/
theorem Obeys.seq {p : Prog I ε α} {f : α → Prog I ε β} {post' : M.State → Except ε β → Prop}
    (hp : Obeys M post q p) (ok : ∀ q a, post q (.ok a) → Obeys M post' q (f a))
    (error : ∀ q e, post q (.error e) → post' q (.error e)) : Obeys M post' q (p >>= f) := by
  refine Obeys.bind (hp.mono ?_)
  rintro q (e | a) h
  · exact error q e h
  · exact ok q a h

theorem Obeys.ofExcept_bind {r : Except ε α} {f : α → Prog I ε β} {post : M.State → Except ε β → Prop}
    (ok : ∀ a, r = .ok a → Obeys M post q (f a)) (error : ∀ e, r = .error e → post q (.error e)) :
    Obeys M post q (Prog.ofExcept r >>= f) := by
  cases r with
  | ok a => exact ok a rfl
  | error e => exact error e rfl

/-- A program keeps to a monitor that allows every call, and to an end that always holds. -/
theorem Obeys.of_forall {post : M.State → Except ε α → Prop} (allow : ∀ q o, M.allow q o)
    (h : ∀ q r, post q r) (q : M.State) (p : Prog I ε α) : Obeys M post q p := by
  induction p generalizing q with
  | ret a => exact h q _
  | raise e => exact h q _
  | ask o next ih => exact ⟨allow q o, fun a => ih a _⟩

/-- A run of an obedient program is a record the monitor accepts. -/
theorem Obeys.exec {h : Handler I W} {p : Prog I ε α} (hp : Obeys M post q p) (w : W) :
    M.Accepts q (p.exec h w).trace ∧
      post (M.after q (p.exec h w).trace) (p.exec h w).result := by
  induction p generalizing q w with
  | ret a => exact ⟨trivial, hp⟩
  | raise e => exact ⟨trivial, hp⟩
  | ask o next ih =>
    obtain ⟨ha, hn⟩ := ih _ (hp.2 (h o w).1) (h o w).2
    exact ⟨⟨hp.1, ha⟩, hn⟩

end Prog

/-! ## Programs that make no call of a kind -/

namespace Prog

variable {I : Interface} {ε α β W : Type} {S : I.Op → Prop}

/-- No path of `p` makes a call in `S`. -/
def Avoids (S : I.Op → Prop) : Prog I ε α → Prop
  | ret _ => True
  | raise _ => True
  | ask o next => ¬S o ∧ ∀ a, Avoids S (next a)

theorem Avoids.op {o : I.Op} (ho : ¬S o) : Avoids S (Prog.op o : Prog I ε (I.Ans o)) :=
  ⟨ho, fun _ => trivial⟩

theorem Avoids.ask {o : I.Op} {f : I.Ans o → Prog I ε β} (ho : ¬S o) (h : ∀ a, Avoids S (f a)) :
    Avoids S (Prog.op o >>= f) := ⟨ho, h⟩

theorem Avoids.ofExcept (r : Except ε α) : Avoids S (ofExcept r : Prog I ε α) := by
  cases r <;> trivial

theorem Avoids.bind {p : Prog I ε α} {f : α → Prog I ε β} (hp : Avoids S p)
    (hf : ∀ a, Avoids S (f a)) : Avoids S (p >>= f) := by
  rw [bind_eq]
  induction p with
  | ret a => exact hf a
  | raise e => trivial
  | ask o next ih => exact ⟨hp.1, fun a => ih a (hp.2 a)⟩

theorem Avoids.ofExcept_bind {r : Except ε α} {f : α → Prog I ε β}
    (hf : ∀ a, r = .ok a → Avoids S (f a)) : Avoids S (Prog.ofExcept r >>= f) := by
  cases r with
  | ok a => exact hf a rfl
  | error e => trivial

theorem Avoids.tryCatch {p : Prog I ε α} {f : ε → Prog I ε α} (hp : Avoids S p)
    (hf : ∀ e, Avoids S (f e)) : Avoids S (tryCatch p f) := by
  rw [tryCatch_eq]
  induction p with
  | ret a => trivial
  | raise e => exact hf e
  | ask o next ih => exact ⟨hp.1, fun a => ih a (hp.2 a)⟩

/-- A program that avoids all that a monitor looks at keeps to it. -/
theorem Avoids.obeys {M : Monitor I} (plain : ∀ q o, ¬S o → M.allow q o ∧ ∀ a, M.next q ⟨o, a⟩ = q)
    {p : Prog I ε α} (hp : Avoids S p) (q : M.State) : Obeys M (fun q' _ => q' = q) q p := by
  induction p with
  | ret a => rfl
  | raise e => rfl
  | ask o next ih =>
    obtain ⟨hno, hnext⟩ := hp
    refine ⟨(plain q o hno).1, fun a => ?_⟩
    rw [(plain q o hno).2 a]
    exact ih a (hnext a)

theorem Avoids.exec {h : Handler I W} {p : Prog I ε α} (hp : Avoids S p) (w : W) :
    ∀ e ∈ (p.exec h w).trace, ¬S e.op := by
  induction p generalizing w with
  | ret a => exact fun _ he => by cases he
  | raise e => exact fun _ he => by cases he
  | ask o next ih =>
    intro e he
    rcases List.mem_cons.mp he with rfl | he
    · exact hp.1
    · exact ih _ (hp.2 _) _ e he

/-- A run that makes no call in `S` is the same under a handler that differs on `S` alone. -/
theorem exec_congr {h h' : Handler I W} (agree : ∀ o w, ¬S o → h' o w = h o w) {p : Prog I ε α}
    {w : W} (hp : ∀ e ∈ (p.exec h w).trace, ¬S e.op) : p.exec h' w = p.exec h w := by
  induction p generalizing w with
  | ret a => rfl
  | raise e => rfl
  | ask o next ih =>
    simp only [exec, List.forall_mem_cons] at hp
    simp only [exec, agree o w hp.1, ih _ hp.2]

end Prog

/-! ## Assertions along a run -/

namespace Prog

variable {I : Interface} {ε α β W : Type} {h : Handler I W} {ok : W → I.Op → Prop}
  {post : W → Except ε α → Prop} {w : W}

/-- The run of `p` makes its calls in worlds where they are `ok`, and ends as `post` says. -/
def Along (h : Handler I W) (ok : W → I.Op → Prop) (post : W → Except ε α → Prop) :
    Prog I ε α → W → Prop
  | ret a, w => post w (.ok a)
  | raise e, w => post w (.error e)
  | ask o next, w => ok w o ∧ Along h ok post (next (h o w).1) (h o w).2

/-- A call, then the rest. -/
theorem Along.ask {o : I.Op} {f : I.Ans o → Prog I ε β} {post : W → Except ε β → Prop}
    (ho : ok w o) (hf : Along h ok post (f (h o w).1) (h o w).2) :
    Along h ok post (Prog.op o >>= f) w := ⟨ho, hf⟩

theorem Along.bind {p : Prog I ε α} {f : α → Prog I ε β} {post : W → Except ε β → Prop}
    (hp : Along h ok (fun w r => match r with
      | .ok a => Along h ok post (f a) w
      | .error e => post w (.error e)) p w) : Along h ok post (p >>= f) w := by
  rw [bind_eq]
  induction p generalizing w with
  | ret a => exact hp
  | raise e => exact hp
  | ask o next ih => exact ⟨hp.1, ih _ hp.2⟩

theorem Along.tryCatch {p : Prog I ε α} {f : ε → Prog I ε α}
    (hp : Along h ok (fun w r => match r with
      | .ok a => post w (.ok a)
      | .error e => Along h ok post (f e) w) p w) : Along h ok post (tryCatch p f) w := by
  rw [tryCatch_eq]
  induction p generalizing w with
  | ret a => exact hp
  | raise e => exact hp
  | ask o next ih => exact ⟨hp.1, ih _ hp.2⟩

theorem Along.ofExcept_bind {r : Except ε α} {f : α → Prog I ε β} {post : W → Except ε β → Prop}
    (hok : ∀ a, r = .ok a → Along h ok post (f a) w) (herror : ∀ e, r = .error e → post w (.error e)) :
    Along h ok post (Prog.ofExcept r >>= f) w := by
  cases r with
  | ok a => exact hok a rfl
  | error e => exact herror e rfl

theorem Along.mono {p : Prog I ε α} {post' : W → Except ε α → Prop} (hp : Along h ok post p w)
    (himp : ∀ w r, post w r → post' w r) : Along h ok post' p w := by
  induction p generalizing w with
  | ret a => exact himp _ _ hp
  | raise e => exact himp _ _ hp
  | ask o next ih => exact ⟨hp.1, ih _ hp.2⟩

/-- The rule for a sequence whose first part has a specification of its own. -/
theorem Along.seq {p : Prog I ε α} {f : α → Prog I ε β} {post' : W → Except ε β → Prop}
    (hp : Along h ok post p w) (next : ∀ w a, post w (.ok a) → Along h ok post' (f a) w)
    (stop : ∀ w e, post w (.error e) → post' w (.error e)) : Along h ok post' (p >>= f) w := by
  refine Along.bind (hp.mono ?_)
  rintro w (e | a) hpost
  · exact stop w e hpost
  · exact next w a hpost

/-- What every call does to the world where it is `ok`, the run does. -/
theorem Along.frame {R : W → W → Prop} (refl : ∀ w, R w w)
    (trans : ∀ a b c, R a b → R b c → R a c) (step : ∀ o w, ok w o → R w (h o w).2)
    {p : Prog I ε α} (hp : Along h ok post p w) :
    Along h ok (fun w' r => post w' r ∧ R w w') p w := by
  induction p generalizing w with
  | ret a => exact ⟨hp, refl w⟩
  | raise e => exact ⟨hp, refl w⟩
  | ask o next ih =>
    refine ⟨hp.1, (ih _ hp.2).mono fun w' r hr => ⟨hr.1, ?_⟩⟩
    exact trans _ _ _ (step o w hp.1) hr.2

/-- What every call keeps where it is `ok`, the run keeps. -/
theorem Along.exec {Inv : W → Prop} (step : ∀ o w, ok w o → Inv w → Inv (h o w).2)
    {p : Prog I ε α} (hp : Along h ok post p w) (hw : Inv w) :
    Inv (p.exec h w).world ∧ post (p.exec h w).world (p.exec h w).result := by
  induction p generalizing w with
  | ret a => exact ⟨hw, hp⟩
  | raise e => exact ⟨hw, hp⟩
  | ask o next ih => exact ih _ hp.2 (step o w hp.1 hw)

theorem Along.ends {p : Prog I ε α} (hp : Along h ok post p w) :
    post (p.exec h w).world (p.exec h w).result := by
  induction p generalizing w with
  | ret a => exact hp
  | raise e => exact hp
  | ask o next ih => exact ih _ hp.2

end Prog

/-! ## Programs that do not throw -/

namespace Prog

variable {I : Interface} {ε α β W : Type}

/-- Every path of `p` returns. -/
def Returns : Prog I ε α → Prop
  | ret _ => True
  | raise _ => False
  | ask _ next => ∀ a, Returns (next a)

theorem Returns.bind {p : Prog I ε α} {f : α → Prog I ε β} (hp : Returns p)
    (hf : ∀ a, Returns (f a)) : Returns (p >>= f) := by
  rw [bind_eq]
  induction p with
  | ret a => exact hf a
  | raise e => exact hp.elim
  | ask o next ih => exact fun a => ih a (hp a)

theorem Returns.exec {h : Handler I W} {p : Prog I ε α} (hp : Returns p) (w : W) :
    ∃ a, (p.exec h w).result = .ok a := by
  induction p generalizing w with
  | ret a => exact ⟨a, rfl⟩
  | raise e => exact hp.elim
  | ask o next ih => exact ih _ (hp _) _

end Prog

/-! ## Two programs side by side -/

/-- The programs make the same calls and end alike, as long as their answers are related. -/
inductive Twin {I : Interface} {ε α β : Type} (rel : (o : I.Op) → I.Ans o → I.Ans o → Prop)
    (ok : α → β → Prop) (error : ε → ε → Prop) : Prog I ε α → Prog I ε β → Prop where
  | ret {a : α} {b : β} : ok a b → Twin rel ok error (.ret a) (.ret b)
  | raise {e e' : ε} : error e e' → Twin rel ok error (.raise e) (.raise e')
  | ask {o : I.Op} {p : I.Ans o → Prog I ε α} {p' : I.Ans o → Prog I ε β} :
      (∀ a a', rel o a a' → Twin rel ok error (p a) (p' a')) →
      Twin rel ok error (.ask o p) (.ask o p')

namespace Twin

open Prog

variable {I : Interface} {ε α α' β β' W : Type} {rel : (o : I.Op) → I.Ans o → I.Ans o → Prop}
  {ok : α → α' → Prop} {ok' : β → β' → Prop} {error error' : ε → ε → Prop}

/-- A program is its own twin where related answers are equal. -/
theorem self {S : I.Op → Prop} (hS : ∀ o a a', ¬S o → rel o a a' → a = a') {p : Prog I ε α}
    (hp : Avoids S p) : Twin rel Eq Eq p p := by
  induction p with
  | ret a => exact .ret rfl
  | raise e => exact .raise rfl
  | ask o next ih =>
    refine .ask fun a a' h => ?_
    obtain rfl := hS o a a' hp.1 h
    exact ih a (hp.2 a)

theorem refl (h : ∀ o a a', rel o a a' → a = a') (p : Prog I ε α) : Twin rel Eq Eq p p := by
  induction p with
  | ret a => exact .ret rfl
  | raise e => exact .raise rfl
  | ask o next ih =>
    refine .ask fun a a' ha => ?_
    obtain rfl := h o a a' ha
    exact ih a

theorem mono {p : Prog I ε α} {p' : Prog I ε α'} {ok' : α → α' → Prop}
    (hp : Twin rel ok error p p') (h : ∀ a a', ok a a' → ok' a a') : Twin rel ok' error p p' := by
  induction hp with
  | ret ha => exact .ret (h _ _ ha)
  | raise he => exact .raise he
  | ask _ ih => exact .ask fun a a' ha => ih a a' ha

theorem bind {p : Prog I ε α} {p' : Prog I ε α'} {f : α → Prog I ε β} {f' : α' → Prog I ε β'}
    (hp : Twin rel ok error p p') (hf : ∀ a a', ok a a' → Twin rel ok' error (f a) (f' a')) :
    Twin rel ok' error (p >>= f) (p' >>= f') := by
  rw [bind_eq, bind_eq]
  induction hp with
  | ret h => exact hf _ _ h
  | raise h => exact .raise h
  | ask _ ih => exact .ask fun a a' h => ih a a' h

theorem tryCatch {p : Prog I ε α} {p' : Prog I ε α'} {f : ε → Prog I ε α} {f' : ε → Prog I ε α'}
    (hp : Twin rel ok error p p') (hf : ∀ e e', error e e' → Twin rel ok error' (f e) (f' e')) :
    Twin rel ok error' (MonadExcept.tryCatch p f) (MonadExcept.tryCatch p' f') := by
  change Twin rel ok error' (p.handle f) (p'.handle f')
  induction hp with
  | ret h => exact .ret h
  | raise h => exact hf _ _ h
  | ask _ ih => exact .ask fun a a' h => ih a a' h

/-- Twins under handlers with related answers make the same calls and leave the same world. -/
theorem exec {h h' : Handler I W} (hr : ∀ o w, rel o (h o w).1 (h' o w).1)
    (hw : ∀ o w, (h' o w).2 = (h o w).2) {p : Prog I ε α} {p' : Prog I ε α'}
    (hp : Twin rel ok error p p') (w : W) :
    (p'.exec h' w).trace.map Event.op = (p.exec h w).trace.map Event.op ∧
      (p'.exec h' w).world = (p.exec h w).world := by
  induction hp generalizing w with
  | ret _ => exact ⟨rfl, rfl⟩
  | raise _ => exact ⟨rfl, rfl⟩
  | @ask o p p' _ ih =>
    have := ih _ _ (hr o w) (h o w).2
    simp only [Prog.exec, hw, List.map_cons]
    exact ⟨congrArg _ this.1, this.2⟩

end Twin

import Mathlib.Logic.Function.Basic

/-!
# Promises

Promises by name, the reactions that wait for them, and the queue of jobs. A
promise is settled once, with a value or an error; its reactions then become
jobs, in the order they were attached. A callback's promise can be resolved with
another promise, which it follows: a job attaches the reaction that passes the
outcome on. What a callback does is left to the program that gives it.
-/

/-- What waits for a promise: a callback whose result settles `derived`, or a promise that takes
over the outcome. -/
inductive Reaction (ι κ : Type*) where
  | callback (f : κ) (derived : ι)
  | follow (follower : ι)

inductive Job (ι κ ν ε : Type*) where
  | react (r : Reaction ι κ) (outcome : Except ε ν)
  /-- Attaches the reaction of a promise that was resolved with another one. -/
  | follow (leader follower : ι)

inductive PromiseState (ι κ ν ε : Type*) where
  | pending (reactions : List (Reaction ι κ))
  | settled (outcome : Except ε ν)

structure Promises (ι κ ν ε : Type*) where
  state : ι → PromiseState ι κ ν ε
  jobs : List (Job ι κ ν ε)

namespace Promises

variable {ι κ ν ε : Type*} (h : Promises ι κ ν ε)

def enqueue (jobs : List (Job ι κ ν ε)) : Promises ι κ ν ε := { h with jobs := h.jobs ++ jobs }

@[simp] theorem enqueue_jobs {jobs : List (Job ι κ ν ε)} : (h.enqueue jobs).jobs = h.jobs ++ jobs :=
  rfl

@[simp] theorem enqueue_state {jobs : List (Job ι κ ν ε)} : (h.enqueue jobs).state = h.state := rfl

/-- Resolves `follower` with the promise `leader`. -/
def resolveWith (follower leader : ι) : Promises ι κ ν ε := h.enqueue [.follow leader follower]

variable [DecidableEq ι]

def set (p : ι) (s : PromiseState ι κ ν ε) : Promises ι κ ν ε :=
  { h with state := Function.update h.state p s }

def create (p : ι) : Promises ι κ ν ε := h.set p (.pending [])

/-- A reaction waits while the promise is pending, and is a job at once when it is settled. -/
def attach (p : ι) (r : Reaction ι κ) : Promises ι κ ν ε :=
  match h.state p with
  | .pending reactions => h.set p (.pending (reactions ++ [r]))
  | .settled outcome => h.enqueue [.react r outcome]

/-- `p.then(f, f)`, which makes the promise `derived`. -/
def andThen (p : ι) (f : κ) (derived : ι) : Promises ι κ ν ε :=
  (h.create derived).attach p (.callback f derived)

/-- Settles a pending promise; a settled one stays as it is. -/
def settle (p : ι) (outcome : Except ε ν) : Promises ι κ ν ε :=
  match h.state p with
  | .pending reactions => (h.set p (.settled outcome)).enqueue (reactions.map (.react · outcome))
  | .settled _ => h

variable {h} {p q : ι} {r : Reaction ι κ} {reactions : List (Reaction ι κ)}
  {outcome : Except ε ν} {s : PromiseState ι κ ν ε}

@[simp] theorem set_jobs : (h.set p s).jobs = h.jobs := rfl

@[simp] theorem set_state : (h.set p s).state p = s := Function.update_self ..

@[simp] theorem set_state_of_ne (hq : q ≠ p) : (h.set p s).state q = h.state q :=
  Function.update_of_ne hq ..

@[simp] theorem create_state : (h.create p).state p = .pending [] := set_state

@[simp] theorem create_state_of_ne (hq : q ≠ p) : (h.create p).state q = h.state q :=
  set_state_of_ne hq

theorem attach_pending (hp : h.state p = .pending reactions) :
    h.attach p r = h.set p (.pending (reactions ++ [r])) := by
  simp only [attach, hp]

theorem attach_settled (hp : h.state p = .settled outcome) :
    h.attach p r = h.enqueue [.react r outcome] := by
  simp only [attach, hp]

theorem settle_pending (outcome : Except ε ν) (hp : h.state p = .pending reactions) :
    h.settle p outcome =
      (h.set p (.settled outcome)).enqueue (reactions.map (.react · outcome)) := by
  simp only [settle, hp]

/-- Only the promise a reaction waits for changes. -/
theorem attach_state_of_ne (hq : q ≠ p) : (h.attach p r).state q = h.state q := by
  unfold attach
  split
  · exact set_state_of_ne hq
  · rfl

theorem settle_state_of_ne (hq : q ≠ p) : (h.settle p outcome).state q = h.state q := by
  unfold settle
  split
  · exact set_state_of_ne hq
  · rfl

end Promises

import VigorMcp.Ssh.SdkVigorClient

/-!
# Sessions and failing commands

Which session a failing command retires. `resetAfterSdkFailure` drops the
session the client has when the failure arrives, which is the failing command's
only as long as no other session took its place: `retiresOwn_iff` says so for
one action and `throughout_retiresOwn_iff` for whole runs.
-/

namespace VigorMcp.SdkVigorClient

/-- The error codes after which the client drops its session. -/
def EndsSession : Thrown → Prop
  | .sdk .outputLimitExceeded _ => True
  | .sdk .sessionClosed _ => True
  | _ => False

/-- `a` is the failure, with such a code, of a command that started on session `s`. -/
def FailsOn (c : SdkVigorClient) (a : Action) (s : Nat) : Prop :=
  ∃ place err, a = .fail place err ∧ c.inFlight[place]? = some s ∧ EndsSession err

/-- A failing command closes and drops at most the session it started on. -/
def RetiresOwn (S : ClientSdk) (c : SdkVigorClient) (a : Action) : Prop :=
  ∀ s, FailsOn c a s → (∀ x ∈ (c.step S a).1.closes, x.1 = s) ∧
    ∀ n, c.session = some n → n ≠ s → (c.step S a).2.session = some n

/-- No other session has taken the place of a failing command's. -/
def OnCurrent (c : SdkVigorClient) (a : Action) : Prop :=
  ∀ s, FailsOn c a s → c.closed = true ∨ c.session = none ∨ c.session = some s

/-- Every action of the run meets `P` at the client it finds. -/
def Throughout (S : ClientSdk) (c : SdkVigorClient) (acts : List Action)
    (P : SdkVigorClient → Action → Prop) : Prop :=
  ∀ i a, acts[i]? = some a → P (c.after S (acts.take i)) a

variable {S : ClientSdk} {c : SdkVigorClient}

theorem step_fail {place : Nat} {err : Thrown} {s : Nat} (hs : c.inFlight[place]? = some s)
    (he : EndsSession err) :
    (c.step S (.fail place err)).1.closes =
        (if c.closed then none else c.session.map (·, CloseReason.mcpReset)) ∧
      (c.step S (.fail place err)).2.session = if c.closed then c.session else none := by
  have hlt := (List.getElem?_eq_some_iff.mp hs).1
  simp only [step, if_pos hlt, resetAfterSdkFailure]
  cases hc : c.closed with
  | true => exact ⟨rfl, rfl⟩
  | false =>
    simp only [Bool.false_eq_true, ↓reduceIte]
    match err, he with
    | .sdk .outputLimitExceeded _, _ => exact ⟨rfl, rfl⟩
    | .sdk .sessionClosed _, _ => exact ⟨rfl, rfl⟩

/-- **One action** retires only the failing command's session exactly when the client has no other. -/
theorem retiresOwn_iff (S : ClientSdk) (c : SdkVigorClient) (a : Action) :
    RetiresOwn S c a ↔ OnCurrent c a := by
  refine forall_congr' fun s => imp_congr_right fun ⟨place, err, ha, hs, he⟩ => ?_
  subst ha
  obtain ⟨hcloses, hsession⟩ := step_fail (S := S) hs he
  rw [hcloses, hsession]
  cases c.closed with
  | true => simp +contextual
  | false =>
    cases hn : c.session with
    | none => simp
    | some n =>
      simp only [Bool.false_eq_true, ↓reduceIte, Option.map_some, Option.mem_some_iff,
        forall_eq', Option.some.injEq, false_or, reduceCtorEq]
      exact ⟨And.left, fun h => ⟨h, fun hne => hne h⟩⟩

/-- **Every run**: each failing command retires at most its own session exactly when each failure
arrives while the client has no other. -/
theorem throughout_retiresOwn_iff (S : ClientSdk) (readOnly : Bool) (acts : List Action) :
    Throughout S (new readOnly) acts (RetiresOwn S) ↔ Throughout S (new readOnly) acts OnCurrent :=
  forall_congr' fun _ => forall_congr' fun a => imp_congr_right fun _ => retiresOwn_iff S _ a

/-- Two commands on one session; the first fails and a third makes a new session, which the failure
of the second then closes. -/
theorem throughout_retiresOwn_stale :
    let S : ClientSdk := ⟨fun _ => none, fun command => decide (command = js "sys version")⟩
    let acts : List Action := [.runCommand (js "sys version"), .runCommand (js "sys version"),
      .fail 0 (.sdk .outputLimitExceeded []), .runCommand (js "sys version"),
      .fail 0 (.sdk .sessionClosed [])]
    let c := (new false).after S (acts.take 4)
    c.inFlight = [0, 1] ∧ c.session = some 1 ∧
      (c.step S (.fail 0 (.sdk .sessionClosed []))).1.closes = some (1, .mcpReset) ∧
      ¬ Throughout S (new false) acts (RetiresOwn S) := by
  intro S acts c
  have h1 : c.inFlight = [0, 1] := by decide +kernel
  have h2 : c.session = some 1 := by decide +kernel
  have h3 : (c.step S (.fail 0 (.sdk .sessionClosed []))).1.closes = some (1, .mcpReset) := by
    decide +kernel
  refine ⟨h1, h2, h3, fun h => ?_⟩
  have hfail : FailsOn c (.fail 0 (.sdk .sessionClosed [])) 0 :=
    ⟨0, _, rfl, by rw [h1]; rfl, trivial⟩
  have h0 : (1, CloseReason.mcpReset).1 = 0 := ((h 4 _ rfl) 0 hfail).1 _ h3
  cases h0

end VigorMcp.SdkVigorClient

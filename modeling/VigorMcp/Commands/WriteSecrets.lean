import VigorMcp.Commands.Footprint
import VigorMcp.Commands.WriteAudit

/-!
# What a router reply leaves in the log

Two runs of one write call that differ in the text of the router's reply to the
write: `persisted_iff` says when they submit the same rows for a tool with
secret arguments. A reply that is accepted leaves no trace; one that reports a
failure is quoted in the error message of both rows.
-/

namespace VigorMcp

open Prog

/-- The reply to the write itself. -/
def IsWriteReply : ToolOp → Prop
  | .reply .performWrite => True
  | _ => False

theorem isWriteReply_iff (o : ToolOp) : IsWriteReply o ↔ o = .reply .performWrite := by
  unfold IsWriteReply
  split
  · simp
  · next h => exact ⟨False.elim, h⟩

theorem isWriteReply_spares : Spares IsWriteReply fun _ _ => True where
  look o ho := by
    cases o with
    | reply site => cases ho
    | _ => exact id
  request _ _ := id
  writeAudit _ _ := id

/-! ## Two runs that differ in the reply -/

/-- The environment in which the router answers the write with `raw`. -/
def Env.replying (E : Env) (raw : JStr) : Env := { E with writeReply := fun _ => .ok raw }

/-- Equal answers, but for the two replies. -/
def AlikeBut (raw raw' : JStr) : (o : ToolOp) → toolCalls.Ans o → toolCalls.Ans o → Prop
  | .reply .performWrite, r, r' => r = .ok raw ∧ r' = .ok raw'
  | _, r, r' => r = r'

theorem AlikeBut.eq {raw raw' : JStr} (o : ToolOp) (r r' : toolCalls.Ans o) (ho : ¬IsWriteReply o)
    (h : AlikeBut raw raw' o r r') : r = r' := by
  cases o with
  | reply site =>
    cases site with
    | performWrite => exact absurd trivial ho
    | _ => exact h
  | _ => exact h

theorem answer_alikeBut (E : Env) (raw raw' : JStr) (o : ToolOp) (w : World) :
    AlikeBut raw raw' o (answer (E.replying raw) o w).1 (answer (E.replying raw') o w).1 := by
  cases o with
  | reply site =>
    cases site with
    | performWrite => exact ⟨rfl, rfl⟩
    | _ => rfl
  | _ => rfl

theorem answer_world (E : Env) (raw raw' : JStr) (o : ToolOp) (w : World) :
    (answer (E.replying raw') o w).2 = (answer (E.replying raw) o w).2 := by
  cases o with
  | reply site => cases site <;> rfl
  | _ => rfl

section

variable {raw raw' : JStr}

theorem self_twin {α : Type} {p : Handling α} (h : Avoids IsWriteReply p) :
    Twin (AlikeBut raw raw') Eq Eq p p := .self AlikeBut.eq h

/-- The replies leave the same log: neither reports a failure, or both are quoted alike. -/
def QuotedAlike (raw raw' : JStr) : Prop :=
  isRouterCliFailure raw = false ∨ slice (trim raw) 200 = slice (trim raw') 200

theorem await_twin (c : ClientCall) :
    Twin (AlikeBut raw raw') (fun a a' => a = raw ∧ a' = raw') Eq (await .performWrite c)
      (await .performWrite c) := by
  refine .ask fun _ _ _ => .ask fun r r' hr => ?_
  obtain ⟨rfl, rfl⟩ := hr
  exact .ret ⟨rfl, rfl⟩

theorem handOver_twin (halike : isRouterCliFailure raw = isRouterCliFailure raw')
    (hq : QuotedAlike raw raw') (ctx : WriteContext) (before : Option JStr)
    (persistSnapshots : Bool) :
    Twin (AlikeBut raw raw') (fun a a' => a = raw ∧ a' = raw') Eq
      (handOver ctx before persistSnapshots) (handOver ctx before persistSnapshots) := by
  have hbody : Twin (AlikeBut raw raw') (fun a a' => a = raw ∧ a' = raw') Eq
      (writeReply ctx) (writeReply ctx) := by
    refine .bind (self_twin (throwIfCancelled_avoids isWriteReply_spares _)) fun _ _ _ => ?_
    refine .bind (self_twin (.op id)) fun _ _ _ => .bind (await_twin ctx.call) ?_
    rintro _ _ ⟨rfl, rfl⟩
    rw [← halike]
    split
    · next hfail =>
      rcases hq with h | h
      · rw [h] at hfail
        cases hfail
      · exact .raise (by rw [errRejected, errRejected, h])
    · exact .ret ⟨rfl, rfl⟩
  refine .tryCatch hbody ?_
  rintro e _ rfl
  exact .bind (self_twin (logWriteFailure_avoids isWriteReply_spares trivial _ _ _)) fun _ _ _ => .raise rfl

/-- Rows with an output column that stays empty do not depend on the reply. -/
theorem recordWrite_twin {ctx : WriteContext} (hsecret : ctx.cmd.secrets ≠ []) (result : PerformedWrite) :
    Twin (AlikeBut raw raw') (fun _ _ => True) Eq (recordWrite ctx { result with raw := raw })
      (recordWrite ctx { result with raw := raw' }) := by
  have hlen : ctx.cmd.secrets.length ≠ 0 := fun h => hsecret (List.length_eq_zero_iff.mp h)
  unfold recordWrite
  simp only [hlen, if_false]
  refine .bind (self_twin (.op id)) ?_
  rintro ended _ rfl
  refine .bind (self_twin (logWriteOutcome_avoids isWriteReply_spares trivial trivial _)) fun _ _ _ => ?_
  split <;> exact .ret trivial

theorem run_twin (find : JStr → Option CommandDef) (ttlMs : Int) {call : WriteCall}
    (hsecret : call.cmd.secrets ≠ []) (halike : isRouterCliFailure raw = isRouterCliFailure raw')
    (hq : QuotedAlike raw raw') :
    Twin (AlikeBut raw raw') (fun _ _ => True) Eq (call.run find ttlMs) (call.run find ttlMs) := by
  rw [WriteCall.run_eq]
  refine .bind (self_twin (.op id)) ?_
  rintro started _ rfl
  cases call.prepared with
  | error error =>
    refine .bind (self_twin ?_) fun _ _ _ => .raise rfl
    exact .ask id fun _ => logWriteOutcome_avoids isWriteReply_spares trivial trivial _
  | ok p =>
    refine .bind (self_twin (previewWrite_avoids isWriteReply_spares (fun _ _ _ _ => id) _ trivial)) ?_
    rintro (_ | preview) _ rfl
    · refine .bind (self_twin (verifyApproval_avoids isWriteReply_spares (fun _ _ _ => id) trivial))
        fun _ _ _ => ?_
      have hperform : Twin (AlikeBut raw raw')
          (fun a a' => a = { a with raw := raw } ∧ a' = { a with raw := raw' }) Eq
          (performWrite find (call.context p started)) (performWrite find (call.context p started)) := by
        refine .bind (self_twin (snapshot_avoids (fun _ _ => id) id _ _)) ?_
        rintro before _ rfl
        refine .bind (self_twin (.op id)) fun _ _ _ => ?_
        refine .bind (handOver_twin halike hq _ _ _) ?_
        rintro _ _ ⟨rfl, rfl⟩
        refine .bind (self_twin (timingOf_avoids isWriteReply_spares)) ?_
        rintro timing _ rfl
        refine .bind (self_twin (snapshot_avoids (fun _ _ => id) id _ _)) ?_
        rintro after _ rfl
        refine .bind (self_twin (.op id)) fun _ _ _ => ?_
        refine .bind (self_twin (commitAfter_avoids isWriteReply_spares trivial (fun _ => id) id _)) ?_
        rintro status _ rfl
        exact .ret ⟨rfl, rfl⟩
      refine .bind hperform ?_
      rintro performed _ ⟨h, rfl⟩
      refine .bind (self_twin (.op id)) fun _ _ _ => ?_
      rw [h]
      exact recordWrite_twin hsecret performed
    · exact .ret trivial

end

/-! ## The rows -/

/-- A request row without its timestamps and durations. -/
def LogEntry.untimed (entry : LogEntry) : LogEntry :=
  { entry with
    durationMs := 0
    requestedAt := none
    respondedAt := none
    sendAt := none
    recvAt := none
    connectMs := none }

/-- What a run submits to the log store. -/
def persisted (trace : List (Event toolCalls)) : List LogEntry × List WriteAuditEntry :=
  ((Ledger.of trace).requests.map LogEntry.untimed, (Ledger.of trace).audits)

/-- The call's run gets as far as a reply to its write. -/
def WriteCall.Replied (call : WriteCall) (E : Env) (find : JStr → Option CommandDef) (w : World) :
    Prop := ∃ e ∈ (call.exec E find w).trace, IsWriteReply e.op

def requestOf : ToolOp → Option LogEntry
  | .request entry => some entry
  | _ => none

def auditOf : ToolOp → Option WriteAuditEntry
  | .writeAudit entry => some entry
  | _ => none

/-- The rows of a run depend on its calls alone, not on their answers. -/
theorem persisted_of_ops {t t' : List (Event toolCalls)} (h : t'.map Event.op = t.map Event.op) :
    persisted t' = persisted t := by
  have hreq : ∀ t, (Ledger.of t).requests = (t.map Event.op).filterMap requestOf := by
    intro t
    rw [List.filterMap_map]
    apply foldl_next_list (f := Ledger.requests) _ Ledger.empty
    rintro q ⟨o, a⟩
    cases o with
    | send site c => cases site <;> exact (List.append_nil _).symm
    | reply site => cases site <;> exact (List.append_nil _).symm
    | request entry => rfl
    | _ => exact (List.append_nil _).symm
  have haud : ∀ t, (Ledger.of t).audits = (t.map Event.op).filterMap auditOf := by
    intro t
    rw [List.filterMap_map]
    apply foldl_next_list (f := Ledger.audits) _ Ledger.empty
    rintro q ⟨o, a⟩
    cases o with
    | send site c => cases site <;> exact (List.append_nil _).symm
    | reply site => cases site <;> exact (List.append_nil _).symm
    | writeAudit entry => rfl
    | _ => exact (List.append_nil _).symm
  simp only [persisted, hreq, haud, h]

variable {E : Env} {find : JStr → Option CommandDef} {call : WriteCall} {w : World}
  {raw raw' : JStr}

theorem run_reply {α : Type} {p : Handling α} {r : Except VigorCommandError JStr}
    (h : ⟨.reply .performWrite, r⟩ ∈ (p.exec (answer (E.replying raw)) w).trace) : r = .ok raw := by
  induction p generalizing w with
  | ret a => cases h
  | raise e => cases h
  | ask o next ih =>
    rcases List.mem_cons.mp h with he | h
    · cases he
      rfl
    · exact ih _ h

/-- A call that is replied to has called its write, and settled it with the reply. -/
theorem write_of_replied (hreplied : call.Replied (E.replying raw) find w) :
    (Ledger.of (call.exec (E.replying raw) find w).trace).write.called = true ∧
      ∀ r, (Ledger.of (call.exec (E.replying raw) find w).trace).write = .settled r → r = .ok raw := by
  constructor
  · obtain ⟨e, he, ho⟩ := hreplied
    rw [of_write]
    exact foldl_next_called (.inr ⟨e, he, .inl ((isWriteReply_iff _).mp ho)⟩)
  · intro r hr
    rw [of_write] at hr
    rcases foldl_next_settled hr with h | h
    · cases h
    · exact run_reply h

/-- A rejected write is quoted in the error message of its only audit row. -/
theorem audits_of_rejected (hreplied : call.Replied (E.replying raw) find w)
    (hfail : isRouterCliFailure raw = true) :
    ∃ audit, (Ledger.of (call.exec (E.replying raw) find w).trace).audits = [audit] ∧
      audit.errorMsg = some (errMsg (errRejected raw)) := by
  have hexit := exec_exit (E.replying raw) find call w
  obtain ⟨hcalled, hsettled⟩ := write_of_replied hreplied
  have hrejected : replyAccepted (.ok raw) = false := by simp [replyAccepted, hfail]
  generalize (call.exec (E.replying raw) find w).result = result at hexit
  generalize Ledger.of (call.exec (E.replying raw) find w).trace = q at hexit hcalled hsettled
  cases hexit with
  | failed presents rejected rows message =>
    obtain rfl := hsettled _ rfl
    exact ⟨_, rfl, message⟩
  | executed presents accepted =>
    obtain rfl := hsettled _ rfl
    rw [hrejected] at accepted
    cases accepted
  | committed presents accepted =>
    obtain rfl := hsettled _ rfl
    rw [hrejected] at accepted
    cases accepted
  | _ => cases hcalled

/-- Under the other reply a call that is not replied to runs as before. -/
theorem exec_of_not_replied (h : ¬call.Replied (E.replying raw) find w) :
    call.exec (E.replying raw') find w = call.exec (E.replying raw) find w := by
  refine exec_congr (S := IsWriteReply) (fun o w ho => ?_) fun e he hr => h ⟨e, he, hr⟩
  refine Prod.ext ?_ (answer_world E raw raw' o w)
  exact (AlikeBut.eq o _ _ ho (answer_alikeBut E raw raw' o w)).symm

/-- **A write with secret arguments submits the same rows for two replies that are classified alike
if and only if** the router does not get to reply to the write, or the replies report no failure, or
they begin alike: the rejected path quotes the first 200 characters of a failure. -/
theorem persisted_iff (E : Env) (find : JStr → Option CommandDef) (call : WriteCall) (w : World)
    (raw raw' : JStr) (hsecret : call.cmd.secrets ≠ [])
    (halike : isRouterCliFailure raw = isRouterCliFailure raw') :
    persisted (call.exec (E.replying raw') find w).trace =
        persisted (call.exec (E.replying raw) find w).trace ↔
      ¬call.Replied (E.replying raw) find w ∨ isRouterCliFailure raw = false ∨
        slice (trim raw) 200 = slice (trim raw') 200 := by
  constructor
  · intro hrows
    by_contra hnot
    push Not at hnot
    obtain ⟨hreplied, hfail, hslice⟩ := hnot
    have hfail : isRouterCliFailure raw = true := by simpa using hfail
    have hreplied' : call.Replied (E.replying raw') find w := by
      by_contra h
      have hsame : call.exec (E.replying raw) find w = call.exec (E.replying raw') find w :=
        exec_of_not_replied h
      rw [WriteCall.Replied, hsame] at hreplied
      exact h hreplied
    obtain ⟨audit, ha, hm⟩ := audits_of_rejected hreplied hfail
    obtain ⟨audit', ha', hm'⟩ := audits_of_rejected hreplied' (halike ▸ hfail)
    have haudits := congrArg Prod.snd hrows
    simp only [persisted, ha, ha', List.cons.injEq, and_true] at haudits
    rw [haudits, hm] at hm'
    exact hslice (List.append_cancel_left (Option.some.inj hm'))
  · rintro (hnot | hq)
    · rw [exec_of_not_replied hnot]
    · have := (run_twin find E.gate.ttlMs hsecret halike hq).exec (answer_alikeBut E raw raw')
        (answer_world E raw raw') w
      exact persisted_of_ops this.1

/-! ### A password quoted by the router -/

/-- A consumed approval of `user set` with its secret `param`. -/
def userSetCall (fields : List (JStr × JStr)) (h : (fields.map Prod.fst).Nodup) : WriteCall :=
  ⟨userSetTool, textArgs fields h, ⟨true, none⟩⟩

def userSetPreview : WriteCall := userSetCall [(js "param", js "-o")] (by decide +kernel)

def userSetApproved : WriteCall := userSetCall
  [(js "param", js "-o"), (js "confirmation_id", firstId), (js "signature", signedSet.signature)]
  (by decide +kernel)

def userSetPending : World := (userSetPreview.exec userEnv noTools .new).world

def echoed : JStr := js "% Invalid parameter: user set -o"

def withheld : JStr := js "% Invalid parameter"

theorem userSetApproved_persists_reply :
    userSetApproved.cmd.secrets ≠ [] ∧ isRouterCliFailure echoed = isRouterCliFailure withheld ∧
      persisted (userSetApproved.exec (userEnv.replying withheld) noTools userSetPending).trace ≠
        persisted (userSetApproved.exec (userEnv.replying echoed) noTools userSetPending).trace := by
  refine ⟨by decide +kernel, by decide +kernel, ?_⟩
  decide +kernel

/-- An accepted reply is not persisted. -/
theorem userSetApproved_accepted :
    persisted (userSetApproved.exec (userEnv.replying (js "OK")) noTools userSetPending).trace =
      persisted (userSetApproved.exec (userEnv.replying (js "password: -o")) noTools
        userSetPending).trace :=
  (persisted_iff userEnv noTools userSetApproved userSetPending (js "password: -o") (js "OK")
    (by decide +kernel) (by decide +kernel)).mpr (.inr (.inl (by decide +kernel)))

end VigorMcp

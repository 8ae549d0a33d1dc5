import VigorMcp.Server.Facade

/-!
# What the router is sent

The server, its gate and its client together: whatever the tool calls do, and
whatever happens to the client beside them, the SDK gets a read that is known,
a write with the bytes of one that was previewed and that the approver signed, or
the commit after such a write, no text of it is on the blocklist, and no signature
sends two writes (`sdk_gets_what_was_approved`).
-/

namespace VigorMcp

namespace Stack

open SdkVigorClient

variable {E : Env} {find : JStr → Option CommandDef} {x : Stack}

/-! ## The order of the calls -/

/-- Before `i`, the client has got the tools' calls that the log has made before `j`. -/
def InStep (x : Stack) (i j : Nat) : Prop :=
  ((x.actions.take i).filter fun a => !a.isOwn) = (x.server.log.take j).filterMap Entry.action

theorem action_not_own {e : Entry} {a : Action} (h : e.action = some a) : a.isOwn = false := by
  obtain ⟨⟨o, answer⟩, -, hsend⟩ := Option.bind_eq_some_iff.mp h
  cases o with
  | send site c =>
    obtain rfl : c.action = a := Option.some.inj hsend
    cases c <;> rfl
  | _ => cases hsend

theorem filter_log (log : List Entry) :
    (log.filterMap Entry.action).filter (fun a => !a.isOwn) = log.filterMap Entry.action := by
  refine List.filter_eq_self.mpr fun a hmem => ?_
  obtain ⟨e, -, ha⟩ := List.mem_filterMap.mp hmem
  rw [action_not_own ha]
  rfl

/-- **No call is lost, repeated or overtaken** between the tools and the client. -/
theorem Reaches.calls (hr : x.Reaches E find) :
    (x.actions.filter fun a => !a.isOwn) = x.server.log.filterMap Entry.action := by
  induction hr with
  | refl => rfl
  | tail hreach hstep ih =>
    cases hstep with
    | @server s s' actions h =>
      obtain ⟨more, hlog⟩ := (step_progress (Reaches.server hreach).sound h).log
      have hfresh : fresh s s' = more.filterMap Entry.action := by
        rw [fresh, ← hlog, List.drop_left]
      show (actions ++ fresh s s').filter _ = s'.log.filterMap Entry.action
      rw [List.filter_append, hfresh, filter_log, ← hlog, List.filterMap_append]
      exact congrArg (· ++ _) ih
    | @client s actions a own =>
      show (actions ++ [a]).filter _ = _
      rw [List.filter_append, List.filter_cons_of_neg (by simp [own]), List.filter_nil,
        List.append_nil]
      exact ih

theorem InStep.mono {x' : Stack} {i j : Nat} (h : InStep x i j) (hsent : Sent x i j)
    (log : x.server.log <+: x'.server.log) (actions : x.actions <+: x'.actions) : InStep x' i j := by
  obtain ⟨e, a, hj, -, hi, -⟩ := hsent
  have hlen := (List.getElem?_eq_some_iff.mp hi).1
  have hlen' := (List.getElem?_eq_some_iff.mp hj).1
  obtain ⟨more, hlog⟩ := log
  obtain ⟨later, hactions⟩ := actions
  unfold InStep
  rw [← hlog, ← hactions, List.take_append_of_le_length (Nat.le_of_lt hlen),
    List.take_append_of_le_length (Nat.le_of_lt hlen')]
  exact h

/-- Each of the tools' calls is the entry's that made it in its turn. -/
theorem Reaches.in_step (hr : x.Reaches E find) {i : Nat} {a : Action}
    (hi : x.actions[i]? = some a) (own : a.isOwn = false) : ∃ j, Sent x i j ∧ InStep x i j := by
  induction hr with
  | refl => cases hi
  | @tail x x' hreach hstep ih =>
    have hold : x.actions[i]? = some a → x.server.log <+: x'.server.log → x.actions <+: x'.actions →
        ∃ j, Sent x' i j ∧ InStep x' i j := fun hi log actions => by
      obtain ⟨j, hsent, hinStep⟩ := ih hi
      exact ⟨j, hsent.mono log actions, hinStep.mono hsent log actions⟩
    cases hstep with
    | @server s s' actions h =>
      rcases step_logs (Reaches.owned hreach) h with hsame | ⟨e, log, owner⟩
      · rw [fresh_same hsame, List.append_nil] at hi hold ⊢
        exact hold hi (hsame ▸ List.prefix_rfl) List.prefix_rfl
      · have hlog : s.log <+: s'.log := log ▸ List.prefix_append _ _
        cases ha : e.action with
        | none =>
          refine hold ?_ hlog (List.prefix_append _ _)
          rwa [fresh_concat log, ha, Option.toList_none, List.append_nil] at hi
        | some b =>
          rw [fresh_concat log, ha] at hi
          rcases getElem?_concat_cases hi with hi | ⟨rfl, -⟩
          · exact hold hi hlog (List.prefix_append _ _)
          · refine ⟨s.log.length, .new log ha owner, ?_⟩
            unfold InStep
            rw [log, List.take_left, List.take_left]
            exact Reaches.calls hreach
    | @client s actions b own' =>
      rcases getElem?_concat_cases hi with hi | ⟨-, rfl⟩
      · exact hold hi List.prefix_rfl (List.prefix_append _ _)
      · rw [own'] at own
        cases own

/-- An entry's turn comes once. -/
theorem InStep.unique {i i' j : Nat} {a a' : Action} (h : InStep x i j) (h' : InStep x i' j)
    (hi : x.actions[i]? = some a) (hi' : x.actions[i']? = some a') (own : a.isOwn = false)
    (own' : a'.isOwn = false) : i = i' := by
  -- of two calls, the later one has the earlier one before it
  have first : ∀ {k k' : Nat} {b : Action}, InStep x k j → InStep x k' j →
      x.actions[k]? = some b → b.isOwn = false → ¬k < k' := by
    intro k k' b hk hk' hb hown hlt
    have htaken : x.actions.take (k + 1) <+: x.actions.take k' :=
      List.take_prefix_take_left hlt
    have hcount := (htaken.filter fun a => !a.isOwn).length_le
    rw [List.take_add_one, hb, List.filter_append, hk, hk'] at hcount
    simp [hown] at hcount
  have := first h h' hi own
  have := first h' h hi' own'
  omega

/-! ## The reasons -/

/-- The client's call `i` is `a`, and the SDK got it. -/
def HandedAt (S : ClientSdk) (readOnly : Bool) (x : Stack) (i : Nat) (a : Action) : Prop :=
  x.actions[i]? = some a ∧
    (((SdkVigorClient.new readOnly).after S (x.actions.take i)).step S a).1.handed ≠ none

/-- A command of the read allowlist, or an operation that the SDK classifies as a read. -/
inductive KnownRead (S : ClientSdk) : Action → Prop
  | command {command : JStr} (allowed : S.isAllowedReadCommand command = true) :
      KnownRead S (.runCommand command)
  | operation {manifestId : JStr} {input : JsValue} {op : AnyOperation}
      (found : S.operationFor manifestId = some op) (classified : op.classification = .read) :
      KnownRead S (.runOperation manifestId input)

/-- Why the SDK may get the client's call `i`. -/
inductive Justified (E : Env) (S : ClientSdk) (readOnly : Bool) (x : Stack) (i : Nat) (a : Action) :
    Prop
  | read (known : KnownRead S a)
  | approved {j n number : Nat} {call : WriteCall} {c : ClientCall} {command : JStr}
      (writable : readOnly = false) (action : c.action = a) (carries : Carries x i j c command)
      (inStep : InStep x i j) (hands : HandsOver x.server.log j .performWrite number call c)
      (through : ApprovedThrough E x.server.log j n) (renders : call.Renders command)
      (rendered : a.rendered S = some command)
  | commit {j number : Nat} {call : WriteCall} {c : ClientCall} (writable : readOnly = false)
      (action : c.action = a) (carries : Carries x i j c syscommit) (inStep : InStep x i j)
      (follows : CommitFollows x.server.log j number call c)
      (approved : ∀ l write, HandsOver x.server.log l .performWrite number call write →
        ∃ n, ApprovedThrough E x.server.log l n)

theorem admits_read {S : ClientSdk} {c : SdkVigorClient} {a : Action} (ha : a.isWrite = false)
    (h : Admits S c a) : KnownRead S a := by
  cases a with
  | runCommand command => exact .command h.1
  | runOperation manifestId input =>
    obtain ⟨op, frames, hop, hclass, -⟩ := h
    exact .operation hop hclass
  | runWriteCommand command => cases ha
  | runWriteOperation manifestId input => cases ha
  | _ => exact h.elim

theorem admits_open {S : ClientSdk} {c : SdkVigorClient} {a : Action} (h : Admits S c a) :
    c.closed = false := by
  cases a with
  | runCommand command => exact h.2
  | runOperation manifestId input =>
    obtain ⟨op, frames, -, -, -, hopen⟩ := h
    exact hopen
  | runWriteCommand command => exact h.2.2
  | runWriteOperation manifestId input =>
    obtain ⟨op, frames, -, -, -, -, -, hopen⟩ := h
    exact hopen
  | _ => exact h.elim

/-- A write of the log that the SDK gets is approved, or commits an approved one. -/
theorem Carries.justified {S : ClientSdk} {readOnly : Bool} (hr : x.Reaches E find)
    (collisionFree : Function.Injective E.gate.crypto.sha256hex)
    (fresh : Function.Injective E.gate.nonces) (keySigned : KeySigned E x.server.log) {i j : Nat}
    {c : ClientCall} {command : JStr} (h : Carries x i j c command) (inStep : InStep x i j)
    (writable : readOnly = false)
    (rendered : c.action.rendered S = some command) : Justified E S readOnly x i c.action := by
  have hs := (Reaches.server hr).sound
  have hg := (Reaches.server hr).gateSound fresh
  obtain ⟨entry, -, -, -, presented_at, text⟩ := id h
  rcases text with ⟨rfl, -, rfl⟩ | ⟨rfl, -, rfl⟩
  · obtain ⟨n, through⟩ := hs.approvedThrough hg collisionFree keySigned entry
    exact .approved writable rfl h inStep entry through (hs.at presented_at).2.2.1 rendered
  · exact .commit writable rfl h inStep (hs.commit_follows entry)
      fun l write written => hs.approvedThrough hg collisionFree keySigned written

/-- What the SDK gets is justified. -/
theorem HandedAt.justified {S : ClientSdk} {readOnly : Bool} {i : Nat} {a : Action}
    (handed : HandedAt S readOnly x i a)
    (collisionFree : Function.Injective E.gate.crypto.sha256hex)
    (fresh : Function.Injective E.gate.nonces) (hr : x.Reaches E find)
    (keySigned : KeySigned E x.server.log) :
    (∀ t ∈ a.texts S, isForbidden t = false) ∧ .disconnect ∉ x.actions.take i ∧
      Justified E S readOnly x i a := by
  obtain ⟨hi, hhanded⟩ := handed
  obtain ⟨hadmits, htexts⟩ := (step_handed_iff S _ a).mp hhanded
  have hopen : .disconnect ∉ x.actions.take i := fun hmem => by
    have hclosed := (after_closed S (SdkVigorClient.new readOnly) _).mpr (.inr hmem)
    rw [admits_open hadmits] at hclosed
    cases hclosed
  refine ⟨htexts, hopen, ?_⟩
  cases ha : a.isWrite with
  | false => exact .read (admits_read ha hadmits)
  | true =>
    obtain ⟨hslot, -, hwritable, -⟩ := step_handed_write ha hhanded
    rw [after_readOnly] at hwritable
    obtain ⟨j, hsent, hinStep⟩ := hr.in_step hi (isOwn_of_isWrite ha)
    obtain ⟨c, command, rfl, hcarries⟩ := hsent.write_carried hr hi ha
    obtain ⟨-, -, authorized, -, -, -⟩ := id hcarries
    -- the client compared what it renders with the slot
    have hrendered : c.action.rendered S = some command :=
      (hslot.symm.trans (after_writeAuthorized S _ _)).trans authorized
    exact hcarries.justified hr collisionFree fresh keySigned hinStep hwritable hrendered

/-- **The SDK gets what was approved**, and reads that are known; and two writes that it gets are never
on one approval. -/
theorem sdk_gets_what_was_approved (S : ClientSdk) (readOnly : Bool)
    (collisionFree : Function.Injective E.gate.crypto.sha256hex)
    (fresh : Function.Injective E.gate.nonces) (hr : x.Reaches E find)
    (keySigned : KeySigned E x.server.log) :
    (∀ i a, HandedAt S readOnly x i a → (∀ t ∈ a.texts S, isForbidden t = false) ∧
      .disconnect ∉ x.actions.take i ∧ Justified E S readOnly x i a) ∧
    ∀ i i' j j' n a a', HandedAt S readOnly x i a → HandedAt S readOnly x i' a' →
      a.isWrite = true → a'.isWrite = true → InStep x i j → InStep x i' j' →
      ApprovedThrough E x.server.log j n → ApprovedThrough E x.server.log j' n → i = i' := by
  refine ⟨fun i a handed => handed.justified collisionFree fresh hr keySigned, ?_⟩
  intro i i' j j' n a a' handed handed' ha ha' inStep inStep' through through'
  obtain rfl := (Reaches.server hr).sound.approves_once ((Reaches.server hr).gateSound fresh)
    through through'
  exact inStep.unique inStep' handed.1 handed'.1 (isOwn_of_isWrite ha) (isOwn_of_isWrite ha')

theorem sdk_gets_what_was_approved_password : ∃ i a, a.isWrite = true ∧
    HandedAt passwordSdk false passwordStack i a ∧
    Justified mirroredEnv passwordSdk false passwordStack i a := by
  obtain ⟨i, j, c, hcarries, hrenders⟩ := passwordStack_carries
  obtain ⟨a, hi, hwrite, hhanded⟩ := (hcarries.handed_iff passwordSdk false).mpr
    ⟨hrenders, rfl, fun hmem => passwordStack_open (List.mem_of_mem_take hmem)⟩
  have hkey : KeySigned mirroredEnv passwordStack.server.log :=
    approvedRun_keySigned (by decide +kernel) (by decide +kernel)
      (userCrypto_verifies (by simp [signedCommands]))
  have hsafe := sdk_gets_what_was_approved passwordSdk false userGate_collisionFree
    (numbered_injective firstNonce) passwordStack_reaches hkey
  exact ⟨i, a, hwrite, ⟨hi, hhanded⟩, (hsafe.1 i a ⟨hi, hhanded⟩).2.2⟩

end Stack

end VigorMcp

import VigorMcp.Ssh.SdkVigorClient

/-!
# One-shot write authorization

What a run of a client can hand to the SDK. One lemma says what a step does to
the authorization slot (`step_writeAuthorized`), one what a write that is
handed over needs (`step_handed_write`); a run's slot is then a function of its
actions (`after_writeAuthorized`), and every write handed over is paired with
the `authorizeWrite` right before it.
-/

namespace VigorMcp.SdkVigorClient

/-- A write attempt of either kind. -/
def Action.isWrite : Action → Bool
  | .runWriteCommand _ => true
  | .runWriteOperation _ _ => true
  | _ => false

def Action.isAuthorize : Action → Bool
  | .authorizeWrite _ => true
  | _ => false

/-- The CLI text of a write attempt. -/
def Action.rendered (S : ClientSdk) : Action → Option JStr
  | .runWriteCommand command => some command
  | .runWriteOperation manifestId input =>
    (S.operationFor manifestId).bind fun op => (op.buildFrames input).toOption.map (join (js "\n"))
  | _ => none

variable {S : ClientSdk} {c : SdkVigorClient} {a : Action} {acts : List Action}

/-! ## What reaches the SDK -/

/-- The command texts of an action: the command, or the frames built for an operation. -/
def Action.texts (S : ClientSdk) : Action → List JStr
  | .runCommand command => [command]
  | .runWriteCommand command => [command]
  | .runOperation manifestId input | .runWriteOperation manifestId input =>
    ((S.operationFor manifestId).bind fun op => (op.buildFrames input).toOption).getD []
  | _ => []

/-- Every guard but the blocklist lets the action pass. -/
def Admits (S : ClientSdk) (c : SdkVigorClient) : Action → Prop
  | .runCommand command => S.isAllowedReadCommand command = true ∧ c.closed = false
  | .runWriteCommand command =>
    c.writeAuthorized = some command ∧ c.readOnly = false ∧ c.closed = false
  | .runOperation manifestId input => ∃ op frames, S.operationFor manifestId = some op ∧
    op.classification = .read ∧ op.buildFrames input = .ok frames ∧ c.closed = false
  | .runWriteOperation manifestId input => ∃ op frames, S.operationFor manifestId = some op ∧
    op.classification ≠ .read ∧ op.buildFrames input = .ok frames ∧
    c.writeAuthorized = some (join (js "\n") frames) ∧ c.readOnly = false ∧ c.closed = false
  | _ => False

/-- A client and what it is after handing a call over, or failing to, agree on these. -/
structure SamePolicy (c c' : SdkVigorClient) : Prop where
  slot : c'.writeAuthorized = c.writeAuthorized
  readOnly : c'.readOnly = c.readOnly
  closed : c'.closed = c.closed

theorem SamePolicy.refl (c : SdkVigorClient) : SamePolicy c c := ⟨rfl, rfl, rfl⟩

theorem current_samePolicy (c : SdkVigorClient) : SamePolicy c c.current.2 := by
  unfold current
  split
  · exact .refl c
  · split
    · exact .refl c
    · exact ⟨rfl, rfl, rfl⟩

theorem hand_samePolicy (c : SdkVigorClient) (call : SdkCall) : SamePolicy c (c.hand call).2 := by
  have h := current_samePolicy c
  unfold hand
  split
  · next e c' hc => rw [hc] at h; exact h
  · next s c' hc => rw [hc] at h; exact ⟨h.slot, h.readOnly, h.closed⟩

theorem hand_open (hc : c.closed = false) (call : SdkCall) :
    ∃ s, (c.hand call).1 = .ok ⟨call, s⟩ := by
  unfold hand current
  rw [if_neg (by simp [hc])]
  cases c.session with
  | none => exact ⟨_, rfl⟩
  | some s => exact ⟨s, rfl⟩

/-- A call on `c` either leaves `c` as it is and refuses, or hands over; the latter when `P`. -/
inductive CallSpec (c : SdkVigorClient) (P : Prop) :
    Except VigorCommandError Handed × SdkVigorClient → Prop where
  | refused (e : VigorCommandError) : ¬ P → CallSpec c P (.error e, c)
  | handed (call : SdkCall) : P → c.closed = false → CallSpec c P (c.hand call)

theorem CallSpec.samePolicy {P : Prop} {r} (h : CallSpec c P r) : SamePolicy c r.2 := by
  cases h with
  | refused e _ => exact .refl c
  | handed call _ _ => exact hand_samePolicy c call

theorem CallSpec.handed_iff {P : Prop} {r} (h : CallSpec c P r) :
    (handedBy r).1.handed ≠ none ↔ P := by
  cases h with
  | refused e hn => simp [handedBy, Except.toOption, hn]
  | handed call hp hc =>
    obtain ⟨s, hs⟩ := hand_open hc call
    simp [handedBy, hs, Except.toOption, hp]

theorem renderFrames_cases (op : AnyOperation) (input : JsValue) :
    (∃ e e', op.buildFrames input = .error e ∧ renderFrames op input = .error e') ∨
      ∃ frames, op.buildFrames input = .ok frames ∧ renderFrames op input = .ok frames := by
  unfold renderFrames
  cases op.buildFrames input with
  | error e => exact .inl ⟨e, mapSdkError e, rfl, rfl⟩
  | ok frames => exact .inr ⟨frames, rfl, rfl⟩

theorem refuseForbiddenFrames_cases (frames : List JStr) :
    (∃ e, refuseForbiddenFrames frames = .error e ∧ ¬ ∀ f ∈ frames, isForbidden f = false) ∨
      (refuseForbiddenFrames frames = .ok () ∧ ∀ f ∈ frames, isForbidden f = false) := by
  unfold refuseForbiddenFrames
  cases h : frames.find? isForbidden with
  | none => exact .inr ⟨rfl, by simpa using h⟩
  | some f =>
    refine .inl ⟨_, rfl, fun hall => ?_⟩
    have h1 := List.find?_some h
    rw [hall f (List.mem_of_find?_eq_some h)] at h1
    cases h1

theorem runCommand_spec (command : JStr) :
    CallSpec c (Admits S c (.runCommand command) ∧ isForbidden command = false)
      (c.runCommand S command) := by
  unfold runCommand exec
  split
  · next h => exact .refused _ fun hp => by simp [hp.1.1] at h
  · next h1 =>
    split
    · next h => exact .refused _ fun hp => by simp [hp.2] at h
    · next h2 =>
      split
      · next h => exact .refused _ fun hp => by simp [hp.1.2] at h
      · next h3 =>
        exact .handed _ ⟨⟨by simpa using h1, by simpa using h3⟩, by simpa using h2⟩
          (by simpa using h3)

/-- Every write attempt empties the slot first. -/
theorem runWriteCommand_spec (command : JStr) :
    CallSpec { c with writeAuthorized := none }
      (Admits S c (.runWriteCommand command) ∧ isForbidden command = false)
      (c.runWriteCommand command) := by
  unfold runWriteCommand exec
  simp only
  split
  · next h => exact .refused _ fun hp => h hp.1.1
  · next h1 =>
    split
    · next h => exact .refused _ fun hp => by simp [hp.2] at h
    · next h2 =>
      split
      · next h => exact .refused _ fun hp => by simp [hp.1.2.1] at h
      · next h3 =>
        split
        · next h => exact .refused _ fun hp => by simp [hp.1.2.2] at h
        · next h4 =>
          exact .handed _ ⟨⟨Decidable.not_not.mp h1, by simpa using h3, by simpa using h4⟩,
            by simpa using h2⟩ (by simpa using h4)

theorem runOperation_spec (manifestId : JStr) (input : JsValue) :
    CallSpec c (Admits S c (.runOperation manifestId input) ∧
      ∀ t ∈ (Action.runOperation manifestId input).texts S, isForbidden t = false)
      (c.runOperation S manifestId input) := by
  unfold runOperation invokeOperation
  cases hop : S.operationFor manifestId with
  | none => exact .refused _ fun ⟨⟨op, _, h, _⟩, _⟩ => by simp [hop] at h
  | some op =>
    simp only
    split
    · next h =>
      refine .refused _ fun ⟨⟨op', _, h', hc, _⟩, _⟩ => ?_
      rw [hop, Option.some.injEq] at h'
      exact h (h' ▸ hc)
    · next h1 =>
      rcases renderFrames_cases op input with ⟨e, e', hb, hr⟩ | ⟨frames, hb, hr⟩
      · rw [hr]
        refine .refused _ fun ⟨⟨op', _, h', _, hb', _⟩, _⟩ => ?_
        rw [hop, Option.some.injEq] at h'
        rw [← h', hb] at hb'
        cases hb'
      · have ht : (Action.runOperation manifestId input).texts S = frames := by
          simp [Action.texts, hop, hb, Except.toOption]
        rw [hr, ht]
        simp only
        rcases refuseForbiddenFrames_cases frames with ⟨e, he, hn⟩ | ⟨he, hall⟩
        · rw [he]
          exact .refused _ fun hp => hn hp.2
        · rw [he]
          simp only
          split
          · next h => exact .refused _ fun ⟨⟨_, _, _, _, _, hc⟩, _⟩ => by simp [hc] at h
          · next h4 =>
            exact .handed _ ⟨⟨op, frames, hop, Decidable.not_not.mp h1, hb, by simpa using h4⟩,
              hall⟩ (by simpa using h4)

theorem runWriteOperation_spec (manifestId : JStr) (input : JsValue) :
    CallSpec { c with writeAuthorized := none }
      (Admits S c (.runWriteOperation manifestId input) ∧
        ∀ t ∈ (Action.runWriteOperation manifestId input).texts S, isForbidden t = false)
      (c.runWriteOperation S manifestId input) := by
  unfold runWriteOperation invokeOperation
  cases hop : S.operationFor manifestId with
  | none => exact .refused _ fun ⟨⟨op, _, h, _⟩, _⟩ => by simp [hop] at h
  | some op =>
    simp only
    split
    · next h =>
      refine .refused _ fun ⟨⟨op', _, h', hc, _⟩, _⟩ => ?_
      rw [hop, Option.some.injEq] at h'
      exact hc (h' ▸ h)
    · next h1 =>
      rcases renderFrames_cases op input with ⟨e, e', hb, hr⟩ | ⟨frames, hb, hr⟩
      · rw [hr]
        refine .refused _ fun ⟨⟨op', _, h', _, hb', _⟩, _⟩ => ?_
        rw [hop, Option.some.injEq] at h'
        rw [← h', hb] at hb'
        cases hb'
      · have ht : (Action.runWriteOperation manifestId input).texts S = frames := by
          simp [Action.texts, hop, hb, Except.toOption]
        have admits : ∀ {P : Prop}, (c.writeAuthorized = some (join (js "\n") frames) →
            c.readOnly = false → c.closed = false → P) →
            Admits S c (.runWriteOperation manifestId input) → P := by
          rintro P hP ⟨op', frames', h', _, hb', hs, hro, hcl⟩
          rw [hop, Option.some.injEq] at h'
          rw [← h', hb, Except.ok.injEq] at hb'
          exact hP (hb' ▸ hs) hro hcl
        rw [hr, ht]
        simp only
        split
        · next h => exact .refused _ fun hp => admits (fun hs _ _ => h hs) hp.1
        · next h2 =>
          rcases refuseForbiddenFrames_cases frames with ⟨e, he, hn⟩ | ⟨he, hall⟩
          · rw [he]
            exact .refused _ fun hp => hn hp.2
          · rw [he]
            simp only
            split
            · next h => exact .refused _ fun hp => admits (fun _ hro _ => by simp [hro] at h) hp.1
            · next h3 =>
              split
              · next h => exact .refused _ fun hp => admits (fun _ _ hcl => by simp [hcl] at h) hp.1
              · next h4 =>
                exact .handed _ ⟨⟨op, frames, hop, h1, hb, Decidable.not_not.mp h2,
                  by simpa using h3, by simpa using h4⟩, hall⟩ (by simpa using h4)

/-- **What reaches the SDK**: an action hands a call over exactly when every guard lets it pass and
the blocklist none of its texts. -/
theorem step_handed_iff (S : ClientSdk) (c : SdkVigorClient) (a : Action) :
    (c.step S a).1.handed ≠ none ↔ Admits S c a ∧ ∀ t ∈ a.texts S, isForbidden t = false := by
  cases a with
  | runCommand command => simpa [step, Action.texts] using (runCommand_spec command).handed_iff
  | runWriteCommand command =>
    simpa [step, Action.texts] using (runWriteCommand_spec (S := S) (c := c) command).handed_iff
  | runOperation manifestId input => exact (runOperation_spec manifestId input).handed_iff
  | runWriteOperation manifestId input => exact (runWriteOperation_spec manifestId input).handed_iff
  | fail place err =>
    simp only [step, Admits, false_and, iff_false, Classical.not_not]
    split <;> rfl
  | _ => simp [step, Admits]

/-! ## The slot -/

/-- What an action leaves in the slot. -/
def slotAfter (slot : Option JStr) : Action → Option JStr
  | .authorizeWrite command => some command
  | .runWriteCommand _ => none
  | .runWriteOperation _ _ => none
  | _ => slot

theorem resetAfterSdkFailure_samePolicy (c : SdkVigorClient) (err : Thrown) :
    SamePolicy c (c.resetAfterSdkFailure err).2 := by
  unfold resetAfterSdkFailure
  split
  · exact .refl c
  · split
    · split
      · exact .refl c
      · exact ⟨rfl, rfl, rfl⟩
    · exact .refl c

/-- **Step lemma**: the slot, the mode and the closed flag after an action. -/
theorem step_policy (S : ClientSdk) (c : SdkVigorClient) (a : Action) :
    (c.step S a).2.writeAuthorized = slotAfter c.writeAuthorized a ∧
      (c.step S a).2.readOnly = c.readOnly ∧
      ((c.step S a).2.closed = true ↔ c.closed = true ∨ a = .disconnect) := by
  have same : ∀ {d : SdkVigorClient} {a : Action}, a ≠ .disconnect →
      SamePolicy { c with writeAuthorized := slotAfter c.writeAuthorized a } d →
      d.writeAuthorized = slotAfter c.writeAuthorized a ∧ d.readOnly = c.readOnly ∧
        (d.closed = true ↔ c.closed = true ∨ a = .disconnect) := by
    intro d a ha h
    refine ⟨h.slot, h.readOnly, ?_⟩
    rw [h.closed]
    simp [ha]
  cases a with
  | connect => exact same nofun (current_samePolicy c)
  | authorizeWrite command => exact same nofun (.refl _)
  | runCommand command => exact same nofun (runCommand_spec (S := S) command).samePolicy
  | runWriteCommand command =>
    exact same nofun (runWriteCommand_spec (S := S) (c := c) command).samePolicy
  | runOperation manifestId input =>
    exact same nofun (runOperation_spec (S := S) manifestId input).samePolicy
  | runWriteOperation manifestId input =>
    exact same nofun (runWriteOperation_spec (S := S) (c := c) manifestId input).samePolicy
  | disconnect => simp [step, slotAfter, disconnect]
  | succeed place => exact same nofun ⟨rfl, rfl, rfl⟩
  | fail place err =>
    refine same nofun ?_
    simp only [step]
    split
    · have h := resetAfterSdkFailure_samePolicy
        { c with inFlight := c.inFlight.eraseIdx place } err
      exact ⟨h.slot, h.readOnly, h.closed⟩
    · exact .refl c

/-- What a write needs to reach the SDK. -/
theorem step_handed_write (ha : a.isWrite = true) (h : (c.step S a).1.handed ≠ none) :
    c.writeAuthorized = a.rendered S ∧ (a.rendered S).isSome = true ∧ c.readOnly = false ∧
      c.closed = false := by
  have hadm := ((step_handed_iff S c a).mp h).1
  cases a with
  | runWriteCommand command => exact ⟨hadm.1, rfl, hadm.2⟩
  | runWriteOperation manifestId input =>
    obtain ⟨op, frames, hop, _, hb, hs, hro, hcl⟩ := hadm
    have hr : (Action.runWriteOperation manifestId input).rendered S =
        some (join (js "\n") frames) := by
      simp [Action.rendered, hop, hb, Except.toOption]
    rw [hr]
    exact ⟨hs, rfl, hro, hcl⟩
  | _ => cases ha

theorem step_handed_runOperation {manifestId : JStr} {input : JsValue}
    (h : (c.step S (.runOperation manifestId input)).1.handed ≠ none) :
    ∃ op, S.operationFor manifestId = some op ∧ op.classification = .read := by
  obtain ⟨op, _, hop, hc, _⟩ := ((step_handed_iff S c _).mp h).1
  exact ⟨op, hop, hc⟩

/-! ## Runs -/

theorem after_writeAuthorized (S : ClientSdk) (c : SdkVigorClient) (acts : List Action) :
    (c.after S acts).writeAuthorized = acts.foldl slotAfter c.writeAuthorized := by
  induction acts using List.reverseRecOn with
  | nil => rfl
  | append_singleton acts a ih =>
    rw [after_concat, (step_policy S _ a).1, ih, List.foldl_append]
    rfl

theorem after_readOnly (S : ClientSdk) (c : SdkVigorClient) (acts : List Action) :
    (c.after S acts).readOnly = c.readOnly := by
  induction acts using List.reverseRecOn with
  | nil => rfl
  | append_singleton acts a ih => rw [after_concat, (step_policy S _ a).2.1, ih]

theorem after_closed (S : ClientSdk) (c : SdkVigorClient) (acts : List Action) :
    (c.after S acts).closed = true ↔ c.closed = true ∨ .disconnect ∈ acts := by
  induction acts using List.reverseRecOn with
  | nil => simp
  | append_singleton acts a ih =>
    rw [after_concat, (step_policy S _ a).2.2, ih, List.mem_append, List.mem_singleton, or_assoc,
      eq_comm (a := a)]

/-- A full slot was filled by an `authorizeWrite` with neither a write attempt nor another
`authorizeWrite` since. -/
theorem slot_filled {command : JStr} (h : acts.foldl slotAfter none = some command) :
    ∃ before since, acts = before ++ .authorizeWrite command :: since ∧
      ∀ a ∈ since, a.isWrite = false ∧ a.isAuthorize = false := by
  induction acts using List.reverseRecOn with
  | nil => cases h
  | append_singleton acts a ih =>
    rw [List.foldl_append, List.foldl_cons, List.foldl_nil] at h
    have keep : slotAfter (acts.foldl slotAfter none) a = acts.foldl slotAfter none →
        a.isWrite = false ∧ a.isAuthorize = false →
        ∃ before since, acts ++ [a] = before ++ .authorizeWrite command :: since ∧
          ∀ a ∈ since, a.isWrite = false ∧ a.isAuthorize = false := by
      intro hs ha
      obtain ⟨before, since, rfl, hsince⟩ := ih (hs ▸ h)
      refine ⟨before, since ++ [a], by simp, ?_⟩
      intro b hb
      rcases List.mem_append.mp hb with hb | hb
      · exact hsince b hb
      · exact List.mem_singleton.mp hb ▸ ha
    cases a with
    | authorizeWrite command' =>
      simp only [slotAfter, Option.some.injEq] at h
      exact ⟨acts, [], by rw [h], by simp⟩
    | runWriteCommand _ => cases h
    | runWriteOperation _ _ => cases h
    | _ => exact keep rfl ⟨rfl, rfl⟩

/-- Action `i` of a run is a write attempt that reached the SDK. -/
def WriteHanded (S : ClientSdk) (c : SdkVigorClient) (acts : List Action) (i : Nat) : Prop :=
  ∃ a, acts[i]? = some a ∧ a.isWrite = true ∧
    ((c.after S (acts.take i)).step S a).1.handed ≠ none

/-- Action `j` is the most recent `authorizeWrite` before the write attempt `i`, of exactly what
`i` renders, with no other write attempt in between. -/
def AuthorizedBy (S : ClientSdk) (acts : List Action) (i j : Nat) : Prop :=
  j < i ∧ (∃ a command, acts[i]? = some a ∧ a.rendered S = some command ∧
    acts[j]? = some (.authorizeWrite command)) ∧
    ∀ k a, j < k → k < i → acts[k]? = some a → a.isWrite = false ∧ a.isAuthorize = false

theorem exists_authorizedBy {readOnly : Bool} {i : Nat}
    (h : WriteHanded S (new readOnly) acts i) : ∃ j, AuthorizedBy S acts i j := by
  obtain ⟨a, hi, ha, hh⟩ := h
  obtain ⟨hslot, hsome, _, _⟩ := step_handed_write ha hh
  obtain ⟨command, hc⟩ := Option.isSome_iff_exists.mp hsome
  rw [after_writeAuthorized, hc] at hslot
  obtain ⟨before, since, hacts, hsince⟩ := slot_filled hslot
  have hlen : (acts.take i).length = i := by
    have := (List.getElem?_eq_some_iff.mp hi).1
    simp; omega
  have hget : ∀ k, k < i → acts[k]? = (before ++ .authorizeWrite command :: since)[k]? := by
    intro k hk
    rw [← hacts, List.getElem?_take_of_lt hk]
  have hj : before.length < i := by
    rw [← hlen, hacts]; simp
  refine ⟨before.length, hj, ⟨a, command, hi, hc, ?_⟩, ?_⟩
  · rw [hget _ hj, List.getElem?_append_right (Nat.le_refl _)]
    simp
  · intro k b hk1 hk2 hb
    rw [hget k hk2, List.getElem?_append_right (Nat.le_of_lt hk1)] at hb
    obtain ⟨n, hn⟩ : ∃ n, k - before.length = n + 1 := ⟨k - before.length - 1, by omega⟩
    rw [hn, List.getElem?_cons_succ] at hb
    exact hsince b (List.mem_of_getElem? hb)

/-- One `authorizeWrite` enables one write. -/
theorem authorizedBy_unique {i i' j : Nat} (hi : WriteHanded S c acts i)
    (hi' : WriteHanded S c acts i') (h : AuthorizedBy S acts i j) (h' : AuthorizedBy S acts i' j) :
    i = i' := by
  obtain ⟨a, ha, hw, _⟩ := hi
  obtain ⟨a', ha', hw', _⟩ := hi'
  rcases Nat.lt_trichotomy i i' with hlt | rfl | hlt
  · have := (h'.2.2 i a h.1 hlt ha).1
    rw [hw] at this; cases this
  · rfl
  · have := (h.2.2 i' a' h'.1 hlt ha').1
    rw [hw'] at this; cases this

/-- **One-shot write authorization** of a client, over every run of it. -/
theorem write_authorization (S : ClientSdk) (readOnly : Bool) (acts : List Action) :
    (∀ i, WriteHanded S (new readOnly) acts i → ∃ j, AuthorizedBy S acts i j) ∧
      (∀ i i' j, WriteHanded S (new readOnly) acts i → WriteHanded S (new readOnly) acts i' →
        AuthorizedBy S acts i j → AuthorizedBy S acts i' j → i = i') ∧
      (∀ i a, acts[i]? = some a → a.isWrite = true →
        ((new readOnly).after S (acts.take (i + 1))).writeAuthorized = none) ∧
      (∀ i, WriteHanded S (new readOnly) acts i →
        readOnly = false ∧ .disconnect ∉ acts.take i) ∧
      (∀ i manifestId input, acts[i]? = some (.runOperation manifestId input) →
        (((new readOnly).after S (acts.take i)).step S
          (.runOperation manifestId input)).1.handed ≠ none →
        ∃ op, S.operationFor manifestId = some op ∧ op.classification = .read) := by
  refine ⟨fun i => exists_authorizedBy, fun i i' j hi hi' => authorizedBy_unique hi hi', ?_, ?_,
    fun i manifestId input _ h => step_handed_runOperation h⟩
  · intro i a hi ha
    have htake : acts.take (i + 1) = acts.take i ++ [a] := by
      rw [List.take_add_one, hi]; rfl
    rw [htake, after_concat, (step_policy S _ a).1]
    cases a <;> first | rfl | cases ha
  · rintro i ⟨a, hi, ha, hh⟩
    obtain ⟨_, _, hro, hcl⟩ := step_handed_write ha hh
    rw [after_readOnly] at hro
    refine ⟨hro, fun hmem => ?_⟩
    have := (after_closed S (new readOnly) (acts.take i)).mpr (.inr hmem)
    rw [hcl] at this
    cases this

end VigorMcp.SdkVigorClient

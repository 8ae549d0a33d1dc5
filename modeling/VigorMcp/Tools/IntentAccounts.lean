import VigorMcp.Tools.ConfirmGate

/-!
# Issued and spent intents

The abstract account of a gate: the intents it has issued and the nonces it has
spent. Whatever expires, is pruned or has its id drawn again, a pending intent
is an issued one that is not spent, and no two pending intents share a nonce. An
accepted approval therefore spends a nonce that none has spent before.
-/

namespace VigorMcp.ConfirmGate

/-- The nonces drawn so far. -/
def Drawn (E : GateEnv) (g : ConfirmGate) (nonce : JStr) : Prop :=
  ∃ n < g.nonceDraws, nonce = E.nonces n

structure Accounted (E : GateEnv) (issued : List CreateIntentResult) (spent : List JStr)
    (g : ConfirmGate) : Prop where
  issued : ∀ e ∈ g.intents.entries, resultOf e.2 ∈ issued
  drawn : ∀ e ∈ g.intents.entries, Drawn E g e.2.nonce
  distinct : ∀ e ∈ g.intents.entries, ∀ e' ∈ g.intents.entries, e.2.nonce = e'.2.nonce → e = e'
  pending : ∀ e ∈ g.intents.entries, e.2.nonce ∉ spent
  spentDrawn : ∀ nonce ∈ spent, Drawn E g nonce

variable {E : GateEnv} {g g' : ConfirmGate} {issued : List CreateIntentResult} {spent : List JStr}

theorem new_accounted : Accounted E [] [] new where
  issued _ he := by cases he
  drawn _ he := by cases he
  distinct _ he := by cases he
  pending _ he := by cases he
  spentDrawn _ he := by cases he

theorem Accounted.later (h : Accounted E issued spent g) (hl : Later E g g') :
    Accounted E issued spent g' := by
  have hsub : ∀ e ∈ g'.intents.entries, e ∈ g.intents.entries := fun e he => hl.intents.subset he
  have hdrawn : ∀ {nonce}, Drawn E g nonce → Drawn E g' nonce := by
    intro nonce hd
    unfold Drawn at hd ⊢
    rwa [hl.nonceDraws]
  exact
    { issued := fun e he => h.issued e (hsub e he)
      drawn := fun e he => hdrawn (h.drawn e (hsub e he))
      distinct := fun e he e' he' => h.distinct e (hsub e he) e' (hsub e' he')
      pending := fun e he => h.pending e (hsub e he)
      spentDrawn := fun nonce hn => hdrawn (h.spentDrawn nonce hn) }

theorem Drawn.ne_next (fresh : Function.Injective E.nonces) {nonce : JStr} (h : Drawn E g nonce) :
    nonce ≠ E.nonces g.nonceDraws := by
  obtain ⟨n, hn, rfl⟩ := h
  intro he
  have := fresh he
  omega

/-- A new intent is issued, with a nonce that no other intent has had. -/
theorem Accounted.withIntent (fresh : Function.Injective E.nonces) (h : Accounted E issued spent g)
    {i : WriteIntent} (hi : i.nonce = E.nonces g.nonceDraws) :
    Accounted E (issued ++ [resultOf i]) spent (g.withIntent E i) := by
  have hold : ∀ {nonce}, Drawn E g nonce → Drawn E (g.withIntent E i) nonce := by
    rintro nonce ⟨n, hn, rfl⟩
    exact ⟨n, Nat.lt_succ_of_lt hn, rfl⟩
  have hmem : ∀ e ∈ (g.withIntent E i).intents.entries,
      e ∈ g.intents.entries ∨ e = (i.confirmationId, i) := by
    intro e he
    rcases OrderedMap.mem_set.mp he with ⟨he, _⟩ | he
    · exact .inl he
    · exact .inr he
  constructor
  · intro e he
    rcases hmem e he with he | rfl
    · exact List.mem_append_left _ (h.issued e he)
    · exact List.mem_append_right _ (List.mem_singleton.mpr rfl)
  · intro e he
    rcases hmem e he with he | rfl
    · exact hold (h.drawn e he)
    · exact ⟨g.nonceDraws, Nat.lt_succ_self _, hi⟩
  · intro e he e' he' heq
    rcases hmem e he with he | rfl <;> rcases hmem e' he' with he' | rfl
    · exact h.distinct e he e' he' heq
    · exact absurd (heq.trans hi) ((h.drawn e he).ne_next fresh)
    · exact absurd (heq.symm.trans hi) ((h.drawn e' he').ne_next fresh)
    · rfl
  · intro e he
    rcases hmem e he with he | rfl
    · exact h.pending e he
    · exact fun hs => (h.spentDrawn _ hs).ne_next fresh hi
  · exact fun nonce hn => hold (h.spentDrawn nonce hn)

/-- `create` issues one intent when it succeeds. -/
theorem create_accounted (fresh : Function.Injective E.nonces) (h : Accounted E issued spent g)
    (toolId command commandPreview : JStr) (redactedFields : List JStr) :
    Accounted E
      (issued ++ (g.create E toolId command commandPreview redactedFields).1.toOption.toList) spent
      (g.create E toolId command commandPreview redactedFields).2 := by
  have hp := h.later (prune_later (E := E) g)
  rcases create_cases E g toolId command commandPreview redactedFields with
    ⟨_, e, hc⟩ | ⟨_, i, rfl, hc⟩
  · rw [hc]
    simpa [Except.toOption] using hp
  · rw [hc]
    exact (hp.withIntent fresh rfl).later (persist_later _)

/-- The intent an accepted approval consumes is spent, and was not before. -/
theorem Consumed.accounted {confirmationId command signature : JStr} {intent : WriteIntent}
    (hc : Consumed E g g' confirmationId command signature intent) (h : Accounted E issued spent g) :
    Accounted E issued (spent ++ [intent.nonce]) g' := by
  obtain ⟨expiry, used, _, hl⟩ := hc.left
  have hmem := OrderedMap.get_eq_some.mp hc.pending
  have hold : ∀ e ∈ (g.intents.delete confirmationId).entries,
      e ∈ g.intents.entries ∧ e.1 ≠ confirmationId := fun e he => OrderedMap.mem_delete.mp he
  refine Accounted.later ?_ hl
  constructor
  · exact fun e he => h.issued e (hold e he).1
  · exact fun e he => h.drawn e (hold e he).1
  · exact fun e he e' he' => h.distinct e (hold e he).1 e' (hold e' he').1
  · intro e he hs
    rcases List.mem_append.mp hs with hs | hs
    · exact h.pending e (hold e he).1 hs
    · have := h.distinct e (hold e he).1 _ hmem (List.mem_singleton.mp hs)
      exact (hold e he).2 (congrArg Prod.fst this)
  · intro nonce hn
    rcases List.mem_append.mp hn with hn | hn
    · exact h.spentDrawn nonce hn
    · rw [List.mem_singleton.mp hn]
      exact h.drawn _ hmem

/-- `consumeSigned` spends at most the intent pending under the id. -/
theorem consumeSigned_accounted (h : Accounted E issued spent g)
    (confirmationId command signature : JStr) :
    Accounted E issued
      (spent ++ match (g.consumeSigned E confirmationId command signature).1 with
        | .ok () => ((g.intents.get confirmationId).map WriteIntent.nonce).toList
        | .error _ => [])
      (g.consumeSigned E confirmationId command signature).2 := by
  rcases consumeSigned_cases E g confirmationId command signature with
    ⟨e, g', hc, hl⟩ | ⟨g', intent, hc, hcons⟩
  · rw [hc]
    simpa using h.later hl
  · rw [hc, hcons.pending]
    exact hcons.accounted h

end VigorMcp.ConfirmGate

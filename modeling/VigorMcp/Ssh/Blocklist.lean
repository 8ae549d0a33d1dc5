import VigorMcp.Ssh.WriteAuthorization

/-!
# The blocklist at the client

When a forbidden shell line stops an action. The blocklist reads `\n`-lines
only, so a forbidden line behind a bare carriage return is caught by luck: some
other text of the action is forbidden, or another guard refuses.
-/

namespace VigorMcp.SdkVigorClient

/-- Some line of the text, as the router's shell cuts it, is forbidden. -/
def hasForbiddenLine (text : JStr) : Bool := (shellLines text).any forbiddenLine

/-- No forbidden line of any of the action's texts reaches the SDK. -/
def Blocks (S : ClientSdk) (c : SdkVigorClient) (a : Action) : Prop :=
  (∃ t ∈ a.texts S, hasForbiddenLine t = true) → (c.step S a).1.handed = none

/-- **When the blocklist holds**: exactly when another guard refuses the action, or the check itself
matches one of its texts, or none of them hides a forbidden line behind a bare carriage return. -/
theorem blocks_iff (S : ClientSdk) (c : SdkVigorClient) (a : Action) :
    Blocks S c a ↔ ¬ Admits S c a ∨ (∃ t ∈ a.texts S, isForbidden t = true) ∨
      ∀ t ∈ a.texts S, ¬ BehindCr t := by
  have hh := step_handed_iff S c a
  constructor
  · intro h
    by_cases hadm : Admits S c a
    · by_cases hf : ∃ t ∈ a.texts S, isForbidden t = true
      · exact .inr (.inl hf)
      · have hpass : ∀ t ∈ a.texts S, isForbidden t = false := by
          intro t ht
          by_contra hn
          exact hf ⟨t, ht, by simpa using hn⟩
        refine .inr (.inr fun t ht hb => hh.mpr ⟨hadm, hpass⟩ (h ⟨t, ht, ?_⟩))
        exact (behindCr_iff (hpass t ht)).mpr hb
    · exact .inl hadm
  · rintro h ⟨t, ht, hl⟩
    by_contra hn
    obtain ⟨hadm, hpass⟩ := hh.mp hn
    rcases h with h | ⟨u, hu, hf⟩ | h
    · exact h hadm
    · rw [hpass u hu] at hf
      cases hf
    · exact h t ht ((behindCr_iff (hpass t ht)).mp hl)

/-- A confirmed command with `sys halt` behind a carriage return reaches the SDK. -/
theorem blocks_evaded :
    let S : ClientSdk := ⟨fun _ => none, fun _ => false⟩
    let command := js "sys name x\rsys halt"
    let c := (new false).after S [.authorizeWrite command]
    hasForbiddenLine command = true ∧ (c.step S (.runWriteCommand command)).1.handed.isSome = true ∧
      ¬ Blocks S c (.runWriteCommand command) := by
  intro S command c
  have h1 : hasForbiddenLine command = true := by decide +kernel
  have h2 : (c.step S (.runWriteCommand command)).1.handed.isSome = true := by decide +kernel
  refine ⟨h1, h2, fun h => ?_⟩
  rw [h ⟨command, by simp [Action.texts], h1⟩] at h2
  cases h2

end VigorMcp.SdkVigorClient

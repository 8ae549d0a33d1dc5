import VigorMcp.Commands.Registry
import VigorMcp.Lib.Words

/-!
# Flag tokens

`ha_set` and `mngt_bfp` take an array of tokens and check the tokens that begin
with `-` against a list of flags; the router reads the words of the joined line.
A token of `ha_set` is one word, so the words are the checked tokens; a token of
`mngt_bfp` may hold white space, and then a word behind it goes unchecked
(`flagsHold_iff`).
-/

namespace VigorMcp

/-- A non-empty string without control characters and shell metacharacters. -/
def safeText (max : Nat) : JsValue → Bool
  | .str s => 1 ≤ s.length && s.length ≤ max &&
    s.all fun u => 32 ≤ u && !([59, 124, 38, 96, 36].contains u)
  | _ => false

/-- `safeText()` without white space. -/
def oneToken : JsValue → Bool
  | .str s => safeText 255 (.str s) && !s.any isSpace
  | _ => false

/-- A token that begins with `-` is one of the flags. -/
def flagKnown (flags : List JStr) (token : JStr) : Bool :=
  !startsWith token (js "-") || flags.contains token

/-- The strings of an array. -/
def tokensOf : JsValue → List JStr
  | .arr items => items.filterMap JsValue.string?
  | _ => []

/-- `z.array(token).min(1)`, refined by `flagKnown`. -/
def flagArray (token : JsValue → Bool) (flags : List JStr) : JsValue → Bool
  | .arr items => items.all token && 1 ≤ items.length &&
    (tokensOf (.arr items)).all (flagKnown flags)
  | _ => false

def haSetFlags : List JStr :=
  [js "-e", js "-l", js "-M", js "-v", js "-R", js "-p", js "-k", js "-u", js "-m", js "-s",
    js "-y", js "-c", js "-C", js "-I", js "-h", js "-d", js "-o"]

def mngtBfpFlags : List JStr := [js "-e", js "-s", js "-l", js "-p", js "-v"]

def haSet (sdk : Sdk) : Except Thrown CommandDef :=
  S sdk (js "ha_set") (js "cli.ha.set")
    { args := some fun a => flagArray oneToken haSetFlags (a.value (js "args")) }

def mngtBfp (sdk : Sdk) : Except Thrown CommandDef :=
  S sdk (js "mngt_bfp") (js "cli.mngt.bfp")
    { args := some fun a => flagArray (safeText 255) mngtBfpFlags (a.value (js "args"))
      toInput := some fun a => .ok (.obj [(js "args", a.value (js "args"))]) }

/-! ## The words of the line -/

/-- A word of the joined tokens that begins with `-` is one of the flags. -/
def FlagsHold (flags tokens : List JStr) : Prop :=
  ∀ w ∈ Words.words isSpace (join [space] tokens), startsWith w (js "-") = true → w ∈ flags

/-- Where white space inside a token is followed by `-`, the word there is one of the flags. -/
def NoInnerFlag (flags : List JStr) (token : JStr) : Prop :=
  ∀ before c rest, token = before ++ c :: rest → isSpace c = true →
    startsWith rest (js "-") = true → (rest.takeWhile fun c => !isSpace c) ∈ flags

theorem isSpace_space : isSpace space = true := by decide

/-- `-` is no white space, so a word that begins a text with `-` begins with it, too. -/
theorem startsWith_takeWhile (s : JStr) :
    startsWith (s.takeWhile fun c => !isSpace c) (js "-") = startsWith s (js "-") := by
  cases s with
  | nil => rfl
  | cons c s =>
    rw [List.takeWhile_cons]
    by_cases hc : isSpace c = true
    · have hne : c ≠ 45 := by
        rintro rfl
        revert hc
        decide
      simp [hc, startsWith, show js "-" = [45] from rfl, List.isPrefixOf, Ne.symm hne]
    · simp [hc, startsWith, show js "-" = [45] from rfl, List.isPrefixOf]

variable {flags : List JStr} {tokens : List JStr} {token : JStr}

/-- A checked token has no other words with `-` than itself and those behind white space. -/
theorem words_known_iff (oneWord : ∀ f ∈ flags, f.any isSpace = false)
    (known : flagKnown flags token = true) :
    (∀ w ∈ Words.words isSpace token, startsWith w (js "-") = true → w ∈ flags) ↔
      NoInnerFlag flags token := by
  constructor
  · intro h before c rest htoken hc hrest
    refine h _ (Words.mem_words.mpr ⟨?_, .inr ⟨before, c, rest, htoken, hc, rfl⟩⟩) ?_
    · rintro hnil
      rw [← startsWith_takeWhile, hnil] at hrest
      cases hrest
    · rw [startsWith_takeWhile]
      exact hrest
  · intro h w hw hdash
    rcases (Words.mem_words.mp hw).2 with rfl | ⟨before, c, rest, htoken, hc, rfl⟩
    · rw [startsWith_takeWhile] at hdash
      have hmem : token ∈ flags := by simpa [flagKnown, hdash] using known
      have hspace : ∀ c ∈ token, (!isSpace c) = true := by
        simpa using oneWord token hmem
      rwa [List.takeWhile_eq_self_iff.mpr hspace]
    · rw [startsWith_takeWhile] at hdash
      exact h before c rest htoken hc hdash

/-- **The flags hold of the line when they hold inside the tokens.** -/
theorem flagsHold_iff (oneWord : ∀ f ∈ flags, f.any isSpace = false)
    (known : ∀ t ∈ tokens, flagKnown flags t = true) :
    FlagsHold flags tokens ↔ ∀ t ∈ tokens, NoInnerFlag flags t := by
  unfold FlagsHold join
  rw [Words.words_intercalate isSpace_space]
  simp only [List.mem_flatMap]
  constructor
  · intro h t ht
    exact (words_known_iff oneWord (known t ht)).mp fun w hw => h w ⟨t, ht, hw⟩
  · rintro h w ⟨t, ht, hw⟩
    exact (words_known_iff oneWord (known t ht)).mpr (h t ht) w hw

/-- A token of one word has nothing behind white space. -/
theorem noInnerFlag_of_oneWord (h : token.any isSpace = false) : NoInnerFlag flags token := by
  rintro before c rest rfl hc
  simp [hc] at h

theorem flagArray_known {accepts : JsValue → Bool} {v : JsValue}
    (h : flagArray accepts flags v = true) : ∀ t ∈ tokensOf v, flagKnown flags t = true := by
  cases v with
  | arr items =>
    simp only [flagArray, Bool.and_eq_true, List.all_eq_true] at h
    exact h.2
  | _ => cases h

theorem flagArray_token {accepts : JsValue → Bool} {v : JsValue}
    (h : flagArray accepts flags v = true) : ∀ t ∈ tokensOf v, accepts (.str t) = true := by
  cases v with
  | arr items =>
    simp only [flagArray, Bool.and_eq_true, List.all_eq_true] at h
    intro t ht
    obtain ⟨item, hitem, ht⟩ := List.mem_filterMap.mp ht
    have haccepts := h.1.1 item hitem
    cases item with
    | str s =>
      obtain rfl := Option.some.inj ht
      exact haccepts
    | _ => cases ht
  | _ => cases h

/-! ## The two tools -/

variable {sdk : Sdk} {cmd : CommandDef} {args : Args}

theorem S_accepts {id manifestId : JStr} {opts : SdkCommandOptions} {accepts : Args → Bool}
    (h : S sdk id manifestId opts = .ok cmd) (hargs : opts.args = some accepts) :
    cmd.accepts = accepts := by
  obtain ⟨op, converted, -, -, rfl⟩ := S_eq_ok.mp h
  simp [sdkTool, hargs]

/-- **The flag whitelists.** What `ha_set` accepts has whitelisted flags alone; what `mngt_bfp`
accepts has them exactly when no other flag stands behind white space inside a token. -/
theorem flag_whitelists (sdk : Sdk) (args : Args) :
    (∀ cmd, haSet sdk = .ok cmd → cmd.accepts args = true →
      FlagsHold haSetFlags (tokensOf (args.value (js "args")))) ∧
    (∀ cmd, mngtBfp sdk = .ok cmd → cmd.accepts args = true →
      (FlagsHold mngtBfpFlags (tokensOf (args.value (js "args"))) ↔
        ∀ t ∈ tokensOf (args.value (js "args")), NoInnerFlag mngtBfpFlags t)) := by
  constructor
  · intro cmd hcmd haccepts
    rw [S_accepts hcmd rfl] at haccepts
    refine (flagsHold_iff (by decide) (flagArray_known haccepts)).mpr fun t ht => ?_
    have htoken := flagArray_token haccepts t ht
    simp only [oneToken, Bool.and_eq_true, Bool.not_eq_true'] at htoken
    exact noInnerFlag_of_oneWord htoken.2
  · intro cmd hcmd haccepts
    rw [S_accepts hcmd rfl] at haccepts
    exact flagsHold_iff (by decide) (flagArray_known haccepts)

/-- An operation that joins its tokens behind its name. -/
def flagOperation (manifestId name : JStr) : AnyOperation where
  manifestId := manifestId
  classification := .write
  buildFrames
    | .obj fields =>
      .ok [join [space] (name :: tokensOf ((fields.lookup (js "args")).getD .undefined))]
    | _ => .error (.error none (js "invalid input"))

def flagSdk : Sdk where
  operations := [flagOperation (js "cli.ha.set") (js "ha set"),
    flagOperation (js "cli.mngt.bfp") (js "mngt bfp")]
  nodup := by decide
  sorted := [flagOperation (js "cli.ha.set") (js "ha set"),
    flagOperation (js "cli.mngt.bfp") (js "mngt bfp")]
  sorted_perm := .refl _
  schemaFor _ := .ok ⟨fun _ => true, false, .ok, []⟩

def flagArgs (tokens : List JStr) : Args :=
  ⟨[(js "args", .arr (tokens.map JsValue.str))], List.nodup_singleton _⟩

theorem flag_whitelists_sample : ∃ ha bfp, haSet flagSdk = .ok ha ∧ mngtBfp flagSdk = .ok bfp ∧
    FlagsHold haSetFlags [js "-e", js "1"] ∧
    (FlagsHold mngtBfpFlags [js "-e", js "1"] ↔
      ∀ t ∈ [js "-e", js "1"], NoInnerFlag mngtBfpFlags t) := by
  have h := flag_whitelists flagSdk (flagArgs [js "-e", js "1"])
  exact ⟨_, _, rfl, rfl, h.1 _ rfl (by decide), h.2 _ rfl (by decide)⟩

/-- A flag behind a blank passes: the line `mngt bfp -e 1 -x` holds `-x`, which is no flag of the
tool. -/
theorem mngtBfp_inner_flag : ∃ bfp, mngtBfp flagSdk = .ok bfp ∧
    bfp.accepts (flagArgs [js "-e", js "1 -x"]) = true ∧
    bfp.render (flagArgs [js "-e", js "1 -x"]) = .ok (js "mngt bfp -e 1 -x") ∧
    ¬ FlagsHold mngtBfpFlags (tokensOf ((flagArgs [js "-e", js "1 -x"]).value (js "args"))) := by
  refine ⟨_, rfl, by decide, by rfl, fun h => ?_⟩
  have hx := h (js "-x") (by decide) (by decide)
  revert hx
  decide

end VigorMcp

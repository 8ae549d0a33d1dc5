import VigorMcp.Tools.Redaction

/-!
# What redaction hides and restores

A redacted command is a `Template`: the text of the command with a hole for
every secret found. `Masked` is the invariant of the redaction loop. It says
that the preview is the template written with placeholders, that filling the
holes with the secrets gives the command, and that no text of the template
holds a secret the loop has treated. Because the command has no placeholder
mark, neither has any text (`Masked.clear`), so the pattern split of the next
pass finds exactly the holes.
-/

namespace VigorMcp

open Template

/-- `<redacted:` … `>`. -/
def redactedBracket : Bracketing UInt16 where
  start := 60
  tail := js "redacted:"
  stop := 62
  start_not_mem := by decide
  stop_not_mem := by decide

theorem marker_eq : marker = redactedBracket.mark := by decide

theorem placeholder_eq (field : JStr) : placeholder field = redactedBracket.code field := by
  rw [placeholder, marker_eq]; rfl

theorem placeholderAt_eq (s : JStr) : placeholderAt s = redactedBracket.matchAt s := by
  unfold placeholderAt Bracketing.matchAt
  rw [marker_eq]
  by_cases h : redactedBracket.mark <+: s
  · rw [if_pos (List.isPrefixOf_iff_prefix.mpr h), if_pos (List.isPrefixOf_iff_prefix.mpr h),
      show redactedBracket.stop = 62 from rfl]
    cases (s.drop redactedBracket.mark.length).dropWhile fun u => decide (u ≠ 62) <;> rfl
  · rw [if_neg (mt List.isPrefixOf_iff_prefix.mp h), if_neg (mt List.isPrefixOf_iff_prefix.mp h)]

/-! ## The secrets of a call -/

/-- `v` is the text of the argument `key`, which is there and not empty. -/
structure SecretValue (args : Args) (key v : JStr) : Prop where
  present : args.value key ≠ .undefined
  nonNull : args.value key ≠ .null
  text : stringOf (args.value key) = .ok v
  nonEmpty : v ≠ []

theorem SecretValue.unique {args : Args} {key v w : JStr} (hv : SecretValue args key v)
    (hw : SecretValue args key w) : v = w := by
  have := hv.text.symm.trans hw.text
  injection this

theorem mem_secretOf {args : Args} {key : JStr} {o : Option Secret} {s : Secret}
    (h : secretOf args key = .ok o) : s ∈ o ↔ s.key = key ∧ SecretValue args s.key s.value := by
  have absent : ∀ v, args.value key = v → v = .undefined ∨ v = .null → o = none →
      (s ∈ o ↔ s.key = key ∧ SecretValue args s.key s.value) := by
    rintro v hv hn rfl
    refine ⟨nofun, ?_⟩
    rintro ⟨rfl, hs⟩
    rcases hn with rfl | rfl
    · exact absurd hv hs.present
    · exact absurd hv hs.nonNull
  unfold secretOf at h
  split at h
  · next hv => exact absent _ hv (.inl rfl) (by injection h with h; exact h.symm)
  · next hv => exact absent _ hv (.inr rfl) (by injection h with h; exact h.symm)
  · next h1 h2 =>
    cases ht : stringOf (args.value key) with
    | error e => rw [ht] at h; cases h
    | ok t =>
      rw [ht] at h
      have ho : (if t.length > 0 then some ⟨key, t⟩ else none) = o := by injection h
      subst ho
      constructor
      · intro hs
        split at hs
        · next hl =>
          cases hs
          exact ⟨rfl, h1, h2, ht, List.ne_nil_of_length_pos hl⟩
        · cases hs
      · rintro ⟨rfl, hs⟩
        have : s.value = t := by
          have := hs.text.symm.trans ht
          injection this
        subst this
        rw [if_pos (List.length_pos_of_ne_nil hs.nonEmpty)]
        rfl

theorem mem_pickSecrets {args : Args} {keys : List JStr} {secrets : List Secret} {s : Secret}
    (h : pickSecrets args keys = .ok secrets) :
    s ∈ secrets ↔ s.key ∈ keys ∧ SecretValue args s.key s.value := by
  induction keys generalizing secrets with
  | nil => cases h; simp
  | cons key keys ih =>
    unfold pickSecrets at h
    cases ho : secretOf args key with
    | error e => rw [ho] at h; cases h
    | ok o =>
      rw [ho] at h
      cases hr : pickSecrets args keys with
      | error e => rw [hr] at h; cases h
      | ok rest =>
        rw [hr] at h
        have hs : o.toList ++ rest = secrets := by injection h
        subst hs
        rw [List.mem_append, ih hr, Option.mem_toList, ← Option.mem_def, mem_secretOf ho,
          List.mem_cons, or_and_right]

theorem mem_sortSecrets {secrets : List Secret} {s : Secret} :
    s ∈ sortSecrets secrets ↔ s ∈ secrets :=
  (List.perm_insertionSort _ _).mem_iff

/-! ## The loop -/

theorem unscan_cut (f : JStr → JStr) (T : Template UInt16) :
    Scan.unscan (f (redactedBracket.cut T).1,
      (redactedBracket.cut T).2.map fun p => (p.1, f p.2)) =
      (T.mapText f).fill redactedBracket.code := by
  induction T with
  | last t => simp [Bracketing.cut, Scan.unscan, mapText, fill]
  | hole t k rest ih =>
    rw [mapText, fill, ← ih]
    simp [Bracketing.cut, Scan.unscan]

/-- **One pass of the loop** turns the occurrences of the secret in the texts into holes. -/
theorem redactOne_fill {T : Template UInt16} (hT : redactedBracket.Clear T) (s : Secret) :
    redactOne s (T.fill redactedBracket.code) =
      ((T.punch s.value s.key).fill redactedBracket.code,
        T.texts.any fun t => includes t s.value) := by
  have part : ∀ t : JStr, (if !includes t s.value then t
      else join (placeholder s.key) (Scan.splitOn s.value t)) =
      Scan.replaceAll s.value (redactedBracket.code s.key) t := by
    intro t
    rw [placeholder_eq]
    split
    · next h =>
      have h' : ¬ s.value <:+: t := fun hi => by simp [includes_iff.mpr hi] at h
      exact (Scan.replaceAll_eq_self h').symm
    · rfl
  simp only [redactOne, part, funext placeholderAt_eq, Bracketing.scan_fill hT, unscan_cut, fill_punch,
    Bracketing.texts_cut]

/-- The state of the loop after the secrets `done`. -/
structure Masked (command : JStr) (done : List Secret) (r : Redacted) (T : Template UInt16) :
    Prop where
  preview : r.preview = T.fill redactedBracket.code
  fill : ∀ σ : JStr → JStr, (∀ s ∈ done, σ s.key = s.value) → T.fill σ = command
  keys : ∀ k ∈ T.keys, ∃ s ∈ done, s.key = k
  hidden : ∀ s ∈ done, ∀ t ∈ T.texts, ¬ s.value <:+: t
  fields : ∀ k, k ∈ r.fields ↔ k ∈ T.keys
  nodup : r.fields.Nodup

variable {command : JStr} {args : Args} {done : List Secret} {r : Redacted} {T : Template UInt16}

/-- The secrets of one call: non-empty, with safe keys, one value a key. -/
structure SecretsOf (args : Args) (secrets : List Secret) : Prop where
  value : ∀ s ∈ secrets, SecretValue args s.key s.value
  safe : ∀ s ∈ secrets, redactedBracket.Safe s.key

/-- The text of an argument, empty when it has none. -/
def argText (args : Args) (key : JStr) : JStr :=
  match stringOf (args.value key) with
  | .ok s => s
  | .error _ => []

theorem SecretValue.argText_eq {key v : JStr} (h : SecretValue args key v) :
    argText args key = v := by
  unfold argText; rw [h.text]

theorem SecretsOf.argText (h : SecretsOf args done) : ∀ s ∈ done, argText args s.key = s.value :=
  fun s hs => (h.value s hs).argText_eq

theorem Masked.clear (h : Masked command done r T) (hs : SecretsOf args done)
    (hc : includes command marker = false) : redactedBracket.Clear T := by
  refine Bracketing.clear_of_fill (σ := VigorMcp.argText args) ?_ fun k hk => ?_
  · rw [h.fill _ hs.argText]
    intro hi
    rw [includes_iff.mpr (marker_eq ▸ hi)] at hc
    cases hc
  · obtain ⟨s, hs', rfl⟩ := h.keys k hk
    exact hs.safe s hs'

theorem Masked.start (command : JStr) : Masked command [] ⟨command, []⟩ (.last command) where
  preview := rfl
  fill _ _ := rfl
  keys := by simp [Template.keys]
  hidden := by simp
  fields := by simp [Template.keys]
  nodup := List.nodup_nil

/-- Step lemma of the loop. -/
theorem Masked.step {s : Secret} (h : Masked command done r T) (hs : SecretsOf args (done ++ [s]))
    (hc : includes command marker = false) :
    Masked command (done ++ [s]) (redactStep r s) (T.punch s.value s.key) := by
  have hsv : SecretValue args s.key s.value := hs.value s (by simp)
  have hdone : SecretsOf args done :=
    ⟨fun a ha => hs.value a (by simp [ha]), fun a ha => hs.safe a (by simp [ha])⟩
  have hkeys : ∀ k, k ∈ (T.punch s.value s.key).keys ↔
      k ∈ T.keys ∨ (k = s.key ∧ ∃ t ∈ T.texts, s.value <:+: t) := fun _ =>
    mem_keys_punch hsv.nonEmpty
  have hstep : redactStep r s = ⟨(T.punch s.value s.key).fill redactedBracket.code,
      if T.texts.any fun t => includes t s.value then r.fields ++ [s.key] else r.fields⟩ := by
    rw [redactStep, h.preview, redactOne_fill (h.clear hdone hc)]
  have hany : (T.texts.any fun t => includes t s.value) = true ↔ ∃ t ∈ T.texts, s.value <:+: t := by
    simp only [List.any_eq_true, includes_iff]
  refine ⟨by rw [hstep], ?_, ?_, ?_, ?_, ?_⟩
  · intro σ hσ
    rw [fill_punch_self (hσ s (by simp))]
    exact h.fill σ fun a ha => hσ a (by simp [ha])
  · intro k hk
    rcases (hkeys k).mp hk with hk | ⟨rfl, _⟩
    · obtain ⟨a, ha, rfl⟩ := h.keys k hk
      exact ⟨a, by simp [ha], rfl⟩
    · exact ⟨s, by simp, rfl⟩
  · intro a ha t ht hi
    rcases List.mem_append.mp ha with ha | ha
    · obtain ⟨u, hu, htu⟩ := infix_of_mem_punch ht
      exact h.hidden a ha u hu (hi.trans htu)
    · rw [List.mem_singleton.mp ha] at hi
      exact not_infix_punch hsv.nonEmpty ht hi
  · intro k
    rw [hstep, hkeys, ← hany, ← h.fields]
    by_cases hb : (T.texts.any fun t => includes t s.value) = true
    · simp only [hb, ↓reduceIte, List.mem_append, List.mem_singleton, and_true]
    · simp only [hb, Bool.false_eq_true, ↓reduceIte, and_false, or_false]
  · rw [hstep]
    by_cases hb : (T.texts.any fun t => includes t s.value) = true
    · -- a key found twice would have its value hidden already
      have hnew : s.key ∉ r.fields := by
        intro hk
        obtain ⟨a, ha, hak⟩ := h.keys _ ((h.fields _).mp hk)
        obtain ⟨t, ht, hi⟩ := hany.mp hb
        have hav : a.value = s.value := (hak ▸ hdone.value a ha).unique hsv
        exact h.hidden a ha t ht (hav ▸ hi)
      simp only [hb, ↓reduceIte]
      rw [List.nodup_append]
      refine ⟨h.nodup, by simp, ?_⟩
      intro a ha b hb'
      rw [List.mem_singleton.mp hb']
      rintro rfl
      exact hnew ha
    · simp only [hb, Bool.false_eq_true, ↓reduceIte]
      exact h.nodup

/-- Run lemma of the loop. -/
theorem Masked.run (todo : List Secret) (h : Masked command done r T)
    (hs : SecretsOf args (done ++ todo)) (hc : includes command marker = false) :
    Masked command (done ++ todo) (todo.foldl redactStep r)
      (todo.foldl (fun T s => T.punch s.value s.key) T) := by
  induction todo generalizing done r T with
  | nil => simpa using h
  | cons s todo ih =>
    have hs' : SecretsOf args ((done ++ [s]) ++ todo) := by simpa using hs
    have hs1 : SecretsOf args (done ++ [s]) :=
      ⟨fun a ha => hs'.value a (by simp at ha ⊢; tauto),
        fun a ha => hs'.safe a (by simp at ha ⊢; tauto)⟩
    simpa using ih (h.step hs1 hc) hs'

/-- **The redaction loop is sound**: what `redactCommand` returns is a masked command. -/
theorem redactCommand_masked {secretArgs : List JStr} (hkeys : ∀ k ∈ secretArgs, SafeKey k)
    (h : redactCommand command args secretArgs = .ok r) :
    ∃ done T, SecretsOf args done ∧ includes command marker = false ∧
      (∀ s, s ∈ done ↔ s.key ∈ secretArgs ∧ SecretValue args s.key s.value) ∧
      Masked command done r T := by
  unfold redactCommand at h
  split at h
  · cases h
  · next hc =>
    cases hp : pickSecrets args secretArgs with
    | error e => rw [hp] at h; cases h
    | ok secrets =>
      rw [hp] at h
      have hr : (sortSecrets secrets).foldl redactStep ⟨command, []⟩ = r := by injection h
      have hmem : ∀ s, s ∈ sortSecrets secrets ↔
          s.key ∈ secretArgs ∧ SecretValue args s.key s.value := fun s => by
        rw [mem_sortSecrets, mem_pickSecrets hp]
      have hs : SecretsOf args (sortSecrets secrets) :=
        ⟨fun s hs => ((hmem s).mp hs).2, fun s hs => hkeys _ ((hmem s).mp hs).1⟩
      have hc' : includes command marker = false := by simpa using hc
      have hm := (Masked.start command).run (sortSecrets secrets) hs hc'
      rw [List.nil_append, hr] at hm
      exact ⟨_, _, hs, hc', hmem, hm⟩

/-! ## Putting the secrets back -/

/-- Each restored field closes its hole; a field without a hole changes nothing. -/
theorem restore_fill {entries : List (JStr × JStr)} {σ : JStr → JStr}
    (hc : includes (T.fill σ) marker = false) (hT : ∀ k ∈ T.keys, redactedBracket.Safe k)
    (he : ∀ e ∈ entries, redactedBracket.Safe e.1 ∧ σ e.1 = e.2)
    (hall : ∀ k ∈ T.keys, k ∈ entries.map Prod.fst) :
    entries.foldl (fun command e => join e.2 (Scan.splitOn (placeholder e.1) command))
      (T.fill redactedBracket.code) = T.fill σ := by
  induction entries generalizing T with
  | nil =>
    exact fill_of_keys_nil (List.eq_nil_iff_forall_not_mem.mpr fun k hk => by simpa using hall k hk) σ
  | cons e entries ih =>
    have hclear : redactedBracket.Clear T := Bracketing.clear_of_fill (σ := σ)
      (fun hi => by rw [includes_iff.mpr (marker_eq ▸ hi)] at hc; cases hc) hT
    have hstep : join e.2 (Scan.splitOn (placeholder e.1) (T.fill redactedBracket.code)) =
        (T.plug e.1 e.2).fill redactedBracket.code := by
      rw [placeholder_eq]
      exact Bracketing.replaceAll_fill hclear (he e List.mem_cons_self).1
    have hσ : (T.plug e.1 e.2).fill σ = T.fill σ := fill_plug (he e List.mem_cons_self).2
    rw [List.foldl_cons, hstep, ← hσ]
    refine ih (by rwa [hσ]) (fun k hk => hT k (mem_keys_plug.mp hk).1)
      (fun a ha => he a (List.mem_cons_of_mem _ ha)) fun k hk => ?_
    obtain ⟨hk, hne⟩ := mem_keys_plug.mp hk
    exact (List.mem_cons.mp (hall k hk)).resolve_left hne

/-- The true secrets: every redacted field has its argument's text, and what else is there is
another secret with its own. -/
structure TrueValues (args : Args) (secretArgs fields : List JStr) (values : OrderedMap JStr JStr) :
    Prop where
  all : ∀ k ∈ fields, values.has k = true
  own : ∀ e ∈ values.entries, e.1 ∈ secretArgs ∧ stringOf (args.value e.1) = .ok e.2

theorem restoreCommand_redacted {secretArgs : List JStr} {values : OrderedMap JStr JStr}
    (hkeys : ∀ k ∈ secretArgs, SafeKey k) (h : redactCommand command args secretArgs = .ok r)
    (hv : TrueValues args secretArgs r.fields values) : restoreCommand r.preview values = command := by
  obtain ⟨done, T, hs, hc, _, hm⟩ := redactCommand_masked hkeys h
  have hfill : T.fill (argText args) = command := hm.fill _ hs.argText
  rw [restoreCommand, hm.preview]
  refine (restore_fill (σ := argText args) (by rwa [hfill]) ?_ ?_ ?_).trans hfill
  · intro k hk
    obtain ⟨s, hs', rfl⟩ := hm.keys k hk
    exact hs.safe s hs'
  · intro e he
    refine ⟨hkeys _ (hv.own e he).1, ?_⟩
    unfold argText
    rw [(hv.own e he).2]
  · exact fun k hk => OrderedMap.has_eq_true.mp (hv.all k ((hm.fields k).mpr hk))

theorem verifyReentry_iff {C : Crypto} {view : PendingIntentView} {values : OrderedMap JStr JStr} :
    verifyReentry C view values = true ↔ (∀ k ∈ view.redactedFields, values.has k = true) ∧
      C.digestCommand (restoreCommand view.commandPreview values) = view.commandDigest := by
  unfold verifyReentry
  split
  · next h =>
    obtain ⟨k, hk, hn⟩ := List.any_eq_true.mp h
    simp only [Bool.false_eq_true, false_iff, not_and]
    intro hall
    simp [hall k hk] at hn
  · next h =>
    rw [beq_iff_eq, iff_and_self]
    intro _ k hk
    by_contra hn
    exact h (List.any_eq_true.mpr ⟨k, hk, by simpa using hn⟩)

/-- **Redaction round trip.** The true values restore the command, and values that restore another one
are refused unless it has the digest of this one. -/
theorem redactCommand_round_trip (C : Crypto) {secretArgs : List JStr}
    (hkeys : ∀ k ∈ secretArgs, SafeKey k) (h : redactCommand command args secretArgs = .ok r) :
    r.fields.Nodup ∧ (∀ k ∈ r.fields, k ∈ secretArgs) ∧
      (∀ k, SafeKey k → (k ∈ r.fields ↔ placeholder k <:+: r.preview)) ∧
      (∀ values, TrueValues args secretArgs r.fields values →
        restoreCommand r.preview values = command) ∧
      (∀ view : PendingIntentView, view.commandPreview = r.preview → view.redactedFields = r.fields →
        view.commandDigest = C.digestCommand command →
        (∀ values, TrueValues args secretArgs r.fields values → verifyReentry C view values = true) ∧
        (Function.Injective C.sha256hex → ∀ values, verifyReentry C view values = true →
          utf8 (restoreCommand view.commandPreview values) = utf8 command) ∧
        ((∀ c, C.digestCommand c = C.digestCommand command → c = command) → ∀ values,
          verifyReentry C view values = true → restoreCommand view.commandPreview values = command)) ∧
      (r.fields = [] → r.preview = command) := by
  obtain ⟨done, T, hs, hc, hmem, hm⟩ := redactCommand_masked hkeys h
  have hrestore : ∀ values, TrueValues args secretArgs r.fields values →
      restoreCommand r.preview values = command := fun _ hv => restoreCommand_redacted hkeys h hv
  refine ⟨hm.nodup, ?_, ?_, hrestore, ?_, ?_⟩
  · intro k hk
    obtain ⟨s, hs', rfl⟩ := hm.keys k ((hm.fields k).mp hk)
    exact ((hmem s).mp hs').1
  · intro k hk
    rw [hm.fields, placeholder_eq, hm.preview, Bracketing.code_infix_fill (hm.clear hs hc) hk]
  · intro view hp hf hd
    refine ⟨fun values hv => ?_, fun collisionFree values hv => ?_, fun only values hv => ?_⟩
    · rw [verifyReentry_iff, hp, hf, hd, hrestore values hv]
      exact ⟨hv.all, rfl⟩
    · exact collisionFree ((verifyReentry_iff.mp hv).2.trans hd)
    · exact only _ ((verifyReentry_iff.mp hv).2.trans hd)
  · intro hnil
    have hk : T.keys = [] := List.eq_nil_iff_forall_not_mem.mpr fun k hk => by
      have := (hm.fields k).mpr hk
      simp [hnil] at this
    rw [hm.preview, ← hm.fill _ hs.argText]
    exact fill_of_keys_nil hk _

/-- The arguments of a password change. -/
def passwdArgs : Args :=
  ⟨[(js "old", .str (js "oldSecret")), (js "new", .str (js "newSecret"))], by decide⟩

def passwdCommand : JStr := js "sys passwd oldSecret newSecret"

def passwdDigest : JStr := js "7d438b8bc5992f80ed7f3d8d4245aee0e4a927b3ed2186daae9d73a5781a73d4"

def passwdPreview : Redacted :=
  ⟨js "sys passwd <redacted:old> <redacted:new>", [js "old", js "new"]⟩

theorem redactCommand_passwd :
    redactCommand passwdCommand passwdArgs [js "old", js "new"] = .ok passwdPreview := by
  decide +kernel

theorem redactCommand_round_trip_passwd :
    let C : Crypto :=
      { sha256hex := fun bytes => if bytes = utf8 passwdCommand then passwdDigest else []
        verify := fun _ _ _ => .ok false }
    let values : OrderedMap JStr JStr :=
      ⟨[(js "new", js "newSecret"), (js "old", js "oldSecret")], by decide⟩
    restoreCommand passwdPreview.preview values = passwdCommand ∧
      verifyReentry C ⟨js "5f0c", js "sys_passwd", passwdDigest, passwdPreview.preview,
        passwdPreview.fields, js "9a1e", 0, 60000, by decide, by decide⟩ values = true := by
  intro C values
  obtain ⟨_, _, _, hrestore, hview, _⟩ :=
    redactCommand_round_trip C (by decide +kernel) redactCommand_passwd
  have hv : TrueValues passwdArgs [js "old", js "new"] passwdPreview.fields values :=
    ⟨by decide +kernel, by decide +kernel⟩
  exact ⟨hrestore values hv, (hview _ rfl rfl (by decide +kernel)).1 values hv⟩

/-- A preview is the command itself if and only if the command holds no secret. -/
theorem preview_eq_iff {secretArgs : List JStr} (hkeys : ∀ k ∈ secretArgs, SafeKey k)
    (h : redactCommand command args secretArgs = .ok r) :
    r.preview = command ↔ ∀ k ∈ secretArgs, ∀ v, SecretValue args k v → ¬ v <:+: command := by
  obtain ⟨done, T, hs, hc, hmem, hm⟩ := redactCommand_masked hkeys h
  have hfill := hm.fill _ hs.argText
  constructor
  · intro hp k hk v hv
    -- a hole would leave the marker in the command
    have hnil : T.keys = [] := by
      refine List.eq_nil_iff_forall_not_mem.mpr fun key hkey => ?_
      have hcode : redactedBracket.code key <:+: command := by
        rw [← hp, hm.preview]
        exact key_infix_fill hkey
      rw [includes_iff.mpr (marker_eq ▸ (redactedBracket.mark_prefix_code key).isInfix.trans hcode)]
        at hc
      cases hc
    cases T with
    | last t =>
      have ht : t = command := hfill
      exact ht ▸ hm.hidden ⟨k, v⟩ ((hmem _).mpr ⟨hk, hv⟩) t (List.mem_singleton.mpr rfl)
    | hole t key rest => cases hnil
  · intro hclean
    have hnil : T.keys = [] := by
      refine List.eq_nil_iff_forall_not_mem.mpr fun key hkey => ?_
      obtain ⟨s, hs', rfl⟩ := hm.keys key hkey
      obtain ⟨hk, hv⟩ := (hmem s).mp hs'
      refine hclean _ hk _ hv ?_
      rw [← hs.argText s hs', ← hfill]
      exact key_infix_fill hkey
    rw [hm.preview, fill_of_keys_nil hnil (argText args), hfill]

/-- **Redaction hides every secret.** The preview is text with the placeholders of `fields` between;
the texts are what the placeholder pattern leaves, and none of them holds a secret. -/
theorem redactCommand_hides {secretArgs : List JStr} (hkeys : ∀ k ∈ secretArgs, SafeKey k)
    (h : redactCommand command args secretArgs = .ok r) :
    ∃ T : Template UInt16, r.preview = T.fill placeholder ∧ (∀ k, k ∈ T.keys ↔ k ∈ r.fields) ∧
      T.fill (argText args) = command ∧
      Scan.texts (Scan.scan placeholderAt r.preview) = T.texts ∧
      ∀ k ∈ secretArgs, ∀ v, SecretValue args k v → ∀ t ∈ T.texts, ¬ v <:+: t := by
  obtain ⟨done, T, hs, hc, hmem, hm⟩ := redactCommand_masked hkeys h
  refine ⟨T, ?_, fun k => (hm.fields k).symm, hm.fill _ hs.argText, ?_, ?_⟩
  · rw [hm.preview, funext placeholder_eq]
  · rw [funext placeholderAt_eq, hm.preview, Bracketing.scan_fill (hm.clear hs hc), Bracketing.texts_cut]
  · intro k hk v hv t ht
    exact hm.hidden ⟨k, v⟩ ((hmem _).mpr ⟨hk, hv⟩) t ht

theorem redactCommand_hides_passwd :
    ∃ T : Template UInt16, passwdPreview.preview = T.fill placeholder ∧
      ∀ t ∈ T.texts, ¬ js "oldSecret" <:+: t ∧ ¬ js "newSecret" <:+: t := by
  obtain ⟨T, hp, _, _, _, hid⟩ := redactCommand_hides (by decide +kernel) redactCommand_passwd
  refine ⟨T, hp, fun t ht => ⟨?_, ?_⟩⟩
  · exact hid (js "old") (by simp) _ ⟨nofun, nofun, rfl, by decide⟩ t ht
  · exact hid (js "new") (by simp) _ ⟨nofun, nofun, rfl, by decide⟩ t ht

end VigorMcp

import Mathlib.Data.List.Perm.Subperm
import VigorMcp.Tools.Redaction

/-!
# The confirmation gate

Signature-gated confirmation for write commands. A preview creates a pending
intent (digest, redacted preview, nonce); execution consumes it, once, with a
signature over its payload. `GateEnv` holds what a gate is configured with and
what it reads from outside: the clock, the random draws and the file system.
The gate counts its readings, so one environment gives a whole run.

`prune`, `persist` and `pendingViews` call each other. `prune` recurs with a
depth no smaller than the number of pending intents; `prune_eq` is the
program's equation.
-/

namespace VigorMcp

/-- Random draws. A draw outside a given list comes within `bound` draws, so that the loop that
draws until it finds one ends. -/
structure Draws where
  draw : Nat → JStr
  bound : List JStr → Nat → Nat
  fresh : ∀ taken n, ∃ k, n ≤ k ∧ k ≤ n + bound taken n ∧ draw k ∉ taken

/-- Draws that never repeat: among one more draw than there are taken texts, one is not taken. -/
def Draws.ofInjective (draw : Nat → JStr) (h : Function.Injective draw) : Draws where
  draw := draw
  bound taken _ := taken.length
  fresh taken n := by
    by_contra hall
    push Not at hall
    have hnodup : ((List.range (taken.length + 1)).map fun k => draw (n + k)).Nodup :=
      List.nodup_range.map fun a b hab => Nat.add_left_cancel (h hab)
    have hsub : ((List.range (taken.length + 1)).map fun k => draw (n + k)) ⊆ taken := by
      intro id hid
      obtain ⟨k, hk, rfl⟩ := List.mem_map.mp hid
      exact hall (n + k) (Nat.le_add_right n k) (by have := List.mem_range.mp hk; omega)
    have := (List.subperm_of_subset hnodup hsub).length_le
    simp only [List.length_map, List.length_range] at this
    omega

/-- How far the file system lets `persist` get. -/
inductive FsOutcome where
  | ok | mkdirFails | writeFails
  deriving DecidableEq

/-- What `Date.now()` can return. -/
abbrev TimeValue := { ms : Int // ms.natAbs ≤ 8640000000000000 }

/-- A minute after a time value the integers are still exact. -/
theorem TimeValue.minute_safe (t : TimeValue) : (t.val + 60000).natAbs < 2 ^ 53 := by
  have := t.property
  omega

structure GateEnv where
  crypto : Crypto
  clock : Nat → TimeValue
  ids : Draws
  nonces : Nat → JStr
  fs : Nat → FsOutcome
  ttlMs : Int
  /-- An expiry is a safe integer. -/
  ttlMs_safe : ∀ t : TimeValue, (t.val + ttlMs).natAbs < 2 ^ 53
  maxPending : Nat
  pendingFile : Option JStr
  approvePublicKey : Option KeyObject

structure WriteIntent where
  confirmationId : JStr
  toolId : JStr
  commandDigest : JStr
  commandPreview : JStr
  redactedFields : List JStr
  nonce : JStr
  createdAt : Int
  expiresAt : Int
  createdAt_safe : createdAt.natAbs < 2 ^ 53
  expiresAt_safe : expiresAt.natAbs < 2 ^ 53
  used : Bool
  deriving DecidableEq

structure CreateIntentResult where
  confirmationId : JStr
  nonce : JStr
  commandDigest : JStr
  expiresAt : Int
  expiresAt_safe : expiresAt.natAbs < 2 ^ 53
  deriving DecidableEq

structure ConfirmGate where
  intents : OrderedMap JStr WriteIntent
  /-- Consumed confirmation ids kept until expiry for replay detection. -/
  used : OrderedMap JStr Int
  /-- Readings of the clock, draws of ids and of nonces, and `persist` attempts so far. -/
  tick : Nat
  idDraws : Nat
  nonceDraws : Nat
  persists : Nat
  /-- What the pending file holds. -/
  file : Option (List PendingIntentView)

namespace ConfirmGate

def new : ConfirmGate := ⟨.empty, .empty, 0, 0, 0, 0, none⟩

variable (E : GateEnv) (g : ConfirmGate)

def ticked : ConfirmGate := { g with tick := g.tick + 1 }

def viewOf (i : WriteIntent) : PendingIntentView where
  confirmationId := i.confirmationId
  toolId := i.toolId
  commandDigest := i.commandDigest
  commandPreview := i.commandPreview
  redactedFields := i.redactedFields
  nonce := i.nonce
  createdAt := i.createdAt
  expiresAt := i.expiresAt
  createdAt_safe := i.createdAt_safe
  expiresAt_safe := i.expiresAt_safe

def views : List PendingIntentView := g.intents.values.map viewOf

/-- The gate without what has expired at a reading of the clock. -/
def swept : ConfirmGate :=
  let now := E.clock g.tick
  { g.ticked with
    intents := g.intents.filter fun e => !decide (now > e.2.expiresAt)
    used := g.used.filter fun e => !decide (now > e.2) }

/-- `persist`, given the `prune` that `pendingViews` runs. -/
def persistWith (prune : ConfirmGate → ConfirmGate) : ConfirmGate :=
  if E.pendingFile.getD [] = [] then g
  else
    let g' := { g with persists := g.persists + 1 }
    match E.fs g.persists with
    | .mkdirFails => g'
    | .writeFails => prune g'
    | .ok => { prune g' with file := some (prune g').views }

def pruneAt : Nat → ConfirmGate → ConfirmGate
  | 0, g => g.swept E
  | depth + 1, g =>
    let g' := g.swept E
    if g'.intents.size < g.intents.size then g'.persistWith E (pruneAt depth) else g'

def prune : ConfirmGate := pruneAt E g.intents.size g

def persist : ConfirmGate := g.persistWith E fun g => g.prune E

def pendingViews : List PendingIntentView × ConfirmGate := ((g.prune E).views, g.prune E)

def getByConfirmationId (id : JStr) : Option WriteIntent × ConfirmGate :=
  ((g.prune E).intents.get id, g.prune E)

/-- The first draw from `n` on that is not taken; `fuel` draws are enough. -/
def drawFrom (draw : Nat → JStr) (taken : List JStr) : Nat → Nat → Nat
  | 0, n => n
  | fuel + 1, n => if draw n ∈ taken then drawFrom draw taken fuel (n + 1) else n

/-- The ids a new intent must not get. -/
def takenIds : List JStr := g.intents.keys ++ g.used.keys

def idDraw : Nat := drawFrom E.ids.draw g.takenIds (E.ids.bound g.takenIds g.idDraws) g.idDraws

/-- The intent a gate with room makes, and the gate with it, before it is persisted. -/
def newIntent (toolId command commandPreview : JStr) (redactedFields : List JStr) : WriteIntent where
  confirmationId := E.ids.draw (g.idDraw E)
  toolId := toolId
  commandDigest := E.crypto.digestCommand command
  commandPreview := commandPreview
  redactedFields := redactedFields
  nonce := E.nonces g.nonceDraws
  createdAt := E.clock g.tick
  expiresAt := E.clock g.tick + E.ttlMs
  createdAt_safe := (E.clock g.tick).property.trans_lt (by decide)
  expiresAt_safe := E.ttlMs_safe (E.clock g.tick)
  used := false

def withIntent (i : WriteIntent) : ConfirmGate :=
  { g with
    intents := g.intents.set i.confirmationId i
    tick := g.tick + 1
    idDraws := g.idDraw E + 1
    nonceDraws := g.nonceDraws + 1 }

def resultOf (i : WriteIntent) : CreateIntentResult :=
  ⟨i.confirmationId, i.nonce, i.commandDigest, i.expiresAt, i.expiresAt_safe⟩

def create (toolId command commandPreview : JStr) (redactedFields : List JStr) :
    Except ConfirmError CreateIntentResult × ConfirmGate :=
  let g := g.prune E
  if g.intents.size ≥ E.maxPending then
    (.error ⟨.invalidToken, js "too many pending confirmations (max " ++ decimal E.maxPending ++
      js "); confirm or wait"⟩, g)
  else
    let i := g.newIntent E toolId command commandPreview redactedFields
    (.ok (resultOf i), (g.withIntent E i).persist E)

/-- `consumeSigned` from the lookup of the pending intent on. -/
def consumePending (key : KeyObject) (confirmationId command signature : JStr) :
    Except ConfirmError Unit × ConfirmGate :=
  match g.intents.get confirmationId with
  | none => (.error ⟨.invalidToken, js "confirmation not found"⟩, g)
  | some intent =>
    if intent.used then (.error ⟨.tokenUsed, js "confirmation has already been used"⟩, g)
    else if E.clock g.tick > intent.expiresAt then
      (.error ⟨.tokenExpired, js "confirmation has expired"⟩,
        persist E { g.ticked with intents := g.intents.delete confirmationId })
    else if E.crypto.digestCommand command ≠ intent.commandDigest then
      (.error ⟨.mismatch, js "confirmed command does not match the change"⟩, g.ticked)
    else if !verifyApprovalSignature E.crypto key signature intent.confirmationId intent.nonce
        intent.commandDigest (.ofInt intent.expiresAt) then
      (.error ⟨.badSignature, js "approval signature is invalid"⟩, g.ticked)
    else
      (.ok (), persist E
        { g with
          intents := g.intents.delete confirmationId
          used := g.used.set confirmationId (E.clock (g.tick + 1) + E.ttlMs)
          tick := g.tick + 2 })

/-- Verify signature + command digest, then consume the intent (single-use). -/
def consumeSigned (confirmationId command signature : JStr) :
    Except ConfirmError Unit × ConfirmGate :=
  match E.approvePublicKey with
  | none => (.error ⟨.badSignature, js "VIGOR_APPROVE_PUBKEY is not configured"⟩, g)
  | some key =>
    match g.used.get confirmationId with
    | none => g.consumePending E key confirmationId command signature
    | some usedExpiry =>
      if E.clock g.tick > usedExpiry then
        consumePending E { g.ticked with used := g.used.delete confirmationId } key confirmationId
          command signature
      else (.error ⟨.tokenUsed, js "confirmation has already been used"⟩, g.ticked)

variable {E g} {g' g'' : ConfirmGate}

/-! ## The equation of `prune` -/

theorem persistWith_congr {p q : ConfirmGate → ConfirmGate}
    (h : ∀ g' : ConfirmGate, g'.intents = g.intents → p g' = q g') :
    g.persistWith E p = g.persistWith E q := by
  unfold persistWith
  simp only [h { g with persists := g.persists + 1 } rfl]

/-- Depth beyond the number of pending intents changes nothing. -/
theorem pruneAt_eq {n m : Nat} (hn : g.intents.size ≤ n) (hm : g.intents.size ≤ m) :
    pruneAt E n g = pruneAt E m g := by
  induction hs : g.intents.size using Nat.strong_induction_on generalizing g n m with
  | _ s ih =>
    have hle : (g.swept E).intents.size ≤ g.intents.size := List.length_filter_le _ _
    cases n with
    | zero =>
      cases m with
      | zero => rfl
      | succ m => rw [pruneAt, pruneAt, if_neg (by omega)]
    | succ n =>
      cases m with
      | zero => rw [pruneAt, pruneAt, if_neg (by omega)]
      | succ m =>
        rw [pruneAt, pruneAt]
        split
        · next hlt =>
          refine persistWith_congr fun g' hg' => ?_
          have : g'.intents.size = (g.swept E).intents.size := by rw [hg']
          exact ih g'.intents.size (by omega) (by omega) (by omega) rfl
        · rfl

/-- **The program's equation**: what expired goes, and if that changed the pending set it is
persisted. -/
theorem prune_eq : g.prune E =
    if (g.swept E).intents.size < g.intents.size then (g.swept E).persist E else g.swept E := by
  unfold prune
  cases hs : g.intents.size with
  | zero =>
    rw [pruneAt, if_neg (by omega)]
  | succ n =>
    rw [pruneAt, hs]
    split
    · next hlt =>
      refine persistWith_congr fun g' hg' => ?_
      have : g'.intents.size = (g.swept E).intents.size := by rw [hg']
      exact pruneAt_eq (by omega) (by omega)
    · rfl

theorem drawFrom_not_mem {draw : Nat → JStr} {taken : List JStr} {fuel n : Nat}
    (h : ∃ k, n ≤ k ∧ k ≤ n + fuel ∧ draw k ∉ taken) : draw (drawFrom draw taken fuel n) ∉ taken := by
  induction fuel generalizing n with
  | zero =>
    obtain ⟨k, h1, h2, hk⟩ := h
    obtain rfl : k = n := by omega
    exact hk
  | succ fuel ih =>
    rw [drawFrom]
    split
    · next hn =>
      obtain ⟨k, h1, h2, hk⟩ := h
      have : k ≠ n := fun he => hk (he ▸ hn)
      exact ih ⟨k, by omega, by omega, hk⟩
    · next hn => exact hn

/-- The loop ends with an id that is neither pending nor used. -/
theorem idDraw_not_mem : E.ids.draw (g.idDraw E) ∉ g.takenIds :=
  drawFrom_not_mem (E.ids.fresh _ _)

/-! ## Time passing -/

/-- `g'` is `g` some readings of the clock later: nothing new is in the maps, and what is gone had
expired at one of the readings. -/
structure Later (E : GateEnv) (g g' : ConfirmGate) : Prop where
  tick : g.tick ≤ g'.tick
  nonceDraws : g'.nonceDraws = g.nonceDraws
  idDraws : g'.idDraws = g.idDraws
  intents : g'.intents.entries.Sublist g.intents.entries
  used : g'.used.entries.Sublist g.used.entries
  expired : ∀ e ∈ g.intents.entries, e ∉ g'.intents.entries →
    ∃ n, g.tick ≤ n ∧ n < g'.tick ∧ E.clock n > e.2.expiresAt
  usedExpired : ∀ e ∈ g.used.entries, e ∉ g'.used.entries →
    ∃ n, g.tick ≤ n ∧ n < g'.tick ∧ E.clock n > e.2

theorem Later.refl (g : ConfirmGate) : Later E g g where
  tick := Nat.le_refl _
  nonceDraws := rfl
  idDraws := rfl
  intents := .refl _
  used := .refl _
  expired _ he hn := absurd he hn
  usedExpired _ he hn := absurd he hn

theorem Later.trans (h : Later E g g') (h' : Later E g' g'') : Later E g g'' where
  tick := h.tick.trans h'.tick
  nonceDraws := h'.nonceDraws.trans h.nonceDraws
  idDraws := h'.idDraws.trans h.idDraws
  intents := h'.intents.trans h.intents
  used := h'.used.trans h.used
  expired e he hn := by
    have := h.tick
    have := h'.tick
    by_cases hm : e ∈ g'.intents.entries
    · obtain ⟨n, h1, h2, h3⟩ := h'.expired e hm hn
      exact ⟨n, by omega, h2, h3⟩
    · obtain ⟨n, h1, h2, h3⟩ := h.expired e he hm
      exact ⟨n, h1, by omega, h3⟩
  usedExpired e he hn := by
    have := h.tick
    have := h'.tick
    by_cases hm : e ∈ g'.used.entries
    · obtain ⟨n, h1, h2, h3⟩ := h'.usedExpired e hm hn
      exact ⟨n, by omega, h2, h3⟩
    · obtain ⟨n, h1, h2, h3⟩ := h.usedExpired e he hm
      exact ⟨n, h1, by omega, h3⟩

/-- Only the clock, the file and the count of `persist` attempts differ. -/
theorem Later.of_maps (ht : g.tick ≤ g'.tick) (hn : g'.nonceDraws = g.nonceDraws)
    (hd : g'.idDraws = g.idDraws) (hi : g'.intents = g.intents) (hu : g'.used = g.used) :
    Later E g g' where
  tick := ht
  nonceDraws := hn
  idDraws := hd
  intents := by rw [hi]
  used := by rw [hu]
  expired e he h := absurd (hi ▸ he) h
  usedExpired e he h := absurd (hu ▸ he) h

/-- A later gate is later than one with the same maps and fewer readings, too. -/
theorem Later.since (h : Later E g' g'') (ht : g.tick ≤ g'.tick)
    (hn : g'.nonceDraws = g.nonceDraws) (hd : g'.idDraws = g.idDraws) (hi : g'.intents = g.intents)
    (hu : g'.used = g.used) : Later E g g'' :=
  (Later.of_maps ht hn hd hi hu).trans h

theorem ticked_later (g : ConfirmGate) : Later E g g.ticked :=
  .of_maps (Nat.le_succ _) rfl rfl rfl rfl

theorem swept_later (g : ConfirmGate) : Later E g (g.swept E) where
  tick := Nat.le_succ _
  nonceDraws := rfl
  idDraws := rfl
  intents := List.filter_sublist
  used := List.filter_sublist
  expired e he hn := by
    refine ⟨g.tick, Nat.le_refl _, Nat.lt_succ_self _, ?_⟩
    by_contra h
    exact hn (List.mem_filter.mpr ⟨he, by simp; omega⟩)
  usedExpired e he hn := by
    refine ⟨g.tick, Nat.le_refl _, Nat.lt_succ_self _, ?_⟩
    by_contra h
    exact hn (List.mem_filter.mpr ⟨he, by simp; omega⟩)

theorem persistWith_later {p : ConfirmGate → ConfirmGate} (hp : ∀ g, Later E g (p g))
    (g : ConfirmGate) : Later E g (g.persistWith E p) := by
  have hcount : Later E g { g with persists := g.persists + 1 } :=
    .of_maps (Nat.le_refl _) rfl rfl rfl rfl
  unfold persistWith
  split
  · exact .refl g
  · split
    · exact hcount
    · exact hcount.trans (hp _)
    · exact (hcount.trans (hp _)).trans (.of_maps (Nat.le_refl _) rfl rfl rfl rfl)

theorem pruneAt_later (n : Nat) (g : ConfirmGate) : Later E g (pruneAt E n g) := by
  induction n generalizing g with
  | zero => exact swept_later g
  | succ n ih =>
    rw [pruneAt]
    split
    · exact (swept_later g).trans (persistWith_later ih _)
    · exact swept_later g

theorem prune_later (g : ConfirmGate) : Later E g (g.prune E) := pruneAt_later _ _

theorem persist_later (g : ConfirmGate) : Later E g (g.persist E) :=
  persistWith_later prune_later g

/-! ## What `create` and `consumeSigned` do -/

/-- **`create`** fails, with nothing but time passed, when the pruned gate is full; otherwise a new
intent joins the pruned gate. -/
theorem create_cases (E : GateEnv) (g : ConfirmGate) (toolId command commandPreview : JStr)
    (redactedFields : List JStr) :
    ((g.prune E).intents.size ≥ E.maxPending ∧
      ∃ e, g.create E toolId command commandPreview redactedFields = (.error e, g.prune E)) ∨
    ((g.prune E).intents.size < E.maxPending ∧ ∃ i, i =
        (g.prune E).newIntent E toolId command commandPreview redactedFields ∧
      g.create E toolId command commandPreview redactedFields =
        (.ok (resultOf i), ((g.prune E).withIntent E i).persist E)) := by
  unfold create
  by_cases h : (g.prune E).intents.size ≥ E.maxPending
  · left
    simp only [h, ↓reduceIte]
    exact ⟨trivial, _, rfl⟩
  · right
    simp only [h, ↓reduceIte]
    exact ⟨by omega, _, rfl, rfl⟩

/-- What a successful `consumeSigned` found and left. -/
structure Consumed (E : GateEnv) (g g' : ConfirmGate) (confirmationId command signature : JStr)
    (intent : WriteIntent) : Prop where
  pending : g.intents.get confirmationId = some intent
  unused : intent.used = false
  digest : E.crypto.digestCommand command = intent.commandDigest
  verified : ∃ key, E.approvePublicKey = some key ∧
    verifyApprovalSignature E.crypto key signature intent.confirmationId intent.nonce
      intent.commandDigest (.ofInt intent.expiresAt) = true
  inTime : ∃ n, g.tick ≤ n ∧ n < g'.tick ∧ E.clock n ≤ intent.expiresAt
  left : ∃ (expiry : Int) (used : OrderedMap JStr Int), used.entries.Sublist g.used.entries ∧ Later E
    { g with intents := g.intents.delete confirmationId, used := used.set confirmationId expiry } g'

theorem delete_later {id : JStr} {intent : WriteIntent} (h : g.intents.get id = some intent)
    (hexp : E.clock g.tick > intent.expiresAt) :
    Later E g { g.ticked with intents := g.intents.delete id } where
  tick := Nat.le_succ _
  nonceDraws := rfl
  idDraws := rfl
  intents := List.filter_sublist
  used := .refl _
  expired e he hn := by
    have hk : e.1 = id := by
      by_contra hk
      exact hn (OrderedMap.mem_delete.mpr ⟨he, hk⟩)
    have hv : e.2 = intent :=
      OrderedMap.eq_of_mem (m := g.intents) (k := id) (hk ▸ he) (OrderedMap.get_eq_some.mp h)
    exact ⟨g.tick, Nat.le_refl _, Nat.lt_succ_self _, hv ▸ hexp⟩
  usedExpired _ he hn := absurd he hn

theorem consumePending_cases (key : KeyObject) (hkey : E.approvePublicKey = some key)
    (confirmationId command signature : JStr) :
    (∃ e g', g.consumePending E key confirmationId command signature = (.error e, g') ∧
      Later E g g') ∨
    ∃ g' intent, g.consumePending E key confirmationId command signature = (.ok (), g') ∧
      Consumed E g g' confirmationId command signature intent := by
  unfold consumePending
  cases hget : g.intents.get confirmationId with
  | none => exact .inl ⟨_, _, rfl, .refl g⟩
  | some intent =>
    simp only
    split
    · exact .inl ⟨_, _, rfl, .refl g⟩
    · next hused =>
      split
      · next hexp => exact .inl ⟨_, _, rfl, (delete_later hget hexp).trans (persist_later _)⟩
      · next hexp =>
        split
        · exact .inl ⟨_, _, rfl, ticked_later g⟩
        · next hd =>
          split
          · exact .inl ⟨_, _, rfl, ticked_later g⟩
          · next hv =>
            have hlater := persist_later (E := E)
              { g with
                intents := g.intents.delete confirmationId
                used := g.used.set confirmationId (E.clock (g.tick + 1) + E.ttlMs)
                tick := g.tick + 2 }
            refine .inr ⟨_, intent, rfl, hget, by simpa using hused, Decidable.not_not.mp hd,
              ⟨key, hkey, by simpa using hv⟩, ⟨g.tick, Nat.le_refl _, ?_, by omega⟩, ?_⟩
            · have := hlater.tick
              simp only at this
              omega
            · refine ⟨E.clock (g.tick + 1) + E.ttlMs, g.used, .refl _, ?_⟩
              exact hlater.since (Nat.le_add_right _ 2) rfl rfl rfl rfl

/-- **`consumeSigned`** either refuses, with nothing but time passed, or consumes a pending intent
in time with a valid signature. -/
theorem consumeSigned_cases (E : GateEnv) (g : ConfirmGate) (confirmationId command signature : JStr) :
    (∃ e g', g.consumeSigned E confirmationId command signature = (.error e, g') ∧ Later E g g') ∨
    ∃ g' intent, g.consumeSigned E confirmationId command signature = (.ok (), g') ∧
      Consumed E g g' confirmationId command signature intent := by
  unfold consumeSigned
  cases hkey : E.approvePublicKey with
  | none => exact .inl ⟨_, _, rfl, .refl g⟩
  | some key =>
    simp only
    cases hu : g.used.get confirmationId with
    | none => exact consumePending_cases key hkey _ _ _
    | some usedExpiry =>
      simp only
      split
      · next hexp =>
        have hlater : Later E g { g.ticked with used := g.used.delete confirmationId } := by
          refine ⟨Nat.le_succ _, rfl, rfl, .refl _, List.filter_sublist, fun e he hn => absurd he hn, ?_⟩
          intro e he hn
          have hk : e.1 = confirmationId := by
            by_contra hk
            exact hn (OrderedMap.mem_delete.mpr ⟨he, hk⟩)
          have hv : e.2 = usedExpiry := OrderedMap.eq_of_mem (m := g.used) (k := confirmationId)
            (hk ▸ he) (OrderedMap.get_eq_some.mp hu)
          exact ⟨g.tick, Nat.le_refl _, Nat.lt_succ_self _, hv ▸ hexp⟩
        rcases consumePending_cases (g := { g.ticked with used := g.used.delete confirmationId }) key
          hkey confirmationId command signature with ⟨e, g', h, hl⟩ | ⟨g', intent, h, hc⟩
        · exact .inl ⟨e, g', h, hlater.trans hl⟩
        · obtain ⟨n, h1, h2, h3⟩ := hc.inTime
          obtain ⟨expiry, used, hsub, hl⟩ := hc.left
          refine .inr ⟨g', intent, h, hc.pending, hc.unused, hc.digest, hc.verified,
            ⟨n, ?_, h2, h3⟩, expiry, used, hsub.trans List.filter_sublist, ?_⟩
          · exact Nat.le_of_succ_le h1
          · exact hl.since (Nat.le_succ _) rfl rfl rfl rfl
      · exact .inl ⟨_, _, rfl, ticked_later g⟩

/-! ## Well-formed gates -/

/-- Intents stand under their own ids, are not used, and their ids have not been. -/
structure WellFormed (g : ConfirmGate) : Prop where
  ids : ∀ e ∈ g.intents.entries, e.2.confirmationId = e.1
  unused : ∀ e ∈ g.intents.entries, e.2.used = false
  separate : ∀ e ∈ g.intents.entries, g.used.get e.1 = none

theorem new_wellFormed : WellFormed new where
  ids _ he := by cases he
  unused _ he := by cases he
  separate _ he := by cases he

theorem get_none_of_sublist {u u' : OrderedMap JStr Int} {k : JStr}
    (hs : u'.entries.Sublist u.entries) (h : u.get k = none) : u'.get k = none := by
  rw [OrderedMap.get_eq_none] at h ⊢
  exact fun v hv => h v (hs.subset hv)

theorem WellFormed.later (hg : WellFormed g) (h : Later E g g') : WellFormed g' where
  ids e he := hg.ids e (h.intents.subset he)
  unused e he := hg.unused e (h.intents.subset he)
  separate e he := get_none_of_sublist h.used (hg.separate e (h.intents.subset he))

theorem WellFormed.withIntent (hg : WellFormed g) {i : WriteIntent} (hi : i.used = false)
    (hid : i.confirmationId ∉ g.takenIds) : WellFormed (g.withIntent E i) := by
  have hfree : g.used.get i.confirmationId = none := by
    rw [OrderedMap.get_eq_none]
    intro v hv
    exact hid (List.mem_append_right _ (List.mem_map_of_mem (f := Prod.fst) hv))
  constructor <;> intro e he <;> rcases OrderedMap.mem_set.mp he with ⟨he, hne⟩ | rfl
  · exact hg.ids e he
  · rfl
  · exact hg.unused e he
  · exact hi
  · exact hg.separate e he
  · exact hfree

theorem create_wellFormed (hg : WellFormed g) (toolId command commandPreview : JStr)
    (redactedFields : List JStr) :
    WellFormed (g.create E toolId command commandPreview redactedFields).2 := by
  have hp := hg.later (prune_later (E := E) g)
  rcases create_cases E g toolId command commandPreview redactedFields with
    ⟨_, e, h⟩ | ⟨_, i, rfl, h⟩
  · rw [h]
    exact hp
  · rw [h]
    exact (hp.withIntent rfl idDraw_not_mem).later (persist_later _)

theorem Consumed.wellFormed {confirmationId command signature : JStr} {intent : WriteIntent}
    (h : Consumed E g g' confirmationId command signature intent) (hg : WellFormed g) :
    WellFormed g' := by
  obtain ⟨expiry, used, hs, hl⟩ := h.left
  refine WellFormed.later ?_ hl
  constructor <;> intro e he <;> obtain ⟨he, hne⟩ := OrderedMap.mem_delete.mp he
  · exact hg.ids e he
  · exact hg.unused e he
  · exact (OrderedMap.get_set_of_ne hne).trans (get_none_of_sublist hs (hg.separate e he))

theorem consumeSigned_wellFormed (hg : WellFormed g) (confirmationId command signature : JStr) :
    WellFormed (g.consumeSigned E confirmationId command signature).2 := by
  rcases consumeSigned_cases E g confirmationId command signature with
    ⟨e, g', h, hl⟩ | ⟨g', intent, h, hc⟩
  · rw [h]
    exact hg.later hl
  · rw [h]
    exact hc.wellFormed hg

/-- In time, with the right command and a verifying signature, a pending intent is consumed. -/
theorem consumeSigned_ok (hg : WellFormed g) {key : KeyObject} {intent : WriteIntent}
    {command signature : JStr} (hkey : E.approvePublicKey = some key)
    (pending : g.intents.get intent.confirmationId = some intent)
    (inTime : E.clock g.tick ≤ intent.expiresAt)
    (digest : E.crypto.digestCommand command = intent.commandDigest)
    (verified : verifyApprovalSignature E.crypto key signature intent.confirmationId intent.nonce
      intent.commandDigest (.ofInt intent.expiresAt) = true) :
    (g.consumeSigned E intent.confirmationId command signature).1 = .ok () := by
  have hmem := OrderedMap.get_eq_some.mp pending
  have hused : g.used.get intent.confirmationId = none := hg.separate _ hmem
  have hunused : intent.used = false := hg.unused _ hmem
  simp only [consumeSigned, hkey, hused, consumePending, pending, hunused, digest, verified]
  rw [if_neg (by simp), if_neg (by omega)]
  simp

end ConfirmGate

end VigorMcp

import Mathlib.Logic.Equiv.Basic
import VigorMcp.Tools.ConfirmGate

/-!
# Runs of a gate

`runOps` runs any sequence of a gate's operations on a new gate. What a run keeps
is `Kept`: well-formed maps, a bounded pending set, and intents that expire the
lifetime after a reading of the clock. From it follow when `consumeSigned`
succeeds (`consumeSigned_ok_iff`) and that a consumed id is refused as used for
as long as its intent would have lived (`Refused`).
-/

namespace VigorMcp

/-- The clock stands at `t`. -/
def GateEnv.atTime (E : GateEnv) (t : TimeValue) : GateEnv := { E with clock := fun _ => t }

/-- The clock does not go back. -/
def GateEnv.Steady (E : GateEnv) : Prop := ∀ ⦃n m : Nat⦄, n ≤ m → (E.clock n : Int) ≤ E.clock m

inductive GateOp where
  | create (toolId command commandPreview : JStr) (redactedFields : List JStr)
  | consumeSigned (confirmationId command signature : JStr)
  | prune
  | getByConfirmationId (id : JStr)
  | pendingViews

/-- The gate after an operation, whether it returns or throws. -/
def GateOp.run (E : GateEnv) (g : ConfirmGate) : GateOp → ConfirmGate
  | .create toolId command commandPreview redactedFields =>
    (g.create E toolId command commandPreview redactedFields).2
  | .consumeSigned confirmationId command signature =>
    (g.consumeSigned E confirmationId command signature).2
  | .prune => g.prune E
  | .getByConfirmationId id => (g.getByConfirmationId E id).2
  | .pendingViews => (g.pendingViews E).2

namespace ConfirmGate

def runOps (E : GateEnv) (g : ConfirmGate) (ops : List GateOp) : ConfirmGate :=
  ops.foldl (GateOp.run E) g

variable {E : GateEnv} {g g' : ConfirmGate} {key : KeyObject} {id command signature : JStr}

/-! ## When an approval is accepted -/

/-- The gate that has just accepted an approval of `id`, before it is persisted. -/
def accepted (E : GateEnv) (g : ConfirmGate) (id : JStr) : ConfirmGate :=
  { g with
    intents := g.intents.delete id
    used := g.used.set id (E.clock (g.tick + 1) + E.ttlMs)
    tick := g.tick + 2 }

theorem consumeSigned_of_unused (configured : E.approvePublicKey = some key)
    (h : g.used.get id = none) : g.consumeSigned E id command signature =
      g.consumePending E key id command signature := by
  simp only [consumeSigned, configured, h]

theorem consumePending_of_none (h : g.intents.get id = none) :
    (g.consumePending E key id command signature).1 ≠ .ok () := by
  simp [consumePending, h]

/-- A used id has no pending intent to consume. -/
theorem consumeSigned_of_used (hg : WellFormed g) (configured : E.approvePublicKey = some key)
    {expiry : Int} (h : g.used.get id = some expiry) :
    (g.consumeSigned E id command signature).1 ≠ .ok () := by
  have hnone : g.intents.get id = none := by
    rw [OrderedMap.get_eq_none]
    intro i hi
    have := hg.separate _ hi
    rw [h] at this
    cases this
  unfold consumeSigned
  simp only [configured, h]
  split
  · exact consumePending_of_none hnone
  · exact fun h => by cases h

/-- **An approval is accepted** when its intent is pending in time, for this command, with a
signature that verifies. -/
theorem consumeSigned_ok_iff (hg : WellFormed g) (configured : E.approvePublicKey = some key) :
    (g.consumeSigned E id command signature).1 = .ok () ↔
      ∃ i, g.intents.get id = some i ∧ E.clock g.tick ≤ i.expiresAt ∧
        i.commandDigest = E.crypto.digestCommand command ∧
        verifyApprovalSignature E.crypto key signature i.confirmationId i.nonce i.commandDigest
          (.ofInt i.expiresAt) = true := by
  constructor
  · intro h
    cases hu : g.used.get id with
    | some expiry => exact absurd h (consumeSigned_of_used hg configured hu)
    | none =>
      rw [consumeSigned_of_unused configured hu] at h
      unfold consumePending at h
      split at h
      · cases h
      · next i hi =>
        split at h
        · cases h
        · split at h
          · cases h
          · next hexp =>
            split at h
            · cases h
            · next hd =>
              split at h
              · cases h
              · next hv =>
                exact ⟨i, hi, by omega, (Decidable.not_not.mp hd).symm, by simpa using hv⟩
  · rintro ⟨i, hi, hexp, hd, hv⟩
    obtain rfl : i.confirmationId = id := hg.ids _ (OrderedMap.get_eq_some.mp hi)
    exact consumeSigned_ok hg configured hi hexp hd.symm hv

theorem consumeSigned_accepted (hg : WellFormed g) (configured : E.approvePublicKey = some key)
    (h : (g.consumeSigned E id command signature).1 = .ok ()) :
    (g.consumeSigned E id command signature).2 = (g.accepted E id).persist E := by
  cases hu : g.used.get id with
  | some expiry => exact absurd h (consumeSigned_of_used hg configured hu)
  | none =>
    obtain ⟨i, hi, hexp, hd, hv⟩ := (consumeSigned_ok_iff hg configured).mp h
    have hunused : i.used = false := hg.unused _ (OrderedMap.get_eq_some.mp hi)
    rw [consumeSigned_of_unused configured hu]
    unfold consumePending
    simp only [hi]
    rw [if_neg (by simp [hunused]), if_neg (by omega), if_neg (Decidable.not_not.mpr hd.symm), hv]
    rfl

/-- Before the expiry of a used id, `consumeSigned` says that it is used. -/
theorem consumeSigned_tokenUsed (configured : E.approvePublicKey = some key) {expiry : Int}
    (h : g.used.get id = some expiry) (inTime : E.clock g.tick ≤ expiry) :
    (g.consumeSigned E id command signature).1 =
      .error ⟨.tokenUsed, js "confirmation has already been used"⟩ := by
  unfold consumeSigned
  simp only [configured, h]
  rw [if_neg (by omega)]

/-! ## What is listed -/

/-- Pruning at `t` leaves the intents that have not expired. -/
theorem mem_prune_atTime {t : TimeValue} {e : JStr × WriteIntent} :
    e ∈ (g.prune (E.atTime t)).intents.entries ↔ e ∈ g.intents.entries ∧ t ≤ e.2.expiresAt := by
  constructor
  · intro he
    have hswept : e ∈ (g.swept (E.atTime t)).intents.entries := by
      rw [prune_eq] at he
      split at he
      · exact (persist_later _).intents.subset he
      · exact he
    obtain ⟨hm, hexp⟩ := List.mem_filter.mp hswept
    exact ⟨hm, by simpa [GateEnv.atTime] using hexp⟩
  · rintro ⟨he, hexp⟩
    by_contra hn
    obtain ⟨_, _, _, h⟩ := (prune_later g).expired e he hn
    simp only [GateEnv.atTime] at h
    omega

theorem mem_pendingViews_atTime {t : TimeValue} {v : PendingIntentView} :
    v ∈ (g.pendingViews (E.atTime t)).1 ↔
      ∃ e ∈ g.intents.entries, t ≤ e.2.expiresAt ∧ viewOf e.2 = v := by
  simp only [pendingViews, views, OrderedMap.values, List.map_map, List.mem_map, mem_prune_atTime,
    Function.comp_apply, and_assoc]

/-! ## What a run keeps -/

/-- An intent expires the lifetime after an earlier reading of the clock. -/
def Dated (E : GateEnv) (g : ConfirmGate) (i : WriteIntent) : Prop :=
  ∃ n < g.tick, i.expiresAt = E.clock n + E.ttlMs

structure Kept (E : GateEnv) (g : ConfirmGate) : Prop where
  wellFormed : WellFormed g
  room : g.intents.size ≤ E.maxPending
  dated : ∀ e ∈ g.intents.entries, Dated E g e.2

theorem new_kept : Kept E new where
  wellFormed := new_wellFormed
  room := Nat.zero_le _
  dated _ he := by cases he

theorem Dated.mono (ht : g.tick ≤ g'.tick) {i : WriteIntent} (h : Dated E g i) : Dated E g' i := by
  obtain ⟨n, hn, he⟩ := h
  exact ⟨n, by omega, he⟩

theorem Kept.later (h : Kept E g) (hl : Later E g g') : Kept E g' where
  wellFormed := h.wellFormed.later hl
  room := hl.intents.length_le.trans h.room
  dated e he := (h.dated e (hl.intents.subset he)).mono hl.tick

theorem size_withIntent {i : WriteIntent} (hid : i.confirmationId ∉ g.takenIds) :
    (g.withIntent E i).intents.size = g.intents.size + 1 := by
  have hfree : g.intents.has i.confirmationId = false :=
    OrderedMap.has_eq_false.mpr fun h => hid (List.mem_append_left _ h)
  simp [withIntent, OrderedMap.size, OrderedMap.entries_set_of_not_has hfree]

theorem create_kept (h : Kept E g) (toolId command commandPreview : JStr)
    (redactedFields : List JStr) :
    Kept E (g.create E toolId command commandPreview redactedFields).2 := by
  have hp : Kept E (g.prune E) := h.later (prune_later g)
  rcases create_cases E g toolId command commandPreview redactedFields with
    ⟨_, e, hc⟩ | ⟨hroom, i, rfl, hc⟩
  · rw [hc]
    exact hp
  · rw [hc]
    have hid := idDraw_not_mem (E := E) (g := g.prune E)
    refine Kept.later ⟨hp.wellFormed.withIntent rfl hid, ?_, fun e he => ?_⟩ (persist_later _)
    · rw [size_withIntent hid]
      exact hroom
    · rcases OrderedMap.mem_set.mp he with ⟨he, _⟩ | rfl
      · exact (hp.dated e he).mono (Nat.le_succ _)
      · exact ⟨(g.prune E).tick, Nat.lt_succ_self _, rfl⟩

theorem WellFormed.accepted (h : WellFormed g) : WellFormed (g.accepted E id) := by
  constructor <;> intro e he <;> obtain ⟨he, hne⟩ := OrderedMap.mem_delete.mp he
  · exact h.ids e he
  · exact h.unused e he
  · exact (OrderedMap.get_set_of_ne hne).trans (h.separate e he)

theorem Kept.accepted (h : Kept E g) : Kept E (g.accepted E id) where
  wellFormed := h.wellFormed.accepted
  room := (List.length_filter_le _ _).trans h.room
  dated e he := (h.dated e (OrderedMap.mem_delete.mp he).1).mono (Nat.le_add_right _ 2)

theorem run_kept (configured : E.approvePublicKey = some key) (h : Kept E g) (op : GateOp) :
    Kept E (op.run E g) := by
  cases op with
  | create toolId command commandPreview redactedFields => exact create_kept h _ _ _ _
  | consumeSigned id command signature =>
    show Kept E (g.consumeSigned E id command signature).2
    rcases consumeSigned_cases E g id command signature with ⟨e, g', hc, hl⟩ | ⟨g', i, hc, _⟩
    · rw [hc]
      exact h.later hl
    · rw [consumeSigned_accepted h.wellFormed configured (by rw [hc])]
      exact h.accepted.later (persist_later _)
  | prune => exact h.later (prune_later g)
  | getByConfirmationId id => exact h.later (prune_later g)
  | pendingViews => exact h.later (prune_later g)

theorem runOps_kept (configured : E.approvePublicKey = some key) (h : Kept E g) (ops : List GateOp) :
    Kept E (g.runOps E ops) := by
  induction ops generalizing g with
  | nil => exact h
  | cons op ops ih => exact ih (run_kept configured h op)

/-! ## A used id is refused -/

/-- Up to the deadline the id is kept as used. -/
def Refused (E : GateEnv) (g : ConfirmGate) (id : JStr) (deadline : Int) : Prop :=
  E.clock g.tick ≤ deadline → ∃ expiry, g.used.get id = some expiry ∧ deadline ≤ expiry

section

variable {deadline : Int} (steady : E.Steady)
include steady

theorem Refused.mono (h : Refused E g id deadline) (ht : g.tick ≤ g'.tick)
    (hu : ∀ expiry, g.used.get id = some expiry → g'.used.get id = some expiry) :
    Refused E g' id deadline := by
  intro hd
  obtain ⟨expiry, hget, hle⟩ := h ((steady ht).trans hd)
  exact ⟨expiry, hu expiry hget, hle⟩

/-- What leaves the used ids has expired, and its expiry is past the deadline. -/
theorem Refused.later (h : Refused E g id deadline) (hl : Later E g g') :
    Refused E g' id deadline := by
  intro hd
  obtain ⟨expiry, hget, hle⟩ := h ((steady hl.tick).trans hd)
  refine ⟨expiry, OrderedMap.get_eq_some.mpr ?_, hle⟩
  by_contra hn
  obtain ⟨n, _, hlt, hexp⟩ := hl.usedExpired _ (OrderedMap.get_eq_some.mp hget) hn
  have : (E.clock n : Int) ≤ E.clock g'.tick := steady hlt.le
  dsimp only at hexp
  omega

theorem Refused.run (configured : E.approvePublicKey = some key) (hk : Kept E g)
    (h : Refused E g id deadline) (op : GateOp) : Refused E (op.run E g) id deadline := by
  have hp : Refused E (g.prune E) id deadline := h.later steady (prune_later g)
  cases op with
  | create toolId command commandPreview redactedFields =>
    show Refused E (g.create E toolId command commandPreview redactedFields).2 id deadline
    rcases create_cases E g toolId command commandPreview redactedFields with
      ⟨_, e, hc⟩ | ⟨_, i, _, hc⟩
    · rw [hc]
      exact hp
    · rw [hc]
      have hw : Refused E ((g.prune E).withIntent E i) id deadline :=
        hp.mono steady (Nat.le_succ _) fun _ hget => hget
      exact hw.later steady (persist_later _)
  | consumeSigned id' command signature =>
    show Refused E (g.consumeSigned E id' command signature).2 id deadline
    rcases consumeSigned_cases E g id' command signature with ⟨e, g', hc, hl⟩ | ⟨g', i, hc, hcons⟩
    · rw [hc]
      exact h.later steady hl
    · rw [consumeSigned_accepted hk.wellFormed configured (by rw [hc])]
      refine (h.mono steady (Nat.le_add_right _ 2) fun expiry hget => ?_).later steady (persist_later _)
      -- the id accepted now was pending, so it is not the used one
      have hne : id ≠ id' := by
        rintro rfl
        have := hk.wellFormed.separate _ (OrderedMap.get_eq_some.mp hcons.pending)
        rw [hget] at this
        cases this
      exact (OrderedMap.get_set_of_ne hne).trans hget
  | prune => exact hp
  | getByConfirmationId id => exact hp
  | pendingViews => exact hp

theorem Refused.runOps (configured : E.approvePublicKey = some key) (hk : Kept E g)
    (h : Refused E g id deadline) (ops : List GateOp) : Refused E (g.runOps E ops) id deadline := by
  induction ops generalizing g with
  | nil => exact h
  | cons op ops ih => exact ih (run_kept configured hk op) (h.run steady configured hk op)

/-- The used record of an accepted approval outlives its intent. -/
theorem Kept.refused (hk : Kept E g) {i : WriteIntent} (hi : g.intents.get id = some i) :
    Refused E (g.accepted E id) id i.expiresAt := by
  intro _
  refine ⟨_, OrderedMap.get_set_self _ _ _, ?_⟩
  obtain ⟨n, hn, he⟩ := hk.dated _ (OrderedMap.get_eq_some.mp hi)
  have : (E.clock n : Int) ≤ E.clock (g.tick + 1) := steady (by omega)
  dsimp only at he
  omega

end

end ConfirmGate

/-! ## A concrete gate -/

/-- A command with its digest and the signature over the payload of its first intent. -/
structure SignedCommand where
  command : JStr
  digest : JStr
  signature : JStr

def signedSetdefault : SignedCommand where
  command := js "user setdefault"
  digest := js "3b789930ee02f1f8e4f63ebfec352f543d002add2befa04135ff8678572076fa"
  signature :=
    js "bD0tbElQNKLOmMua6BXZoayvh755ZnVM7aYvA7vsabKpJ4mLoSK+pDhvkxLCpUcZyEEBrs6bUMKJU3nR7uIXCw=="

def signedSet : SignedCommand where
  command := js "user set -o"
  digest := js "48d538607d0924044fb65aa3dba268f1cdfc266577c68b439beae8faac3eb617"
  signature :=
    js "XIQUezkF8nx2vRmrEI5z7EDCjcIas8HVMGj7cuGxpddDrLhG8/YL5ACrmbrZ+7G7kOY7rBqD69whiDV179KkCw=="

/-- A command that ends in a surrogate without its partner. -/
def signedTr069 : SignedCommand where
  command := js "swm tr069 " ++ [0xD800]
  digest := js "92b18a9d2eae05454ec6301e40fb3a1f4a1b13e2f2ec9a4f101f74c3a1ac8cf1"
  signature :=
    js "KSo12JNo4ndGew1zjUGjOQ84/0o9OJmCaH+q7PuR8HsE9wow60sh/NcsGFfVBwLNjK8GCrcSaPLJCegr2qLzDQ=="

def signedCommands : List SignedCommand := [signedSet, signedSetdefault, signedTr069]

def approveKey : KeyObject :=
  ⟨js "ed25519", js "MCowBQYDK2VwAyEAVmDSq8o6kmRwi8YFQIpQgckODP3qC1IdvuxV7iDyyaU="⟩

/-- Ids and nonces that differ by their length. -/
def numbered (text : JStr) (n : Nat) : JStr := text ++ List.replicate n 48

theorem numbered_injective (text : JStr) : Function.Injective (numbered text) := by
  intro a b h
  simpa [numbered] using h

def firstId : JStr := js "a1b2c3d4e5f60710"

def firstNonce : JStr := js "00112233445566778899aabbccddee00"

def noon : Int := 1700000000000

theorem noon_safe : noon.natAbs < 2 ^ 53 := by decide

/-- So is the expiry of an intent that is created at noon. -/
theorem expiry_safe : (noon + 60000).natAbs < 2 ^ 53 := by decide

/-- The primitives, on the commands above. -/
def userCrypto : Crypto where
  sha256hex bytes := signedCommands.foldr
    (fun s digest => Equiv.swap (byteUnits (utf8 s.command)) s.digest digest) (byteUnits bytes)
  verify payload key signature := .ok (key = approveKey && signedCommands.any fun s =>
    payload = buildSignPayload firstId firstNonce s.digest (.ofInt (noon + 60000)) &&
      signature = fromBase64 s.signature)

def userGate : GateEnv where
  crypto := userCrypto
  clock _ := ⟨noon, by decide⟩
  ids := .ofInjective (numbered firstId) (numbered_injective _)
  nonces := numbered firstNonce
  fs _ := .ok
  ttlMs := 60000
  ttlMs_safe := TimeValue.minute_safe
  maxPending := 100
  pendingFile := none
  approvePublicKey := some approveKey

/-- The clock of the user gate jumps to the instant its first intent expires. -/
def boundaryGate : GateEnv :=
  { userGate with clock := fun n => if n < 2 then ⟨noon, by decide⟩ else ⟨noon + 60000, by decide⟩ }

theorem boundaryGate_steady : boundaryGate.Steady := by
  intro n m h
  have hclock (k : Nat) : (boundaryGate.clock k : Int) = if k < 2 then noon else noon + 60000 := by
    show ((if k < 2 then ⟨noon, _⟩ else ⟨noon + 60000, _⟩ : TimeValue) : Int) = _
    split <;> rfl
  rw [hclock, hclock]
  split <;> split <;> omega

/-! ## The gate is exact -/

namespace ConfirmGate

variable {E : GateEnv} {g : ConfirmGate} {key : KeyObject}

/-- **The gate is exact.** After any operations on a new gate its maps are in step and within bounds;
an approval is accepted exactly when the pending views of that moment list its intent; and once it
is accepted, its id is refused as used until the intent would have expired. -/
theorem gate_exact (configured : E.approvePublicKey = some key) (steady : E.Steady)
    {ops : List GateOp} (reached : new.runOps E ops = g) :
    (∀ id ∈ g.intents.keys, id ∉ g.used.keys) ∧
      (∀ e ∈ g.intents.entries, e.2.confirmationId = e.1 ∧ e.2.used = false) ∧
      g.intents.size ≤ E.maxPending ∧
      (∀ (clock : Nat → TimeValue) (id command signature : JStr),
        (g.consumeSigned { E with clock := clock } id command signature).1 = .ok () ↔
          ∃ v ∈ (g.pendingViews (E.atTime (clock g.tick))).1, v.confirmationId = id ∧
            v.commandDigest = E.crypto.digestCommand command ∧
            verifyApprovalSignature E.crypto key signature v.confirmationId v.nonce v.commandDigest
              (.ofInt v.expiresAt) = true) ∧
      ∀ id command signature : JStr, (g.consumeSigned E id command signature).1 = .ok () →
        ∃ i, g.intents.get id = some i ∧ ∀ (later : List GateOp) (g' : ConfirmGate),
          runOps E (g.consumeSigned E id command signature).2 later = g' →
          E.clock g'.tick ≤ i.expiresAt → ∀ command' signature' : JStr,
            (g'.consumeSigned E id command' signature').1 =
              .error ⟨.tokenUsed, js "confirmation has already been used"⟩ := by
  have hk : Kept E g := reached ▸ runOps_kept configured new_kept ops
  have hg := hk.wellFormed
  refine ⟨?_, fun e he => ⟨hg.ids e he, hg.unused e he⟩, hk.room, ?_, ?_⟩
  · intro id hid hused
    obtain ⟨e, he, rfl⟩ := List.mem_map.mp hid
    obtain ⟨e', he', heq⟩ := List.mem_map.mp hused
    exact OrderedMap.get_eq_none.mp (hg.separate e he) e'.2 (heq ▸ he')
  · intro clock id command signature
    rw [consumeSigned_ok_iff (E := { E with clock := clock }) hg configured]
    constructor
    · rintro ⟨i, hi, hexp, hd, hv⟩
      have hmem := OrderedMap.get_eq_some.mp hi
      exact ⟨viewOf i, mem_pendingViews_atTime.mpr ⟨_, hmem, hexp, rfl⟩, hg.ids _ hmem, hd, hv⟩
    · rintro ⟨v, hmem, rfl, hd, hv⟩
      obtain ⟨e, he, hexp, rfl⟩ := mem_pendingViews_atTime.mp hmem
      have hid : e.2.confirmationId = e.1 := hg.ids e he
      exact ⟨e.2, OrderedMap.get_eq_some.mpr (show (e.2.confirmationId, e.2) ∈ _ from hid ▸ he), hexp,
        hd, hv⟩
  · intro id command signature hok
    obtain ⟨i, hi, _⟩ := (consumeSigned_ok_iff hg configured).mp hok
    have hstate := consumeSigned_accepted hg configured hok
    have hkept : Kept E (g.consumeSigned E id command signature).2 :=
      hstate ▸ hk.accepted.later (persist_later _)
    have hrefused : Refused E (g.consumeSigned E id command signature).2 id i.expiresAt :=
      hstate ▸ (hk.refused steady hi).later steady (persist_later _)
    refine ⟨i, hi, ?_⟩
    rintro later _ rfl inTime command' signature'
    obtain ⟨expiry, hget, hle⟩ := hrefused.runOps steady configured hkept later inTime
    exact consumeSigned_tokenUsed configured hget (inTime.trans hle)

/-- A new gate, asked for a confirmation of `user set -o`. -/
def boundaryRun : List GateOp := [.create (js "user_set") signedSet.command signedSet.command []]

/-- At the instant an intent expires its approval is accepted, and the next one refused as used. -/
theorem gate_exact_boundary : ∃ g g' : ConfirmGate, new.runOps boundaryGate boundaryRun = g ∧
    g.consumeSigned boundaryGate firstId signedSet.command signedSet.signature = (.ok (), g') ∧
    (g'.consumeSigned boundaryGate firstId signedSet.command signedSet.signature).1 =
      .error ⟨.tokenUsed, js "confirmation has already been used"⟩ := by
  have configured : boundaryGate.approvePublicKey = some approveKey := rfl
  have reached : new.runOps boundaryGate boundaryRun = _ := rfl
  obtain ⟨-, -, -, accepts, refuses⟩ := gate_exact configured boundaryGate_steady reached
  have hok := (accepts boundaryGate.clock firstId signedSet.command signedSet.signature).mpr
    (by decide +kernel)
  obtain ⟨i, hi, refused⟩ := refuses _ _ _ hok
  have hexp : i.expiresAt = noon + 60000 :=
    (congrArg WriteIntent.expiresAt (Option.some.inj hi)).symm
  exact ⟨_, _, rfl, Prod.ext hok rfl, refused [] _ rfl hexp.ge _ _⟩

end ConfirmGate

end VigorMcp

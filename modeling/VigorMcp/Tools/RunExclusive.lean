import VigorMcp.Lib.Promises

/-!
# `runExclusive`

The gate's chain of write workflows. Every call makes two promises: `run`, for
the callback that is called when the chain so far settles, and the new end of
the chain, which settles after `run` however `run` ends. The callback starts an
asynchronous body, whose promise `run` then follows.

`InTurn` says where such a chain can be: the bodies before the last one started
are over, and exactly one job or one body can move the chain on.
-/

namespace VigorMcp

/-- The promises of the chain: the one it starts from, two for each call, and one for each body that
was started. -/
inductive ChainPromise where
  | resolved
  | run (call : Nat)
  | chain (call : Nat)
  | body (start : Nat)
  deriving DecidableEq

/-- The body of a call, or `() => undefined`. -/
inductive ChainCallback where
  | fn (call : Nat)
  | ignore

/-- The gate's side of `runExclusive`; a promise holds what a body returned, or `undefined`. -/
structure WriteChain (ν ε : Type) where
  promises : Promises ChainPromise ChainCallback (Option ν) ε
  /-- `this.chain`. -/
  chain : ChainPromise
  calls : Nat
  /-- The calls whose bodies were started, in order, and how those that are over ended. -/
  started : List Nat
  outcome : Nat → Option (Except ε ν)

namespace WriteChain

variable {ν ε : Type}

def new : WriteChain ν ε where
  promises :=
    { state := fun p => if p = .resolved then .settled (.ok none) else .pending []
      jobs := [] }
  chain := .resolved
  calls := 0
  started := []
  outcome _ := none

variable (c : WriteChain ν ε)

def runExclusive : WriteChain ν ε :=
  let run := ChainPromise.run c.calls
  let chain := ChainPromise.chain c.calls
  { c with
    promises := (c.promises.andThen c.chain (.fn c.calls) run).andThen run .ignore chain
    chain := chain
    calls := c.calls + 1 }

/-- The body of a call is started and returns its promise, which the promise of the callback
follows. -/
def start (promises : Promises ChainPromise ChainCallback (Option ν) ε) (call : Nat)
    (derived : ChainPromise) : WriteChain ν ε :=
  let body := ChainPromise.body c.started.length
  { c with
    promises := (promises.create body).resolveWith derived body
    started := c.started ++ [call] }

/-- Runs the first job, if there is one. -/
def runJob : Option (WriteChain ν ε) :=
  match c.promises.jobs with
  | [] => none
  | job :: jobs =>
    let promises := { c.promises with jobs := jobs }
    match job with
    | .react (.callback (.fn call) derived) _ => some (c.start promises call derived)
    | .react (.callback .ignore derived) _ =>
      some { c with promises := promises.settle derived (.ok none) }
    | .react (.follow follower) outcome => some { c with promises := promises.settle follower outcome }
    | .follow leader follower => some { c with promises := promises.attach leader (.follow follower) }

/-- The body started as number `s` ends. -/
def finish (s : Nat) (outcome : Except ε ν) : WriteChain ν ε :=
  { c with
    promises := c.promises.settle (.body s) (outcome.map some)
    outcome := Function.update c.outcome s (some outcome) }

/-- A body that was started and is not over. -/
def Running (s : Nat) : Prop := s < c.started.length ∧ c.outcome s = none

/-- The end of the chain before a call. -/
def before : Nat → ChainPromise
  | 0 => .resolved
  | call + 1 => .chain call

/-- What waits for the chain before a call: its callback, once the call is made. -/
def waitingFor (call : Nat) : List (Reaction ChainPromise ChainCallback) :=
  if call < c.calls then [.callback (.fn call) (.run call)] else []

/-- A call whose body is not over: its promise is pending, and so is the chain behind it. -/
structure Waits (call : Nat) : Prop where
  run : c.promises.state (.run call) = .pending [.callback .ignore (.chain call)]
  chain : c.promises.state (.chain call) = .pending (c.waitingFor (call + 1))

/-- How the chain moves on from the bodies started so far. -/
inductive Frontier : Prop where
  /-- All bodies are over; the next call, if there is one, is to be started. -/
  | idle (outcome : Except ε (Option ν))
      (settled : c.promises.state (before c.started.length) = .settled outcome)
      (jobs : c.promises.jobs = (c.waitingFor c.started.length).map (.react · outcome))
      (ended : ∀ s < c.started.length, ∃ o, c.outcome s = some o ∧
        c.promises.state (.run s) = .settled (o.map some))
  /-- The last body was started, and its promise is to be followed. -/
  | started (s : Nat) (last : c.started.length = s + 1) (waits : c.Waits s)
      (jobs : c.promises.jobs = [.follow (.body s) (.run s)])
      (body : c.outcome s = none ∧ c.promises.state (.body s) = .pending [] ∨
        ∃ o, c.outcome s = some o ∧ c.promises.state (.body s) = .settled (o.map some))
  /-- The last body is running, and its promise is followed. -/
  | running (s : Nat) (last : c.started.length = s + 1) (waits : c.Waits s)
      (jobs : c.promises.jobs = []) (unfinished : c.outcome s = none)
      (body : c.promises.state (.body s) = .pending [.follow (.run s)])
  /-- The last body is over, and its outcome is to be passed on to its call. -/
  | finished (s : Nat) (last : c.started.length = s + 1) (waits : c.Waits s) (o : Except ε ν)
      (jobs : c.promises.jobs = [.react (.follow (.run s)) (o.map some)])
      (body : c.outcome s = some o)
  /-- The call has its outcome, and the chain behind it is to be settled. -/
  | delivered (s : Nat) (last : c.started.length = s + 1) (o : Except ε ν)
      (jobs : c.promises.jobs = [.react (.callback .ignore (.chain s)) (o.map some)])
      (body : c.outcome s = some o) (run : c.promises.state (.run s) = .settled (o.map some))
      (chain : c.promises.state (.chain s) = .pending (c.waitingFor (s + 1)))

/-- Where a chain can be. -/
structure InTurn : Prop where
  order : c.started = List.range c.started.length
  submitted : c.started.length ≤ c.calls
  tail : c.chain = before c.calls
  fresh : ∀ s, c.started.length ≤ s → c.outcome s = none
  waiting : ∀ call, c.started.length ≤ call → call < c.calls → c.Waits call
  ended : ∀ s, s + 1 < c.started.length → ∃ o, c.outcome s = some o ∧
    c.promises.state (.run s) = .settled (o.map some)
  frontier : c.Frontier

variable {c} {c' : WriteChain ν ε}

/-! ## Names -/

@[simp] theorem before_ne_run (call k : Nat) : before call ≠ .run k := by cases call <;> simp [before]

@[simp] theorem before_ne_body (call s : Nat) : before call ≠ .body s := by
  cases call <;> simp [before]

theorem before_eq_chain {call k : Nat} : before call = .chain k ↔ call = k + 1 := by
  cases call <;> simp [before]

theorem before_injective : Function.Injective before := by
  rintro (_ | k) (_ | k') h <;> simp_all [before]

theorem waitingFor_of_lt {call : Nat} (h : call < c.calls) :
    c.waitingFor call = [.callback (.fn call) (.run call)] := if_pos h

theorem waitingFor_of_ge {call : Nat} (h : c.calls ≤ call) : c.waitingFor call = [] :=
  if_neg (Nat.not_lt.mpr h)

/-! ## A new call -/

theorem new_inTurn : InTurn (new : WriteChain ν ε) where
  order := rfl
  submitted := Nat.le_refl _
  tail := rfl
  fresh _ _ := rfl
  waiting _ _ h := absurd h (Nat.not_lt_zero _)
  ended _ h := absurd h (Nat.not_lt_zero _)
  frontier := .idle (.ok none) rfl rfl fun _ h => absurd h (Nat.not_lt_zero _)

/-- The end of the chain is pending with nothing behind it, or all bodies are over. -/
theorem InTurn.tail_state (h : c.InTurn) : c.promises.state (before c.calls) = .pending [] ∨
    c.started.length = c.calls ∧ ∃ outcome, c.promises.state (before c.calls) = .settled outcome ∧
      c.promises.jobs = [] ∧ ∀ s < c.started.length, ∃ o, c.outcome s = some o ∧
        c.promises.state (.run s) = .settled (o.map some) := by
  rcases Nat.lt_or_eq_of_le h.submitted with hlt | heq
  · obtain ⟨n, hn⟩ : ∃ n, c.calls = n + 1 := ⟨c.calls - 1, by omega⟩
    have hchain := (h.waiting n (by omega) (by omega)).chain
    rw [waitingFor_of_ge (by omega)] at hchain
    rw [hn]
    exact .inl hchain
  · have hnone : c.waitingFor c.started.length = [] := waitingFor_of_ge (by omega)
    rw [← heq]
    cases h.frontier with
    | idle outcome settled jobs ended =>
      rw [hnone] at jobs
      exact .inr ⟨rfl, outcome, settled, jobs, ended⟩
    | started s last waits _ _ | running s last waits _ _ _ | finished s last waits _ _ _ =>
      have hchain := waits.chain
      rw [← last, hnone] at hchain
      rw [last]
      exact .inl hchain
    | delivered s last _ _ _ _ chain =>
      rw [← last, hnone] at chain
      rw [last]
      exact .inl chain

/-- Everything but the two new promises and the end of the chain stays as it is. -/
theorem runExclusive_promises (tail : c.chain = before c.calls) : c.runExclusive.promises =
    (((c.promises.create (.run c.calls)).attach (before c.calls)
      (.callback (.fn c.calls) (.run c.calls))).create (.chain c.calls)).set (.run c.calls)
        (.pending [.callback .ignore (.chain c.calls)]) := by
  have hrun : (((c.promises.create (.run c.calls)).attach (before c.calls)
      (.callback (.fn c.calls) (.run c.calls))).create (.chain c.calls)).state (.run c.calls) =
        .pending [] := by
    rw [Promises.create_state_of_ne (by simp), Promises.attach_state_of_ne (before_ne_run _ _).symm,
      Promises.create_state]
  simp only [runExclusive, tail, Promises.andThen]
  exact Promises.attach_pending hrun

theorem runExclusive_run (tail : c.chain = before c.calls) :
    c.runExclusive.promises.state (.run c.calls) = .pending [.callback .ignore (.chain c.calls)] := by
  rw [runExclusive_promises tail, Promises.set_state]

theorem runExclusive_chain (tail : c.chain = before c.calls) :
    c.runExclusive.promises.state (.chain c.calls) = .pending [] := by
  rw [runExclusive_promises tail, Promises.set_state_of_ne (by simp), Promises.create_state]

theorem runExclusive_state (tail : c.chain = before c.calls) {p : ChainPromise}
    (hr : p ≠ .run c.calls) (hc : p ≠ .chain c.calls) (hb : p ≠ before c.calls) :
    c.runExclusive.promises.state p = c.promises.state p := by
  rw [runExclusive_promises tail, Promises.set_state_of_ne hr, Promises.create_state_of_ne hc,
    Promises.attach_state_of_ne hb, Promises.create_state_of_ne hr]

/-- The new callback waits for a pending end of the chain. -/
theorem runExclusive_pending (tail : c.chain = before c.calls)
    (h : c.promises.state (before c.calls) = .pending []) :
    c.runExclusive.promises.state (before c.calls) =
        .pending [.callback (.fn c.calls) (.run c.calls)] ∧
      c.runExclusive.promises.jobs = c.promises.jobs := by
  have hne : before c.calls ≠ .chain c.calls := fun he => by
    have := before_eq_chain.mp he
    omega
  have hpending : (c.promises.create (.run c.calls)).state (before c.calls) = .pending [] := by
    rw [Promises.create_state_of_ne (before_ne_run _ _), h]
  rw [runExclusive_promises tail, Promises.attach_pending hpending]
  constructor
  · rw [Promises.set_state_of_ne (before_ne_run _ _), Promises.create_state_of_ne hne,
      Promises.set_state]
    rfl
  · rfl

/-- It is a job at once behind a settled one. -/
theorem runExclusive_settled (tail : c.chain = before c.calls) {outcome : Except ε (Option ν)}
    (h : c.promises.state (before c.calls) = .settled outcome) :
    c.runExclusive.promises.state (before c.calls) = .settled outcome ∧
      c.runExclusive.promises.jobs = c.promises.jobs ++
        [.react (.callback (.fn c.calls) (.run c.calls)) outcome] := by
  have hne : before c.calls ≠ .chain c.calls := fun he => by
    have := before_eq_chain.mp he
    omega
  have hsettled : (c.promises.create (.run c.calls)).state (before c.calls) = .settled outcome := by
    rw [Promises.create_state_of_ne (before_ne_run _ _), h]
  rw [runExclusive_promises tail, Promises.attach_settled hsettled]
  constructor
  · rw [Promises.set_state_of_ne (before_ne_run _ _), Promises.create_state_of_ne hne,
      Promises.enqueue_state]
    exact hsettled
  · rfl

/-- The chain behind a call gets the new callback if it was the last. -/
theorem runExclusive_behind (tail : c.chain = before c.calls) {call : Nat} (hcall : call < c.calls)
    (h : c.promises.state (.chain call) = .pending (c.waitingFor (call + 1))) :
    c.runExclusive.promises.state (.chain call) =
      .pending (c.runExclusive.waitingFor (call + 1)) := by
  rcases Nat.lt_or_eq_of_le (Nat.succ_le_of_lt hcall) with hlt | heq
  · rw [runExclusive_state tail (by simp) (by simp; omega)
      (fun he => by have := before_eq_chain.mp he.symm; omega), h, waitingFor_of_lt hlt,
      waitingFor_of_lt (Nat.lt_succ_of_lt hlt)]
  · rw [waitingFor_of_ge (by omega)] at h
    have hb : before c.calls = .chain call := before_eq_chain.mpr heq.symm
    rw [← hb, (runExclusive_pending tail (hb ▸ h)).1, ← heq,
      waitingFor_of_lt (show call + 1 < c.calls + 1 by omega)]

theorem Waits.runExclusive (tail : c.chain = before c.calls) {call : Nat} (h : c.Waits call)
    (hcall : call < c.calls) : c.runExclusive.Waits call where
  run := by
    rw [runExclusive_state tail (by simp; omega) (by simp) (before_ne_run _ _).symm]
    exact h.run
  chain := runExclusive_behind tail hcall h.chain

/-- The frontier of a chain whose end is pending does not see the new call. -/
theorem Frontier.runExclusive (h : c.InTurn) (pending : c.promises.state (before c.calls) = .pending [])
    (hf : c.Frontier) : c.runExclusive.Frontier := by
  have hjobs := (runExclusive_pending h.tail pending).2
  have hbody : ∀ s, c.runExclusive.promises.state (.body s) = c.promises.state (.body s) := fun s =>
    runExclusive_state h.tail (by simp) (by simp) (before_ne_body _ _).symm
  have hrun : ∀ s < c.calls, c.runExclusive.promises.state (.run s) = c.promises.state (.run s) :=
    fun s hs => runExclusive_state h.tail (by simp; omega) (by simp) (before_ne_run _ _).symm
  have hsub := h.submitted
  cases hf with
  | idle outcome settled jobs ended =>
    have hne : c.started.length ≠ c.calls := by
      intro he
      rw [he, pending] at settled
      cases settled
    refine .idle outcome ?_ ?_ fun s hs => ?_
    · show c.runExclusive.promises.state (before c.started.length) = _
      rw [runExclusive_state h.tail (before_ne_run _ _)
        (fun he => by have := before_eq_chain.mp he; omega) (before_injective.ne hne), settled]
    · show c.runExclusive.promises.jobs = _
      rw [hjobs, jobs, waitingFor_of_lt (by omega)]
      rw [show c.runExclusive.waitingFor c.runExclusive.started.length = _ from
        waitingFor_of_lt (show c.started.length < c.calls + 1 by omega)]
      rfl
    · obtain ⟨o, ho, hr⟩ := ended s hs
      exact ⟨o, ho, (hrun s (by have : s < c.started.length := hs; omega)).trans hr⟩
  | started s last waits jobs body =>
    refine .started s last (waits.runExclusive h.tail (by omega)) (hjobs.trans jobs) ?_
    rw [hbody]
    exact body
  | running s last waits jobs unfinished body =>
    exact .running s last (waits.runExclusive h.tail (by omega)) (hjobs.trans jobs) unfinished
      ((hbody s).trans body)
  | finished s last waits o jobs body =>
    exact .finished s last (waits.runExclusive h.tail (by omega)) o (hjobs.trans jobs) body
  | delivered s last o jobs body run chain =>
    exact .delivered s last o (hjobs.trans jobs) body ((hrun s (by omega)).trans run)
      (runExclusive_behind h.tail (by omega) chain)

theorem InTurn.runExclusive (h : c.InTurn) : c.runExclusive.InTurn := by
  have hsub := h.submitted
  have hrun : ∀ s < c.calls, c.runExclusive.promises.state (.run s) = c.promises.state (.run s) :=
    fun s hs => runExclusive_state h.tail (by simp; omega) (by simp) (before_ne_run _ _).symm
  have hnew : c.runExclusive.Waits c.calls :=
    ⟨runExclusive_run h.tail, by
      rw [runExclusive_chain h.tail, waitingFor_of_ge (Nat.le_refl (c.calls + 1))]⟩
  refine ⟨h.order, Nat.le_succ_of_le hsub, rfl, h.fresh, fun call hm hn => ?_, fun s hs => ?_, ?_⟩
  · rcases Nat.lt_or_eq_of_le (Nat.le_of_lt_succ hn) with hlt | rfl
    · exact (h.waiting call hm hlt).runExclusive h.tail hlt
    · exact hnew
  · obtain ⟨o, ho, hr⟩ := h.ended s hs
    have hs : s + 1 < c.started.length := hs
    exact ⟨o, ho, (hrun s (by omega)).trans hr⟩
  · rcases h.tail_state with hpending | ⟨heq, outcome, hsettled, hjobs, hover⟩
    · exact h.frontier.runExclusive h hpending
    · obtain ⟨hstate, hjobs'⟩ := runExclusive_settled h.tail hsettled
      refine .idle outcome ?_ ?_ fun s hs => ?_
      · exact (congrArg (fun n => c.runExclusive.promises.state (before n)) heq).trans hstate
      · rw [hjobs', hjobs]
        rw [show c.runExclusive.started.length = c.calls from heq,
          waitingFor_of_lt (Nat.lt_succ_self c.calls)]
        rfl
      · obtain ⟨o, ho, hr⟩ := hover s hs
        exact ⟨o, ho, (hrun s (by have : s < c.started.length := hs; omega)).trans hr⟩

/-! ## Jobs -/

/-- The chain after a job or an end that touches the promises of the last body and its call alone. -/
theorem InTurn.moved (h : c.InTurn) {s : Nat} (last : c.started.length = s + 1)
    {promises : Promises ChainPromise ChainCallback (Option ν) ε} {outcome : Nat → Option (Except ε ν)}
    (houtcome : ∀ k, k ≠ s → outcome k = c.outcome k)
    (hrun : ∀ k, k ≠ s → promises.state (.run k) = c.promises.state (.run k))
    (hchain : ∀ k, k ≠ s → promises.state (.chain k) = c.promises.state (.chain k))
    (frontier : Frontier { c with promises := promises, outcome := outcome }) :
    InTurn { c with promises := promises, outcome := outcome } where
  order := h.order
  submitted := h.submitted
  tail := h.tail
  fresh k hk := (houtcome k (by have : c.started.length ≤ k := hk; omega)).trans (h.fresh k hk)
  waiting k hk hn := by
    have hne : k ≠ s := by
      have : c.started.length ≤ k := hk
      omega
    exact ⟨(hrun k hne).trans (h.waiting k hk hn).run, (hchain k hne).trans (h.waiting k hk hn).chain⟩
  ended k hk := by
    have hne : k ≠ s := by
      have : k + 1 < c.started.length := hk
      omega
    obtain ⟨o, ho, hr⟩ := h.ended k hk
    exact ⟨o, (houtcome k hne).trans ho, (hrun k hne).trans hr⟩
  frontier := frontier

/-- The next call's body is started. -/
theorem InTurn.start (h : c.InTurn) (hlt : c.started.length < c.calls)
    (hover : ∀ s < c.started.length, ∃ o, c.outcome s = some o ∧
      c.promises.state (.run s) = .settled (o.map some)) :
    (c.start { c.promises with jobs := [] } c.started.length (.run c.started.length)).InTurn := by
  have hlength : (c.start { c.promises with jobs := [] } c.started.length
      (.run c.started.length)).started.length = c.started.length + 1 := List.length_append
  have hstate : ∀ p, p ≠ .body c.started.length →
      (c.start { c.promises with jobs := [] } c.started.length
        (.run c.started.length)).promises.state p = c.promises.state p :=
    fun p hp => Promises.create_state_of_ne hp
  have hwaits : ∀ k, c.started.length ≤ k → k < c.calls →
      (c.start { c.promises with jobs := [] } c.started.length (.run c.started.length)).Waits k :=
    fun k hk hn => ⟨(hstate _ (by simp)).trans (h.waiting k hk hn).run,
      (hstate _ (by simp)).trans (h.waiting k hk hn).chain⟩
  refine ⟨?_, ?_, h.tail, fun s hs => ?_, fun k hk hn => ?_, fun s hs => ?_, ?_⟩
  · rw [hlength, List.range_succ, ← h.order]
    rfl
  · rw [hlength]
    exact hlt
  · exact h.fresh s (by omega)
  · exact hwaits k (by omega) hn
  · obtain ⟨o, ho, hr⟩ := hover s (by omega)
    exact ⟨o, ho, (hstate _ (by simp)).trans hr⟩
  · exact .started c.started.length hlength (hwaits _ (Nat.le_refl _) hlt) rfl
      (.inl ⟨h.fresh _ (Nat.le_refl _), Promises.create_state⟩)

/-- The promise of the call follows that of its body. -/
theorem InTurn.followed (h : c.InTurn) {s : Nat} (last : c.started.length = s + 1)
    (waits : c.Waits s)
    (body : c.outcome s = none ∧ c.promises.state (.body s) = .pending [] ∨
      ∃ o, c.outcome s = some o ∧ c.promises.state (.body s) = .settled (o.map some)) :
    InTurn { c with
      promises := Promises.attach { c.promises with jobs := [] } (.body s) (.follow (.run s)) } := by
  have hstate : ∀ p, p ≠ .body s →
      (Promises.attach { c.promises with jobs := [] } (.body s) (.follow (.run s))).state p =
        c.promises.state p := fun p hp => Promises.attach_state_of_ne hp
  have hwaits : Waits
      { c with
        promises := Promises.attach { c.promises with jobs := [] } (.body s) (.follow (.run s)) } s :=
    ⟨(hstate _ (by simp)).trans waits.run, (hstate _ (by simp)).trans waits.chain⟩
  refine h.moved last (fun _ _ => rfl) (fun k _ => hstate _ (by simp))
    (fun k _ => hstate _ (by simp)) ?_
  rcases body with ⟨unfinished, hbody⟩ | ⟨o, hover, hbody⟩
  · have hattach := Promises.attach_pending (h := { c.promises with jobs := [] })
      (r := .follow (.run s)) hbody
    refine .running s last hwaits ?_ unfinished ?_
    · rw [hattach]
      rfl
    · rw [hattach]
      exact Promises.set_state
  · have hattach := Promises.attach_settled (h := { c.promises with jobs := [] })
      (r := .follow (.run s)) hbody
    refine .finished s last hwaits o ?_ hover
    rw [hattach]
    rfl

/-- The call gets the outcome of its body. -/
theorem InTurn.delivered (h : c.InTurn) {s : Nat} (last : c.started.length = s + 1)
    (waits : c.Waits s) {o : Except ε ν} (body : c.outcome s = some o) :
    InTurn { c with
      promises := Promises.settle { c.promises with jobs := [] } (.run s) (o.map some) } := by
  have hsettle := Promises.settle_pending (h := { c.promises with jobs := [] }) (o.map some) waits.run
  refine h.moved last (fun _ _ => rfl)
    (fun k hk => Promises.settle_state_of_ne (by simpa using hk))
    (fun k _ => Promises.settle_state_of_ne (by simp)) ?_
  refine .delivered s last o ?_ body ?_ ?_
  · rw [hsettle]
    rfl
  · rw [hsettle]
    exact Promises.set_state
  · exact (Promises.settle_state_of_ne (by simp)).trans waits.chain

/-- The chain behind the call is settled, and the next call may start. -/
theorem InTurn.released (h : c.InTurn) {s : Nat} (last : c.started.length = s + 1)
    {o : Except ε ν} (body : c.outcome s = some o)
    (run : c.promises.state (.run s) = .settled (o.map some))
    (chain : c.promises.state (.chain s) = .pending (c.waitingFor (s + 1))) :
    InTurn { c with
      promises := Promises.settle { c.promises with jobs := [] } (.chain s) (.ok none) } := by
  have hsettle := Promises.settle_pending (h := { c.promises with jobs := [] }) (.ok none) chain
  refine h.moved last (fun _ _ => rfl) (fun k _ => Promises.settle_state_of_ne (by simp))
    (fun k hk => Promises.settle_state_of_ne (by simpa using hk)) ?_
  refine .idle (.ok none) ?_ ?_ fun k hk => ?_
  · show (Promises.settle _ _ _).state (before c.started.length) = _
    rw [last, hsettle]
    exact Promises.set_state
  · rw [hsettle]
    show _ = (c.waitingFor c.started.length).map _
    rw [last]
    rfl
  · have hrun : ∀ k, (Promises.settle { c.promises with jobs := [] } (.chain s) (.ok none)).state
        (.run k) = c.promises.state (.run k) := fun k => Promises.settle_state_of_ne (by simp)
    rcases eq_or_ne k s with rfl | hne
    · exact ⟨o, body, (hrun k).trans run⟩
    · have hk : k < c.started.length := hk
      obtain ⟨o', ho, hr⟩ := h.ended k (by omega)
      exact ⟨o', ho, (hrun k).trans hr⟩

/-- **What a job does**: it starts the body of the next call, with all earlier ones over, or it
moves the outcome of the last body along. -/
theorem InTurn.runJob (h : c.InTurn) (hjob : c.runJob = some c') : c'.InTurn ∧
    c'.calls = c.calls ∧ c'.outcome = c.outcome ∧ (c'.started = c.started ∨
      c.started.length < c.calls ∧ c'.started = c.started ++ [c.started.length] ∧
        ∀ s < c.started.length, ∃ o, c.outcome s = some o) := by
  unfold WriteChain.runJob at hjob
  cases h.frontier with
  | idle outcome settled jobs ended =>
    rcases Nat.lt_or_ge c.started.length c.calls with hlt | hge
    · rw [waitingFor_of_lt hlt] at jobs
      rw [jobs] at hjob
      obtain rfl := Option.some.inj hjob
      refine ⟨h.start hlt ended, rfl, rfl, .inr ⟨hlt, rfl, fun s hs => ?_⟩⟩
      obtain ⟨o, ho, _⟩ := ended s hs
      exact ⟨o, ho⟩
    · rw [waitingFor_of_ge hge] at jobs
      rw [jobs] at hjob
      cases hjob
  | started s last waits jobs body =>
    rw [jobs] at hjob
    obtain rfl := Option.some.inj hjob
    exact ⟨h.followed last waits body, rfl, rfl, .inl rfl⟩
  | running s last waits jobs unfinished body =>
    rw [jobs] at hjob
    cases hjob
  | finished s last waits o jobs body =>
    rw [jobs] at hjob
    obtain rfl := Option.some.inj hjob
    exact ⟨h.delivered last waits body, rfl, rfl, .inl rfl⟩
  | delivered s last o jobs body run chain =>
    rw [jobs] at hjob
    obtain rfl := Option.some.inj hjob
    exact ⟨h.released last body run chain, rfl, rfl, .inl rfl⟩

/-! ## Ends -/

/-- The running body is the last one that was started. -/
theorem InTurn.running_last (h : c.InTurn) {s : Nat} (hs : c.Running s) :
    c.started.length = s + 1 := by
  obtain ⟨hlt, hnone⟩ := hs
  by_contra hne
  obtain ⟨o, ho, _⟩ := h.ended s (by omega)
  rw [hnone] at ho
  cases ho

/-- **What the end of a body does**: its outcome is kept, and waits to be passed on. -/
theorem InTurn.finish (h : c.InTurn) {s : Nat} (hs : c.Running s) (o : Except ε ν) :
    (c.finish s o).InTurn := by
  have hlast := h.running_last hs
  have hnone := hs.2
  have hstate : ∀ p, p ≠ .body s →
      (c.finish s o).promises.state p = c.promises.state p := fun p hp =>
    Promises.settle_state_of_ne hp
  have hwaits : c.Waits s → (c.finish s o).Waits s := fun hw =>
    ⟨(hstate _ (by simp)).trans hw.run, (hstate _ (by simp)).trans hw.chain⟩
  have hout : (c.finish s o).outcome s = some o := Function.update_self ..
  refine h.moved hlast (fun k hk => Function.update_of_ne hk ..) (fun k _ => hstate _ (by simp))
    (fun k _ => hstate _ (by simp)) ?_
  cases h.frontier with
  | idle outcome settled jobs ended =>
    obtain ⟨o', ho, _⟩ := ended s hs.1
    rw [hnone] at ho
    cases ho
  | started k last waits jobs body =>
    obtain rfl : k = s := by omega
    rcases body with ⟨_, hbody⟩ | ⟨o', ho, _⟩
    · have hsettle := Promises.settle_pending (o.map some) hbody
      refine .started k last (hwaits waits) ?_ (.inr ⟨o, hout, ?_⟩)
      · show (Promises.settle _ _ _).jobs = _
        rw [hsettle, Promises.enqueue_jobs, Promises.set_jobs, jobs]
        rfl
      · show (Promises.settle _ _ _).state _ = _
        rw [hsettle]
        exact Promises.set_state
    · rw [hnone] at ho
      cases ho
  | running k last waits jobs unfinished body =>
    obtain rfl : k = s := by omega
    refine .finished k last (hwaits waits) o ?_ hout
    show (Promises.settle _ _ _).jobs = _
    rw [Promises.settle_pending _ body, Promises.enqueue_jobs, Promises.set_jobs, jobs]
    rfl
  | finished k last waits o' jobs body | delivered k last o' jobs body _ _ =>
    obtain rfl : k = s := by omega
    rw [hnone] at body
    cases body

/-! ## What a caller gets -/

theorem InTurn.running_unique (h : c.InTurn) {s s' : Nat} (hs : c.Running s) (hs' : c.Running s') :
    s = s' := by
  have := h.running_last hs
  have := h.running_last hs'
  omega

/-- The promise of a call settles as the call's own body ended. -/
theorem InTurn.outcome_of_settled (h : c.InTurn) {call : Nat} (hcall : call < c.calls)
    {outcome : Except ε (Option ν)} (hsettled : c.promises.state (.run call) = .settled outcome) :
    ∃ o, c.outcome call = some o ∧ outcome = o.map some := by
  have pending : ¬c.Waits call := fun hw => by
    have := hw.run
    rw [hsettled] at this
    cases this
  have own : ∀ {o : Except ε ν}, c.outcome call = some o →
      c.promises.state (.run call) = .settled (o.map some) →
      ∃ o, c.outcome call = some o ∧ outcome = o.map some := fun {o} ho hr => by
    rw [hsettled] at hr
    exact ⟨o, ho, PromiseState.settled.inj hr⟩
  rcases Nat.lt_trichotomy (call + 1) c.started.length with hlt | heq | hgt
  · obtain ⟨o, ho, hr⟩ := h.ended call hlt
    exact own ho hr
  · cases h.frontier with
    | idle _ _ _ ended =>
      obtain ⟨o, ho, hr⟩ := ended call (by omega)
      exact own ho hr
    | started s last waits _ _ | running s last waits _ _ _ | finished s last waits _ _ _ =>
      obtain rfl : s = call := by omega
      exact absurd waits pending
    | delivered s last o _ body run _ =>
      obtain rfl : s = call := by omega
      exact own body run
  · exact absurd (h.waiting call (by omega) hcall) pending

/-- When no job is queued and no body runs, every call has been served. -/
theorem InTurn.quiet (h : c.InTurn) (jobs : c.promises.jobs = []) (quiet : ∀ s, ¬c.Running s) :
    c.started.length = c.calls ∧ ∀ call < c.calls, ∃ o, c.outcome call = some o ∧
      c.promises.state (.run call) = .settled (o.map some) := by
  cases h.frontier with
  | idle outcome _ hjobs ended =>
    have hall : c.started.length = c.calls := by
      have := h.submitted
      by_contra hne
      rw [jobs, waitingFor_of_lt (by omega)] at hjobs
      cases hjobs
    exact ⟨hall, fun call hcall => ended call (by omega)⟩
  | running s last _ _ unfinished _ => exact absurd ⟨by omega, unfinished⟩ (quiet s)
  | started _ _ _ hjobs _ | finished _ _ _ _ hjobs _ | delivered _ _ _ hjobs _ _ _ =>
    rw [jobs] at hjobs
    cases hjobs

end WriteChain

end VigorMcp

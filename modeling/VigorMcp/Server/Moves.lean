import VigorMcp.Server.Runs

/-!
# The server, move by move

A `Move` says which handler goes on, and `Server.move` computes the step that
this is (`step_iff_move`). A list of moves is the schedule of a run, so that two
runs can be compared under one schedule.
-/

namespace VigorMcp

open Prog

/-- A call comes in, starts, makes its next call or ends; or the approver signs. -/
inductive Move where
  | submitWrite (call : WriteCall)
  | startWrite (number : Nat)
  | askWrite (number : Nat)
  | endWrite (number : Nat)
  | submitRead (cmd : CommandDef) (args : Args)
  | askRead (number : Nat)
  | sign (payload : List UInt8)

def Phase.isSettled : Phase → Bool
  | .settled _ => true
  | _ => false

namespace Server

variable (E : Env) (findCommand : JStr → Option CommandDef)

/-- The step a move is, where the server can take it. -/
def move (s : Server) : Move → Option Server
  | .submitWrite call => some { s with writes := s.writes ++ [⟨call, .waiting⟩] }
  | .startWrite k => match s.writes[k]? with
    | some ⟨call, .waiting⟩ =>
      if (s.writes.take k).all fun task => task.phase.isSettled then
        some { s with writes := s.writes.set k ⟨call, .running (call.run findCommand E.gate.ttlMs)⟩ }
      else none
    | _ => none
  | .askWrite k => match s.writes[k]? with
    | some ⟨call, .running (.ask o next)⟩ => some { s with
        world := (answer E o s.world).2
        writes := s.writes.set k ⟨call, .running (next (answer E o s.world).1)⟩
        log := s.log ++ [.write k call s.world (answered E o s.world)] }
    | _ => none
  | .endWrite k => match s.writes[k]? with
    | some ⟨call, .running (.ret body)⟩ =>
      some { s with writes := s.writes.set k ⟨call, .settled (.ok body)⟩ }
    | some ⟨call, .running (.raise e)⟩ =>
      some { s with writes := s.writes.set k ⟨call, .settled (.error e)⟩ }
    | _ => none
  | .submitRead cmd args => some { s with reads := s.reads ++ [readTool cmd args] }
  | .askRead k => match s.reads[k]? with
    | some (.ask o next) => some { s with
        world := (answer E o s.world).2
        reads := s.reads.set k (next (answer E o s.world).1)
        log := s.log ++ [.read k s.world (answered E o s.world)] }
    | _ => none
  | .sign payload => some { s with log := s.log ++ [.signed payload] }

/-- The server that a schedule leads to. -/
def run (s : Server) (moves : List Move) : Option Server := moves.foldlM (move E findCommand) s

variable {E findCommand} {s s' : Server}

theorem all_settled_iff {writes : List WriteTask} {k : Nat} :
    ((writes.take k).all fun task => task.phase.isSettled) = true ↔
      ∀ j task, j < k → writes[j]? = some task → ∃ result, task.phase = .settled result := by
  rw [List.all_eq_true]
  constructor
  · intro h j task hj hget
    have hmem : task ∈ writes.take k :=
      List.mem_of_getElem? ((List.getElem?_take_of_lt hj).trans hget)
    have hsettled := h task hmem
    cases hphase : task.phase with
    | settled result => exact ⟨result, rfl⟩
    | waiting => rw [hphase] at hsettled; cases hsettled
    | running rest => rw [hphase] at hsettled; cases hsettled
  · intro h task hmem
    obtain ⟨j, hj⟩ := List.mem_iff_getElem?.mp hmem
    have hlt : j < k := by
      by_contra hge
      rw [List.getElem?_take_eq_none (Nat.le_of_not_lt hge)] at hj
      cases hj
    obtain ⟨result, hphase⟩ := h j task hlt ((List.getElem?_take_of_lt hlt).symm.trans hj)
    rw [hphase]
    rfl

/-! ## What each move needs -/

theorem move_startWrite {k : Nat} : s.move E findCommand (.startWrite k) = some s' ↔
    ∃ call, s.writes[k]? = some ⟨call, .waiting⟩ ∧
      (∀ j task, j < k → s.writes[j]? = some task → ∃ result, task.phase = .settled result) ∧
      s' = { s with
        writes := s.writes.set k ⟨call, .running (call.run findCommand E.gate.ttlMs)⟩ } := by
  rw [move]
  constructor
  · intro h
    split at h
    · next call hk =>
      split at h
      · next hsettled =>
        cases h
        exact ⟨call, hk, all_settled_iff.mp hsettled, rfl⟩
      · cases h
    · cases h
  · rintro ⟨call, hk, hsettled, rfl⟩
    simp only [hk]
    rw [if_pos (all_settled_iff.mpr hsettled)]

theorem move_askWrite {k : Nat} : s.move E findCommand (.askWrite k) = some s' ↔
    ∃ call o next, s.writes[k]? = some ⟨call, .running (.ask o next)⟩ ∧ s' = { s with
      world := (answer E o s.world).2
      writes := s.writes.set k ⟨call, .running (next (answer E o s.world).1)⟩
      log := s.log ++ [.write k call s.world (answered E o s.world)] } := by
  rw [move]
  constructor
  · intro h
    split at h
    · next call o next hk =>
      cases h
      exact ⟨call, o, next, hk, rfl⟩
    · cases h
  · rintro ⟨call, o, next, hk, rfl⟩
    simp only [hk]

theorem move_endWrite {k : Nat} : s.move E findCommand (.endWrite k) = some s' ↔
    ∃ call result, s.writes[k]? = some ⟨call, .running (Prog.ofExcept result)⟩ ∧
      s' = { s with writes := s.writes.set k ⟨call, .settled result⟩ } := by
  rw [move]
  constructor
  · intro h
    split at h
    · next call body hk =>
      cases h
      exact ⟨call, .ok body, hk, rfl⟩
    · next call e hk =>
      cases h
      exact ⟨call, .error e, hk, rfl⟩
    · cases h
  · rintro ⟨call, result, hk, rfl⟩
    cases result with
    | ok body => simp only [hk, Prog.ofExcept]
    | error e => simp only [hk, Prog.ofExcept]

theorem move_askRead {k : Nat} : s.move E findCommand (.askRead k) = some s' ↔
    ∃ o next, s.reads[k]? = some (.ask o next) ∧ s' = { s with
      world := (answer E o s.world).2
      reads := s.reads.set k (next (answer E o s.world).1)
      log := s.log ++ [.read k s.world (answered E o s.world)] } := by
  rw [move]
  constructor
  · intro h
    split at h
    · next o next hk =>
      cases h
      exact ⟨o, next, hk, rfl⟩
    · cases h
  · rintro ⟨o, next, hk, rfl⟩
    simp only [hk]

/-- **The moves are the steps of the server.** -/
theorem step_iff_move : Step E findCommand s s' ↔ ∃ m, s.move E findCommand m = some s' := by
  constructor
  · intro h
    cases h with
    | submitWrite call => exact ⟨.submitWrite call, rfl⟩
    | startWrite waits turn => exact ⟨.startWrite _, move_startWrite.mpr ⟨_, waits, turn, rfl⟩⟩
    | askWrite runs => exact ⟨.askWrite _, move_askWrite.mpr ⟨_, _, _, runs, rfl⟩⟩
    | endWrite runs => exact ⟨.endWrite _, move_endWrite.mpr ⟨_, _, runs, rfl⟩⟩
    | submitRead cmd args => exact ⟨.submitRead cmd args, rfl⟩
    | askRead runs => exact ⟨.askRead _, move_askRead.mpr ⟨_, _, runs, rfl⟩⟩
    | sign payload => exact ⟨.sign payload, rfl⟩
  · rintro ⟨m, h⟩
    cases m with
    | submitWrite call =>
      cases h
      exact .submitWrite call
    | startWrite k =>
      obtain ⟨call, hk, hsettled, rfl⟩ := move_startWrite.mp h
      exact .startWrite hk hsettled
    | askWrite k =>
      obtain ⟨call, o, next, hk, rfl⟩ := move_askWrite.mp h
      exact .askWrite hk
    | endWrite k =>
      obtain ⟨call, result, hk, rfl⟩ := move_endWrite.mp h
      exact .endWrite hk
    | submitRead cmd args =>
      cases h
      exact .submitRead cmd args
    | askRead k =>
      obtain ⟨o, next, hk, rfl⟩ := move_askRead.mp h
      exact .askRead hk
    | sign payload =>
      cases h
      exact .sign payload

theorem run_concat {moves : List Move} {m : Move} :
    s.run E findCommand (moves ++ [m]) = (s.run E findCommand moves).bind fun s' =>
      s'.move E findCommand m := by
  unfold run
  rw [List.foldlM_append]
  exact congrArg _ (funext fun s' => bind_pure _)

/-- The servers that are reached are those a schedule leads to. -/
theorem reaches_iff_run :
    Reaches E findCommand s ↔ ∃ moves, Server.new.run E findCommand moves = some s := by
  constructor
  · intro h
    induction h with
    | refl => exact ⟨[], rfl⟩
    | tail _ hstep ih =>
      obtain ⟨moves, hrun⟩ := ih
      obtain ⟨m, hm⟩ := step_iff_move.mp hstep
      exact ⟨moves ++ [m], by rw [run_concat, hrun]; exact hm⟩
  · rintro ⟨moves, hrun⟩
    induction moves using List.reverseRecOn generalizing s with
    | nil =>
      cases hrun
      exact .refl
    | append_singleton moves m ih =>
      rw [run_concat] at hrun
      obtain ⟨s₁, hs₁, hm⟩ := Option.bind_eq_some_iff.mp hrun
      exact .tail (ih hs₁) (step_iff_move.mpr ⟨m, hm⟩)

end Server

end VigorMcp

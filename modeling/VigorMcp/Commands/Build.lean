import VigorMcp.Server.Config

/-!
# Registering tools

`registerAllTools` gives the protocol's server every tool that the configuration
shows. What the server does with a name it has already is its own
(`McpServer.refuses`); that it throws is the assumption `RefusesTaken`.
-/

namespace VigorMcp

structure McpServer where
  /-- What `server.tool(name, …)` throws, if it does, by the names that are taken. -/
  refuses : (taken : List JStr) → (name : JStr) → Option Thrown

/-- No two tools get one name. -/
def McpServer.RefusesTaken (mcp : McpServer) : Prop :=
  ∀ taken name, name ∈ taken → (mcp.refuses taken name).isSome = true

structure RegisterOptions where
  readOnly : Bool
  exposeTools : ExposedTools
  disabledTools : List JStr

def isToolEnabled (opts : RegisterOptions) (cmd : CommandDef) : Bool :=
  let exposed := match opts.exposeTools with
    | .all => true
    | .list ids => ids.contains cmd.id
  if !exposed then false
  else if opts.disabledTools.contains cmd.id then false
  else if opts.readOnly && cmd.kind = .write then false
  else true

/-- `registerRead` or `registerWrite`, one tool after the other; `registered` are those before. -/
def registerFrom (mcp : McpServer) (opts : RegisterOptions) (registered : List CommandDef) :
    List CommandDef → Except Thrown (List CommandDef)
  | [] => .ok registered
  | cmd :: rest =>
    if !isToolEnabled opts cmd then registerFrom mcp opts registered rest
    else
      match mcp.refuses (registered.map CommandDef.id) cmd.id with
      | some thrown => .error thrown
      | none => registerFrom mcp opts (registered ++ [cmd]) rest

def registerAllTools (mcp : McpServer) (opts : RegisterOptions) (commands : List CommandDef) :
    Except Thrown (List CommandDef) :=
  registerFrom mcp opts [] commands

variable {mcp : McpServer} {opts : RegisterOptions} {registered commands tools : List CommandDef}

/-- The enabled tools, in the registry's order. -/
theorem registerFrom_eq (h : registerFrom mcp opts registered commands = .ok tools) :
    tools = registered ++ commands.filter (isToolEnabled opts) := by
  induction commands generalizing registered with
  | nil =>
    cases h
    simp
  | cons cmd rest ih =>
    unfold registerFrom at h
    split at h
    · next hoff => rw [ih h, List.filter_cons_of_neg (by simpa using hoff)]
    · next hon =>
      split at h
      · cases h
      · rw [ih h, List.filter_cons_of_pos (by simpa using hon), List.append_assoc]
        rfl

/-- They have names of their own. -/
theorem registerFrom_nodup (taken : mcp.RefusesTaken) (nodup : (registered.map CommandDef.id).Nodup)
    (h : registerFrom mcp opts registered commands = .ok tools) :
    (tools.map CommandDef.id).Nodup := by
  induction commands generalizing registered with
  | nil =>
    cases h
    exact nodup
  | cons cmd rest ih =>
    unfold registerFrom at h
    split at h
    · exact ih nodup h
    · split at h
      · cases h
      · next hfree =>
        refine ih ?_ h
        rw [List.map_append, List.nodup_append]
        refine ⟨nodup, List.nodup_singleton _, fun a ha b hb hab => ?_⟩
        obtain rfl := List.mem_singleton.mp hb
        have hrefuses := taken _ _ (hab ▸ ha)
        rw [hfree] at hrefuses
        cases hrefuses

theorem registerAllTools_eq (h : registerAllTools mcp opts commands = .ok tools) :
    tools = commands.filter (isToolEnabled opts) := registerFrom_eq h

theorem registerAllTools_nodup (taken : mcp.RefusesTaken)
    (h : registerAllTools mcp opts commands = .ok tools) : (tools.map CommandDef.id).Nodup := by
  refine registerFrom_nodup taken ?_ h
  exact List.nodup_nil

theorem isToolEnabled_iff {cmd : CommandDef} : isToolEnabled opts cmd = true ↔
    (∀ ids, opts.exposeTools = .list ids → cmd.id ∈ ids) ∧ cmd.id ∉ opts.disabledTools ∧
      (opts.readOnly = true → cmd.kind = .read) := by
  have hkind : cmd.kind ≠ .write ↔ cmd.kind = .read := by cases cmd.kind <;> simp
  unfold isToolEnabled
  cases opts.exposeTools <;> cases opts.readOnly <;> simp [hkind]

end VigorMcp

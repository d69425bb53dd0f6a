import Collocate.Core.Auth
import Collocate.Daemon.State

/-! # Remote callers (`collocated/src/remote.rs`) -/
namespace Collocate.Daemon
set_option autoImplicit false

def restrictedMessage (caller : Caller) : String :=
  let projects := Text.joinWith ", " caller.projects
  s!"{caller.short} is restricted to projects {projects}"

def forbidUnless {σ : Type} (allowed : Bool) (message : String) : Op σ Bool :=
  if allowed then pure false else Eff.throw (.forbidden message)

/-- Whether the caller may ask for what `access` describes, and if so whether the answer is to be filtered.
`targetProject` looks up the project of a container. -/
def authorize {σ : Type} (caller : Caller) (verb : String) (access : Access)
    (targetProject : String → Op σ (Option String)) : Op σ Bool :=
  if access.scope = .internal then Eff.throw (.forbidden s!"{verb} cannot be called remotely")
  else if caller.role.rank < access.role.rank then
    Eff.throw (.forbidden s!"{caller.short} has the {caller.role.label} role; {verb} needs {access.role.label}")
  else match access.scope with
    | .open | .internal => pure false
    | .project p => forbidUnless (caller.allowsProject p) (restrictedMessage caller)
    | .filtered (some p) => forbidUnless (caller.allowsProject (some p)) (restrictedMessage caller)
    | .filtered none => pure caller.restricted
    | .target t =>
      if caller.restricted then do
        let project ← targetProject t
        forbidUnless (caller.allowsProject project) (restrictedMessage caller)
      else pure false
    | .unrestricted =>
      forbidUnless (!caller.restricted) s!"{restrictedMessage caller}; {verb} needs an unrestricted certificate"

/-- The answer with what is not of the caller's projects left out. -/
def filterResponse (caller : Caller) : Response → Response
  | .containers list => .containers (list.filter fun c => caller.allowsProject c.project)
  | .stats list => .stats (list.filter fun s => caller.allowsProject s.project)
  | .lbs list => .lbs (list.filter fun l => caller.allowsProject (some l.spec.project))
  | .names list =>
    .names (list.filter fun n => (Text.splitOnce '/' n).any fun (p, _) => caller.allowsProject (some p))
  | other => other

end Collocate.Daemon

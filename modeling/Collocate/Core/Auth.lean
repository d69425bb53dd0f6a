import Collocate.Core.Request

/-! # Callers and what they may do (`collocate-core/src/auth.rs`, `request.rs`) -/
namespace Collocate
set_option autoImplicit false

namespace Role

def rank : Role → ℕ
  | .viewer => 0
  | .operator => 1
  | .admin => 2

def label : Role → String
  | .viewer => "viewer"
  | .operator => "operator"
  | .admin => "admin"

end Role

namespace Caller

def restricted (c : Caller) : Bool := !c.projects.isEmpty

def allowsProject (c : Caller) (project : Option String) : Bool :=
  !c.restricted || project.any fun p => c.projects.any fun q => q == p

/-- Fingerprints are hexadecimal, so the first twelve bytes are twelve characters. -/
def short (c : Caller) : String := s!"{c.name} ({String.ofList (c.fingerprint.toList.take 12)})"

end Caller

inductive Scope
  | open
  | project (project : Option String)
  | filtered (project : Option String)
  | target (target : String)
  | unrestricted
  | internal
  deriving DecidableEq, Repr

structure Access where
  role : Role
  scope : Scope
  deriving DecidableEq, Repr

def validProjectName (p : String) : Bool :=
  !p.isEmpty && p.toList.all fun c => Text.isAlphanumeric c || c == '-' || c == '_' || c == '.'

def validProjects : List String → Result Unit
  | [] => .ok ()
  | p :: ps =>
    if validProjectName p then validProjects ps
    else .error (.invalid s!"project name {Text.debugStr p} is not valid")

namespace Request

/-- The name of the variant on the wire. -/
def verb : Request → String
  | .run _ => "run"
  | .start _ => "start"
  | .stop .. => "stop"
  | .restart .. => "restart"
  | .kill .. => "kill"
  | .rm .. => "rm"
  | .wait _ => "wait"
  | .logs .. => "logs"
  | .exec .. => "exec"
  | .execProbe .. => "exec_probe"
  | .commit .. => "commit"
  | .ps .. => "ps"
  | .secretEnsure .. => "secret_ensure"
  | .secretReveal .. => "secret_reveal"
  | .secretSet .. => "secret_set"
  | .secretList _ => "secret_list"
  | .secretRemove .. => "secret_remove"
  | .stats _ => "stats"
  | .lbSet _ => "lb_set"
  | .lbRemove .. => "lb_remove"
  | .lbList => "lb_list"
  | .info => "info"
  | .shutdown => "shutdown"
  | .init .. => "init"
  | .imagePull .. => "image_pull"
  | .imageImport => "image_import"
  | .imageList => "image_list"
  | .imageShow _ => "image_show"
  | .imageDelete _ => "image_delete"
  | .imagePrune => "image_prune"
  | .controllerSet _ => "controller_set"
  | .configPut .. => "config_put"
  | .as .. => "as"
  | .trustTokenCreate .. => "trust_token_create"
  | .trustTokenList => "trust_token_list"
  | .trustTokenRevoke _ => "trust_token_revoke"
  | .trustList => "trust_list"
  | .trustRemove _ => "trust_remove"
  | .trustAddCertificate .. => "trust_add_certificate"
  | .trustEnroll .. => "trust_enroll"
  | .trustLookup _ => "trust_lookup"

def access : Request → Access
  | .info => ⟨.viewer, .open⟩
  | .ps _ project | .stats project => ⟨.viewer, .filtered project⟩
  | .secretList project => ⟨.viewer, .filtered project⟩
  | .lbList => ⟨.viewer, .filtered none⟩
  | .logs target .. | .wait target => ⟨.viewer, .target target⟩
  | .imageList | .imageShow _ => ⟨.viewer, .open⟩
  | .run spec => ⟨.operator, .project spec.labels.project⟩
  | .start target | .stop target _ | .restart target _ | .kill target _ | .rm target .. | .exec target ..
  | .execProbe target .. | .commit target _ => ⟨.operator, .target target⟩
  | .secretEnsure project .. | .secretReveal project _ | .secretSet project .. | .secretRemove project _
  | .lbRemove project _ | .configPut project .. => ⟨.operator, .project (some project)⟩
  | .lbSet lb => ⟨.operator, .project (some lb.project)⟩
  | .imagePull .. | .imageImport => ⟨.operator, .open⟩
  | .imageDelete _ | .imagePrune => ⟨.operator, .unrestricted⟩
  | .init .. | .shutdown | .controllerSet _ | .trustTokenCreate .. | .trustTokenList | .trustTokenRevoke _
  | .trustList | .trustRemove _ | .trustAddCertificate .. => ⟨.admin, .unrestricted⟩
  | .as .. | .trustEnroll .. | .trustLookup _ => ⟨.admin, .internal⟩

end Request
end Collocate

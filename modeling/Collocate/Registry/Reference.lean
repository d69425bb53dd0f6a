import Collocate.Core.Error

/-! # Image references (`collocate-registry/src/reference.rs`)

How `name`, `host/name:tag` and `host/name@digest` are read. -/
namespace Collocate.Registry
set_option autoImplicit false

def defaultRegistry : String := "registry-1.docker.io"

inductive Selector
  | tag (t : String)
  | digest (d : String)
  deriving DecidableEq, Repr

structure Reference where
  registry : String
  repository : String
  selector : Selector
  deriving DecidableEq, Repr

def canonicalRegistry (host : String) : String :=
  match host with
  | "docker.io" | "index.docker.io" => defaultRegistry
  | other => other

def splitRegistry (s : String) : String × String :=
  match Text.splitOnce '/' s with
  | some (first, rest) =>
    if Text.contains first '.' || Text.contains first ':' || first == "localhost" then
      (canonicalRegistry first, rest)
    else (defaultRegistry, s)
  | none => (defaultRegistry, s)

def splitTag (s : String) : String × Option String :=
  match Text.rsplitOnce ':' s with
  | some (repo, tag) => if !Text.contains tag '/' && !tag.isEmpty then (repo, some tag) else (s, none)
  | none => (s, none)

/-- `Reference::parse`; the error is the text of `InvalidReference`. -/
def Reference.parse (s : String) : Except String Reference :=
  if s.isEmpty then .error ("invalid reference " ++ Text.debugStr s)
  else
    let (beforeDigest, digest) := match Text.splitOnce '@' s with
      | some (b, d) => (b, some d)
      | none => (s, none)
    let (registry, rest) := splitRegistry beforeDigest
    let (repo, tag) := splitTag rest
    if repo.isEmpty then .error ("invalid reference " ++ Text.debugStr s)
    else
      let repository :=
        if registry == defaultRegistry && !Text.contains repo '/' then "library/" ++ repo else repo
      let selector := match digest with
        | some d => Selector.digest d
        | none => Selector.tag (tag.getD "latest")
      .ok { registry, repository, selector }

end Collocate.Registry

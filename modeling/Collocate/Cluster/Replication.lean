import Mathlib.Logic.Function.Basic
import Collocate.Secrets.Files
import Collocate.Compose.Up
import Collocate.Cluster.Split

/-! # Secrets of a cluster (`collocate-cluster/src/secrets.rs`)

Before the nodes are brought up one by one, a secret that services on several nodes use is brought from the first of
them to the others. Every `up` then generates the secrets that its node still lacks. -/
namespace Collocate.Cluster
open Compose
set_option autoImplicit false

/-! ## Nodes -/

/-- The secrets of a node, and the texts that its generator is going to give for each. -/
structure Node where
  secrets : Secrets.Files := .empty
  random : String → ℕ → String

abbrev Nodes := String → Node

/-- A node on which a secret has been generated. -/
def Node.generated (node : Node) (name : String) (secrets : Secrets.Files) : Node where
  secrets
  random := Function.update node.random name fun k => node.random name (k + 1)

/-- What the daemon of a node answers to a request about secrets. -/
def answer : Request → Prog Node Response
  | .secretEnsure project name generate length => fun node =>
    match Secrets.ensure project name generate length (node.random name 0) ⟨node.secrets, []⟩ with
    | (.ok true, t) => (.ok .ok, node.generated name t.it)
    | (.ok false, t) => (.ok .ok, { node with secrets := t.it })
    | (.error e, t) => (.error e, { node with secrets := t.it })
  | .secretReveal project name => fun node =>
    match Secrets.reveal project name ⟨node.secrets, []⟩ with
    | (.ok text, t) => (.ok (.text text), { node with secrets := t.it })
    | (.error e, t) => (.error e, { node with secrets := t.it })
  | .secretSet project name value => fun node =>
    match Secrets.set project name value ⟨node.secrets, []⟩ with
    | (.ok _, t) => (.ok .ok, { node with secrets := t.it })
    | (.error e, t) => (.error e, { node with secrets := t.it })
  | _ => Eff.throw (.internal "not a request about secrets")

/-- One node of the cluster, for a client that reads its files from `files`. -/
def nodeHost (files : String → Result String) (node : String) : Host Nodes where
  call r := Eff.zoom (fun c => c node) (fun n c => Function.update c node n) (answer r)
  readToString path := Eff.lift (files path)
  newId := pure 0
  now := pure 0

/-! ## Replication -/

def secretOf : Reference → Option String
  | .secret name => some name
  | _ => none

def secretsUsedBy (s : Service) : List String :=
  sortedSet (s.secrets ++ (texts s).flatMap fun text => (referencesOr text).filterMap secretOf)

/-- The nodes with services that use a secret. -/
def nodesUsing (f : ComposeFile) (name : String) : List String :=
  sortedSet (f.services.entries.filterMap fun e => if name ∈ secretsUsedBy e.2 then nodeOf f e.1 else none)

def perNode (f : ComposeFile) (name : String) : Bool := ((f.secrets.get? name).map fun d => d.perNode).getD false

def crossNodeSecrets (f : ComposeFile) : List (String × List String) :=
  ((sortedSet (f.services.entries.flatMap fun e => secretsUsedBy e.2)).map fun name => (name, nodesUsing f name)).filter
    fun e => decide (1 < e.2.length) && !perNode f e.1

section Replicate
variable (x : Extern) (files : String → Result String)

/-- The connection to a node, where there is one. -/
def connection (connected : List String) (node : String) : Prog Nodes (Host Nodes) :=
  if node ∈ connected then pure (nodeHost files node) else Eff.throw (.internal s!"no connection to node {node}")

def copySecret (connected : List String) (project name value : String) (node : String) : Prog Nodes Unit := do
  let api ← connection files connected node
  let current ← currentSecret api project name
  if current ≠ some value then
    let _ ← api.call (.secretSet project name value)

/-- The value of a secret on its owner, which generates it first if it has none. -/
def ownerValue (api : Host Nodes) (project name : String) (sec : SecretDef) : Prog Nodes String := do
  match sec.generate with
  | some gen => let _ ← api.call (.secretEnsure project name gen (sec.length.getD 24))
  | none => pure ()
  match ← api.call (.secretReveal project name) with
  | .text value => pure value
  | other => unexpected x other

def replicateSecret (f : ComposeFile) (connected : List String) (name : String) (nodes : List String) :
    Prog Nodes Unit :=
  match f.secrets.get? name, nodes with
  | some sec, owner :: _ => do
    let api ← connection files connected owner
    let value ← ownerValue x api f.project name sec
    (nodes.filter (· ≠ owner)).forM (copySecret files connected f.project name value)
  | _, _ => pure ()

def replicateSecrets (f : ComposeFile) (connected : List String) : Prog Nodes Unit :=
  (crossNodeSecrets f).forM fun e => replicateSecret x files f connected e.1 e.2

/-! ## Bringing up -/

/-- The options of `up` on a node. -/
def upOptions (baseDir subnet : String) : UpOptions := { subnet, baseDir }

/-- What `up` does about secrets, on the node of a part. -/
def upSecrets (baseDir : String) (subnets : String → String) (part : String × ComposeFile) : Prog Nodes Unit := do
  let _ ← ensureSecrets x (nodeHost files part.1) part.2 (upOptions baseDir (subnets part.1))

/-- What bringing a cluster up does about secrets: they are replicated, and every node sees to its own. -/
def provideSecrets (baseDir : String) (subnets : String → String) (f : ComposeFile) : Prog Nodes Unit := do
  replicateSecrets x files f ((split f).map Prod.fst)
  (split f).forM (upSecrets x files baseDir subnets)

end Replicate

/-! ## Consumers -/

/-- The texts of a service that are resolved on its node. -/
def resolvedTexts (f : ComposeFile) (s : Service) : List String :=
  texts s ++ (s.healthcheck.bind fun h => h.exec).getD [] ++
    s.configs.keys.filterMap fun config => (f.configs.get? config).map fun c => c.template

/-- The service needs the value of the secret. -/
def Consumes (f : ComposeFile) (s : Service) (name : String) : Prop :=
  name ∈ s.secrets ∨ ∃ text ∈ resolvedTexts f s, Reference.secret name ∈ referencesOr text

def ConsumedOn (f : ComposeFile) (name node : String) : Prop :=
  ∃ service s, f.services.get? service = some s ∧ nodeOf f service = some node ∧ Consumes f s name

/-- What a node reveals. -/
def Node.Holds (node : Node) (project name value : String) : Prop :=
  (Secrets.reveal project name ⟨node.secrets, []⟩).1 = .ok value

/-- The nodes that need a secret have one value for it, unless it is one of each node. -/
def SecretsAgree (f : ComposeFile) (c : Nodes) : Prop :=
  ∀ name sec, f.secrets.get? name = some sec → sec.perNode = false →
    ∃ value, ∀ node, ConsumedOn f name node → (c node).Holds f.project name value

/-! ## What requests do to a node -/

section Node
variable {project name value : String} {s s' : Node}

def Node.get? (s : Node) (project name : String) : Option String := Secrets.content s.secrets project name

/-- A secret has been written. Its temporary file is gone, and so is a secret by that name. -/
structure Node.Wrote (project name value : String) (s s' : Node) : Prop where
  valid : Secrets.valid name = true
  get? : ∀ x, Secrets.valid x = true → s'.get? project x =
    if x = Secrets.withExtension name "tmp" then none else if x = name then some value else s.get? project x
  random : ∀ x, x ≠ name → s'.random x = s.random x

theorem holds_iff (hp : Secrets.valid project = true) (hn : Secrets.valid name = true) :
    s.Holds project name value ↔ s.get? project name = some value := by
  unfold Node.Holds Node.get?
  rw [Secrets.reveal_eq hp hn]
  cases Secrets.content s.secrets project name with
  | none => exact iff_of_false (fun h => by cases h) fun h => by cases h
  | some v => exact ⟨fun h => congrArg some (Except.ok.inj h), fun h => congrArg Except.ok (Option.some.inj h)⟩

theorem checkPath_of_ok {α : Type} {m : Unit → Secrets.Op α} {F : Secrets.Files} {a : α} {t : Faulty Secrets.Files}
    (h : (Eff.lift (Secrets.checkPath project name) >>= m) ⟨F, []⟩ = (.ok a, t)) :
    Secrets.valid project = true ∧ Secrets.valid name = true := by
  obtain ⟨u, hcheck, -⟩ := Eff.lift_bind_ok h
  unfold Secrets.checkPath at hcheck
  cases hp : Secrets.valid project with
  | false =>
    rw [hp] at hcheck
    cases hcheck
  | true =>
    cases hn : Secrets.valid name with
    | false =>
      rw [hp, hn] at hcheck
      cases hcheck
    | true => exact ⟨rfl, rfl⟩

theorem answer_reveal_ok {r : Response} (h : answer (.secretReveal project name) s = (.ok r, s')) :
    Secrets.valid project = true ∧ Secrets.valid name = true ∧ s' = s ∧ ∃ v, r = .text v ∧
      s.get? project name = some v := by
  unfold answer at h
  dsimp only at h
  rcases hr : Secrets.reveal project name ⟨s.secrets, []⟩ with ⟨e | text, t⟩
  · rw [hr] at h
    cases h
  · obtain ⟨hp, hn⟩ := checkPath_of_ok hr
    have hreveal := Secrets.reveal_eq (F := s.secrets) hp hn
    rw [hr] at hreveal h
    cases hc : Secrets.content s.secrets project name with
    | none =>
      rw [hc] at hreveal
      cases hreveal
    | some v =>
      rw [hc] at hreveal
      cases hreveal
      cases h
      exact ⟨hp, hn, rfl, text, rfl, hc⟩

theorem answer_reveal_state : (answer (.secretReveal project name) s).2 = s := by
  unfold answer Secrets.reveal
  dsimp only
  cases hcheck : Secrets.checkPath project name with
  | error e => rfl
  | ok u =>
    rw [Eff.lift_ok_bind, Eff.bind_of_ok (Faulty.look_nil _ _ _)]
    cases Secrets.content s.secrets project name <;> rfl

/-- A reveal that finds nothing says so. -/
theorem answer_reveal_missing {text : String}
    (h : (answer (.secretReveal project name) s).1 = .error (.notFound text)) :
    Secrets.valid project = true ∧ Secrets.valid name = true ∧ s.get? project name = none := by
  unfold answer Secrets.reveal at h
  dsimp only at h
  unfold Secrets.checkPath at h
  cases hp : Secrets.valid project with
  | false =>
    rw [hp] at h
    cases h
  | true =>
    cases hn : Secrets.valid name with
    | false =>
      rw [hp, hn] at h
      cases h
    | true =>
      rw [hp, hn] at h
      simp only [Bool.not_true, Bool.or_self, Bool.false_eq_true, if_false] at h
      rw [Eff.lift_ok_bind, Eff.bind_of_ok (Faulty.look_nil _ _ _)] at h
      refine ⟨rfl, rfl, ?_⟩
      unfold Node.get?
      cases hc : Secrets.content s.secrets project name with
      | none => rfl
      | some v =>
        rw [hc] at h
        cases h

theorem answer_set_ok {r : Response} (h : answer (.secretSet project name value) s = (.ok r, s')) :
    Secrets.valid project = true ∧ Secrets.valid name = true ∧ s.Wrote project name value s' := by
  unfold answer at h
  dsimp only at h
  rcases hr : Secrets.set project name value ⟨s.secrets, []⟩ with ⟨e | u, t⟩
  · rw [hr] at h
    cases h
  · obtain ⟨hp, hn⟩ := checkPath_of_ok hr
    obtain ⟨F', hwrite, hcontent⟩ := @Secrets.writeValue_eq s.secrets project name value hp hn
    have ht : t = ⟨F', []⟩ := congrArg Prod.snd (hr.symm.trans hwrite)
    rw [hr, ht] at h
    cases h
    refine ⟨hp, hn, hn, ?_, fun x _ => rfl⟩
    intro x hx
    show Secrets.content F' project x = _
    rw [hcontent, if_pos rfl, if_neg (Secrets.valid_ne_meta hx)]
    rfl

theorem answer_ensure_ok {generate : String} {length : ℕ} {r : Response}
    (h : answer (.secretEnsure project name generate length) s = (.ok r, s')) :
    Secrets.valid project = true ∧ Secrets.valid name = true ∧
      ((s' = s ∧ (s.get? project name).isSome = true) ∨
        s.get? project name = none ∧ s.Wrote project name (s.random name 0) s') := by
  unfold answer at h
  dsimp only at h
  rcases hr : Secrets.ensure project name generate length (s.random name 0) ⟨s.secrets, []⟩ with ⟨e | created, t⟩
  · rw [hr] at h
    cases h
  · obtain ⟨hp, hn⟩ := checkPath_of_ok hr
    refine ⟨hp, hn, ?_⟩
    have hensure := hr
    unfold Secrets.ensure at hensure
    rw [Secrets.checkPath_ok hp hn, Eff.lift_ok_bind, Eff.bind_of_ok (Eff.attempt_of (Faulty.look_nil _ _ _)),
      Secrets.orElse] at hensure
    cases hc : Secrets.content s.secrets project name with
    | some text =>
      rw [hc, Option.isSome_some, if_pos rfl] at hensure
      cases hensure
      rw [hr] at h
      cases h
      exact Or.inl ⟨rfl, by rw [Node.get?, hc]; rfl⟩
    | none =>
      rw [hc, Option.isSome_none, if_neg Bool.false_ne_true] at hensure
      refine Or.inr ⟨hc, ?_⟩
      split at hensure
      · cases hensure
      · split at hensure
        · rw [Eff.bind_of_ok (Faulty.change_nil _ _ _), id] at hensure
          obtain ⟨F', hwrite, hcontent⟩ := @Secrets.writeValue_eq s.secrets project name (s.random name 0) hp hn
          rw [Eff.bind_of_ok hwrite] at hensure
          cases hensure
          rw [hr] at h
          cases h
          refine ⟨hn, ?_, fun x hx => Function.update_of_ne hx _ _⟩
          intro x hx
          show Secrets.content F' project x = _
          rw [hcontent, if_pos rfl, if_neg (Secrets.valid_ne_meta hx)]
          rfl
        · cases hensure

end Node

/-! ## What `up` does to a node -/

section Up
variable {x : Extern} {files : String → Result String} {node project name : String} {c c' : Nodes}

theorem call_ok {r : Request} {a : Response} (h : (nodeHost files node).call r c = (.ok a, c')) :
    ∃ s', answer r (c node) = (.ok a, s') ∧ c' = Function.update c node s' := by
  have hresult : (answer r (c node)).1 = .ok a := congrArg Prod.fst h
  have hstate : Function.update c node (answer r (c node)).2 = c' := congrArg Prod.snd h
  exact ⟨(answer r (c node)).2, Prod.ext hresult rfl, hstate.symm⟩

theorem currentSecret_ok {current : Option String}
    (h : currentSecret (nodeHost files node) project name c = (.ok current, c')) :
    c' = c ∧ Secrets.valid project = true ∧ Secrets.valid name = true ∧ current = (c node).get? project name := by
  have hcall : (nodeHost files node).call (.secretReveal project name) c =
    ((answer (.secretReveal project name) (c node)).1, c) := by
    show ((answer (.secretReveal project name) (c node)).1, Function.update c node _) = _
    rw [answer_reveal_state, Function.update_eq_self]
  unfold currentSecret at h
  rw [Eff.bind_of_ok (Eff.attempt_of hcall)] at h
  rcases hr : answer (.secretReveal project name) (c node) with ⟨e | r, s'⟩
  · rw [hr] at h
    have hmissing : ∃ text, e = .notFound text ∧ current = none ∧ c' = c := by
      cases e with
      | notFound text =>
        cases h
        exact ⟨text, rfl, rfl, rfl⟩
      | _ => cases h
    obtain ⟨text, rfl, rfl, rfl⟩ := hmissing
    obtain ⟨hp, hn, hnone⟩ := answer_reveal_missing (congrArg Prod.fst hr)
    exact ⟨rfl, hp, hn, hnone.symm⟩
  · obtain ⟨hp, hn, -, v, rfl, hv⟩ := answer_reveal_ok hr
    rw [hr] at h
    cases h
    exact ⟨rfl, hp, hn, hv.symm⟩

/-- The content of a secret's file. -/
def fileValue (files : String → Result String) (baseDir name : String) (sec : SecretDef) : Result String :=
  match sec.file with
  | none => .error (.invalidSpec s!"secret {name} has neither generate nor file")
  | some path => (files (joinPath baseDir path)).map (Text.trimEndMatches fun c => c == '\n' || c == '\r')

theorem secretValueFromFile_eq (baseDir subnet : String) (sec : SecretDef) :
    secretValueFromFile (nodeHost files node) name sec (upOptions baseDir subnet) =
      Eff.lift (fileValue files baseDir name sec) := by
  unfold secretValueFromFile fileValue
  cases sec.file with
  | none => rfl
  | some path =>
    show (Eff.lift (files (joinPath baseDir path)) >>= _) = _
    show (Eff.lift (files (joinPath baseDir path)) >>= _ : Prog Nodes String) =
      Eff.lift ((files (joinPath baseDir path)).map _)
    cases files (joinPath baseDir path) <;> rfl

/-- The node has what `up` sees to: a secret that is generated, or the content of the secret's file. -/
def Provided (files : String → Result String) (baseDir project name : String) (sec : SecretDef) (s : Node) : Prop :=
  match sec.generate with
  | some _ => (s.get? project name).isSome = true
  | none => ∃ v, fileValue files baseDir name sec = .ok v ∧ s.get? project name = some v

/-- What `up` writes otherwise. -/
def Wants (files : String → Result String) (baseDir name : String) (sec : SecretDef) (s : Node) (value : String) :
    Prop :=
  match sec.generate with
  | some _ => value = s.random name 0
  | none => fileValue files baseDir name sec = .ok value

/-- What `up` has done about a secret. -/
structure Ensured (files : String → Result String) (baseDir project name : String) (sec : SecretDef) (s s' : Node) :
    Prop where
  references : Secrets.valid project = true ∧ Secrets.valid name = true
  there : ∃ v, s'.get? project name = some v
  change : (s' = s ∧ Provided files baseDir project name sec s) ∨
    ¬Provided files baseDir project name sec s ∧ ∃ v, Wants files baseDir name sec s v ∧ s.Wrote project name v s'

theorem provideSecret_ok {baseDir subnet : String} {sec : SecretDef} {u : Unit}
    (h : provideSecret (nodeHost files node) project name sec (upOptions baseDir subnet) c = (.ok u, c')) :
    ∃ s', c' = Function.update c node s' ∧ ((s' = c node ∧ Provided files baseDir project name sec (c node)) ∨
      ¬Provided files baseDir project name sec (c node) ∧
        ∃ v, Wants files baseDir name sec (c node) v ∧ (c node).Wrote project name v s') := by
  unfold provideSecret at h
  unfold Provided Wants
  cases hgenerate : sec.generate with
  | some gen =>
    rw [hgenerate] at h
    obtain ⟨r, c₁, hcall, h⟩ := Eff.bind_ok h
    cases h
    obtain ⟨s', hanswer, rfl⟩ := call_ok hcall
    refine ⟨s', rfl, ?_⟩
    obtain ⟨-, -, hkept | hmade⟩ := answer_ensure_ok hanswer
    · exact Or.inl hkept
    · obtain ⟨hnone, hwrote⟩ := hmade
      exact Or.inr ⟨by simp [hnone], _, rfl, hwrote⟩
  | none =>
    rw [hgenerate] at h
    dsimp only at h ⊢
    rw [secretValueFromFile_eq] at h
    obtain ⟨v, hvalue, h⟩ := Eff.lift_bind_ok h
    obtain ⟨current, c₁, hcurrent, h⟩ := Eff.bind_ok h
    obtain ⟨hc, -, -, rfl⟩ := currentSecret_ok hcurrent
    subst hc
    by_cases hsame : (c₁ node).get? project name = some v
    · rw [if_neg (not_not.mpr hsame)] at h
      cases h
      exact ⟨_, (Function.update_eq_self ..).symm, Or.inl ⟨rfl, v, hvalue, hsame⟩⟩
    · rw [if_pos hsame] at h
      obtain ⟨r, c₂, hcall, h⟩ := Eff.bind_ok h
      cases h
      obtain ⟨s', hanswer, rfl⟩ := call_ok hcall
      obtain ⟨-, -, hwrote⟩ := answer_set_ok hanswer
      refine ⟨s', rfl, Or.inr ⟨?_, v, hvalue, hwrote⟩⟩
      intro hprovided
      obtain ⟨v', hvalue', hheld⟩ := hprovided
      obtain rfl := Except.ok.inj (hvalue.symm.trans hvalue')
      exact hsame hheld

theorem ensureSecret_ok {f : ComposeFile} {baseDir subnet : String} {sec : SecretDef} {e : String × String}
    (h : ensureSecret x (nodeHost files node) f (upOptions baseDir subnet) name sec c = (.ok e, c')) :
    ∃ s', c' = Function.update c node s' ∧ Ensured files baseDir f.project name sec (c node) s' := by
  unfold ensureSecret at h
  have hnone : name ∉ regenerated f (upOptions baseDir subnet) := List.not_mem_nil
  rw [if_neg hnone] at h
  obtain ⟨u, c₂, hprovide, h⟩ := Eff.bind_ok h
  obtain ⟨s', rfl, hchange⟩ := provideSecret_ok hprovide
  obtain ⟨r, c₃, hcall, h⟩ := Eff.bind_ok h
  obtain ⟨s₃, hanswer, rfl⟩ := call_ok hcall
  rw [Function.update_self] at hanswer
  obtain ⟨hp, hn, rfl, v, rfl, hv⟩ := answer_reveal_ok hanswer
  cases h
  exact ⟨s₃, Function.update_idem .., ⟨hp, hn⟩, ⟨v, hv⟩, hchange⟩

/-- What `up` has done about the secrets of a file, one after the other. -/
inductive Ups (files : String → Result String) (baseDir project : String) :
    List (String × SecretDef) → Node → Node → Prop
  | nil (s : Node) : Ups files baseDir project [] s s
  | cons {e : String × SecretDef} {l : List (String × SecretDef)} {s s₁ s' : Node}
      (first : Ensured files baseDir project e.1 e.2 s s₁) (rest : Ups files baseDir project l s₁ s') :
      Ups files baseDir project (e :: l) s s'

theorem ensureSecrets_ok {f : ComposeFile} {baseDir subnet : String} {values : List (String × String)}
    (h : ensureSecrets x (nodeHost files node) f (upOptions baseDir subnet) c = (.ok values, c')) :
    ∃ s', c' = Function.update c node s' ∧ Ups files baseDir f.project f.secrets.entries (c node) s' := by
  have hdry : ¬(upOptions baseDir subnet).dryRun = true := Bool.false_ne_true
  unfold ensureSecrets at h
  rw [if_neg hdry] at h
  generalize f.secrets.entries = l at h ⊢
  induction l generalizing c values with
  | nil =>
    cases h
    exact ⟨_, (Function.update_eq_self ..).symm, .nil _⟩
  | cons e l ih =>
    obtain ⟨first, c₁, hfirst, h⟩ := Eff.bind_ok h
    obtain ⟨rest, c₂, hrest, h⟩ := Eff.bind_ok h
    cases h
    obtain ⟨s₁, rfl, hensured⟩ := ensureSecret_ok hfirst
    obtain ⟨s', rfl, hups⟩ := ih hrest
    rw [Function.update_self] at hups
    exact ⟨s', Function.update_idem .., .cons hensured hups⟩

end Up

/-! ## What replication does to the nodes -/

section Replicating
variable {x : Extern} {files : String → Result String} {connected : List String} {project name value node : String}
  {c c' : Nodes}

theorem connection_ok {api : Host Nodes} (h : connection files connected node c = (.ok api, c')) :
    api = nodeHost files node ∧ c' = c := by
  unfold connection at h
  split at h
  · cases h
    exact ⟨rfl, rfl⟩
  · cases h

/-- The node has the value, or it has been written there. -/
def Copied (project name value : String) (s s' : Node) : Prop :=
  (s' = s ∧ s.get? project name = some value) ∨ s.Wrote project name value s'

theorem copySecret_ok {u : Unit} (h : copySecret files connected project name value node c = (.ok u, c')) :
    ∃ s', c' = Function.update c node s' ∧ Copied project name value (c node) s' := by
  unfold copySecret at h
  obtain ⟨api, c₁, hconnection, hrest⟩ := Eff.bind_ok h
  obtain ⟨rfl, rfl⟩ := connection_ok hconnection
  obtain ⟨current, c₂, hcurrent, hset⟩ := Eff.bind_ok hrest
  obtain ⟨hc, -, -, rfl⟩ := currentSecret_ok hcurrent
  subst hc
  split at hset
  · obtain ⟨r, c₃, hcall, hpure⟩ := Eff.bind_ok hset
    obtain ⟨s', hanswer, rfl⟩ := call_ok hcall
    cases hpure
    exact ⟨s', rfl, Or.inr (answer_set_ok hanswer).2.2⟩
  · rename_i hsame
    cases hset
    exact ⟨_, (Function.update_eq_self ..).symm, Or.inl ⟨rfl, not_not.mp hsame⟩⟩

theorem copies_ok {nodes : List String} (hnodup : nodes.Nodup)
    (h : nodes.forM (copySecret files connected project name value) c = (.ok (), c')) :
    (∀ n, n ∉ nodes → c' n = c n) ∧ ∀ n ∈ nodes, Copied project name value (c n) (c' n) := by
  induction nodes generalizing c with
  | nil =>
    cases h
    exact ⟨fun n _ => rfl, fun n hn => absurd hn List.not_mem_nil⟩
  | cons first nodes ih =>
    obtain ⟨u, c₁, hfirst, h⟩ := Eff.bind_ok h
    obtain ⟨s', rfl, hcopied⟩ := copySecret_ok hfirst
    obtain ⟨hnot, hnodup⟩ := List.nodup_cons.mp hnodup
    obtain ⟨houtside, hinside⟩ := ih hnodup h
    have hother : ∀ n, n ≠ first → Function.update c first s' n = c n := fun n hn => Function.update_of_ne hn _ _
    constructor
    · intro n hn
      rw [List.mem_cons, not_or] at hn
      rw [houtside n hn.2, hother n hn.1]
    · intro n hn
      by_cases heq : n = first
      · subst heq
        rw [houtside n hnot, Function.update_self]
        exact hcopied
      · have hmem := (List.mem_cons.mp hn).resolve_left heq
        have hcopied := hinside n hmem
        rw [hother n heq] at hcopied
        exact hcopied

/-- The node has had a value, or has generated it. -/
def Made (project name : String) (generates : Bool) (value : String) (s s' : Node) : Prop :=
  s'.get? project name = some value ∧
    (s' = s ∨ generates = true ∧ s.get? project name = none ∧ s.Wrote project name (s.random name 0) s')

theorem ownerValue_ok {sec : SecretDef} (h : ownerValue x (nodeHost files node) project name sec c = (.ok value, c')) :
    ∃ s', c' = Function.update c node s' ∧ Made project name sec.generate.isSome value (c node) s' := by
  have hreveal : ∀ {c : Nodes}, (do
      match ← (nodeHost files node).call (.secretReveal project name) with
      | .text value => pure value
      | other => unexpected x other : Prog Nodes String) c = (.ok value, c') →
      c' = c ∧ (c node).get? project name = some value := by
    intro c hrest
    obtain ⟨r, c₁, hcall, hpure⟩ := Eff.bind_ok hrest
    obtain ⟨s', hanswer, rfl⟩ := call_ok hcall
    obtain ⟨-, -, rfl, v, rfl, hv⟩ := answer_reveal_ok hanswer
    cases hpure
    exact ⟨Function.update_eq_self .., hv⟩
  unfold ownerValue at h
  cases hgenerate : sec.generate with
  | none =>
    rw [hgenerate] at h
    obtain ⟨rfl, hv⟩ := hreveal h
    exact ⟨_, (Function.update_eq_self ..).symm, hv, Or.inl rfl⟩
  | some gen =>
    rw [hgenerate] at h
    obtain ⟨r, c₁, hcall, hrest⟩ := Eff.bind_ok h
    obtain ⟨s', hanswer, rfl⟩ := call_ok hcall
    obtain ⟨rfl, hv⟩ := hreveal hrest
    rw [Function.update_self] at hv
    obtain ⟨-, -, hkept | hmade⟩ := answer_ensure_ok hanswer
    · exact ⟨s', rfl, hv, Or.inl hkept.1⟩
    · exact ⟨s', rfl, hv, Or.inr ⟨rfl, hmade⟩⟩

/-- What replication has done about a secret. -/
structure Replicated (project name : String) (generates : Bool) (owner : String) (others : List String) (value : String)
    (c c' : Nodes) : Prop where
  outside : ∀ n, n ∉ owner :: others → c' n = c n
  source : Made project name generates value (c owner) (c' owner)
  copies : ∀ n ∈ owner :: others, n ≠ owner → Copied project name value (c n) (c' n)

theorem replicateSecret_ok {f : ComposeFile} {sec : SecretDef} {owner : String} {others : List String}
    (hsec : f.secrets.get? name = some sec) (hnodup : (owner :: others).Nodup)
    (h : replicateSecret x files f connected name (owner :: others) c = (.ok (), c')) :
    ∃ v, Replicated f.project name sec.generate.isSome owner others v c c' := by
  unfold replicateSecret at h
  rw [hsec] at h
  dsimp only at h
  obtain ⟨api, c₁, hconnection, hrest⟩ := Eff.bind_ok h
  obtain ⟨rfl, rfl⟩ := connection_ok hconnection
  obtain ⟨v, c₂, hvalue, hcopies⟩ := Eff.bind_ok hrest
  obtain ⟨s', rfl, hmade⟩ := ownerValue_ok hvalue
  obtain ⟨houtside, hinside⟩ := copies_ok (hnodup.filter _) hcopies
  have hother : ∀ n, n ≠ owner → Function.update c₁ owner s' n = c₁ n := fun n hn => Function.update_of_ne hn _ _
  refine ⟨v, ?_, ?_, ?_⟩
  · intro n hn
    have hne : n ≠ owner := fun heq => hn (heq ▸ List.mem_cons_self ..)
    rw [houtside n fun hin => hn (List.mem_of_mem_filter hin), hother n hne]
  · rw [houtside owner (by simp), Function.update_self]
    exact hmade
  · intro n hn hne
    have hcopied := hinside n (List.mem_filter.mpr ⟨hn, by simpa using hne⟩)
    rw [hother n hne] at hcopied
    exact hcopied

/-- What replication has done about the secrets, one after the other. -/
inductive Replicates (f : ComposeFile) : List (String × List String) → Nodes → Nodes → Prop
  | nil (c : Nodes) : Replicates f [] c c
  | skip {e : String × List String} {l : List (String × List String)} {c c' : Nodes}
    (none : f.secrets.get? e.1 = none ∨ e.2 = []) (rest : Replicates f l c c') : Replicates f (e :: l) c c'
  | cons {name owner value : String} {others : List String} {sec : SecretDef} {l : List (String × List String)}
    {c c₁ c' : Nodes} (declared : f.secrets.get? name = some sec)
    (first : Replicated f.project name sec.generate.isSome owner others value c c₁) (rest : Replicates f l c₁ c') :
    Replicates f ((name, owner :: others) :: l) c c'

theorem replicates_of_ok {f : ComposeFile} {l : List (String × List String)} (hnodup : ∀ e ∈ l, e.2.Nodup)
    (h : l.forM (fun e => replicateSecret x files f connected e.1 e.2) c = (.ok (), c')) : Replicates f l c c' := by
  induction l generalizing c with
  | nil =>
    cases h
    exact .nil _
  | cons e l ih =>
    obtain ⟨u, c₁, hfirst, hrest⟩ := Eff.bind_ok h
    have hrest := ih (fun e he => hnodup e (List.mem_cons_of_mem _ he)) hrest
    have hnodup := hnodup e (List.mem_cons_self ..)
    obtain ⟨name, nodes⟩ := e
    have hfirst : replicateSecret x files f connected name nodes c = (.ok u, c₁) := hfirst
    cases hsec : f.secrets.get? name with
    | none =>
      unfold replicateSecret at hfirst
      rw [hsec] at hfirst
      cases hfirst
      exact .skip (Or.inl hsec) hrest
    | some sec =>
      cases nodes with
      | nil =>
        unfold replicateSecret at hfirst
        rw [hsec] at hfirst
        cases hfirst
        exact .skip (Or.inr rfl) hrest
      | cons owner others =>
        obtain ⟨v, hreplicated⟩ := replicateSecret_ok hsec hnodup hfirst
        exact .cons hsec hreplicated hrest

/-- Every node goes through what `up` does there. -/
theorem ups_of_ok {baseDir : String} {subnets : String → String} {f : ComposeFile} {parts : List (String × ComposeFile)}
    (hparts : ∀ part ∈ parts, part.2.project = f.project ∧ part.2.secrets = f.secrets)
    (hnodup : (parts.map Prod.fst).Nodup) (h : parts.forM (upSecrets x files baseDir subnets) c = (.ok (), c')) :
    ∀ n ∈ parts.map Prod.fst, Ups files baseDir f.project f.secrets.entries (c n) (c' n) := by
  suffices hall : (∀ n, n ∉ parts.map Prod.fst → c' n = c n) ∧
      ∀ n ∈ parts.map Prod.fst, Ups files baseDir f.project f.secrets.entries (c n) (c' n) from hall.2
  induction parts generalizing c with
  | nil =>
    cases h
    exact ⟨fun n _ => rfl, fun n hn => absurd hn List.not_mem_nil⟩
  | cons part parts ih =>
    obtain ⟨u, c₁, hfirst, hrest⟩ := Eff.bind_ok h
    obtain ⟨values, c₂, hensure, hpure⟩ := Eff.bind_ok hfirst
    cases hpure
    obtain ⟨s', rfl, hups⟩ := ensureSecrets_ok hensure
    obtain ⟨hproject, hsecrets⟩ := hparts part (List.mem_cons_self ..)
    rw [hproject, hsecrets] at hups
    rw [List.map_cons] at hnodup ⊢
    obtain ⟨hnot, hnodup⟩ := List.nodup_cons.mp hnodup
    obtain ⟨houtside, hinside⟩ := ih (fun p hp => hparts p (List.mem_cons_of_mem _ hp)) hnodup hrest
    have hother : ∀ n, n ≠ part.1 → Function.update c part.1 s' n = c n := fun n hn => Function.update_of_ne hn _ _
    constructor
    · intro n hn
      rw [List.mem_cons, not_or] at hn
      rw [houtside n hn.2, hother n hn.1]
    · intro n hn
      by_cases heq : n = part.1
      · subst heq
        rw [houtside _ hnot, Function.update_self]
        exact hups
      · have hups := hinside n ((List.mem_cons.mp hn).resolve_left heq)
        rw [hother n heq] at hups
        exact hups

end Replicating
end Collocate.Cluster

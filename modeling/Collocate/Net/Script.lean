import Collocate.Lib.Lexing
import Collocate.Net.Ruleset

/-! # The rules of the firewall script

The script that `render` writes is a fixed frame around the rules of four chains, and each rule says what
is done with the connections that come in at one entry. -/
namespace Collocate
set_option autoImplicit false
open Lexing

/-! ## Rules -/

/-- Where a connection comes in. -/
inductive Entry
  | vip (addr : Ipv4Addr) (port : UInt16)
  | host (port : UInt16)
  deriving DecidableEq, Repr

/-- What is done with it; `balance` picks a key below the modulus and looks it up in the map. -/
inductive Treatment
  | forward (addr : Ipv4Addr) (port : UInt16)
  | balance (algorithm : Algorithm) (modulus : ℕ) (map : List (ℕ × Ipv4Addr × UInt16))
  | stop (policy : NoBackends)
  deriving DecidableEq, Repr

/-- A rule for one entry; a `foreign` one is not for what comes from the containers. -/
structure Rule where
  foreign : Bool
  entry : Entry
  proto : Proto
  treatment : Treatment
  tag : String
  deriving DecidableEq, Repr

/-- What goes from the containers to one of the addresses is given the bridge's address. -/
structure Masquerade where
  addrs : List Ipv4Addr
  tag : String
  deriving DecidableEq, Repr

namespace Ruleset

def forwarded (foreign : Bool) (c : ContainerPorts) (p : Publish) : Rule :=
  ⟨foreign, .host p.host, p.proto, .forward c.addr p.container, nftTag c.id⟩

def lbTag (lb : LbRule) : String := s!"collocate-lb:{lb.name}"

def balance (lb : LbRule) : Treatment :=
  let entries := expand lb.backends
  .balance lb.algorithm entries.length (entries.zipIdx.map fun (b, i) => (i, b.addr, b.port))

/-- The rules of a load balancer that has a backend, in one of the two chains. -/
def balanced (foreign : Bool) (lb : LbRule) : List Rule :=
  if (expand lb.backends).isEmpty then []
  else ⟨false, .vip lb.vip lb.listen, lb.proto, balance lb, lbTag lb⟩ ::
    lb.publish.map fun port => ⟨foreign, .host port, lb.proto, balance lb, lbTag lb⟩

def masqueraded (lb : LbRule) : List Masquerade :=
  if (expand lb.backends).isEmpty then [] else [⟨addresses lb.backends, lbTag lb⟩]

def stopped (lb : LbRule) : List Rule :=
  if (expand lb.backends).isEmpty then [⟨false, .vip lb.vip lb.listen, lb.proto, .stop lb.onNoBackends, lbTag lb⟩]
    else []

def prerouting (rs : Ruleset) : List Rule :=
  rs.containers.flatMap (fun c => c.publish.map (forwarded true c)) ++ rs.lbs.flatMap (balanced true)

def output (rs : Ruleset) : List Rule :=
  rs.containers.flatMap (fun c => c.publish.map (forwarded false c)) ++ rs.lbs.flatMap (balanced false)

def postrouting (rs : Ruleset) : List Masquerade := rs.lbs.flatMap masqueraded

def input (rs : Ruleset) : List Rule := rs.lbs.flatMap stopped

end Ruleset

/-! ## Their tokens -/

def word (s : String) : Token := .word s.toList

def quoted (s : String) : Token := .quoted s.toList

/-- A list with a comma after each but the last of its parts. -/
def commaed (rest : List String) : List (List String × String) → List String
  | [] => rest
  | [(front, last)] => front ++ last :: rest
  | (front, last) :: parts => front ++ (last ++ ",") :: commaed rest parts

def Entry.words (proto : Proto) : Entry → List String
  | .vip addr port => ["ip", "daddr", addr.display, proto.display, "dport", toString port]
  | .host port => ["fib", "daddr", "type", "local", proto.display, "dport", toString port]

def generator : Algorithm → List String
  | .roundRobin => ["numgen", "inc"]
  | .random => ["numgen", "random"]
  | .sourceHash => ["jhash", "ip", "saddr"]

def Treatment.words (proto : Proto) : Treatment → List String
  | .forward addr port => ["dnat", "ip", "to", s!"{addr.display}:{port}"]
  | .balance algorithm modulus map => ["dnat", "ip", "addr", ".", "port", "to"] ++ generator algorithm ++
      ["mod", toString modulus, "map", "\x7b"] ++
      commaed ["\x7d"] (map.map fun (key, addr, port) => ([toString key, ":", addr.display, "."], toString port))
  | .stop .drop => ["drop"]
  | .stop .reject => match proto with
    | .tcp => ["reject", "with", "tcp", "reset"]
    | .udp => ["reject", "with", "icmp", "type", "port-unreachable"]

def Rule.line (bridge : String) (r : Rule) : Line where
  indent := 4
  tokens := (if r.foreign then [word "iifname", word "!=", quoted bridge] else []) ++
    (r.entry.words r.proto ++ r.treatment.words r.proto ++ ["comment"]).map word ++ [quoted r.tag]

def Masquerade.line (rs : Ruleset) (m : Masquerade) : Line where
  indent := 4
  tokens := (["ip", "saddr", rs.subnet.display, "ip", "daddr", "\x7b"] ++
    commaed ["\x7d"] (m.addrs.map fun a => ([], a.display)) ++ ["oifname"]).map word ++
    [quoted rs.bridge] ++ (["masquerade", "comment"]).map word ++ [quoted m.tag]

def plainLine (indent : ℕ) (words : List String) : Line := ⟨indent, words.map word⟩

/-- A chain with its rules. -/
def chainLines (name : String) (hook : List String) (rules : List Line) : List Line :=
  [plainLine 2 ["chain", name, "\x7b"], plainLine 4 (["type"] ++ hook ++ ["policy", "accept;"])] ++ rules ++
    [plainLine 2 ["\x7d"]]

namespace Ruleset

/-- The lines of the script. -/
def script (rs : Ruleset) : List Line :=
  [plainLine 0 ["add", "table", "inet", "collocate"], plainLine 0 ["delete", "table", "inet", "collocate"],
    plainLine 0 ["table", "inet", "collocate", "\x7b"]] ++
  chainLines "prerouting" ["nat", "hook", "prerouting", "priority", "dstnat;"]
    (rs.prerouting.map (Rule.line rs.bridge)) ++
  chainLines "output" ["nat", "hook", "output", "priority", "-100;"] (rs.output.map (Rule.line rs.bridge)) ++
  chainLines "postrouting" ["nat", "hook", "postrouting", "priority", "srcnat;"]
    ([⟨4, (["ip", "saddr", rs.subnet.display, "oifname", "!="]).map word ++ [quoted rs.bridge, word "masquerade"]⟩,
      ⟨4, (["ip", "saddr", "127.0.0.0/8", "oifname"]).map word ++ [quoted rs.bridge, word "masquerade"]⟩] ++
      rs.postrouting.map (Masquerade.line rs)) ++
  chainLines "forward" ["filter", "hook", "forward", "priority", "filter;"]
    [plainLine 4 ["ct", "state", "established,related", "accept"],
      ⟨4, [word "iifname", quoted rs.bridge, word "accept"]⟩, ⟨4, [word "oifname", quoted rs.bridge, word "accept"]⟩] ++
  chainLines "input" ["filter", "hook", "input", "priority", "filter;"] (rs.input.map (Rule.line rs.bridge)) ++
  [plainLine 0 ["\x7d"]]

end Ruleset

/-! ## What `render` writes -/

/-- The words with a blank between each two of them. -/
def spoken (words : List String) : List Char := spell (words.map word)

section Words
variable {rest words more : List String}

theorem toString_self (s : String) : toString s = s := rfl

theorem spoken_append (hwords : words ≠ []) (hmore : more ≠ []) :
    spoken (words ++ more) = spoken words ++ ' ' :: spoken more := by
  unfold spoken
  rw [List.map_append, spell_append (by simpa using hwords) (by simpa using hmore)]

theorem spoken_last (front : List String) (last : String) :
    spoken (front ++ [last ++ ","]) = spoken (front ++ [last]) ++ [','] := by
  cases hfront : front with
  | nil => simp [spoken, spell, word, Token.text]
  | cons =>
    rw [spoken_append (List.cons_ne_nil _ _) (List.cons_ne_nil _ _),
      spoken_append (List.cons_ne_nil _ _) (List.cons_ne_nil _ _)]
    simp [spoken, spell, word, Token.text]

theorem commaed_ne_nil (hrest : rest ≠ []) (parts : List (List String × String)) : commaed rest parts ≠ [] := by
  induction parts with
  | nil => exact hrest
  | cons p parts ih => cases parts <;> simp [commaed]

/-- The parts are written with commas between them. -/
theorem spoken_commaed (hrest : rest ≠ []) {parts : List (List String × String)} (hne : parts ≠ []) :
    spoken (commaed rest parts) =
      (Text.joinWith ", " (parts.map fun p => String.ofList (spoken (p.1 ++ [p.2])))).toList ++ ' ' :: spoken rest := by
  induction parts with
  | nil => exact absurd rfl hne
  | cons p parts ih =>
    obtain ⟨front, last⟩ := p
    cases parts with
    | nil =>
      have hsplit : front ++ last :: rest = (front ++ [last]) ++ rest := by simp
      show spoken (front ++ last :: rest) = _
      rw [hsplit, spoken_append (by simp) hrest]
      simp [Text.joinWith]
    | cons q parts =>
      have hsplit : front ++ (last ++ ",") :: commaed rest (q :: parts) = (front ++ [last ++ ","]) ++
        commaed rest (q :: parts) := by simp
      show spoken (front ++ (last ++ ",") :: commaed rest (q :: parts)) = _
      rw [hsplit, spoken_append (by simp) (commaed_ne_nil hrest _), ih (List.cons_ne_nil _ _), spoken_last]
      simp [Text.joinWith]

end Words

section Rules
variable {br : String} {proto : Proto}

theorem Treatment.words_ne_nil (t : Treatment) : t.words proto ≠ [] := by
  cases t with
  | forward | balance => simp [Treatment.words]
  | stop policy => cases policy <;> cases proto <;> simp [Treatment.words]

theorem Rule.text_eq (r : Rule) : (r.line br).text =
    "    ".toList ++ (if r.foreign then (s!"iifname != \"{br}\" ").toList else []) ++ spoken (r.entry.words r.proto) ++
      ' ' ::
      (spoken (r.treatment.words r.proto) ++ (s!" comment \"{r.tag}\"\n").toList) := by
  have hentry : r.entry.words r.proto ≠ [] := by cases r.entry <;> simp [Entry.words]
  have htail : spell ((r.entry.words r.proto ++ r.treatment.words r.proto ++ ["comment"]).map word ++ [quoted r.tag]) =
      spoken (r.entry.words r.proto) ++ ' ' ::
        (spoken (r.treatment.words r.proto) ++ (s!" comment \"{r.tag}\"").toList) := by
    rw [spell_append (by simp) (by simp)]
    show spoken _ ++ _ = _
    rw [spoken_append (by simp [hentry]) (by simp), spoken_append hentry r.treatment.words_ne_nil]
    simp [spoken, spell, word, quoted, Token.text, toString_self]
  unfold Rule.line Line.text
  cases r.foreign with
  | false =>
    dsimp only
    rw [if_neg (by decide), if_neg (by decide), List.nil_append, htail]
    simp [toString_self]
  | true =>
    dsimp only
    rw [if_pos rfl, if_pos rfl, List.append_assoc [word "iifname", word "!=", quoted br],
      spell_append (by simp) (by simp), htail]
    simp [spell, word, quoted, Token.text, toString_self]

theorem vip_spoken (addr : Ipv4Addr) (port : UInt16) :
    spoken ((Entry.vip addr port).words proto) = (s!"ip daddr {addr.display} {proto.display} dport {port}").toList := by
  simp [Entry.words, spoken, spell, word, Token.text, toString_self]

theorem host_spoken (port : UInt16) :
    spoken ((Entry.host port).words proto) = (s!"fib daddr type local {proto.display} dport {port}").toList := by
  simp [Entry.words, spoken, spell, word, Token.text, toString_self]

theorem forward_spoken (addr : Ipv4Addr) (port : UInt16) :
    spoken ((Treatment.forward addr port).words proto) = (s!"dnat ip to {addr.display}:{port}").toList := by
  simp [Treatment.words, spoken, spell, word, Token.text, toString_self]

theorem stop_spoken (policy : NoBackends) :
    spoken ((Treatment.stop policy).words proto) = (Ruleset.verdict policy proto).toList := by
  cases policy <;> cases proto <;> simp [Treatment.words, Ruleset.verdict, spoken, spell, word, Token.text]

theorem balance_spoken {lb : LbRule} (hne : Ruleset.expand lb.backends ≠ []) :
    spoken ((Ruleset.balance lb).words proto) = (Ruleset.dnatExpr lb (Ruleset.expand lb.backends)).toList := by
  set entries := Ruleset.expand lb.backends with hentries
  let parts := (entries.zipIdx.map fun (b, i) => (i, b.addr, b.port)).map fun (key, addr, port) =>
    ([toString key, ":", addr.display, "."], toString port)
  have hparts : parts ≠ [] := by simp [parts, hne]
  have hmap : parts.map (fun p => String.ofList (spoken (p.1 ++ [p.2]))) =
      entries.zipIdx.map fun (b, i) => s!"{i} : {b.addr.display} . {b.port}" := by
    simp only [parts, List.map_map]
    refine List.map_congr_left fun e _ => ?_
    rw [← String.toList_inj]
    simp [spoken, spell, word, Token.text, toString_self]
  have hwords : (Ruleset.balance lb).words proto = (["dnat", "ip", "addr", ".", "port", "to"] ++
    generator lb.algorithm ++
      ["mod", toString entries.length, "map", "\x7b"]) ++ commaed ["\x7d"] parts := rfl
  rw [hwords, spoken_append (by simp) (commaed_ne_nil (by simp) _), spoken_commaed (by simp) hparts, hmap]
  unfold Ruleset.dnatExpr Ruleset.braced
  cases lb.algorithm <;> simp [generator, spoken, spell, word, Token.text, toString_self]

end Rules

/-! ## The four chains -/

theorem write_append (lines more : List Line) : write (lines ++ more) = write lines ++ write more := List.flatMap_append

theorem write_pair (l l' : Line) : write [l, l'] = l.text ++ l'.text := by simp [write]

/-- The four strings are made of these lines. -/
structure Written (s : Ruleset.Chains) (pre out post input : List Line) : Prop where
  pre : s.pre.toList = write pre
  out : s.out.toList = write out
  post : s.post.toList = write post
  input : s.input.toList = write input

section Chains
variable {s : Ruleset.Chains} {pre out post input : List Line} (br : String)

theorem written_addPort (h : Written s pre out post input) (c : ContainerPorts) (p : Publish) :
    Written (Ruleset.addPort br c s p) (pre ++ [(Ruleset.forwarded true c p).line br])
      (out ++ [(Ruleset.forwarded false c p).line br]) post input := by
  refine ⟨?_, ?_, h.post, h.input⟩
  · rw [write_append, ← h.pre]
    simp [write, Rule.text_eq, Ruleset.forwarded, Ruleset.addPort, host_spoken, forward_spoken, toString_self]
  · rw [write_append, ← h.out]
    simp [write, Rule.text_eq, Ruleset.forwarded, Ruleset.addPort, host_spoken, forward_spoken, toString_self]

theorem written_addContainer (h : Written s pre out post input) (c : ContainerPorts) :
    Written (Ruleset.addContainer br s c) (pre ++ (c.publish.map (Ruleset.forwarded true c)).map (Rule.line br))
      (out ++ (c.publish.map (Ruleset.forwarded false c)).map (Rule.line br)) post input := by
  unfold Ruleset.addContainer
  induction c.publish generalizing s pre out with
  | nil => simpa using h
  | cons p ports ih =>
    have hrest := ih (written_addPort br h c p)
    simpa using hrest

theorem written_containers (h : Written s pre out post input) (containers : List ContainerPorts) :
    Written (containers.foldl (Ruleset.addContainer br) s)
      (pre ++ (containers.flatMap fun c => c.publish.map (Ruleset.forwarded true c)).map (Rule.line br))
      (out ++ (containers.flatMap fun c => c.publish.map (Ruleset.forwarded false c)).map (Rule.line br))
      post input := by
  induction containers generalizing s pre out with
  | nil => simpa using h
  | cons c containers ih =>
    have hrest := ih (written_addContainer br h c)
    simpa using hrest

theorem written_addListen (h : Written s pre out post input) {lb : LbRule} (hne : Ruleset.expand lb.backends ≠ [])
    (port : UInt16) :
    Written (Ruleset.addListen br lb (Ruleset.dnatExpr lb (Ruleset.expand lb.backends)) (Ruleset.lbTag lb) s port)
      (pre ++ [Rule.line br ⟨true, .host port, lb.proto, Ruleset.balance lb, Ruleset.lbTag lb⟩])
      (out ++ [Rule.line br ⟨false, .host port, lb.proto, Ruleset.balance lb, Ruleset.lbTag lb⟩]) post input := by
  refine ⟨?_, ?_, h.post, h.input⟩
  · rw [write_append, ← h.pre]
    simp [write, Rule.text_eq, Ruleset.addListen, host_spoken, balance_spoken hne, toString_self]
  · rw [write_append, ← h.out]
    simp [write, Rule.text_eq, Ruleset.addListen, host_spoken, balance_spoken hne, toString_self]

theorem written_listens (h : Written s pre out post input) {lb : LbRule} (hne : Ruleset.expand lb.backends ≠ [])
    (ports : List UInt16) :
    Written
      (ports.foldl
        (Ruleset.addListen br lb (Ruleset.dnatExpr lb (Ruleset.expand lb.backends)) (Ruleset.lbTag lb)) s)
      (pre ++ (ports.map fun port => (⟨true, .host port, lb.proto, Ruleset.balance lb, Ruleset.lbTag lb⟩ : Rule)).map
        (Rule.line br))
      (out ++ (ports.map fun port => (⟨false, .host port, lb.proto, Ruleset.balance lb, Ruleset.lbTag lb⟩ : Rule)).map
        (Rule.line br))
      post input := by
  induction ports generalizing s pre out with
  | nil => simpa using h
  | cons port ports ih =>
    have hrest := ih (written_addListen br h hne port)
    simpa using hrest

end Chains

/-! ## Backends -/

section Backends
variable {backends : List Backend}

theorem mem_expand {b : Backend} : b ∈ Ruleset.expand backends ↔ b ∈ backends ∧ 0 < b.weight := by
  have hpositive (b : Backend) : (min b.weight Ruleset.maxWeight).toNat ≠ 0 ↔ 0 < b.weight := by
    rw [← Nat.pos_iff_ne_zero, UInt32.lt_iff_toNat_lt]
    show 0 < (if b.weight ≤ Ruleset.maxWeight then b.weight else Ruleset.maxWeight : UInt32).toNat ↔ _
    split
    · rfl
    · rename_i hmany
      rw [UInt32.not_le, UInt32.lt_iff_toNat_lt] at hmany
      exact ⟨fun _ => Nat.zero_lt_of_lt hmany, fun _ => by decide⟩
  unfold Ruleset.expand
  simp only [List.mem_flatMap, List.mem_replicate, hpositive]
  constructor
  · rintro ⟨b', hb', hweight, rfl⟩
    exact ⟨hb', hweight⟩
  · rintro ⟨hb, hweight⟩
    exact ⟨b, hb, hweight, rfl⟩

/-- A map from the keys of a list's items to the items. -/
theorem get?_foldl_insert {K V : Type} [LinearOrder K] (key : V → K) (l : List V) (m : OrdMap K V)
    (hm : ∀ k v, m.get? k = some v → k = key v) (hinj : ∀ v w, key v = key w → v = w) (k : K) (v : V) :
    ((l.map fun a => (key a, a)).foldl (fun m e => m.insert e.1 e.2) m).get? k = some v ↔
      k = key v ∧ (v ∈ l ∨ m.get? k = some v) := by
  induction l generalizing m with
  | nil =>
    constructor
    · exact fun h => ⟨hm k v h, .inr h⟩
    · exact fun h => h.2.resolve_left (by simp)
  | cons a l ih =>
    have hstep (k : K) (v : V) : (m.insert (key a) a).get? k = some v ↔ (k = key a ∧ v = a) ∨
      (k ≠ key a ∧ m.get? k = some v) := by
      rw [OrdMap.get?_insert]
      by_cases hk : k = key a
      · simp [hk, eq_comm]
      · simp [hk]
    rw [List.map_cons, List.foldl_cons, ih (m.insert (key a) a) (fun k v h => ?_), hstep]
    · constructor
      · rintro ⟨hk, hv | ⟨-, rfl⟩ | ⟨-, hv⟩⟩
        · exact ⟨hk, .inl (List.mem_cons_of_mem a hv)⟩
        · exact ⟨hk, .inl List.mem_cons_self⟩
        · exact ⟨hk, .inr hv⟩
      · rintro ⟨hk, hv⟩
        by_cases ha : v = a
        · exact ⟨hk, .inr (.inl ⟨hk.trans (congrArg key ha), ha⟩)⟩
        · have hother : k ≠ key a := fun h => ha (hinj v a (hk.symm.trans h))
          refine ⟨hk, hv.imp (fun hmem => (List.mem_cons.mp hmem).resolve_left ha) fun hget => .inr ⟨hother, hget⟩⟩
    · rcases (hstep k v).mp h with ⟨rfl, rfl⟩ | ⟨-, hget⟩
      · rfl
      · exact hm k v hget

theorem mem_addresses {a : Ipv4Addr} : a ∈ Ruleset.addresses backends ↔ ∃ b ∈ backends, 0 < b.weight ∧ b.addr = a := by
  have hinj (v w : Ipv4Addr) (h : v.bits.toNat = w.bits.toNat) : v = w := by
    cases v
    cases w
    exact congrArg Ipv4Addr.mk (UInt32.toNat_inj.mp h)
  let addrs := (backends.filter fun b => decide (0 < b.weight)).map (·.addr)
  have hget (k : ℕ) := get?_foldl_insert (fun a : Ipv4Addr => a.bits.toNat) addrs OrdMap.empty
    (fun k v h => by cases h) hinj k a
  have hsame : (backends.filter fun b => decide (0 < b.weight)).map (fun b => (b.addr.bits.toNat, b.addr)) =
      addrs.map fun a => (a.bits.toNat, a) := by simp [addrs, Function.comp_def]
  have hvalues : a ∈ Ruleset.addresses backends ↔ ∃ k, (OrdMap.ofList (addrs.map fun a => (a.bits.toNat, a))).get? k =
    some a := by
    unfold Ruleset.addresses
    rw [hsame]
    simp only [OrdMap.values, List.mem_map, OrdMap.get?_eq_some]
    exact ⟨fun ⟨⟨k, a'⟩, he, h⟩ => ⟨k, h ▸ he⟩, fun ⟨k, he⟩ => ⟨(k, a), he, rfl⟩⟩
  have hmem : a ∈ addrs ↔ ∃ b ∈ backends, 0 < b.weight ∧ b.addr = a := by simp [addrs, and_assoc]
  rw [hvalues, ← hmem]
  constructor
  · rintro ⟨k, hk⟩
    exact ((hget k).mp hk).2.resolve_right nofun
  · exact fun h => ⟨_, (hget _).mpr ⟨rfl, .inl h⟩⟩

theorem addresses_ne_nil (h : Ruleset.expand backends ≠ []) : Ruleset.addresses backends ≠ [] := by
  obtain ⟨b, hb⟩ := List.exists_mem_of_ne_nil _ h
  obtain ⟨hmem, hweight⟩ := mem_expand.mp hb
  exact List.ne_nil_of_mem (mem_addresses.mpr ⟨b, hmem, hweight, rfl⟩)

end Backends

/-! ## The whole script -/

section Whole
variable {s : Ruleset.Chains} {pre out post input : List Line}

theorem Masquerade.text_eq (rs : Ruleset) {m : Masquerade} (hne : m.addrs ≠ []) : (m.line rs).text =
    (s!"    ip saddr {rs.subnet.display} ip daddr " ++ Ruleset.braced
      (Text.joinWith ", " (m.addrs.map Ipv4Addr.display)) ++
      s!" oifname \"{rs.bridge}\" masquerade comment \"{m.tag}\"\n").toList := by
  have hparts : (m.addrs.map fun a => (([] : List String), a.display)) ≠ [] := by simpa using hne
  have hdisplay : (m.addrs.map fun a => (([] : List String), a.display)).map
    (fun p => String.ofList (spoken (p.1 ++ [p.2]))) =
      m.addrs.map Ipv4Addr.display := by
    rw [List.map_map]
    refine List.map_congr_left fun a _ => ?_
    simp [spoken, spell, word, Token.text]
  have hlist := spoken_commaed (List.cons_ne_nil "\x7d" []) hparts
  rw [hdisplay] at hlist
  have hfront : spell ((["ip", "saddr", rs.subnet.display, "ip", "daddr", "\x7b"] ++
      commaed ["\x7d"] (m.addrs.map fun a => ([], a.display)) ++ ["oifname"]).map word) =
      (s!"ip saddr {rs.subnet.display} ip daddr " ++
        Ruleset.braced (Text.joinWith ", " (m.addrs.map Ipv4Addr.display)) ++ " oifname").toList := by
    show spoken _ = _
    rw [spoken_append (by simp) (by simp), spoken_append (by simp) (commaed_ne_nil (by simp) _), hlist]
    simp [Ruleset.braced, spoken, spell, word, Token.text, toString_self]
  unfold Masquerade.line Line.text
  dsimp only
  rw [spell_append (by simp) (by simp), spell_append (by simp) (by simp), spell_append (by simp) (by simp), hfront]
  simp [spell, word, quoted, Token.text, toString_self]

theorem written_addLb (rs : Ruleset) (h : Written s pre out post input) (lb : LbRule) :
    Written (Ruleset.addLb rs s lb) (pre ++ (Ruleset.balanced true lb).map (Rule.line rs.bridge))
      (out ++ (Ruleset.balanced false lb).map (Rule.line rs.bridge))
      (post ++ (Ruleset.masqueraded lb).map (Masquerade.line rs))
      (input ++ (Ruleset.stopped lb).map (Rule.line rs.bridge)) := by
  unfold Ruleset.addLb Ruleset.balanced Ruleset.masqueraded Ruleset.stopped
  by_cases hne : (Ruleset.expand lb.backends).isEmpty = true
  · simp only [if_pos hne, List.map_nil, List.append_nil]
    refine ⟨h.pre, h.out, h.post, ?_⟩
    rw [write_append, ← h.input]
    simp [write, Rule.text_eq, vip_spoken, stop_spoken, Ruleset.lbTag, toString_self]
  · have hentries : Ruleset.expand lb.backends ≠ [] := by simpa using hne
    simp only [if_neg hne, List.map_nil, List.append_nil]
    let expr := Ruleset.dnatExpr lb (Ruleset.expand lb.backends)
    let tag := Ruleset.lbTag lb
    let rule := s!"    ip daddr {lb.vip.display} {lb.proto.display} dport {lb.listen} {expr} comment \"{tag}\"\n"
    have hvip : Written { s with pre := s.pre ++ rule, out := s.out ++ rule }
        (pre ++ [Rule.line rs.bridge ⟨false, .vip lb.vip lb.listen, lb.proto, Ruleset.balance lb, tag⟩])
        (out ++ [Rule.line rs.bridge ⟨false, .vip lb.vip lb.listen, lb.proto, Ruleset.balance lb, tag⟩])
        post input := by
      refine ⟨?_, ?_, h.post, h.input⟩
      · rw [write_append, ← h.pre]
        simp [rule, expr, tag, write, Rule.text_eq, vip_spoken, balance_spoken hentries, toString_self]
      · rw [write_append, ← h.out]
        simp [rule, expr, tag, write, Rule.text_eq, vip_spoken, balance_spoken hentries, toString_self]
    have hlistens := written_listens rs.bridge hvip hentries lb.publish
    refine ⟨?_, ?_, ?_, hlistens.input⟩
    · have hpre := hlistens.pre
      rw [List.append_assoc] at hpre
      exact hpre
    · have hout := hlistens.out
      rw [List.append_assoc] at hout
      exact hout
    · rw [write_append, ← hlistens.post]
      simp [rule, expr, tag, write, Masquerade.text_eq, addresses_ne_nil hentries, Ruleset.lbTag, toString_self]

theorem written_lbs (rs : Ruleset) (h : Written s pre out post input) (lbs : List LbRule) :
    Written (lbs.foldl (Ruleset.addLb rs) s) (pre ++ (lbs.flatMap (Ruleset.balanced true)).map (Rule.line rs.bridge))
      (out ++ (lbs.flatMap (Ruleset.balanced false)).map (Rule.line rs.bridge))
      (post ++ (lbs.flatMap Ruleset.masqueraded).map (Masquerade.line rs))
      (input ++ (lbs.flatMap Ruleset.stopped).map (Rule.line rs.bridge)) := by
  induction lbs generalizing s pre out post input with
  | nil => simpa using h
  | cons lb lbs ih =>
    have hrest := ih (written_addLb rs h lb)
    simpa using hrest

theorem chain_text (name hook : String) (words : List String) {rules : String} {lines : List Line} (hwords : words ≠ [])
    (hhook : spoken words = (hook ++ ";").toList) (hrules : rules.toList = write lines) :
    (Ruleset.chain name hook rules).toList = write (chainLines name words lines) := by
  have hsecond : spoken (["type"] ++ words ++ ["policy", "accept;"]) = (s!"type {hook}; policy accept;").toList := by
    rw [spoken_append (by simp) (by simp), spoken_append (by simp) hwords, hhook]
    simp [spoken, spell, word, Token.text, toString_self]
  have hsecondLine : (plainLine 4 (["type"] ++ words ++ ["policy", "accept;"])).text =
      (s!"    type {hook}; policy accept;\n").toList := by
    show List.replicate 4 ' ' ++ spoken _ ++ _ = _
    rw [hsecond]
    simp [toString_self]
  unfold chainLines Ruleset.chain
  rw [write_append, write_append, ← hrules, write_pair, hsecondLine]
  simp [write, plainLine, Line.text, spell, word, Token.text, toString_self]

theorem postrouting_text (rs : Ruleset) {rules : String} {lines : List Line} (h : rules.toList = write lines) :
    (s!"    ip saddr {rs.subnet.display} oifname != \"{rs.bridge}\" masquerade\n" ++
        s!"    ip saddr 127.0.0.0/8 oifname \"{rs.bridge}\" masquerade\n" ++ rules).toList =
      write ([
        ⟨4, (["ip", "saddr", rs.subnet.display, "oifname", "!="]).map word ++ [quoted rs.bridge, word "masquerade"]⟩,
        ⟨4, (["ip", "saddr", "127.0.0.0/8", "oifname"]).map word ++ [quoted rs.bridge, word "masquerade"]⟩] ++
          lines) := by
  rw [write_append, ← h, write_pair]
  simp [Line.text, spell, word, quoted, Token.text, toString_self]

theorem forward_text (rs : Ruleset) :
    ("    ct state established,related accept\n" ++
        s!"    iifname \"{rs.bridge}\" accept\n    oifname \"{rs.bridge}\" accept\n").toList =
      write [plainLine 4 ["ct", "state", "established,related", "accept"],
        ⟨4, [word "iifname", quoted rs.bridge, word "accept"]⟩,
          ⟨4, [word "oifname", quoted rs.bridge, word "accept"]⟩] := by
  simp [write, plainLine, Line.text, spell, word, quoted, Token.text, toString_self]

/-- `render` writes the lines of the script. -/
theorem render_eq (rs : Ruleset) : rs.render.toList = write rs.script := by
  have hempty : Written {} [] [] [] [] := ⟨rfl, rfl, rfl, rfl⟩
  have hwritten := written_lbs rs (written_containers rs.bridge hempty rs.containers) rs.lbs
  simp only [List.nil_append, ← List.map_append] at hwritten
  have hpre := chain_text "prerouting" "nat hook prerouting priority dstnat" ["nat", "hook", "prerouting", "priority",
    "dstnat;"]
    (by simp) (by simp [spoken, spell, word, Token.text]) hwritten.pre
  have hout := chain_text "output" "nat hook output priority -100" ["nat", "hook", "output", "priority", "-100;"]
    (by simp) (by simp [spoken, spell, word, Token.text]) hwritten.out
  have hinput := chain_text "input" "filter hook input priority filter" ["filter", "hook", "input", "priority",
    "filter;"]
    (by simp) (by simp [spoken, spell, word, Token.text]) hwritten.input
  have hpost := chain_text "postrouting" "nat hook postrouting priority srcnat" ["nat", "hook", "postrouting",
    "priority", "srcnat;"]
    (by simp) (by simp [spoken, spell, word, Token.text]) (postrouting_text rs hwritten.post)
  have hforward := chain_text "forward" "filter hook forward priority filter" ["filter", "hook", "forward", "priority",
    "filter;"]
    (by simp) (by simp [spoken, spell, word, Token.text]) (forward_text rs)
  have hopen : write [plainLine 0 ["add", "table", "inet", "collocate"],
    plainLine 0 ["delete", "table", "inet", "collocate"],
      plainLine 0 ["table", "inet", "collocate", "\x7b"]] =
      "add table inet collocate\ndelete table inet collocate\ntable inet collocate \x7b\n".toList := by
    simp [write, plainLine, Line.text, spell, word, Token.text]
  have hclose : write [plainLine 0 ["\x7d"]] = "\x7d\n".toList :=
    by simp [write, plainLine, Line.text, spell, word, Token.text]
  unfold Ruleset.script Ruleset.render
  simp only [String.toList_append] at hpost hforward ⊢
  rw [hpre, hout, hpost, hforward, hinput]
  simp only [write_append, hopen, hclose]
  rfl

end Whole

end Collocate

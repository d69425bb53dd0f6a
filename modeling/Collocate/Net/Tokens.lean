import Collocate.Net.Script

/-! # The script read back

All words of the script are plain, so that it is read back as it was meant if and only if no quoted string
in it, which are the name of the bridge and the tags of the publishers, has a quotation mark. -/
namespace Collocate
set_option autoImplicit false
open Lexing

/-! ## Plain words -/

def plainChar (c : Char) : Prop := c ≠ '"' ∧ c ≠ '\n' ∧ isBlank c = false

section Plain
variable {s t : String}

def PlainWord (s : String) : Prop := Plain s.toList

instance (s : String) : Decidable (PlainWord s) :=
  decidable_of_iff (s.toList ≠ [] ∧ (s.toList.all fun c => c != '"' && c != '\n' && !isBlank c) = true)
    (by simp [PlainWord, Plain, and_assoc])

theorem PlainWord.append (hs : PlainWord s) (ht : ∀ c ∈ t.toList, plainChar c) : PlainWord (s ++ t) := by
  unfold PlainWord at hs ⊢
  rw [String.toList_append]
  refine ⟨by simp [hs.1], fun c hc => ?_⟩
  obtain hc | hc := List.mem_append.mp hc
  · exact hs.2 c hc
  · exact ht c hc

theorem plainChar_of_isDigit {c : Char} (h : c.isDigit = true) : plainChar c := by
  have hne {d : Char} (hd : d.isDigit = false) : c ≠ d := by
    rintro rfl
    rw [h] at hd
    cases hd
  refine ⟨hne rfl, hne rfl, ?_⟩
  simp [isBlank, hne (d := ' ') rfl, hne (d := '\t') rfl]

theorem plainWord_nat (n : ℕ) : PlainWord (toString n) := by
  refine ⟨?_, fun c hc => plainChar_of_isDigit (Text.toString_digits hc)⟩
  rw [Nat.toString_eq_repr, Nat.toList_repr]
  exact Nat.toDigits_ne_nil

theorem plainWord_port (port : UInt16) : PlainWord (toString port) := plainWord_nat port.toNat

theorem plain_nat {n : ℕ} : ∀ c ∈ (toString n).toList, plainChar c := (plainWord_nat n).2

theorem plain_dot : ∀ c ∈ ".".toList, plainChar c := by simp [plainChar, isBlank]

theorem PlainWord.joined {parts : List String} (hne : parts ≠ []) (h : ∀ s ∈ parts, PlainWord s) :
    PlainWord (Text.joinWith "." parts) := by
  induction parts with
  | nil => exact absurd rfl hne
  | cons s parts ih =>
    have hs := h s List.mem_cons_self
    cases parts with
    | nil => exact hs
    | cons t parts =>
      have hrest := ih (List.cons_ne_nil t parts) fun s' hs' => h s' (List.mem_cons_of_mem s hs')
      exact (hs.append plain_dot).append hrest.2

theorem plainWord_addr (a : Ipv4Addr) : PlainWord a.display := by
  refine PlainWord.joined (List.cons_ne_nil _ _) fun s hs => ?_
  obtain ⟨n, -, rfl⟩ := List.mem_map.mp hs
  exact plainWord_nat n

theorem plainWord_subnet (n : Subnet) : PlainWord n.display :=
  ((plainWord_addr _).append (by simp [plainChar, isBlank])).append (plain_nat (n := n.prefixLen.toNat))

theorem plainWord_proto (proto : Proto) : PlainWord proto.display := by
  cases proto <;> simp [PlainWord, Plain, Proto.display, isBlank]

end Plain

/-! ## The words of the rules -/

def AllPlain (words : List String) : Prop := ∀ s ∈ words, PlainWord s

instance (words : List String) : Decidable (AllPlain words) :=
  decidable_of_iff (words.all (fun s => decide (PlainWord s)) = true) (by simp [AllPlain])

section Words
variable {words more rest : List String} {proto : Proto}

theorem AllPlain.append (h : AllPlain words) (hmore : AllPlain more) : AllPlain (words ++ more) := fun s hs =>
  (List.mem_append.mp hs).elim (h s) (hmore s)

theorem AllPlain.cons {s : String} (hs : PlainWord s) (h : AllPlain words) : AllPlain (s :: words) := fun t ht =>
  (List.mem_cons.mp ht).elim (fun heq => heq ▸ hs) (h t)

theorem allPlain_nil : AllPlain [] := fun _ h => by cases h

theorem AllPlain.commaed (hrest : AllPlain rest) {parts : List (List String × String)}
    (hparts : ∀ p ∈ parts, AllPlain p.1 ∧ PlainWord p.2) : AllPlain (commaed rest parts) := by
  induction parts with
  | nil => exact hrest
  | cons p parts ih =>
    obtain ⟨hfront, hlast⟩ := hparts p List.mem_cons_self
    have hmore := ih fun q hq => hparts q (List.mem_cons_of_mem p hq)
    cases parts with
    | nil => exact hfront.append (hrest.cons hlast)
    | cons => exact hfront.append (hmore.cons (hlast.append (by simp [plainChar, isBlank])))

theorem Entry.plain (e : Entry) : AllPlain (e.words proto) := by
  have hproto := plainWord_proto proto
  cases e with
  | vip addr port =>
    have haddr := plainWord_addr addr
    have hport := plainWord_port port
    simp [AllPlain, Entry.words, haddr, hport, hproto]
    simp [PlainWord, Plain, isBlank]
  | host port =>
    have hport := plainWord_port port
    simp [AllPlain, Entry.words, hport, hproto]
    simp [PlainWord, Plain, isBlank]

theorem Treatment.plain (t : Treatment) : AllPlain (t.words proto) := by
  cases t with
  | forward addr port =>
    have htarget : PlainWord (s!"{addr.display}:{port}") :=
      ((plainWord_addr addr).append (by simp [plainChar, isBlank, toString_self])).append (plain_nat (n := port.toNat))
    have hwords : AllPlain ["dnat", "ip", "to"] := by decide
    exact hwords.append (allPlain_nil.cons htarget)
  | balance algorithm modulus map =>
    have hgenerator : AllPlain (generator algorithm) := by
      cases algorithm <;> simp [generator, AllPlain, PlainWord, Plain, isBlank]
    have hfirst : AllPlain ["dnat", "ip", "addr", ".", "port", "to"] := by decide
    have hmodulus : AllPlain ["mod", toString modulus, "map", "\x7b"] := by
      have hself := plainWord_nat modulus
      simp only [AllPlain, List.forall_mem_cons, hself, true_and]
      simp [PlainWord, Plain, isBlank]
    have hlast : AllPlain ["\x7d"] := by decide
    refine ((hfirst.append hgenerator).append hmodulus).append (hlast.commaed fun p hp => ?_)
    obtain ⟨⟨key, addr, port⟩, -, rfl⟩ := List.mem_map.mp hp
    refine ⟨?_, plainWord_port port⟩
    have hcolon : PlainWord ":" := by decide
    have hdot : PlainWord "." := by decide
    exact (((allPlain_nil.cons hdot).cons (plainWord_addr addr)).cons hcolon).cons (plainWord_nat key)
  | stop policy => cases policy <;> cases proto <;> simp [AllPlain, Treatment.words, PlainWord, Plain, isBlank]

end Words

/-! ## The lines -/

/-- The line has tokens, its words are plain, and its quoted strings are the bridge and the tags. -/
structure Meant (strings : List String) (l : Line) : Prop where
  tokens : l.tokens ≠ []
  words : ∀ content, .word content ∈ l.tokens → Plain content
  quoted : ∀ content, .quoted content ∈ l.tokens → ∃ s ∈ strings, content = s.toList

section Lines
variable {strings : List String} {rs : Ruleset}

/-- Each token is a plain word or one of the strings. -/
def TokenMeant (strings : List String) (t : Token) : Prop :=
  (∃ s, t = word s ∧ PlainWord s) ∨ ∃ s ∈ strings, t = quoted s

theorem meant_of {l : Line} (hne : l.tokens ≠ []) (h : ∀ t ∈ l.tokens, TokenMeant strings t) : Meant strings l where
  tokens := hne
  words content hcontent := by
    obtain ⟨s, hs, hplain⟩ | ⟨s, -, hs⟩ := h _ hcontent
    · cases hs
      exact hplain
    · cases hs
  quoted content hcontent := by
    obtain ⟨s, hs, -⟩ | ⟨s, hmem, hs⟩ := h _ hcontent
    · cases hs
    · cases hs
      exact ⟨s, hmem, rfl⟩

theorem meant_words {words : List String} (h : AllPlain words) : ∀ t ∈ words.map word, TokenMeant strings t := by
  intro t ht
  obtain ⟨s, hs, rfl⟩ := List.mem_map.mp ht
  exact .inl ⟨s, rfl, h s hs⟩

theorem meant_append {ts us : List Token} (hts : ∀ t ∈ ts, TokenMeant strings t)
    (hus : ∀ t ∈ us, TokenMeant strings t) : ∀ t ∈ ts ++ us, TokenMeant strings t :=
  fun t ht => (List.mem_append.mp ht).elim (hts t) (hus t)

theorem meant_quoted {s : String} (hs : s ∈ strings) : ∀ t ∈ [quoted s], TokenMeant strings t :=
  fun _ ht => .inr ⟨s, hs, List.mem_singleton.mp ht⟩

theorem Rule.meant {r : Rule} {br : String} (hbr : br ∈ strings) (htag : r.tag ∈ strings) :
    Meant strings (r.line br) := by
  have hcomment : AllPlain ["comment"] := by decide
  have hforeign : ∀ t ∈ (if r.foreign then [word "iifname", word "!=", quoted br] else []), TokenMeant strings t := by
    cases r.foreign with
    | false => exact fun _ h => by cases h
    | true =>
      have hwords : AllPlain ["iifname", "!="] := by decide
      exact meant_append (meant_words hwords) (meant_quoted hbr)
  refine meant_of ?_ (meant_append (meant_append hforeign (meant_words ?_)) (meant_quoted htag))
  · simp [Rule.line]
  · exact ((Entry.plain r.entry).append (Treatment.plain r.treatment)).append hcomment

theorem Masquerade.meant {m : Masquerade} (hbr : rs.bridge ∈ strings) (htag : m.tag ∈ strings) :
    Meant strings (m.line rs) := by
  have hfirst : AllPlain ["ip", "saddr", rs.subnet.display, "ip", "daddr", "\x7b"] := by
    have hsubnet := plainWord_subnet rs.subnet
    simp only [AllPlain, List.forall_mem_cons, hsubnet, true_and]
    simp [PlainWord, Plain, isBlank]
  have hlast : AllPlain ["\x7d"] := by decide
  have hlist : AllPlain (commaed ["\x7d"] (m.addrs.map fun a => ([], a.display))) := by
    refine hlast.commaed fun p hp => ?_
    obtain ⟨a, -, rfl⟩ := List.mem_map.mp hp
    exact ⟨allPlain_nil, plainWord_addr a⟩
  have hname : AllPlain ["oifname"] := by decide
  have hmasquerade : AllPlain ["masquerade", "comment"] := by decide
  refine meant_of (by simp [Masquerade.line]) ?_
  refine meant_append (meant_append (meant_append (meant_words ?_) (meant_quoted hbr)) (meant_words hmasquerade))
    (meant_quoted htag)
  exact (hfirst.append hlist).append hname

theorem plainLine_meant {indent : ℕ} {words : List String} (hne : words ≠ []) (h : AllPlain words) :
    Meant strings (plainLine indent words) :=
  meant_of (by simpa [plainLine] using hne) (meant_words h)

theorem chain_meant {name : String} {hook : List String} {lines : List Line} (hname : PlainWord name)
    (hhook : AllPlain hook) (hlines : ∀ l ∈ lines, Meant strings l) :
    ∀ l ∈ chainLines name hook lines, Meant strings l := by
  have hbrace : AllPlain ["\x7b"] := by decide
  have hclose : AllPlain ["\x7d"] := by decide
  have hchain : PlainWord "chain" := by decide
  have htype : AllPlain ["type"] := by decide
  have hpolicy : AllPlain ["policy", "accept;"] := by decide
  intro l hl
  simp only [chainLines, List.mem_append, List.mem_cons, List.not_mem_nil, or_false] at hl
  obtain (((rfl | rfl) | hl) | rfl) := hl
  · exact plainLine_meant (by simp) ((hbrace.cons hname).cons hchain)
  · exact plainLine_meant (by simp) ((htype.append hhook).append hpolicy)
  · exact hlines l hl
  · exact plainLine_meant (by simp) hclose

end Lines

/-! ## The script -/

namespace Ruleset
section Script
variable {rs : Ruleset}

/-- What the script has in quotation marks. -/
def strings (rs : Ruleset) : List String := rs.bridge :: rs.containers.map (fun c => nftTag c.id) ++ rs.lbs.map lbTag

theorem bridge_mem : rs.bridge ∈ rs.strings := List.mem_append_left _ List.mem_cons_self

theorem lbTag_mem {lb : LbRule} (h : lb ∈ rs.lbs) : lbTag lb ∈ rs.strings :=
  List.mem_append_right _ (List.mem_map_of_mem h)

theorem forwarded_tag {foreign : Bool} {r : Rule}
    (h : r ∈ rs.containers.flatMap fun c => c.publish.map (forwarded foreign c)) : r.tag ∈ rs.strings := by
  obtain ⟨c, hc, hr⟩ := List.mem_flatMap.mp h
  obtain ⟨p, -, rfl⟩ := List.mem_map.mp hr
  exact List.mem_append_left _ (List.mem_cons_of_mem _ (List.mem_map_of_mem hc))

theorem balanced_tag {foreign : Bool} {r : Rule} (h : r ∈ rs.lbs.flatMap (balanced foreign)) : r.tag ∈ rs.strings := by
  obtain ⟨lb, hlb, hr⟩ := List.mem_flatMap.mp h
  unfold balanced at hr
  split at hr
  · cases hr
  · obtain rfl | hr := List.mem_cons.mp hr
    · exact lbTag_mem hlb
    · obtain ⟨port, -, rfl⟩ := List.mem_map.mp hr
      exact lbTag_mem hlb

theorem stopped_tag {r : Rule} (h : r ∈ rs.input) : r.tag ∈ rs.strings := by
  obtain ⟨lb, hlb, hr⟩ := List.mem_flatMap.mp h
  unfold stopped at hr
  split at hr
  · obtain rfl := List.mem_singleton.mp hr
    exact lbTag_mem hlb
  · cases hr

theorem masqueraded_tag {m : Masquerade} (h : m ∈ rs.postrouting) : m.tag ∈ rs.strings := by
  obtain ⟨lb, hlb, hm⟩ := List.mem_flatMap.mp h
  unfold masqueraded at hm
  split at hm
  · cases hm
  · obtain rfl := List.mem_singleton.mp hm
    exact lbTag_mem hlb

theorem rules_meant (rs : Ruleset) (rules : List Rule) (h : ∀ r ∈ rules, r.tag ∈ rs.strings) :
    ∀ l ∈ rules.map (Rule.line rs.bridge), Meant rs.strings l := by
  intro l hl
  obtain ⟨r, hr, rfl⟩ := List.mem_map.mp hl
  exact Rule.meant bridge_mem (h r hr)

theorem meant_both {l l' : List Line} (h : ∀ x ∈ l, Meant rs.strings x) (h' : ∀ x ∈ l', Meant rs.strings x) :
    ∀ x ∈ l ++ l', Meant rs.strings x :=
  fun x hx => (List.mem_append.mp hx).elim (h x) (h' x)

theorem meant_plain (indent : ℕ) {words : List String} (hne : words ≠ []) (h : AllPlain words) :
    ∀ l ∈ [plainLine indent words], Meant rs.strings l := by
  intro l hl
  obtain rfl := List.mem_singleton.mp hl
  exact plainLine_meant hne h

/-- A line of the frame that has the bridge in it. -/
theorem meant_bridge (rs : Ruleset) (indent : ℕ) {first last : List String} (hfirst : AllPlain first)
    (hlast : AllPlain last) :
    ∀ l ∈ [(⟨indent, first.map word ++ [quoted rs.bridge] ++ last.map word⟩ : Line)], Meant rs.strings l := by
  intro l hl
  obtain rfl := List.mem_singleton.mp hl
  exact meant_of (by simp)
    (meant_append (meant_append (meant_words hfirst) (meant_quoted bridge_mem)) (meant_words hlast))

theorem script_meant (rs : Ruleset) : ∀ l ∈ rs.script, Meant rs.strings l := by
  have hpre := rules_meant rs rs.prerouting fun r hr => (List.mem_append.mp hr).elim forwarded_tag balanced_tag
  have hout := rules_meant rs rs.output fun r hr => (List.mem_append.mp hr).elim forwarded_tag balanced_tag
  have hinput := rules_meant rs rs.input fun r hr => stopped_tag hr
  have hmasquerades : ∀ l ∈ rs.postrouting.map (Masquerade.line rs), Meant rs.strings l := by
    intro l hl
    obtain ⟨m, hm, rfl⟩ := List.mem_map.mp hl
    exact Masquerade.meant bridge_mem (masqueraded_tag hm)
  have hopen : ∀ l ∈ [plainLine 0 ["add", "table", "inet", "collocate"]] ++
      ([plainLine 0 ["delete", "table", "inet", "collocate"]] ++
        [plainLine 0 ["table", "inet", "collocate", "\x7b"]]), Meant rs.strings l :=
    meant_both (meant_plain 0 (by simp) (by decide))
      (meant_both (meant_plain 0 (by simp) (by decide)) (meant_plain 0 (by simp) (by decide)))
  have hsource : AllPlain ["ip", "saddr", rs.subnet.display, "oifname", "!="] := by
    have hsubnet := plainWord_subnet rs.subnet
    have hfirst : AllPlain ["ip", "saddr"] := by decide
    have hlast : AllPlain ["oifname", "!="] := by decide
    exact hfirst.append (hlast.cons hsubnet)
  have hpost := meant_both
    (meant_both (meant_bridge rs 4 hsource (by decide : AllPlain ["masquerade"]))
      (meant_bridge rs 4 (by decide : AllPlain ["ip", "saddr", "127.0.0.0/8", "oifname"])
        (by decide : AllPlain ["masquerade"])))
    hmasquerades
  have hforward := meant_both
    (meant_plain 4 (by simp) (by decide : AllPlain ["ct", "state", "established,related", "accept"]))
    (meant_both (meant_bridge rs 4 (by decide : AllPlain ["iifname"]) (by decide : AllPlain ["accept"]))
      (meant_bridge rs 4 (by decide : AllPlain ["oifname"]) (by decide : AllPlain ["accept"])))
  refine meant_both (meant_both (meant_both (meant_both (meant_both (meant_both hopen ?_) ?_) ?_) ?_) ?_)
    (meant_plain 0 (by simp) (by decide))
  · exact chain_meant (by decide) (by decide) hpre
  · exact chain_meant (by decide) (by decide) hout
  · exact chain_meant (by decide) (by decide) hpost
  · exact chain_meant (by decide) (by decide) hforward
  · exact chain_meant (by decide) (by decide) hinput

/-- Each load balancer has a rule with its tag. -/
theorem tag_written {lb : LbRule} (hlb : lb ∈ rs.lbs) : ∃ l ∈ rs.script, .quoted (lbTag lb).toList ∈ l.tokens := by
  have htokens (r : Rule) : .quoted r.tag.toList ∈ (r.line rs.bridge).tokens :=
    List.mem_append_right _ List.mem_cons_self
  by_cases hne : (expand lb.backends).isEmpty = true
  · let r : Rule := ⟨false, .vip lb.vip lb.listen, lb.proto, .stop lb.onNoBackends, lbTag lb⟩
    have hr : r ∈ rs.input := by
      refine List.mem_flatMap.mpr ⟨lb, hlb, ?_⟩
      unfold stopped
      rw [if_pos hne]
      exact List.mem_cons_self
    have hmem := List.mem_map_of_mem (f := Rule.line rs.bridge) hr
    exact ⟨r.line rs.bridge, by simp [script, chainLines, hmem], htokens r⟩
  · let r : Rule := ⟨false, .vip lb.vip lb.listen, lb.proto, balance lb, lbTag lb⟩
    have hr : r ∈ rs.output := by
      refine List.mem_append_right _ (List.mem_flatMap.mpr ⟨lb, hlb, ?_⟩)
      unfold balanced
      rw [if_neg hne]
      exact List.mem_cons_self
    have hmem := List.mem_map_of_mem (f := Rule.line rs.bridge) hr
    exact ⟨r.line rs.bridge, by simp [script, chainLines, hmem], htokens r⟩

theorem bridge_written (rs : Ruleset) : ∃ l ∈ rs.script, .quoted rs.bridge.toList ∈ l.tokens :=
  ⟨⟨4, [word "iifname", quoted rs.bridge, word "accept"]⟩, by simp [script, chainLines], by simp [quoted]⟩

/-- The script is read back as it was meant if and only if neither the bridge nor a load balancer has a
quotation mark in its name. -/
theorem read_back_iff (rs : Ruleset) : tokenise rs.render.toList = some (rs.script.map Line.tokens) ↔
    '"' ∉ rs.bridge.toList ∧ ∀ lb ∈ rs.lbs, '"' ∉ lb.name.toList := by
  have htag (lb : LbRule) : '"' ∈ (lbTag lb).toList ↔ '"' ∈ lb.name.toList := by simp [lbTag, toString_self]
  rw [render_eq, tokenise_write_iff (fun l hl => (script_meant rs l hl).tokens) fun l hl =>
    (script_meant rs l hl).words]
  constructor
  · intro h
    obtain ⟨l, hl, hbridge⟩ := bridge_written rs
    refine ⟨h l hl _ hbridge, fun lb hlb hquote => ?_⟩
    obtain ⟨l, hl, hname⟩ := tag_written hlb
    exact h l hl _ hname ((htag lb).mpr hquote)
  · rintro ⟨hbridge, hnames⟩ l hl content hcontent
    obtain ⟨s, hs, rfl⟩ := (script_meant rs l hl).quoted content hcontent
    obtain hs | hs := List.mem_append.mp hs
    · obtain rfl | hs := List.mem_cons.mp hs
      · exact hbridge
      · obtain ⟨c, -, rfl⟩ := List.mem_map.mp hs
        have hhex : '"' ∉ Text.hexPad 12 c.id.val := Text.not_mem_hexPad (by decide)
        simp [nftTag, ContainerId.display, hhex]
    · obtain ⟨lb, hlb, rfl⟩ := List.mem_map.mp hs
      rw [htag]
      exact hnames lb hlb

/-! ## Names -/

def renamed (name : LbRule → String) (rs : Ruleset) : Ruleset :=
  { rs with lbs := rs.lbs.map fun lb => { lb with name := name lb } }

/-- What the rule says, whatever it is called. -/
def anonymous (r : Rule) : Rule := { r with tag := "" }

theorem balanced_renamed (foreign : Bool) (name : LbRule → String) (rs : Ruleset) :
    ((rs.renamed name).lbs.flatMap (balanced foreign)).map anonymous =
      (rs.lbs.flatMap (balanced foreign)).map anonymous := by
  show ((rs.lbs.map _).flatMap _).map _ = _
  rw [List.flatMap_map, List.map_flatMap, List.map_flatMap]
  refine List.flatMap_congr fun lb _ => ?_
  unfold balanced
  dsimp only
  split
  · rfl
  · simp only [List.map_cons, List.map_map]
    rfl

/-- The rules are the same whatever the load balancers are called, but for their tags. -/
theorem rules_renamed (name : LbRule → String) (rs : Ruleset) :
    (rs.renamed name).prerouting.map anonymous = rs.prerouting.map anonymous ∧
      (rs.renamed name).output.map anonymous = rs.output.map anonymous ∧
      (rs.renamed name).postrouting.map Masquerade.addrs = rs.postrouting.map Masquerade.addrs ∧
      (rs.renamed name).input.map anonymous = rs.input.map anonymous := by
  refine ⟨?_, ?_, ?_, ?_⟩
  · unfold prerouting
    rw [List.map_append, List.map_append, balanced_renamed]
    rfl
  · unfold output
    rw [List.map_append, List.map_append, balanced_renamed]
    rfl
  · show ((rs.lbs.map _).flatMap _).map _ = (rs.lbs.flatMap _).map _
    rw [List.flatMap_map, List.map_flatMap, List.map_flatMap]
    refine List.flatMap_congr fun lb _ => ?_
    unfold masqueraded
    dsimp only
    split <;> rfl
  · show ((rs.lbs.map _).flatMap _).map _ = (rs.lbs.flatMap _).map _
    rw [List.flatMap_map, List.map_flatMap, List.map_flatMap]
    refine List.flatMap_congr fun lb _ => ?_
    unfold stopped
    dsimp only
    split <;> rfl

end Script
end Ruleset

end Collocate

import WordProblem.Normal.Binary
import WordProblem.Proofs.Language
import WordProblem.Proofs.Normal.Fresh

/-! # Chains keep the language

Every link of a chain stands for the rest of a right side. Unfolding the links gives back the
rules as they were, so no word is gained; read from its end to its beginning a chain generates
whatever the right side does, so none is lost.
-/
namespace WordProblem

/-- What the links of one chain stand for. -/
def segments : Form → List Char → Definitions
  | _ :: t :: u :: rest, b :: links => (b,t :: u :: rest) :: segments (t :: u :: rest) links
  | _, _ => []

/-- What the links of all chains stand for. -/
def chainDefinitions : List Rule → List Char → Definitions
  | [], _ => []
  | r :: rules, supply =>
    segments r.rhs (supply.take r.surplus) ++ chainDefinitions rules (supply.drop r.surplus)

/-! ## One chain -/

theorem segments_fst {f : Form} {links : List Char} (hlen : links.length = f.length - 2) :
    (segments f links).map Prod.fst = links := by
  fun_induction segments f links with
  | case1 s t u rest b links ih =>
    rw [List.map_cons, ih (by simp only [List.length_cons] at hlen ⊢; omega)]
  | case2 f links hshort =>
    cases links with
    | nil => rfl
    | cons b links =>
      match f, hshort, hlen with
      | s :: t :: u :: rest, hshort, _ => exact (hshort s t u rest b links rfl rfl).elim
      | [], _, hlen => simp at hlen
      | [_], _, hlen => simp at hlen
      | [_,_], _, hlen => simp at hlen

/-- A rule of a chain begins at its left side or at a link, and holds symbols of the right side
and links. -/
theorem chain_declares {a : Char} {f : Form} {links : List Char} {r : Rule}
    (hr : r ∈ chain a f links) : (r.lhs = a ∨ r.lhs ∈ links) ∧
      ∀ s ∈ r.rhs, s ∈ f ∨ ∃ b ∈ links, s = .nonterminal b := by
  fun_induction chain a f links with
  | case1 a s t u rest b links ih =>
    rcases List.mem_cons.mp hr with rfl | hr
    · refine ⟨Or.inl rfl,fun x hx => ?_⟩
      rcases List.mem_cons.mp hx with rfl | hx
      · exact Or.inl List.mem_cons_self
      · exact Or.inr ⟨b,List.mem_cons_self,List.mem_singleton.mp hx⟩
    · obtain ⟨hl,hs⟩ := ih hr
      refine ⟨Or.inr ?_,fun x hx => ?_⟩
      · rcases hl with rfl | hl
        · exact List.mem_cons_self
        · exact List.mem_cons_of_mem _ hl
      · rcases hs x hx with hx | ⟨d,hd,rfl⟩
        · exact Or.inl (List.mem_cons_of_mem _ hx)
        · exact Or.inr ⟨d,List.mem_cons_of_mem _ hd,rfl⟩
  | case2 a f links =>
    rw [List.mem_singleton.mp hr]
    exact ⟨Or.inl rfl,fun x hx => Or.inl hx⟩

theorem chain_length {a : Char} {f : Form} {links : List Char} (hlen : links.length = f.length - 2)
    {r : Rule} (hr : r ∈ chain a f links) : r.rhs.length ≤ 2 ∧ r.rhs.length ≤ f.length := by
  fun_induction chain a f links with
  | case1 a s t u rest b links ih =>
    rcases List.mem_cons.mp hr with rfl | hr
    · simp
    · obtain ⟨h2,hle⟩ := ih (by simp only [List.length_cons] at hlen ⊢; omega) hr
      exact ⟨h2,hle.trans (Nat.le_succ _)⟩
  | case2 a f links hshort =>
    rw [List.mem_singleton.mp hr]
    refine ⟨?_,Nat.le_refl _⟩
    match f, hshort, hlen with
    | [], _, _ => simp
    | [_], _, _ => simp
    | [_,_], _, _ => simp
    | s :: t :: u :: rest, hshort, hlen =>
      cases links with
      | nil => simp at hlen
      | cons b links => exact (hshort s t u rest b links rfl rfl).elim

/-- A short right side needs no link. -/
theorem chain_of_short {a : Char} {f : Form} (hshort : f.length ≤ 2) (links : List Char) :
    chain a f links = [⟨a,f⟩] := by
  match f, hshort with
  | [], _ => rfl
  | [_], _ => rfl
  | [_,_], _ => rfl

/-- Unfolding the links turns a rule of a chain into the right side or the form of a link. -/
theorem unfold_chain {d : Definitions} {a : Char} {f : Form} {links : List Char}
    (hf : ∀ c, .nonterminal c ∈ f → d.lookup c = none)
    (hd : ∀ p ∈ segments f links, d.lookup p.1 = some p.2) {r : Rule}
    (hr : r ∈ chain a f links) : r.lhs = a ∧ d.unfold r.rhs = f ∨
      (r.lhs,d.unfold r.rhs) ∈ segments f links := by
  fun_induction chain a f links with
  | case1 a s t u rest b links ih =>
    have hrest : ∀ c, .nonterminal c ∈ t :: u :: rest → d.lookup c = none :=
      fun c hc => hf c (List.mem_cons_of_mem _ hc)
    have hb := hd (b,t :: u :: rest) List.mem_cons_self
    rcases List.mem_cons.mp hr with rfl | hr
    · left
      have hs : d.unfold [s] = [s] := Definitions.unfold_eq_self fun c hc =>
        hf c (List.mem_singleton.mp hc ▸ List.mem_cons_self)
      have hpair : d.unfold [s,.nonterminal b] = d.unfold [s] ++ d.expand (.nonterminal b) := by
        simp
      rw [hpair, hs, Definitions.expand_of_lookup hb]
      exact ⟨rfl,rfl⟩
    · right
      rcases ih hrest (fun p hp => hd p (List.mem_cons_of_mem _ hp)) hr with ⟨hl,hu⟩ | hmem
      · rw [hl, hu]
        exact List.mem_cons_self
      · exact List.mem_cons_of_mem _ hmem
  | case2 a f links =>
    rw [List.mem_singleton.mp hr]
    exact Or.inl ⟨rfl,Definitions.unfold_eq_self hf⟩

/-- A grammar that holds a chain generates from its left side what the right side reads. -/
theorem generates_of_chain {h : Grammar} {a : Char} {f : Form} {links : List Char}
    (hc : ∀ r ∈ chain a f links, r ∈ h.rules) {w : List Char}
    (hw : Form.Denotes h.Generates f w) : h.Generates a w := by
  fun_induction chain a f links generalizing w with
  | case1 a s t u rest b links ih =>
    obtain ⟨x,y,rfl,hs,hy⟩ := hw
    have hb := ih (fun r hr => hc r (List.mem_cons_of_mem _ hr)) hy
    exact h.generates_closed _ (hc _ List.mem_cons_self) _
      (Form.denotes_pair.mpr ⟨x,y,rfl,hs,hb⟩)
  | case2 a f links => exact h.generates_closed _ (hc _ List.mem_cons_self) w hw

/-! ## All chains -/

@[simp] theorem surplus_nil : surplus [] = 0 := rfl

@[simp] theorem surplus_cons (r : Rule) (rules : List Rule) :
    surplus (r :: rules) = r.surplus + surplus rules := rfl

theorem length_supply {r : Rule} {rules : List Rule} {supply : List Char}
    (hlen : supply.length = surplus (r :: rules)) :
    (supply.take r.surplus).length = r.rhs.length - 2 ∧
      (supply.drop r.surplus).length = surplus rules := by
  rw [surplus_cons] at hlen
  rw [List.length_take, List.length_drop, hlen]
  exact ⟨Nat.min_eq_left (Nat.le_add_right _ _),Nat.add_sub_cancel_left _ _⟩

theorem chainDefinitions_fst {rules : List Rule} {supply : List Char}
    (hlen : supply.length = surplus rules) :
    (chainDefinitions rules supply).map Prod.fst = supply := by
  induction rules generalizing supply with
  | nil => rw [List.length_eq_zero_iff.mp hlen]; rfl
  | cons r rules ih =>
    obtain ⟨hfirst,hrest⟩ := length_supply hlen
    rw [chainDefinitions, List.map_append, segments_fst hfirst, ih hrest, List.take_append_drop]

/-- Every rule that is left belongs to the chain of one rule, with links of its own. -/
theorem exists_of_mem_chains {rules : List Rule} {supply : List Char}
    (hlen : supply.length = surplus rules) {q : Rule} (hq : q ∈ chains rules supply) :
    ∃ r ∈ rules, ∃ links, links.length = r.rhs.length - 2 ∧ (∀ b ∈ links, b ∈ supply) ∧
      q ∈ chain r.lhs r.rhs links := by
  induction rules generalizing supply with
  | nil => simp [chains] at hq
  | cons r rules ih =>
    obtain ⟨hfirst,hrest⟩ := length_supply hlen
    rcases List.mem_append.mp hq with hq | hq
    · exact ⟨r,List.mem_cons_self,supply.take r.surplus,hfirst,fun b => List.mem_of_mem_take,hq⟩
    · obtain ⟨p,hp,links,hl,hmem,hq⟩ := ih hrest hq
      exact ⟨p,List.mem_cons_of_mem _ hp,links,hl,fun b hb => List.mem_of_mem_drop (hmem b hb),hq⟩

theorem exists_chain_subset (rules : List Rule) (supply : List Char) {r : Rule} (hr : r ∈ rules) :
    ∃ links, ∀ q ∈ chain r.lhs r.rhs links, q ∈ chains rules supply := by
  induction rules generalizing supply with
  | nil => simp at hr
  | cons p rules ih =>
    rcases List.mem_cons.mp hr with rfl | hr
    · exact ⟨_,fun q hq => List.mem_append_left _ hq⟩
    · obtain ⟨links,hl⟩ := ih (supply.drop p.surplus) hr
      exact ⟨links,fun q hq => List.mem_append_right _ (hl q hq)⟩

theorem unfold_chains {d : Definitions} {rules : List Rule} {supply : List Char}
    (hrules : ∀ r ∈ rules, ∀ c, .nonterminal c ∈ r.rhs → d.lookup c = none)
    (hd : ∀ p ∈ chainDefinitions rules supply, d.lookup p.1 = some p.2) {q : Rule}
    (hq : q ∈ chains rules supply) :
    ⟨q.lhs,d.unfold q.rhs⟩ ∈ rules ∨ (q.lhs,d.unfold q.rhs) ∈ chainDefinitions rules supply := by
  induction rules generalizing supply with
  | nil => simp [chains] at hq
  | cons r rules ih =>
    rcases List.mem_append.mp hq with hq | hq
    · have hu := unfold_chain (hrules r List.mem_cons_self)
        (fun p hp => hd p (List.mem_append_left _ hp)) hq
      rcases hu with ⟨hl,hu⟩ | hmem
      · left
        rw [hl, hu]
        exact List.mem_cons_self
      · exact Or.inr (List.mem_append_left _ hmem)
    · have hu := ih (fun p hp => hrules p (List.mem_cons_of_mem _ hp))
        (fun p hp => hd p (List.mem_append_right _ hp)) hq
      rcases hu with hmem | hmem
      · exact Or.inl (List.mem_cons_of_mem _ hmem)
      · exact Or.inr (List.mem_append_right _ hmem)

theorem surplus_of_short {rules : List Rule} (hshort : ∀ r ∈ rules, r.rhs.length ≤ 2) :
    surplus rules = 0 := by
  induction rules with
  | nil => rfl
  | cons r rules ih =>
    have hr : r.surplus = 0 := Nat.sub_eq_zero_of_le (hshort r List.mem_cons_self)
    rw [surplus_cons, hr, ih fun q hq => hshort q (List.mem_cons_of_mem _ hq)]

theorem chains_of_short {rules : List Rule} (hshort : ∀ r ∈ rules, r.rhs.length ≤ 2)
    (supply : List Char) : chains rules supply = rules := by
  induction rules with
  | nil => rfl
  | cons r rules ih =>
    have hr : r.surplus = 0 := Nat.sub_eq_zero_of_le (hshort r List.mem_cons_self)
    rw [chains, hr, List.take_zero, List.drop_zero, chain_of_short (hshort r List.mem_cons_self),
      ih fun q hq => hshort q (List.mem_cons_of_mem _ hq)]
    rfl

/-! ## The grammar that is left -/

namespace Grammar

variable {g h : Grammar}

def links (g : Grammar) : List Char := g.unused.take (surplus g.rules)

/-- The grammar that splitting leaves if the supply suffices. -/
def split (g : Grammar) : Grammar :=
  { g.declaring g.links with rules := Ascending.ofList (chains g.rules g.links) }

theorem splitLong_eq (g : Grammar) : g.splitLong =
    if g.unused.length < surplus g.rules then .error .outOfNonterminals else .ok g.split := by
  simp only [splitLong, allocate_eq]
  split <;> rfl

theorem splitLong_eq_ok :
    g.splitLong = .ok h ↔ surplus g.rules ≤ g.unused.length ∧ h = g.split := by
  rw [splitLong_eq, ← Nat.not_lt]
  split <;> simp_all [eq_comm]

theorem mem_split_rules {r : Rule} : r ∈ g.split.rules ↔ r ∈ chains g.rules g.links := by
  simp [split]

theorem mem_split_nonterminals {a : Char} :
    a ∈ g.split.nonterminals ↔ a ∈ g.links ∨ a ∈ g.nonterminals := mem_declaring

section Supply
variable (hg : g.WellFormed) (hcap : surplus g.rules ≤ g.unused.length)

include hcap in
theorem length_links : g.links.length = surplus g.rules := by
  rw [links, List.length_take]
  exact Nat.min_eq_left hcap

include hcap in
theorem lookup_chainDefinitions_none {a : Char} (ha : a ∉ g.links) :
    (chainDefinitions g.rules g.links).lookup a = none := by
  apply lookup_of_not_mem
  rwa [chainDefinitions_fst (length_links hcap)]

include hcap in
theorem lookup_chainDefinitions_of_declared {a : Char} (ha : a ∈ g.nonterminals) :
    (chainDefinitions g.rules g.links).lookup a = none :=
  lookup_chainDefinitions_none hcap fun hl => not_declared_of_mem_take hl ha

include hg hcap in
theorem lookup_chainDefinitions {p : Char × Form} (hp : p ∈ chainDefinitions g.rules g.links) :
    (chainDefinitions g.rules g.links).lookup p.1 = some p.2 := by
  refine lookup_of_mem ?_ hp
  rw [chainDefinitions_fst (length_links hcap)]
  exact hg.nodup_take_unused _

include hg hcap in
theorem explains_split : (chainDefinitions g.rules g.links).Explains g g.split := by
  intro q hq
  have hrules : ∀ r ∈ g.rules, ∀ c, .nonterminal c ∈ r.rhs →
      (chainDefinitions g.rules g.links).lookup c = none := fun r hr c hc =>
    lookup_chainDefinitions_of_declared hcap (hg.rhs_declared r hr _ hc)
  rcases unfold_chains hrules (fun _ => lookup_chainDefinitions hg hcap)
    (mem_split_rules.mp hq) with hmem | hmem
  · have hl := hg.lhs_declared _ hmem
    exact Or.inr ⟨lookup_chainDefinitions_of_declared hcap hl,hmem⟩
  · exact Or.inl (lookup_chainDefinitions hg hcap hmem)

theorem closed_split (g : Grammar) : g.Closed g.split.Generates := by
  intro r hr w hw
  obtain ⟨links,hl⟩ := exists_chain_subset g.rules g.links hr
  exact generates_of_chain (fun q hq => mem_split_rules.mpr (hl q hq)) hw

include hg hcap in
/-- All non-terminals but the links keep their languages. -/
theorem generates_split {a : Char} (ha : a ∉ g.links) {w : List Char} :
    g.split.Generates a w ↔ g.Generates a w := by
  have hundefined := lookup_chainDefinitions_none hcap ha
  constructor
  · intro hw
    exact (explains_split hg hcap).generates_of_undefined hundefined hw
  · intro hw
    exact hw.least (closed_split g)

include hcap in
theorem split_length {r : Rule} (hr : r ∈ g.split.rules) : r.rhs.length ≤ 2 := by
  obtain ⟨_,_,_,hlen,_,hq⟩ := exists_of_mem_chains (length_links hcap) (mem_split_rules.mp hr)
  exact (chain_length hlen hq).1

include hcap in
theorem split_shape (hshape : ∀ r ∈ g.rules, 2 ≤ r.rhs.length → ∀ s ∈ r.rhs, ∃ a, s = .nonterminal a)
    {r : Rule} (hr : r ∈ g.split.rules) (hlen : 2 ≤ r.rhs.length) {s : Symbol} (hs : s ∈ r.rhs) :
    ∃ a, s = .nonterminal a := by
  obtain ⟨q,hq,_,hl,_,hc⟩ := exists_of_mem_chains (length_links hcap) (mem_split_rules.mp hr)
  rcases (chain_declares hc).2 s hs with hs | ⟨b,_,rfl⟩
  · exact hshape q hq (hlen.trans (chain_length hl hc).2) s hs
  · exact ⟨b,rfl⟩

include hg hcap in
theorem WellFormed.split : g.split.WellFormed where
  alphabet := hg.alphabet
  nonterminals_ascending := (hg.declaring _).nonterminals_ascending
  nonterminals_subset := (hg.declaring _).nonterminals_subset
  terminals_ascending := hg.terminals_ascending
  terminals_subset := hg.terminals_subset
  rules_ascending := Ascending.pairwise_ofList _
  lhs_declared r hr := by
    obtain ⟨q,hq,_,_,hl,hc⟩ := exists_of_mem_chains (length_links hcap) (mem_split_rules.mp hr)
    rcases (chain_declares hc).1 with he | hmem
    · exact mem_split_nonterminals.mpr (Or.inr (he ▸ hg.lhs_declared q hq))
    · exact mem_split_nonterminals.mpr (Or.inl (hl _ hmem))
  rhs_declared r hr s hs := by
    obtain ⟨q,hq,_,_,hl,hc⟩ := exists_of_mem_chains (length_links hcap) (mem_split_rules.mp hr)
    rcases (chain_declares hc).2 s hs with hs | ⟨b,hb,rfl⟩
    · exact (hg.rhs_declared q hq s hs).mono
        (fun _ ha => mem_split_nonterminals.mpr (Or.inr ha)) fun _ hc => hc
    · exact mem_split_nonterminals.mpr (Or.inl (hl b hb))

end Supply

/-- Nothing happens to a grammar with short right sides. -/
theorem split_eq_self (hg : g.WellFormed) (hshort : ∀ r ∈ g.rules, r.rhs.length ≤ 2) :
    g.split = g := by
  have hlinks : g.links = [] := by
    rw [links, surplus_of_short hshort, List.take_zero]
  rw [split, hlinks, chains_of_short hshort, Ascending.ofList_eq_self hg.rules_ascending]
  rfl

end Grammar

end WordProblem

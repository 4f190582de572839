import WordProblem.Proofs.Normal.Extension
import WordProblem.Proofs.Normal.Isolation

/-! # Fresh non-terminals unfold to what they stand for

Both passes that hand out fresh non-terminals extend the grammar by definitions: a proxy stands for
a terminal, a link for the end of a long right side.
-/
namespace WordProblem

/-! ## Proxies -/

namespace Grammar

variable {g h : Grammar}

theorem mem_take_unused_iff {n : Nat} {a : Char} : a ∈ g.unused.take n ↔
    a ∈ (g.declaring (g.unused.take n)).nonterminals ∧ a ∉ g.nonterminals := by
  rw [mem_declaring]
  constructor
  · intro ha
    exact ⟨Or.inl ha,not_declared_of_mem_take ha⟩
  · rintro ⟨ha | ha,hnew⟩
    · exact ha
    · exact absurd ha hnew

theorem mem_isolated_letter (hg : g.WellFormed) {a c : Char} (ha : a ∉ g.nonterminals) :
    ⟨a,[.terminal c]⟩ ∈ g.isolated.rules ↔ (c,a) ∈ g.proxies := by
  rw [mem_isolated_rules]
  constructor
  · rintro (⟨q,hq,he⟩ | ⟨d,b,hp,he⟩)
    · have hl : q.lhs = a := by simpa using congrArg Rule.lhs he
      exact absurd (hl ▸ hg.lhs_declared q hq) ha
    · cases he
      exact hp
  · intro hp
    exact Or.inr ⟨c,a,hp,rfl⟩

theorem extends_isolated (hg : g.WellFormed) : g.proxyDefinitions.Extends g g.isolated where
  explains := explains_isolated hg
  nodup := by
    rw [proxyDefinitions_fst, proxies_snd]
    exact hg.nodup_take_unused _
  names a := by
    rw [proxyDefinitions_fst, proxies_snd]
    exact mem_take_unused_iff
  rules := by
    refine ⟨_,_,isolated_rules_perm hg,?_,?_⟩
    · rw [List.map_map]
      refine (List.map_congr_left fun r hr => ?_).trans (List.map_id _)
      simp [Definitions.unfoldRule, unfold_isolate hg hr]
    · simp [proxyDefinitions, Function.comp_def]
  derives p hp := by
    obtain ⟨⟨c,a⟩,hproxy,rfl⟩ := List.mem_map.mp hp
    have hnew := not_declared_of_mem_take (proxy_fresh hproxy)
    have hrule : ⟨a,[.terminal c]⟩ ∈ (g.additions g.isolated).rules :=
      mem_additions.mpr ⟨(mem_isolated_letter hg hnew).mpr hproxy,hnew⟩
    exact derives_rhs hrule

theorem exists_letter {a : Char} (ha : a ∈ g.isolated.nonterminals ∧ a ∉ g.nonterminals) :
    ∃ c, (c,a) ∈ g.proxies := by
  have hproxy : a ∈ g.proxies.map Prod.snd := by
    rw [proxies_snd]
    exact mem_take_unused_iff.mpr ha
  obtain ⟨⟨c,_⟩,hp,rfl⟩ := List.mem_map.mp hproxy
  exact ⟨c,hp⟩

end Grammar

/-! ## Links -/

/-- The rules of a chain belong to its left side and to the links, in this order. -/
theorem chain_lhs (a : Char) (f : Form) (links : List Char) :
    (chain a f links).map Rule.lhs = a :: (segments f links).map Prod.fst := by
  fun_induction chain a f links with
  | case1 a s t u rest b links ih => simp [segments, ih]
  | case2 a f links => simp [segments]

/-- Beyond the symbols of its right side a chain holds each link once. -/
theorem chain_occurrences (a : Char) (f : Form) (links : List Char) :
    ((chain a f links).flatMap Rule.rhs).Perm
      (f ++ (segments f links).map fun p => .nonterminal p.1) := by
  fun_induction chain a f links with
  | case1 a s t u rest b links ih =>
    have hlink := (ih.cons (.nonterminal b)).cons s
    refine hlink.trans (List.Perm.cons s ?_)
    rw [segments, List.map_cons]
    exact List.perm_middle.symm
  | case2 a f links => simp [segments]

theorem derives_chain {k : Grammar} {a : Char} {f : Form} {links : List Char}
    (hk : ∀ r ∈ chain a f links, r ∈ k.rules) : k.Derives [.nonterminal a] f := by
  fun_induction chain a f links with
  | case1 a s t u rest b links ih =>
    have hfirst := Grammar.derives_rhs (hk _ List.mem_cons_self)
    have hrest := ih fun r hr => hk r (List.mem_cons_of_mem _ hr)
    exact hfirst.trans (by simpa using hrest.context [s] [])
  | case2 a f links => exact Grammar.derives_rhs (hk _ List.mem_cons_self)

/-- The rules of the links alone lead from a link to what it stands for. -/
theorem derives_segment {k : Grammar} {a : Char} {f : Form} {links : List Char}
    (hk : ∀ r ∈ chain a f links, r.lhs ∈ (segments f links).map Prod.fst → r ∈ k.rules)
    {p : Char × Form} (hp : p ∈ segments f links) : k.Derives [.nonterminal p.1] p.2 := by
  fun_induction segments f links generalizing a with
  | case1 s t u rest b links ih =>
    rcases List.mem_cons.mp hp with rfl | hp
    · have hrules : ∀ r ∈ chain b (t :: u :: rest) links, r ∈ k.rules := by
        intro r hr
        have hl : r.lhs ∈ b :: (segments (t :: u :: rest) links).map Prod.fst := by
          rw [← chain_lhs]
          exact List.mem_map_of_mem hr
        exact hk r (List.mem_cons_of_mem _ hr) hl
      exact derives_chain hrules
    · exact ih (a := b)
        (fun r hr hl => hk r (List.mem_cons_of_mem _ hr) (List.mem_cons_of_mem _ hl)) hp
  | case2 f links hshort => cases hp

/-- The first rule of a chain unfolds to the rule that was split, the others are those of links. -/
theorem exists_chain_parts {d : Definitions} {a : Char} {f : Form} {links : List Char}
    (hf : ∀ c, .nonterminal c ∈ f → d.lookup c = none)
    (hd : ∀ p ∈ segments f links, d.lookup p.1 = some p.2)
    (ha : a ∉ (segments f links).map Prod.fst) :
    ∃ head tail, chain a f links = head :: tail ∧ d.unfoldRule head = ⟨a,f⟩ ∧
      tail.map Rule.lhs = (segments f links).map Prod.fst := by
  obtain ⟨head,tail,hchain,hhead,htail⟩ := List.map_eq_cons_iff.mp (chain_lhs a f links)
  refine ⟨head,tail,hchain,?_,htail⟩
  have hmem : head ∈ chain a f links := by simp [hchain]
  rcases unfold_chain hf hd hmem with ⟨_,hu⟩ | hsegment
  · simp [Definitions.unfoldRule, hhead, hu]
  · rw [hhead] at hsegment
    exact absurd (List.mem_map_of_mem hsegment) ha

theorem exists_chains_parts {d : Definitions} {rules : List Rule} {supply : List Char}
    (hrules : ∀ r ∈ rules, ∀ c, .nonterminal c ∈ r.rhs → d.lookup c = none)
    (hd : ∀ p ∈ chainDefinitions rules supply, d.lookup p.1 = some p.2)
    (hfresh : ∀ r ∈ rules, r.lhs ∉ (chainDefinitions rules supply).map Prod.fst) :
    ∃ old new, (chains rules supply).Perm (old ++ new) ∧ old.map d.unfoldRule = rules ∧
      new.map Rule.lhs = (chainDefinitions rules supply).map Prod.fst := by
  induction rules generalizing supply with
  | nil => exact ⟨[],[],.nil,rfl,rfl⟩
  | cons r rules ih =>
    simp only [chainDefinitions, List.map_append, List.mem_append] at hd hfresh ⊢
    obtain ⟨head,tail,hchain,hhead,htail⟩ := exists_chain_parts
      (hrules r List.mem_cons_self) (fun p hp => hd p (Or.inl hp))
      fun hl => hfresh r List.mem_cons_self (Or.inl hl)
    obtain ⟨old,new,hperm,hold,hnew⟩ := ih
      (fun q hq => hrules q (List.mem_cons_of_mem _ hq)) (fun p hp => hd p (Or.inr hp))
      fun q hq hl => hfresh q (List.mem_cons_of_mem _ hq) (Or.inr hl)
    refine ⟨head :: old,tail ++ new,?_,by simp [hhead, hold],by simp [htail, hnew]⟩
    rw [chains, hchain]
    refine ((hperm.append_left tail).trans ?_).cons head
    exact List.perm_append_comm_assoc tail old new

theorem chains_occurrences (rules : List Rule) (supply : List Char) :
    ((chains rules supply).flatMap Rule.rhs).Perm (rules.flatMap Rule.rhs ++
      (chainDefinitions rules supply).map fun p => .nonterminal p.1) := by
  induction rules generalizing supply with
  | nil => exact .nil
  | cons r rules ih =>
    simp only [chains, chainDefinitions, List.flatMap_append, List.flatMap_cons, List.map_append,
      List.append_assoc]
    refine ((chain_occurrences r.lhs r.rhs _).append (ih _)).trans ?_
    rw [List.append_assoc]
    exact (List.perm_append_comm_assoc _ _ _).append_left _

/-- A link stands for the end of a right side, in a chain of its own. -/
theorem exists_of_mem_chainDefinitions {rules : List Rule} {supply : List Char} {p : Char × Form}
    (hp : p ∈ chainDefinitions rules supply) : ∃ r ∈ rules, ∃ links, p ∈ segments r.rhs links ∧
      (∀ q ∈ chain r.lhs r.rhs links, q ∈ chains rules supply) ∧
      ∀ x ∈ segments r.rhs links, x ∈ chainDefinitions rules supply := by
  induction rules generalizing supply with
  | nil => cases hp
  | cons r rules ih =>
    rcases List.mem_append.mp hp with hp | hp
    · exact ⟨r,List.mem_cons_self,_,hp,fun q hq => List.mem_append_left _ hq,
        fun x hx => List.mem_append_left _ hx⟩
    · obtain ⟨q,hq,links,hp,hrules,hnames⟩ := ih hp
      exact ⟨q,List.mem_cons_of_mem _ hq,links,hp,fun x hx => List.mem_append_right _ (hrules x hx),
        fun x hx => List.mem_append_right _ (hnames x hx)⟩

namespace Grammar

variable {g h : Grammar}

section Split
variable (hg : g.WellFormed) (hcap : surplus g.rules ≤ g.unused.length)

include hg hcap in
theorem exists_split_parts : ∃ old new, (chains g.rules g.links).Perm (old ++ new) ∧
    old.map (chainDefinitions g.rules g.links).unfoldRule = g.rules ∧
    new.map Rule.lhs = (chainDefinitions g.rules g.links).map Prod.fst := by
  apply exists_chains_parts
  · intro r hr c hc
    exact lookup_chainDefinitions_of_declared hcap (hg.rhs_declared r hr _ hc)
  · intro p hp
    exact lookup_chainDefinitions hg hcap hp
  · intro r hr hl
    rw [chainDefinitions_fst (length_links hcap)] at hl
    exact not_declared_of_mem_take hl (hg.lhs_declared r hr)

theorem nodup_links (hg : g.WellFormed) : g.links.Nodup := hg.nodup_take_unused _

include hg hcap in
/-- No two chains share a rule, and no rule of a link was there before. -/
theorem split_rules_perm : g.split.rules.Perm (chains g.rules g.links) := by
  obtain ⟨old,new,hperm,hold,hnew⟩ := exists_split_parts hg hcap
  rw [chainDefinitions_fst (length_links hcap)] at hnew
  apply Ascending.ofList_perm
  rw [hperm.nodup_iff]
  refine List.Nodup.append ?_ ?_ ?_
  · exact .of_map _ (hold ▸ hg.rules_ascending.nodup)
  · exact .of_map _ (hnew ▸ nodup_links hg)
  · intro r hr hlink
    have hrule := List.mem_map_of_mem (f := (chainDefinitions g.rules g.links).unfoldRule) hr
    rw [hold] at hrule
    have hl := hg.lhs_declared _ hrule
    have hfresh : r.lhs ∈ g.links := hnew ▸ List.mem_map_of_mem hlink
    exact not_declared_of_mem_take hfresh hl

include hg hcap in
theorem extends_split : (chainDefinitions g.rules g.links).Extends g g.split where
  explains := explains_split hg hcap
  nodup := by
    rw [chainDefinitions_fst (length_links hcap)]
    exact nodup_links hg
  names a := by
    rw [chainDefinitions_fst (length_links hcap)]
    exact mem_take_unused_iff
  rules := by
    obtain ⟨old,new,hperm,hparts⟩ := exists_split_parts hg hcap
    exact ⟨old,new,(split_rules_perm hg hcap).trans hperm,hparts⟩
  derives p hp := by
    obtain ⟨r,hr,links,hp,hrules,hnames⟩ := exists_of_mem_chainDefinitions hp
    refine derives_segment (a := r.lhs) ?_ hp
    intro q hq hl
    obtain ⟨x,hx,hl⟩ := List.mem_map.mp hl
    have hlink : q.lhs ∈ g.links := by
      rw [← chainDefinitions_fst (length_links hcap), ← hl]
      exact List.mem_map_of_mem (hnames x hx)
    rw [mem_additions, mem_split_rules]
    exact ⟨hrules q hq,not_declared_of_mem_take hlink⟩

include hg hcap in
theorem count_link {b : Char} (hb : b ∈ g.links) :
    (g.split.rules.flatMap Rule.rhs).count (.nonterminal b) = 1 := by
  have hperm := ((split_rules_perm hg hcap).flatMap_right Rule.rhs).trans
    (chains_occurrences g.rules g.links)
  have hold : (g.rules.flatMap Rule.rhs).count (.nonterminal b) = 0 := by
    rw [List.count_eq_zero]
    intro hmem
    obtain ⟨r,hr,hs⟩ := List.mem_flatMap.mp hmem
    exact not_declared_of_mem_take hb (hg.rhs_declared r hr _ hs)
  have hnew : ((chainDefinitions g.rules g.links).map fun p => Symbol.nonterminal p.1) =
      g.links.map .nonterminal := by
    conv_rhs => rw [← chainDefinitions_fst (length_links hcap), List.map_map]
    rfl
  have hinj : Function.Injective Symbol.nonterminal := fun _ _ => Symbol.nonterminal.inj
  rw [hperm.count_eq, List.count_append, hold, hnew, List.count_map_of_injective _ _ hinj,
    List.count_eq_one_of_mem (nodup_links hg) hb]

end Split

/-! ## Both passes -/

/-- Unfolding undoes both passes. A proxy has one rule, for a terminal of its own. A link has one rule
and stands in one place. Either way there is one rule more for each fresh non-terminal. -/
theorem fresh_unfolds (hg : g.Built) :
    (∀ h, g.isolateTerminals = .ok h →
      (∀ a ∈ g.added h, ∃ c, h.rulesOf a = [⟨a,[.terminal c]⟩]) ∧
      (∀ a ∈ g.added h, ∀ b ∈ g.added h, ∀ c,
        ⟨a,[.terminal c]⟩ ∈ h.rules → ⟨b,[.terminal c]⟩ ∈ h.rules → a = b) ∧
      g.RestoredFrom h ∧ h.rules.length = g.rules.length + (g.added h).card) ∧
    (∀ h, g.splitLong = .ok h →
      (∀ a ∈ g.added h, (∃ rhs, h.rulesOf a = [⟨a,rhs⟩]) ∧
        (h.rules.flatMap Rule.rhs).count (.nonterminal a) = 1) ∧
      g.RestoredFrom h ∧ h.rules.length = g.rules.length + (g.added h).card) := by
  have hw := hg.wellFormed
  constructor
  · intro h hh
    obtain ⟨hcap,rfl⟩ := isolateTerminals_eq_ok.mp hh
    have hd := extends_isolated hw
    refine ⟨?_,?_,hd.restoredFrom hw,hd.length_rules hw⟩
    · intro a ha
      obtain ⟨c,hp⟩ := exists_letter (mem_added.mp ha)
      have hrule := (mem_isolated_letter hw (mem_added.mp ha).2).mpr hp
      exact ⟨c,hd.rulesOf_lhs hw hw.isolated hrule ha⟩
    · intro a ha b hb c hac hbc
      have hpa := lookup_proxies hcap ((mem_isolated_letter hw (mem_added.mp ha).2).mp hac)
      have hpb := lookup_proxies hcap ((mem_isolated_letter hw (mem_added.mp hb).2).mp hbc)
      exact Option.some.inj (hpa.symm.trans hpb)
  · intro h hh
    obtain ⟨hcap,rfl⟩ := splitLong_eq_ok.mp hh
    have hd := extends_split hw hcap
    refine ⟨?_,hd.restoredFrom hw,hd.length_rules hw⟩
    intro a ha
    obtain ⟨r,hr,rfl⟩ := hd.exists_rule hw ha
    have hlink : r.lhs ∈ g.links := mem_take_unused_iff.mpr (mem_added.mp ha)
    exact ⟨⟨r.rhs,hd.rulesOf_lhs hw (hw.split hcap) hr ha⟩,count_link hw hcap hlink⟩

/-- The right side `(S)S` is cut twice. Both of its halves are put together again. -/
theorem fresh_unfolds_brackets :
    (∃ h, brackets.isolateTerminals = .ok h ∧ h.rulesOf 'B' = [⟨'B',[.terminal ')']⟩] ∧
      ⟨'S',[.nonterminal 'A',.nonterminal 'S',.nonterminal 'B',.nonterminal 'S']⟩ ∈ h.rules ∧
      brackets.RestoredFrom h) ∧
    ∃ h, brackets.splitLong = .ok h ∧ brackets.added h = {'A','B'} ∧
      ⟨'A',[.nonterminal 'S',.nonterminal 'B']⟩ ∈ h.rules ∧
      (h.rules.flatMap Rule.rhs).count (.nonterminal 'B') = 1 ∧ brackets.RestoredFrom h ∧
      h.rules.length = brackets.rules.length + 2 := by
  obtain ⟨hproxies,hlinks⟩ := fresh_unfolds brackets_built
  have hi : brackets.isolateTerminals = .ok brackets.isolated :=
    isolateTerminals_eq_ok.mpr ⟨by decide,rfl⟩
  have hl : brackets.splitLong = .ok brackets.split := splitLong_eq_ok.mpr ⟨by decide,rfl⟩
  have hadded : brackets.added brackets.split = {'A','B'} := by decide +kernel
  obtain ⟨_,_,hrestored,_⟩ := hproxies _ hi
  obtain ⟨honce,hagain,hlength⟩ := hlinks _ hl
  rw [hadded] at honce hlength
  refine ⟨⟨_,hi,by decide +kernel,by decide +kernel,hrestored⟩,
    _,hl,hadded,by decide +kernel,(honce 'B' (by decide)).2,hagain,hlength⟩

end Grammar

end WordProblem

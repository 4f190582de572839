import WordProblem.Proofs.Normal.Renewal

/-! # Useful non-terminals and derivations

The two removals of useless non-terminals are compared with derivations. A path of rules leads from
the start symbol to a non-terminal exactly if some form derived from the start symbol holds it, and
the forms without barren non-terminals are those that lead to words. So what both removals leave is
what derivations of words go through, in the grammar that is left and in the one before alike.
-/
namespace WordProblem

/-- All non-terminals of the form are in `keep`. -/
def Form.Over (keep : List Char) (f : Form) : Prop := ∀ a, .nonterminal a ∈ f → a ∈ keep

@[simp] theorem Form.over_append {keep : List Char} {f k : Form} :
    Form.Over keep (f ++ k) ↔ Form.Over keep f ∧ Form.Over keep k := by
  simp [Form.Over, or_imp, forall_and]

@[simp] theorem Form.over_nonterminal_cons {keep : List Char} {a : Char} {f : Form} :
    Form.Over keep (.nonterminal a :: f) ↔ a ∈ keep ∧ Form.Over keep f := by
  simp [Form.Over, or_imp, forall_and]

namespace Grammar

variable {g b u : Grammar}

/-- The form `f` can be derived from the start symbol. -/
def Sentential (g : Grammar) (f : Form) : Prop := g.Derives [.nonterminal g.start] f

/-- Some form derived from the start symbol holds `a`. -/
def Occurs (g : Grammar) (a : Char) : Prop := ∃ f, g.Sentential f ∧ .nonterminal a ∈ f

/-- Some derivation of a word from the start symbol goes through a form that holds `a`. -/
def Employs (g : Grammar) (a : Char) : Prop :=
  ∃ f, g.Sentential f ∧ .nonterminal a ∈ f ∧ ∃ w, g.Derives f (.ofWord w)

/-- Some derivation of a word from the start symbol replaces the left side of `r` by its right
side. -/
def Applies (g : Grammar) (r : Rule) : Prop :=
  r ∈ g.rules ∧ ∃ before after, g.Sentential (before ++ .nonterminal r.lhs :: after) ∧
    ∃ w, g.Derives (before ++ r.rhs ++ after) (.ofWord w)

/-! ## Derivations and paths -/

/-- A derivation brings in only what paths lead to. -/
theorem Derives.exists_path {f k : Form} (h : g.Derives f k) {a : Char}
    (ha : .nonterminal a ∈ k) : ∃ c, .nonterminal c ∈ f ∧ Path g.edges c a := by
  induction h generalizing a with
  | refl => exact ⟨a,ha,.refl⟩
  | tail _ step ih =>
    obtain ⟨before,after,hr⟩ := step
    rcases List.mem_append.mp ha with ha | ha
    · rcases List.mem_append.mp ha with ha | ha
      · exact ih (List.mem_append_left _ ha)
      · obtain ⟨c,hc,hpath⟩ := ih (List.mem_append_right before List.mem_cons_self)
        exact ⟨c,hc,hpath.tail (joined_edges.mpr ⟨_,hr,rfl,ha⟩)⟩
    · exact ih (List.mem_append_right before (List.mem_cons_of_mem _ ha))

theorem Sentential.replace {before after : Form} {r : Rule}
    (hf : g.Sentential (before ++ .nonterminal r.lhs :: after)) (hr : r ∈ g.rules) :
    g.Sentential (before ++ r.rhs ++ after) := .tail hf (.replace before after hr)

/-- Along a path one rule after another is applied where the one before has left the next
non-terminal. -/
theorem sentential_of_path {a : Char} (hp : Path g.edges g.start a) :
    ∃ before after, g.Sentential (before ++ .nonterminal a :: after) := by
  induction hp with
  | refl => exact ⟨[],[],.refl _⟩
  | tail _ he ih =>
    obtain ⟨r,hr,rfl,ha⟩ := joined_edges.mp he
    obtain ⟨before,after,hf⟩ := ih
    obtain ⟨x,y,hrhs⟩ := List.append_of_mem ha
    have hnext := hf.replace hr
    rw [hrhs] at hnext
    exact ⟨before ++ x,y ++ after,by simpa using hnext⟩

theorem mem_reachable_iff_occurs {a : Char} : a ∈ g.reachable ↔ g.Occurs a := by
  rw [mem_reachable]
  constructor
  · intro hp
    obtain ⟨before,after,hf⟩ := sentential_of_path hp
    exact ⟨_,hf,List.mem_append_right before List.mem_cons_self⟩
  · rintro ⟨f,hf,ha⟩
    obtain ⟨c,hc,hp⟩ := hf.exists_path ha
    cases List.mem_singleton.mp hc
    exact hp

theorem dropUnreachable_nonterminals_of_undeclared (hg : g.WellFormed)
    (hs : g.start ∉ g.nonterminals) : g.dropUnreachable.nonterminals = [] := by
  refine List.eq_nil_iff_forall_not_mem.mpr fun a ha => ?_
  obtain ⟨ha,hr⟩ := mem_restrict_nonterminals.mp ha
  -- a path from the start symbol would begin with one of its rules
  rcases Relation.ReflTransGen.cases_head (mem_reachable.mp hr) with rfl | ⟨c,he,_⟩
  · exact hs ha
  · obtain ⟨r,hr,hl,_⟩ := joined_edges.mp he
    exact hs (hl ▸ hg.lhs_declared r hr)

/-! ## Derivations that end in words -/

theorem Derives.denotes_word {f : Form} {w : List Char} (h : g.Derives f (.ofWord w)) :
    Form.Denotes g.Generates f w :=
  h.denotes g.generates_closed (Form.denotes_ofWord _ w)

theorem exists_word_iff (hg : g.WellFormed) {f : Form} :
    (∃ w, g.Derives f (.ofWord w)) ↔ Form.Over g.productive f := by
  constructor
  · rintro ⟨w,hw⟩ a ha
    obtain ⟨v,_,hv⟩ := hw.denotes_word.exists_word ha
    exact (mem_productive hg).mpr ⟨v,hv⟩
  · intro hf
    have hsettled : f.all (·.settled (fun _ => true) g.productive) = true := by
      refine List.all_eq_true.mpr fun s hs => ?_
      cases s with
      | terminal c => rfl
      | nonterminal a => exact List.contains_iff_mem.mpr (hf a hs)
    obtain ⟨w,hw,_⟩ := exists_word_of_settled (fun _ => (mem_generators hg).mp) hsettled
    exact ⟨w,derives_of_denotes hw⟩

/-- A derivation can be made with the rules that are left if it ends in a form of kept
non-terminals, provided that a left side is kept together with all of its right side. -/
theorem derives_restrict {keep : List Char}
    (hkeep : ∀ r ∈ g.rules, Form.Over keep r.rhs → r.lhs ∈ keep) {f k : Form}
    (hf : Form.Over keep f) :
    (g.restrict keep).Derives f k ↔ g.Derives f k ∧ Form.Over keep k := by
  constructor
  · intro h
    induction h with
    | refl => exact ⟨.refl _,hf⟩
    | tail _ step ih =>
      obtain ⟨before,after,hr⟩ := step
      obtain ⟨hr,_,hrhs⟩ := mem_restrict_rules.mp hr
      obtain ⟨hd,hover⟩ := ih
      simp only [Form.over_append, Form.over_nonterminal_cons] at hover ⊢
      exact ⟨.tail hd (.replace before after hr),⟨hover.1,hrhs⟩,hover.2.2⟩
  · rintro ⟨h,hk⟩
    induction h with
    | refl => exact .refl _
    | tail _ step ih =>
      obtain ⟨before,after,hr⟩ := step
      simp only [Form.over_append, Form.over_nonterminal_cons] at hk ih
      obtain ⟨⟨hbefore,hrhs⟩,hafter⟩ := hk
      -- the form before the step is kept too, so the derivation up to it is there
      have hl := hkeep _ hr hrhs
      exact .tail (ih ⟨hbefore,hl,hafter⟩)
        (.replace before after (mem_restrict_rules.mpr ⟨hr,hl,hrhs⟩))

section Productive
variable (hg : g.WellFormed) (hp : g.start ∈ g.productive)

include hg in
theorem lhs_productive {r : Rule} (hr : r ∈ g.rules) (hrhs : Form.Over g.productive r.rhs) :
    r.lhs ∈ g.productive := by
  obtain ⟨w,hw⟩ := (exists_word_iff hg).mpr hrhs
  exact (mem_productive hg).mpr ⟨w,g.generates_closed r hr w hw.denotes_word⟩

include hg hp in
/-- Without barren non-terminals just those forms are derived that lead to words. -/
theorem sentential_restrict {f : Form} : (g.restrict g.productive).Sentential f ↔
    g.Sentential f ∧ ∃ w, g.Derives f (.ofWord w) := by
  have hstart : Form.Over g.productive [.nonterminal g.start] := by
    intro a ha
    cases List.mem_singleton.mp ha
    exact hp
  rw [exists_word_iff hg]
  exact derives_restrict (fun r => lhs_productive hg) hstart

include hg hp in
theorem occurs_restrict {a : Char} : (g.restrict g.productive).Occurs a ↔ g.Employs a := by
  constructor
  · rintro ⟨f,hf,ha⟩
    obtain ⟨hf,hw⟩ := (sentential_restrict hg hp).mp hf
    exact ⟨f,hf,ha,hw⟩
  · rintro ⟨f,hf,ha,hw⟩
    exact ⟨f,(sentential_restrict hg hp).mpr ⟨hf,hw⟩,ha⟩

include hg hp in
theorem mem_useful_nonterminals {a : Char} : a ∈ g.useful.nonterminals ↔ g.Employs a := by
  rw [useful, dropUnreachable, mem_restrict_nonterminals, mem_reachable_iff_occurs,
    occurs_restrict hg hp, mem_restrict_nonterminals, and_iff_right_iff_imp]
  rintro ⟨f,_,ha,hw⟩
  have hproductive := (exists_word_iff hg).mp hw a ha
  obtain ⟨v,hv⟩ := (mem_productive hg).mp hproductive
  exact ⟨declared_of_generates hg hv,hproductive⟩

include hg hp in
theorem mem_useful_rules {r : Rule} : r ∈ g.useful.rules ↔ g.Applies r := by
  rw [useful, mem_dropUnreachable_rules, mem_reachable_iff_occurs, occurs_restrict hg hp,
    mem_restrict_rules]
  constructor
  · rintro ⟨⟨hr,_,hrhs⟩,f,hf,hl,hw⟩
    obtain ⟨before,after,rfl⟩ := List.append_of_mem hl
    rw [exists_word_iff hg] at hw
    simp only [Form.over_append, Form.over_nonterminal_cons] at hw
    refine ⟨hr,before,after,hf,(exists_word_iff hg).mpr ?_⟩
    simp only [Form.over_append]
    exact ⟨⟨hw.1,hrhs⟩,hw.2.2⟩
  · rintro ⟨hr,before,after,hf,w,hw⟩
    have hover := (exists_word_iff hg).mp ⟨w,hw⟩
    simp only [Form.over_append] at hover
    have hrhs := hover.1.2
    have hword := (Derives.tail (.refl _) (.replace before after hr)).trans hw
    exact ⟨⟨hr,lhs_productive hg hr hrhs,hrhs⟩,
      _,hf,List.mem_append_right before List.mem_cons_self,w,hword⟩

end Productive

/-! ## The removals -/

/-- Non-terminals without words are dropped with all rules that hold them. The start symbol is one of
them just if the language is empty, and every other language stays. -/
theorem dropBarren_language (hg : g.Built) :
    (∀ e, g.dropBarren = .error e ↔ e = .emptyLanguage g.start ∧ ∀ w, ¬g.Accepts w) ∧
    (g.start ∉ g.nonterminals → ∀ w, ¬g.Accepts w) ∧
    ((∃ w, g.Accepts w) → ∃ b, g.dropBarren = .ok b ∧
      (∀ a, a ∈ b.nonterminals ↔ a ∈ g.nonterminals ∧ ∃ w, g.Generates a w) ∧
      (∀ r, r ∈ b.rules ↔ r ∈ g.rules ∧ (∃ w, g.Generates r.lhs w) ∧
        ∀ a, .nonterminal a ∈ r.rhs → ∃ w, g.Generates a w) ∧
      (b.terminals = g.terminals ∧ b.start = g.start ∧ b.alphabet = g.alphabet) ∧
      ∀ a ∈ b.nonterminals, ∀ w, b.Generates a w ↔ g.Generates a w) := by
  have hw := hg.wellFormed
  have hproductive := start_productive_iff hw
  refine ⟨?_,?_,?_⟩
  · intro e
    rw [dropBarren_eq_error, hproductive, not_exists, and_comm]
  · intro hs w haccepts
    exact hs (declared_of_generates hw haccepts)
  · intro hne
    have hok := dropBarren_eq_ok.mpr ⟨hproductive.mpr hne,rfl⟩
    refine ⟨g.restrict g.productive,hok,?_,?_,⟨rfl,rfl,rfl⟩,?_⟩
    · intro a
      rw [mem_restrict_nonterminals, mem_productive hw]
    · intro r
      simp only [mem_restrict_rules, mem_productive hw]
    · intro a _ w
      exact generates_dropBarren hw hok

/-- The word `a` and much that is of no use to it: `B` has no words, nothing leads to `C` and `D`, and
only a rule that holds `B` leads to `A`. -/
def cluttered : Grammar where
  alphabet := ⟨['S','A','B','C','D'],['a','b']⟩
  nonterminals := ['A','B','C','D','S']
  terminals := ['a','b']
  rules := [⟨'A',[.terminal 'a']⟩,⟨'B',[.terminal 'b',.nonterminal 'B']⟩,⟨'C',[.terminal 'b']⟩,
    ⟨'D',[.nonterminal 'S']⟩,⟨'S',[.terminal 'a']⟩,⟨'S',[.nonterminal 'B',.nonterminal 'A']⟩]

theorem cluttered_built : cluttered.Built := by
  have hchosen : cluttered.alphabet.Chosen := ⟨some (['S','A','B','C','D'],['a','b']),by decide⟩
  have hd : (empty cluttered.alphabet).declareAll [.nonterminal 'S',.nonterminal 'A',
      .nonterminal 'B',.nonterminal 'C',.nonterminal 'D',.terminal 'a',.terminal 'b',
      .rule 'S' ['a'],.rule 'S' ['B','A'],.rule 'A' ['a'],.rule 'B' ['b','B'],.rule 'C' ['b'],
      .rule 'D' ['S']] = .ok cluttered := by decide
  exact (Built.empty hchosen).declareAll hd

theorem dropBarren_language_cluttered : cluttered.Accepts ['a'] ∧
    (∃ b, cluttered.dropBarren = .ok b ∧ ⟨'D',[.nonterminal 'S']⟩ ∈ b.rules ∧
      ⟨'S',[.nonterminal 'B',.nonterminal 'A']⟩ ∉ b.rules ∧
      ∀ w, b.Generates 'D' w ↔ cluttered.Generates 'D' w) ∧
    ∀ w, ¬{ cluttered with start := 'B' }.Accepts w := by
  have ha : cluttered.Accepts ['a'] := generates_letter (by decide)
  have hbarren : Built { cluttered with start := 'B' } :=
    cluttered_built.declare (d := .start 'B') (by decide)
  obtain ⟨_,_,hok⟩ := dropBarren_language cluttered_built
  obtain ⟨b,hb,_,_,_,hwords⟩ := hok ⟨_,ha⟩
  obtain ⟨hfail,_⟩ := dropBarren_language hbarren
  have hnone := ((hfail (.emptyLanguage 'B')).mp (by decide +kernel)).2
  refine ⟨ha,⟨b,hb,?_⟩,hnone⟩
  obtain ⟨_,rfl⟩ := dropBarren_eq_ok.mp hb
  exact ⟨by decide +kernel,by decide +kernel,hwords 'D' (by decide +kernel)⟩

/-- The non-terminals that are left are those of derived forms, with all of their rules and all of
their words. Of a start symbol that is not declared nothing can be derived, and nothing is left. -/
theorem dropUnreachable_language (hg : g.Built) :
    (∀ a, a ∈ g.dropUnreachable.nonterminals ↔ a ∈ g.nonterminals ∧ g.Occurs a) ∧
    (∀ r, r ∈ g.dropUnreachable.rules ↔ r ∈ g.rules ∧ g.Occurs r.lhs) ∧
    (g.dropUnreachable.terminals = g.terminals ∧ g.dropUnreachable.start = g.start ∧
      g.dropUnreachable.alphabet = g.alphabet) ∧
    (∀ a ∈ g.dropUnreachable.nonterminals, ∀ w,
      g.dropUnreachable.Generates a w ↔ g.Generates a w) ∧
    (g.start ∉ g.nonterminals →
      g.dropUnreachable.nonterminals = [] ∧ g.dropUnreachable.rules = []) := by
  have hw := hg.wellFormed
  refine ⟨?_,?_,⟨rfl,rfl,rfl⟩,?_,?_⟩
  · intro a
    rw [dropUnreachable, mem_restrict_nonterminals, mem_reachable_iff_occurs]
  · intro r
    rw [mem_dropUnreachable_rules, mem_reachable_iff_occurs]
  · intro a ha w
    exact generates_dropUnreachable (mem_restrict_nonterminals.mp ha).2
  · intro hs
    have hnone := dropUnreachable_nonterminals_of_undeclared hw hs
    refine ⟨hnone,List.eq_nil_iff_forall_not_mem.mpr fun r hr => ?_⟩
    have hl := hw.dropUnreachable.lhs_declared r hr
    rw [hnone] at hl
    cases hl

theorem dropUnreachable_language_cluttered : cluttered.Occurs 'A' ∧ ¬cluttered.Occurs 'D' ∧
    ∀ w, cluttered.dropUnreachable.Generates 'A' w ↔ cluttered.Generates 'A' w := by
  obtain ⟨hnonterminals,_,_,hwords,_⟩ := dropUnreachable_language cluttered_built
  have ha : 'A' ∈ cluttered.dropUnreachable.nonterminals := by decide +kernel
  have hd : 'D' ∉ cluttered.dropUnreachable.nonterminals := by decide +kernel
  refine ⟨((hnonterminals 'A').mp ha).2,?_,hwords 'A' ha⟩
  intro hoccurs
  exact hd ((hnonterminals 'D').mpr ⟨by decide,hoccurs⟩)

/-- After both removals every non-terminal and every rule takes part in the derivation of a word, and
a further removal finds nothing. Nothing that took part in one before is lost. -/
theorem useless_dropped (hg : g.Built) (hb : g.dropBarren = .ok b) (hu : u = b.dropUnreachable) :
    ((∀ a ∈ u.nonterminals, u.Employs a) ∧ ∀ r ∈ u.rules, u.Applies r) ∧
    (u.dropBarren = .ok u ∧ u.dropUnreachable = u) ∧
    (∀ a, a ∈ u.nonterminals ↔ g.Employs a) ∧ ∀ r, r ∈ u.rules ↔ g.Applies r := by
  have hw := hg.wellFormed
  obtain ⟨hp,rfl⟩ := dropBarren_eq_ok.mp hb
  have hpart : u = g.useful := hu
  subst hpart
  have hstart := useful_productive hw (start_useful hw hp)
  refine ⟨⟨?_,?_⟩,⟨?_,dropUnreachable_useful hw⟩,?_,?_⟩
  · intro a ha
    rw [← useful_useful hw] at ha
    exact (mem_useful_nonterminals hw.useful hstart).mp ha
  · intro r hr
    rw [← useful_useful hw] at hr
    exact (mem_useful_rules hw.useful hstart).mp hr
  · exact dropBarren_eq_ok.mpr ⟨hstart,(restrict_useful hw).symm⟩
  · intro a
    exact mem_useful_nonterminals hw hp
  · intro r
    exact mem_useful_rules hw hp

/-- A non-terminal that has a word and stands in a derived form may still be useless. -/
theorem useless_dropped_cluttered : ∃ b u, cluttered.dropBarren = .ok b ∧ u = b.dropUnreachable ∧
    u.Applies ⟨'S',[.terminal 'a']⟩ ∧ u.dropBarren = .ok u ∧ u.dropUnreachable = u ∧
    cluttered.Generates 'A' ['a'] ∧ cluttered.Occurs 'A' ∧ ¬cluttered.Employs 'A' := by
  have hp : cluttered.start ∈ cluttered.productive := by decide +kernel
  have hb := dropBarren_eq_ok.mpr ⟨hp,rfl⟩
  obtain ⟨⟨_,hrules⟩,⟨hbarren,hreach⟩,hemploys,_⟩ := useless_dropped cluttered_built hb rfl
  have ha : cluttered.Generates 'A' ['a'] := generates_letter (by decide)
  refine ⟨_,_,hb,rfl,hrules _ (by decide +kernel),hbarren,hreach,ha,?_,?_⟩
  · exact mem_reachable_iff_occurs.mp (by decide +kernel)
  · intro h
    exact absurd ((hemploys 'A').mpr h) (by decide +kernel)

/-- In the other order `A` stays: it is found reachable before the rule that leads to it goes. -/
example : (cluttered.dropUnreachable.dropBarren.map (·.nonterminals)) = .ok ['A','S'] := by
  decide +kernel

end Grammar

end WordProblem

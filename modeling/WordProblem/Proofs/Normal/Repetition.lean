import WordProblem.Proofs.Normal.Passes
import WordProblem.Proofs.Normal.Splitting

/-! # Repeated passes

What a pass computes for a grammar it computes anew for the grammar that it has left. There the
supply of non-terminals may be used up, but nothing is asked of it: what is left of a grammar has
what the pass aims at, and then the pass leaves it as it is. The one exception is a grammar with
the empty word, to which every removal of empty right sides gives a start symbol of its own.
-/
namespace WordProblem

namespace Grammar

variable {g h : Grammar}

section Again
variable (hg : g.WellFormed)

include hg in
/-- Nobody loses a word with the barren ones, so nobody becomes barren. -/
theorem dropBarren_again (hh : g.dropBarren = .ok h) : h.dropBarren = .ok h := by
  have hrest := hg.dropBarren hh
  have hproductive : ∀ a ∈ g.productive, a ∈ h.productive := by
    intro a ha
    obtain ⟨w,hw⟩ := (mem_productive hg).mp ha
    exact (mem_productive hrest).mpr ⟨w,(generates_dropBarren hg hh).mpr hw⟩
  obtain ⟨hs,rfl⟩ := dropBarren_eq_ok.mp hh
  have hself := restrict_eq_self hrest fun a ha => hproductive a (mem_restrict_nonterminals.mp ha).2
  exact dropBarren_eq_ok.mpr ⟨hproductive _ hs,hself.symm⟩

include hg in
theorem isolateTerminals_again (hh : g.isolateTerminals = .ok h) : h.isolateTerminals = .ok h := by
  obtain ⟨hcap,rfl⟩ := isolateTerminals_eq_ok.mp hh
  have hmixed : g.isolated.mixedTerminals = [] :=
    mixedTerminals_eq_nil fun r hr hlen s hs => isolated_shape hcap hr hlen hs
  exact isolateTerminals_eq_ok.mpr ⟨by simp [hmixed],(isolated_eq_self hg.isolated hmixed).symm⟩

include hg in
theorem splitLong_again (hh : g.splitLong = .ok h) : h.splitLong = .ok h := by
  obtain ⟨hcap,rfl⟩ := splitLong_eq_ok.mp hh
  have hshort : ∀ r ∈ g.split.rules, r.rhs.length ≤ 2 := fun r hr => split_length hcap hr
  exact splitLong_eq_ok.mpr
    ⟨by simp [surplus_of_short hshort],(split_eq_self (hg.split hcap) hshort).symm⟩

include hg in
theorem dropUnits_again : g.dropUnits.dropUnits = g.dropUnits :=
  dropUnits_eq_self hg.dropUnits fun _ hr => ((mem_dropUnits_rules hg).mp hr).2.1

include hg in
/-- A grammar with the empty word gets a further start symbol, any other one stays as it is. -/
theorem dropEpsilon_again_iff (hh : g.dropEpsilon = .ok h) :
    h.dropEpsilon = .ok h ↔ ¬g.Accepts [] := by
  have hw := hg.dropEpsilon hh
  constructor
  · intro hagain hnil
    obtain ⟨_,_,hdeclared⟩ := dropEpsilon_renewed hg hh hnil
    obtain ⟨_,hnew,_⟩ := dropEpsilon_renewed hw hagain ((accepts_nil_dropEpsilon hg hh).mpr hnil)
    exact hnew ((hdeclared h.start).mpr (Or.inl rfl))
  · intro hnil
    rcases dropEpsilon_cases hh with ⟨_,rfl⟩ | ⟨hs,_⟩
    · have hne : ∀ r ∈ g.epsilonFree.rules, r.rhs ≠ [] := fun r hr => (mem_epsilonFree_rules.mp hr).1
      rw [dropEpsilon_of_not_nullable (not_nullable_of_nonempty hw hne), epsilonFree_eq_self hw hne]
    · exact absurd ((mem_nullable hg).mp hs) hnil

end Again

end Grammar

variable {g h : Grammar}

theorem Pass.trace_replicate {p : Pass} (hp : p.apply g = .ok g) (n : Nat) :
    Pass.trace g (List.replicate n p) = (List.replicate n g,none) := by
  induction n with
  | zero => rfl
  | succ n ih => simp [List.replicate_succ, trace, hp, ih]

namespace Grammar

/-- What a pass has left it leaves as it is, however often it is repeated. For the removal of empty
right sides this holds just if the empty word is not in the language. -/
theorem pass_again (hg : g.Built) {p : Pass} (hp : p ∈ Pass.pipeline) (hh : p.apply g = .ok h) :
    (p.apply h = .ok h ↔ (p = .dropEpsilon → ¬g.Accepts [])) ∧
    ((p = .dropEpsilon → ¬g.Accepts []) →
      ∀ n, Pass.trace g (List.replicate (n + 1) p) = (List.replicate (n + 1) h,none)) := by
  have hw := hg.wellFormed
  have hagain : p.apply h = .ok h ↔ (p = .dropEpsilon → ¬g.Accepts []) := by
    cases p with
    | dropBarren => simpa [Pass.apply] using dropBarren_again hw hh
    | dropUnreachable =>
      cases hh
      simpa [Pass.apply] using dropUnreachable_again hw
    | isolateTerminals => simpa [Pass.apply] using isolateTerminals_again hw hh
    | splitLong => simpa [Pass.apply] using splitLong_again hw hh
    | dropEpsilon => simpa [Pass.apply] using dropEpsilon_again_iff hw hh
    | dropUnits =>
      cases hh
      simpa [Pass.apply] using dropUnits_again hw
    | normalForm => simp [Pass.pipeline] at hp
  refine ⟨hagain,fun hnil n => ?_⟩
  rw [List.replicate_succ, Pass.trace, hh]
  simp [Pass.trace_replicate (hagain.mpr hnil), List.replicate_succ]

/-- Splitting has used up the alphabet, and splits again without a complaint. In the other grammar
the new start symbol was the last one, so it has the empty word. -/
theorem pass_again_palindromes :
    (∃ h, palindromes.splitLong = .ok h ∧ h.unused = [] ∧ h.splitLong = .ok h ∧
      ∀ n, Pass.trace palindromes (List.replicate (n + 1) .splitLong) =
        (List.replicate (n + 1) h,none)) ∧
    optionalFree.dropEpsilon = .error .outOfNonterminals ∧ optional.Accepts [] := by
  have hl : palindromes.splitLong = .ok palindromes.split := splitLong_eq_ok.mpr ⟨by decide,rfl⟩
  obtain ⟨hagain,htrace⟩ := pass_again palindromes_built (p := .splitLong) (by decide) hl
  have hfull : optionalFree.dropEpsilon = .error .outOfNonterminals := by decide +kernel
  obtain ⟨hrenewed,_⟩ := pass_again optional_built (p := .dropEpsilon) (by decide) optional_dropEpsilon
  refine ⟨⟨_,hl,by decide +kernel,hagain.mpr (by simp),htrace (by simp)⟩,hfull,?_⟩
  by_contra hnil
  have hagain := hrenewed.mpr fun _ => hnil
  simp [Pass.apply, hfull] at hagain

end Grammar

end WordProblem

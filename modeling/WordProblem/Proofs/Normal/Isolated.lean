import WordProblem.Normal.Isolated
import WordProblem.Proofs.Language
import WordProblem.Proofs.Normal.Fresh

/-! # Isolated terminals keep the language

Every proxy stands for its terminal. Unfolding the proxies gives back the rules as they were, so
no word is gained and no two rules become one; each proxy generates its terminal, so none is lost.
-/
namespace WordProblem

theorem Form.Denotes.map {L M : Interpretation} {φ : Symbol → Symbol} {f : Form} {w : List Char}
    (h : Form.Denotes L f w) (hφ : ∀ s ∈ f, ∀ u, s.Denotes L u → (φ s).Denotes M u) :
    Form.Denotes M (f.map φ) w := by
  induction f generalizing w with
  | nil => exact h
  | cons s f ih =>
    obtain ⟨u,v,rfl,hs,hf⟩ := h
    exact ⟨u,v,rfl,hφ s List.mem_cons_self u hs,ih hf fun t ht => hφ t (List.mem_cons_of_mem _ ht)⟩

theorem Symbol.isolate_terminal (proxies : Proxies) (c : Char) :
    (∃ a, (c,a) ∈ proxies ∧ (terminal c).isolate proxies = nonterminal a) ∨
      (terminal c).isolate proxies = terminal c := by
  cases ha : proxies.lookup c with
  | none => exact Or.inr (by simp only [isolate, ha])
  | some a =>
    obtain ⟨l₁,l₂,hl,_⟩ := List.lookup_eq_some_iff.mp ha
    exact Or.inl ⟨a,by simp [hl],by simp only [isolate, ha]⟩

@[simp] theorem Rule.isolate_lhs (proxies : Proxies) (r : Rule) :
    (r.isolate proxies).lhs = r.lhs := by
  unfold isolate
  split <;> rfl

@[simp] theorem Rule.length_isolate (proxies : Proxies) (r : Rule) :
    (r.isolate proxies).rhs.length = r.rhs.length := by
  unfold isolate
  split
  · rfl
  · exact List.length_map _

theorem Rule.isolate_nil (r : Rule) : r.isolate [] = r := by
  have hsymbols : r.rhs.map (·.isolate []) = r.rhs := by
    refine (List.map_congr_left fun s _ => ?_).trans (List.map_id _)
    cases s <;> rfl
  rw [isolate, hsymbols, ite_self]

namespace Grammar

variable {g h : Grammar}

def proxies (g : Grammar) : Proxies :=
  g.mixedTerminals.zip (g.unused.take g.mixedTerminals.length)

/-- The grammar that isolation leaves if the supply suffices. -/
def isolated (g : Grammar) : Grammar :=
  { g.declaring (g.unused.take g.mixedTerminals.length) with
    rules := Ascending.ofList (g.rules.map (·.isolate g.proxies) ++
      g.proxies.map fun p => ⟨p.2,[.terminal p.1]⟩) }

def proxyDefinitions (g : Grammar) : Definitions := g.proxies.map fun p => (p.2,[.terminal p.1])

theorem isolateTerminals_eq (g : Grammar) : g.isolateTerminals =
    if g.unused.length < g.mixedTerminals.length then .error .outOfNonterminals
    else .ok g.isolated := by
  simp only [isolateTerminals, allocate_eq]
  split <;> rfl

theorem isolateTerminals_eq_ok : g.isolateTerminals = .ok h ↔
    g.mixedTerminals.length ≤ g.unused.length ∧ h = g.isolated := by
  rw [isolateTerminals_eq, ← Nat.not_lt]
  split <;> simp_all [eq_comm]

theorem mem_mixedTerminals {c : Char} : c ∈ g.mixedTerminals ↔
    ∃ r ∈ g.rules, 2 ≤ r.rhs.length ∧ .terminal c ∈ r.rhs := by
  simp [mixedTerminals, and_assoc]

theorem mixedTerminals_eq_nil
    (hshape : ∀ r ∈ g.rules, 2 ≤ r.rhs.length → ∀ s ∈ r.rhs, ∃ a, s = .nonterminal a) :
    g.mixedTerminals = [] := by
  refine List.eq_nil_iff_forall_not_mem.mpr fun c hc => ?_
  obtain ⟨r,hr,hlen,hmem⟩ := mem_mixedTerminals.mp hc
  obtain ⟨a,ha⟩ := hshape r hr hlen _ hmem
  cases ha

theorem mem_isolated_rules {r : Rule} : r ∈ g.isolated.rules ↔
    (∃ q ∈ g.rules, q.isolate g.proxies = r) ∨
      ∃ c a, (c,a) ∈ g.proxies ∧ r = ⟨a,[.terminal c]⟩ := by
  simp [isolated, eq_comm]

theorem isolate_mem_isolated {r : Rule} (hr : r ∈ g.rules) :
    r.isolate g.proxies ∈ g.isolated.rules := by
  rw [mem_isolated_rules]
  exact Or.inl ⟨r,hr,rfl⟩

theorem mem_isolated_nonterminals {a : Char} : a ∈ g.isolated.nonterminals ↔
    a ∈ g.unused.take g.mixedTerminals.length ∨ a ∈ g.nonterminals := mem_declaring

section Supply
variable (hg : g.WellFormed) (hcap : g.mixedTerminals.length ≤ g.unused.length)

include hcap in
theorem proxies_fst : g.proxies.map Prod.fst = g.mixedTerminals :=
  List.map_fst_zip (by simp [hcap])

theorem proxies_snd : g.proxies.map Prod.snd = g.unused.take g.mixedTerminals.length :=
  List.map_snd_zip (by simp)

include hcap in
theorem exists_proxy {c : Char} (hc : c ∈ g.mixedTerminals) : ∃ a, (c,a) ∈ g.proxies := by
  rw [← proxies_fst hcap] at hc
  obtain ⟨⟨_,a⟩,hp,rfl⟩ := List.mem_map.mp hc
  exact ⟨a,hp⟩

theorem proxy_fresh {c a : Char} (hp : (c,a) ∈ g.proxies) :
    a ∈ g.unused.take g.mixedTerminals.length := (List.of_mem_zip hp).2

include hcap in
theorem lookup_proxies {c a : Char} (hp : (c,a) ∈ g.proxies) : g.proxies.lookup c = some a := by
  refine lookup_of_mem ?_ hp
  rw [proxies_fst hcap]
  exact (Ascending.pairwise_ofList _).nodup

theorem proxyDefinitions_fst :
    g.proxyDefinitions.map Prod.fst = g.proxies.map Prod.snd := by
  simp [proxyDefinitions]

include hg in
theorem lookup_proxyDefinitions {c a : Char} (hp : (c,a) ∈ g.proxies) :
    g.proxyDefinitions.lookup a = some [.terminal c] := by
  refine lookup_of_mem ?_ (List.mem_map.mpr ⟨_,hp,rfl⟩)
  rw [proxyDefinitions_fst, proxies_snd]
  exact hg.nodup_take_unused _

theorem lookup_proxyDefinitions_none {a : Char}
    (ha : a ∉ g.unused.take g.mixedTerminals.length) : g.proxyDefinitions.lookup a = none := by
  apply lookup_of_not_mem
  rwa [proxyDefinitions_fst, proxies_snd]

theorem lookup_proxyDefinitions_of_declared {a : Char} (ha : a ∈ g.nonterminals) :
    g.proxyDefinitions.lookup a = none :=
  lookup_proxyDefinitions_none fun hf => not_declared_of_mem_take hf ha

include hg in
theorem expand_isolate {s : Symbol} (hs : g.Declares s) :
    g.proxyDefinitions.expand (s.isolate g.proxies) = [s] := by
  cases s with
  | nonterminal a =>
    exact Definitions.expand_of_lookup_none (lookup_proxyDefinitions_of_declared hs)
  | terminal c =>
    rcases Symbol.isolate_terminal g.proxies c with ⟨a,hp,he⟩ | he
    · rw [he]
      exact Definitions.expand_of_lookup (lookup_proxyDefinitions hg hp)
    · rw [he]
      rfl

include hg in
theorem unfold_map_isolate {f : Form} (hf : ∀ s ∈ f, g.Declares s) :
    g.proxyDefinitions.unfold (f.map (·.isolate g.proxies)) = f := by
  induction f with
  | nil => rfl
  | cons s f ih =>
    rw [List.map_cons, Definitions.unfold_cons, expand_isolate hg (hf s List.mem_cons_self),
      ih fun t ht => hf t (List.mem_cons_of_mem _ ht)]
    rfl

include hg in
/-- Unfolding the proxies undoes the isolation of a rule. -/
theorem unfold_isolate {r : Rule} (hr : r ∈ g.rules) :
    g.proxyDefinitions.unfold (r.isolate g.proxies).rhs = r.rhs := by
  unfold Rule.isolate
  split
  · refine Definitions.unfold_eq_self fun a ha => ?_
    exact lookup_proxyDefinitions_of_declared (hg.rhs_declared r hr _ ha)
  · exact unfold_map_isolate hg (hg.rhs_declared r hr)

include hg in
theorem explains_isolated : g.proxyDefinitions.Explains g g.isolated := by
  intro r hr
  rcases mem_isolated_rules.mp hr with ⟨q,hq,rfl⟩ | ⟨c,a,hp,rfl⟩
  · right
    rw [unfold_isolate hg hq, Rule.isolate_lhs]
    exact ⟨lookup_proxyDefinitions_of_declared (hg.lhs_declared q hq),hq⟩
  · left
    exact lookup_proxyDefinitions hg hp

theorem generates_proxy {c a : Char} (hp : (c,a) ∈ g.proxies) : g.isolated.Generates a [c] :=
  generates_letter (mem_isolated_rules.mpr (Or.inr ⟨c,a,hp,rfl⟩))

theorem denotes_isolate {s : Symbol} {w : List Char} (hs : s.Denotes g.isolated.Generates w) :
    (s.isolate g.proxies).Denotes g.isolated.Generates w := by
  cases s with
  | nonterminal a => exact hs
  | terminal c =>
    rcases Symbol.isolate_terminal g.proxies c with ⟨a,hp,he⟩ | he
    · rw [he, show w = [c] from hs]
      exact generates_proxy hp
    · rw [he]
      exact hs

theorem closed_isolated (g : Grammar) : g.Closed g.isolated.Generates := by
  intro r hr w hw
  have hclosed := g.isolated.generates_closed _ (isolate_mem_isolated hr) w
  rw [Rule.isolate_lhs] at hclosed
  apply hclosed
  unfold Rule.isolate
  split
  · exact hw
  · exact hw.map fun _ _ _ => denotes_isolate

include hg in
/-- All non-terminals but the fresh ones keep their languages. -/
theorem generates_isolated {a : Char} (ha : a ∉ g.unused.take g.mixedTerminals.length)
    {w : List Char} : g.isolated.Generates a w ↔ g.Generates a w := by
  have hundefined := lookup_proxyDefinitions_none ha
  constructor
  · intro hw
    exact (explains_isolated hg).generates_of_undefined hundefined hw
  · intro hw
    exact hw.least (closed_isolated g)

include hcap in
theorem isolated_shape {r : Rule} (hr : r ∈ g.isolated.rules) (hlen : 2 ≤ r.rhs.length)
    {s : Symbol} (hs : s ∈ r.rhs) : ∃ a, s = .nonterminal a := by
  rcases mem_isolated_rules.mp hr with ⟨q,hq,rfl⟩ | ⟨c,a,_,rfl⟩
  · rw [Rule.length_isolate] at hlen
    rw [Rule.isolate, if_neg (by omega)] at hs
    obtain ⟨t,ht,rfl⟩ := List.mem_map.mp hs
    cases t with
    | nonterminal a => exact ⟨a,rfl⟩
    | terminal c =>
      obtain ⟨a,hp⟩ := exists_proxy hcap (mem_mixedTerminals.mpr ⟨q,hq,hlen,ht⟩)
      exact ⟨a,by simp only [Symbol.isolate, lookup_proxies hcap hp]⟩
  · simp at hlen

theorem declares_isolated {s : Symbol} (hs : g.Declares s) : g.isolated.Declares s :=
  hs.mono (fun _ ha => mem_isolated_nonterminals.mpr (Or.inr ha)) fun _ hc => hc

theorem declares_isolate {s : Symbol} (hs : g.Declares s) :
    g.isolated.Declares (s.isolate g.proxies) := by
  cases s with
  | nonterminal a => exact declares_isolated hs
  | terminal c =>
    rcases Symbol.isolate_terminal g.proxies c with ⟨a,hp,he⟩ | he
    · rw [he]
      exact mem_isolated_nonterminals.mpr (Or.inl (proxy_fresh hp))
    · rw [he]
      exact declares_isolated hs

include hg in
theorem WellFormed.isolated : g.isolated.WellFormed where
  alphabet := hg.alphabet
  nonterminals_ascending := (hg.declaring _).nonterminals_ascending
  nonterminals_subset := (hg.declaring _).nonterminals_subset
  terminals_ascending := hg.terminals_ascending
  terminals_subset := hg.terminals_subset
  rules_ascending := Ascending.pairwise_ofList _
  lhs_declared r hr := by
    rcases mem_isolated_rules.mp hr with ⟨q,hq,rfl⟩ | ⟨c,a,hp,rfl⟩
    · rw [Rule.isolate_lhs]
      exact mem_isolated_nonterminals.mpr (Or.inr (hg.lhs_declared q hq))
    · exact mem_isolated_nonterminals.mpr (Or.inl (proxy_fresh hp))
  rhs_declared r hr s hs := by
    rcases mem_isolated_rules.mp hr with ⟨q,hq,rfl⟩ | ⟨c,a,hp,rfl⟩
    · unfold Rule.isolate at hs
      split at hs
      · exact declares_isolated (hg.rhs_declared q hq s hs)
      · obtain ⟨t,ht,rfl⟩ := List.mem_map.mp hs
        exact declares_isolate (hg.rhs_declared q hq t ht)
    · obtain ⟨q,hq,_,hc⟩ := mem_mixedTerminals.mp (List.of_mem_zip hp).1
      rw [List.mem_singleton.mp hs]
      exact hg.rhs_declared q hq _ hc

include hg in
/-- No two rules become one, because unfolding the proxies gives both back as they were. -/
theorem isolate_inj {r q : Rule} (hr : r ∈ g.rules) (hq : q ∈ g.rules)
    (he : r.isolate g.proxies = q.isolate g.proxies) : r = q := by
  have hl := congrArg Rule.lhs he
  have hrhs := congrArg (fun p => g.proxyDefinitions.unfold p.rhs) he
  simp only [Rule.isolate_lhs, unfold_isolate hg hr, unfold_isolate hg hq] at hl hrhs
  cases r
  cases q
  simp_all

include hg in
/-- No rule coincides with that of a proxy either, so the rules are just as many. -/
theorem isolated_rules_perm : g.isolated.rules.Perm (g.rules.map (·.isolate g.proxies) ++
    g.proxies.map fun p => ⟨p.2,[.terminal p.1]⟩) := by
  apply Ascending.ofList_perm
  refine List.Nodup.append ?_ ?_ ?_
  · exact List.Nodup.map_on (fun r hr q hq => isolate_inj hg hr hq) hg.rules_ascending.nodup
  · have hn := hg.nodup_take_unused g.mixedTerminals.length
    rw [← proxies_snd] at hn
    refine List.Nodup.of_map Rule.lhs ?_
    simpa [Function.comp_def] using hn
  · intro r hr hp
    obtain ⟨q,hq,rfl⟩ := List.mem_map.mp hr
    obtain ⟨⟨c,a⟩,hp,he⟩ := List.mem_map.mp hp
    have hl : a = q.lhs := by simpa using congrArg Rule.lhs he
    exact not_declared_of_mem_take (proxy_fresh hp) (hl ▸ hg.lhs_declared q hq)

end Supply

/-- Nothing happens to a grammar whose longer right sides hold no terminals. -/
theorem isolated_eq_self (hg : g.WellFormed) (hmixed : g.mixedTerminals = []) : g.isolated = g := by
  have hproxies : g.proxies = [] := by
    rw [proxies, hmixed]
    rfl
  have hrules : g.rules.map (·.isolate []) = g.rules := by
    refine (List.map_congr_left fun r _ => Rule.isolate_nil r).trans (List.map_id _)
  rw [isolated, hproxies, hrules, List.map_nil, List.append_nil,
    Ascending.ofList_eq_self hg.rules_ascending, hmixed]
  rfl

end Grammar

end WordProblem

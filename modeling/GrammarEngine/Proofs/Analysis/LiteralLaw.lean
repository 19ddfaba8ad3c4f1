import GrammarEngine.Proofs.Analysis.VocabularyLaw
import GrammarEngine.Proofs.Compile.Literals
import Mathlib.Data.List.Find

/-!
# Literals that token rules spell

A literal of a parser rule stands for a token of the vocabulary, and where token rules are this
literal and nothing else for one of theirs. The vocabulary is searched from its front, where the
declared tokens stand, whatever the modes of their rules. The lexer prefers the first of the rules
that stand in the mode of its start. The token that is expected is the one that the lexer makes
exactly if nothing in the vocabulary takes the literal before that rule does.
-/
namespace GrammarEngine

/-! ## Rules that spell a literal -/

theorem Rule.singleLiteral?_eq_some_iff {r : Rule} {text : String} :
    r.singleLiteral? = some text ↔
      ∃ label rightAssoc, r.alternatives = [⟨[.literal text], label, rightAssoc, []⟩] := by
  constructor
  · intro h
    unfold singleLiteral? at h
    split at h
    · next found label rightAssoc halternatives =>
      obtain rfl := Option.some.inj h
      exact ⟨label, rightAssoc, halternatives⟩
    · cases h
  · rintro ⟨label, rightAssoc, h⟩
    rw [singleLiteral?, h]

namespace Grammar

/-- The token rules that are a literal and nothing else, in order. -/
def spellers (g : Grammar) (text : String) : List Rule :=
  (LexerSpec.tokenRules g.lexerRules).filter fun r => r.singleLiteral? == some text

/-- Those in the mode in which every lexer starts. -/
def startSpellers (g : Grammar) (text : String) : List Rule :=
  (g.spellers text).filter fun r => r.mode == defaultMode

/-- The names of tokens that are declared or have a rule, in the order of the vocabulary. -/
def writtenTokens (g : Grammar) : List String :=
  g.tokens ++ (LexerSpec.tokenRules g.lexerRules).map Rule.name

def implicitNames (g : Grammar) : List String :=
  (List.range g.implicitLiterals.length).map LexerSpec.implicitName

/-- A token has a literal from the rule of its name. Implicit tokens keep their own literals. -/
def lends (g : Grammar) (text name : String) : Bool :=
  ((g.spellers text).any fun r => r.name == name) && !g.implicitNames.contains name

/-- A rule lends the literal, and no token that stands before its own in the vocabulary has it. -/
def Leads (g : Grammar) (text : String) (r : Rule) : Prop :=
  g.lends text r.name = true ∧ ∃ front back, g.writtenTokens = front ++ r.name :: back ∧
    ∀ name ∈ front, g.lends text name = false

variable {g : Grammar} {text name : String} {r : Rule}

theorem mem_spellers : r ∈ g.spellers text ↔
    r ∈ LexerSpec.tokenRules g.lexerRules ∧ r.singleLiteral? = some text := by
  rw [spellers, List.mem_filter, beq_iff_eq]

theorem mem_startSpellers : r ∈ g.startSpellers text ↔
    r ∈ g.spellers text ∧ r.mode = defaultMode := by
  rw [startSpellers, List.mem_filter, beq_iff_eq]

theorem leads_iff : g.Leads text r ↔ g.writtenTokens.find? (g.lends text) = some r.name := by
  rw [List.find?_eq_some_iff_append, Leads]
  simp

theorem mem_writtenTokens_of_lends (h : g.lends text name = true) : name ∈ g.writtenTokens := by
  rw [lends, Bool.and_eq_true, List.any_eq_true] at h
  obtain ⟨⟨r, hr, hname⟩, -⟩ := h
  refine List.mem_append_right _ (List.mem_map.mpr ⟨r, ?_, beq_iff_eq.mp hname⟩)
  exact (mem_spellers.mp hr).1

/-- A literal that a rule spells has no implicit token. -/
theorem not_mem_implicitLiterals (h : g.spellers text ≠ []) : text ∉ g.implicitLiterals := by
  obtain ⟨r, hr⟩ := List.exists_mem_of_ne_nil _ h
  obtain ⟨hr, hliteral⟩ := mem_spellers.mp hr
  obtain ⟨hr, htoken⟩ := List.mem_filter.mp hr
  intro hmem
  obtain ⟨-, hnone⟩ := List.mem_filter.mp hmem
  have hspelled : LexerSpec.spelledByRule g.lexerRules text = true :=
    List.any_eq_true.mpr ⟨r, hr, by simpa [hliteral] using htoken⟩
  rw [hspelled] at hnone
  cases hnone

end Grammar

/-! ## The token of a literal -/

namespace LexerSpec

variable {g : Grammar} {l : LexerSpec} {text name : String} {rules : List Rule}

/-- Where names differ, a name has the literal of the rule of the name. -/
theorem spelling_eq_some_iff (hdistinct : (rules.map Rule.name).Nodup) :
    spelling rules name = some text ↔
      ∃ r ∈ tokenRules rules, r.name = name ∧ r.singleLiteral? = some text := by
  have hfound : ∀ found, spelling rules name = some found →
      ∃ r ∈ tokenRules rules, r.name = name ∧ r.singleLiteral? = some found := by
    intro found h
    obtain ⟨r, hr, hliteral⟩ := List.exists_of_findSome?_eq_some h
    split at hliteral
    · next hname => exact ⟨r, hr, hname, hliteral⟩
    · cases hliteral
  refine ⟨hfound text, ?_⟩
  rintro ⟨r, hr, hname, hliteral⟩
  cases hspelling : spelling rules name with
  | none =>
      have hnone := List.findSome?_eq_none_iff.mp hspelling r hr
      rw [if_pos hname, hliteral] at hnone
      cases hnone
  | some found =>
      obtain ⟨q, hq, hname', hliteral'⟩ := hfound found hspelling
      obtain rfl := List.inj_on_of_nodup_map hdistinct (List.mem_of_mem_filter hq)
        (List.mem_of_mem_filter hr) (hname'.trans hname.symm)
      exact hliteral'.symm.trans hliteral

/-- Implicit tokens have the literals that they are made for. -/
theorem literalOf_implicitTokens {literals : List String} (h : text ∉ literals) :
    literalOf (implicitTokens literals) name ≠ some text := by
  intro hliteral
  obtain ⟨t, ht, hliteral⟩ := Option.bind_eq_some_iff.mp hliteral
  have hmem := List.mem_of_find?_eq_some ht
  rw [implicitTokens_eq] at hmem
  obtain ⟨i, hi, rfl⟩ := List.mem_mapIdx.mp hmem
  exact h (Option.some.inj hliteral ▸ List.getElem_mem hi)

theorem literalOf_of_not_mem (h : name ∉ g.implicitNames) :
    literalOf (implicitTokens g.implicitLiterals) name = none := by
  rw [Grammar.implicitNames, ← map_name_implicitTokens] at h
  rw [literalOf, find?_key_eq_none.mpr h, Option.bind_none]

/-- A literal that a rule spells belongs to the names to which it is lent. -/
theorem literal_eq_some_iff (hdistinct : (g.lexerRules.map Rule.name).Nodup)
    (hspelled : g.spellers text ≠ []) :
    (literalOf (implicitTokens g.implicitLiterals) name).or (spelling g.lexerRules name) =
      some text ↔ g.lends text name = true := by
  rw [Grammar.lends, Bool.and_eq_true, Bool.not_eq_true', List.any_eq_true]
  by_cases hname : name ∈ g.implicitNames
  · have hcontains : g.implicitNames.contains name = true := List.contains_iff_mem.mpr hname
    rw [hcontains]
    refine iff_of_false (fun h => ?_) (fun h => nomatch h.2)
    obtain ⟨t, ht, rfl⟩ : ∃ t ∈ implicitTokens g.implicitLiterals, t.name = name := by
      rwa [Grammar.implicitNames, ← map_name_implicitTokens, List.mem_map] at hname
    obtain ⟨i, hi, rfl⟩ := List.mem_mapIdx.mp (implicitTokens_eq g.implicitLiterals ▸ ht)
    have hliteral := literalOf_of_mem (nodup_implicitTokens g.implicitLiterals) ht
    rw [hliteral, Option.some_or] at h
    exact literalOf_implicitTokens (Grammar.not_mem_implicitLiterals hspelled) (hliteral.trans h)
  · rw [literalOf_of_not_mem hname, Option.none_or, spelling_eq_some_iff hdistinct]
    constructor
    · rintro ⟨r, hr, hrname, hliteral⟩
      exact ⟨⟨r, Grammar.mem_spellers.mpr ⟨hr, hliteral⟩, beq_iff_eq.mpr hrname⟩,
        by simpa using hname⟩
    · rintro ⟨⟨r, hr, hrname⟩, -⟩
      obtain ⟨hr, hliteral⟩ := Grammar.mem_spellers.mp hr
      exact ⟨r, hr, beq_iff_eq.mp hrname, hliteral⟩

/-- A literal that a rule spells has the first token to which it is lent. -/
theorem LexiconOf.tokenFor? (h : l.LexiconOf g) (hdistinct : (g.lexerRules.map Rule.name).Nodup)
    (hspelled : g.spellers text ≠ []) :
    (References.tokenFor? l.vocabulary text).map TokenSpec.name =
      g.writtenTokens.find? (g.lends text) := by
  have hpredicate : ∀ t ∈ l.vocabulary,
      (t.literal == some text) = (g.lends text ∘ TokenSpec.name) t := by
    intro t ht
    rw [Bool.eq_iff_iff, beq_iff_eq, h.literals t ht]
    exact literal_eq_some_iff hdistinct hspelled
  have himplicit : g.implicitNames.find? (g.lends text) = none := by
    refine List.find?_eq_none.mpr fun name hname => ?_
    simp [Grammar.lends, hname]
  have hnamed : g.writtenTokens.find? (g.lends text) = none →
      (References.tokensOfRules g.parserRules).find? (g.lends text) = none := by
    intro hnone
    refine List.find?_eq_none.mpr fun name _ hname => ?_
    exact List.find?_eq_none.mp hnone name (Grammar.mem_writtenTokens_of_lends hname) hname
  calc (References.tokenFor? l.vocabulary text).map TokenSpec.name
      = (l.vocabulary.map TokenSpec.name).find? (g.lends text) := by
        rw [References.tokenFor?, List.find?_congr hpredicate, List.find?_map]
    _ = (g.implicitNames ++ (g.writtenTokens ++
          References.tokensOfRules g.parserRules)).find? (g.lends text) := by
        rw [h.names, find?_firsts]
        rfl
    _ = g.writtenTokens.find? (g.lends text) := by
        rw [List.find?_append, himplicit, Option.none_or, List.find?_append]
        cases hfound : g.writtenTokens.find? (g.lends text) with
        | none => rw [hnamed hfound, Option.none_or]
        | some name => exact Option.some_or

/-! ## The rules that make the tokens -/

theorem map_name_written {vocabulary : List TokenSpec} {written : List LexerRuleSpec}
    (h : List.Forall₂ (Typed vocabulary) rules written) :
    (written.filterMap LexerRuleSpec.declaredToken?).map LexerRuleDecl.name =
      (tokenRules rules).map Rule.name := by
  unfold tokenRules
  induction h with
  | nil => rfl
  | @cons r s rules written hr _ ih =>
      cases hfragment : r.fragment with
      | true =>
          have hnone := s.declaredToken?_of_none (hr.fragment hfragment)
          rw [List.filterMap_cons_none hnone, ih, List.filter_cons_of_neg (by simp [hfragment])]
      | false =>
          obtain ⟨t, -, -, htype⟩ := hr.token hfragment
          rw [List.filterMap_cons_some (s.declaredToken?_of_some htype), List.map_cons, ih,
            List.filter_cons_of_pos (by simp [hfragment]), List.map_cons, hr.name]

theorem map_name_implicit (literals : List String) :
    (((implicitTokens literals).map implicitRule).filterMap
      LexerRuleSpec.declaredToken?).map LexerRuleDecl.name =
        (implicitTokens literals).map TokenSpec.name := by
  have hall : LexerRuleSpec.declaredToken? ∘ implicitRule = some ∘ fun t : TokenSpec =>
      ⟨t.name, {}, .ofInt t.type, defaultMode,
        (implicitRule t).alternatives.map declaredAlternative⟩ := rfl
  rw [List.filterMap_map, hall, List.filterMap_eq_map, List.map_map]
  rfl

/-- The rules of the implicit tokens come before the written ones. -/
theorem LexiconOf.map_name_declared (h : l.LexiconOf g) :
    l.declared.rules.map LexerRuleDecl.name =
      g.implicitNames ++ (tokenRules g.lexerRules).map Rule.name := by
  obtain ⟨written, hwritten, htyped⟩ := h.rules
  have hrules : l.declared.rules = l.rules.filterMap LexerRuleSpec.declaredToken? := rfl
  rw [hrules, hwritten, List.filterMap_append, List.map_append, map_name_implicit,
    map_name_written htyped, map_name_implicitTokens]
  rfl

/-- A declared rule has the type of the token of its name. -/
theorem LexiconOf.type_of_declared (h : l.LexiconOf g) {d : LexerRuleDecl}
    (hd : d ∈ l.declared.rules) :
    ∃ type, typeOf? l.vocabulary d.name = some type ∧ d.type = .ofInt type := by
  obtain ⟨s, hs, hdeclared⟩ := List.mem_filterMap.mp hd
  cases htype : s.tokenType with
  | none => cases (s.declaredToken?_of_none htype).symm.trans hdeclared
  | some type =>
      obtain rfl := Option.some.inj ((s.declaredToken?_of_some htype).symm.trans hdeclared)
      obtain ⟨t, ht, hname, rfl⟩ := h.tokens s hs type htype
      exact ⟨t.type, hname ▸ typeOf?_of_mem h.distinct ht, rfl⟩

/-- The declared rule of a rule that spells a literal. -/
theorem declared_of_singleLiteral? {names : Names} {vocabulary : List TokenSpec} {r : Rule}
    {s : LexerRuleSpec} {type : Nat} (h : BuiltRule g names vocabulary r s)
    (hliteral : r.singleLiteral? = some text) (htype : s.tokenType = some type) :
    s.declaredToken? =
      some ⟨r.name, {}, .ofInt type, r.mode, [LexerDecl.literalAlternative text]⟩ := by
  obtain ⟨label, rightAssoc, halternatives⟩ := Rule.singleLiteral?_eq_some_iff.mp hliteral
  obtain ⟨b, rest, ⟨hb, -⟩, hrest, halternatives'⟩ :=
    List.forall₂_cons_left_iff.mp (halternatives ▸ h.alternatives)
  obtain rfl := List.forall₂_nil_left_iff.mp hrest
  obtain rfl := Except.ok.inj hb
  rw [s.declaredToken?_of_some htype, halternatives', h.name, h.mode]
  rfl

/-- A lexer with the rules that a grammar gives it and the vocabulary that they lead to. -/
structure Reads (g : Grammar) (l : LexerSpec) : Prop where
  lexicon : l.LexiconOf g
  distinct : (g.lexerRules.map Rule.name).Nodup
  mode : l.modes.head? = some defaultMode
  /-- What a rule declares that is a literal and nothing else. -/
  literal : ∀ r ∈ tokenRules g.lexerRules, ∀ text, r.singleLiteral? = some text →
    ∃ d ∈ l.declared.rules, d.name = r.name ∧ d.mode = r.mode ∧
      d.alternatives = [LexerDecl.literalAlternative text]

variable {p : LexerProgram}

/-- What bears the name of a rule that spells the literal is this literal. -/
theorem Reads.spell (h : l.Reads g) (hp : l.Becomes p) (text : String) :
    l.Spell ((g.startSpellers text).map Rule.name) text := by
  intro d hd hname
  obtain ⟨r, hr, hrname⟩ := List.mem_map.mp hname
  obtain ⟨hspeller, hmode⟩ := Grammar.mem_startSpellers.mp hr
  obtain ⟨hr, hliteral⟩ := Grammar.mem_spellers.mp hspeller
  obtain ⟨d', hd', hname', hmode', halternatives⟩ := h.literal r hr text hliteral
  obtain rfl := List.inj_on_of_nodup_map (nodup_of_becomes hp) hd' hd (hname'.trans hrname)
  exact ⟨hmode'.trans hmode, halternatives⟩

/-- The rules that spell the literal are declared in their order. -/
theorem Reads.map_name_startSpellers (h : l.Reads g) (hp : l.Becomes p) (text : String) :
    (l.declared.rules.filter fun d =>
      ((g.startSpellers text).map Rule.name).contains d.name).map LexerRuleDecl.name =
        (g.startSpellers text).map Rule.name := by
  have hdeclared := nodup_of_becomes hp
  rw [h.lexicon.map_name_declared, List.nodup_append] at hdeclared
  obtain ⟨-, -, hapart⟩ := hdeclared
  have hspellers : g.startSpellers text ⊆ tokenRules g.lexerRules := fun r hr =>
    (Grammar.mem_spellers.mp (Grammar.mem_startSpellers.mp hr).1).1
  have himplicit : g.implicitNames.filter ((g.startSpellers text).map Rule.name).contains = [] := by
    refine List.filter_eq_nil_iff.mpr fun name hname hin => ?_
    obtain ⟨r, hr, hrname⟩ := List.mem_map.mp (List.contains_iff_mem.mp hin)
    exact hapart name hname r.name (List.mem_map_of_mem (hspellers hr)) hrname.symm
  have hwritten : (tokenRules g.lexerRules).filter
      (((g.startSpellers text).map Rule.name).contains ∘ Rule.name) = g.startSpellers text := by
    have hmem : ∀ r ∈ tokenRules g.lexerRules,
        (((g.startSpellers text).map Rule.name).contains ∘ Rule.name) r =
          (r.mode == defaultMode && r.singleLiteral? == some text) := by
      intro r hr
      rw [Bool.eq_iff_iff, Bool.and_eq_true, beq_iff_eq, beq_iff_eq, Function.comp_apply,
        List.contains_iff_mem, List.mem_map]
      constructor
      · rintro ⟨q, hq, hname⟩
        obtain rfl := List.inj_on_of_nodup_map h.distinct (List.mem_of_mem_filter (hspellers hq))
          (List.mem_of_mem_filter hr) hname
        obtain ⟨hq, hmode⟩ := Grammar.mem_startSpellers.mp hq
        exact ⟨hmode, (Grammar.mem_spellers.mp hq).2⟩
      · rintro ⟨hmode, hliteral⟩
        have hspeller := Grammar.mem_spellers.mpr ⟨hr, hliteral⟩
        exact ⟨r, Grammar.mem_startSpellers.mpr ⟨hspeller, hmode⟩, rfl⟩
    rw [List.filter_congr hmem, Grammar.startSpellers, Grammar.spellers, List.filter_filter]
  calc (l.declared.rules.filter fun d =>
        ((g.startSpellers text).map Rule.name).contains d.name).map LexerRuleDecl.name
      = (l.declared.rules.map LexerRuleDecl.name).filter
          ((g.startSpellers text).map Rule.name).contains := by
        rw [List.filter_map]
        rfl
    _ = ((tokenRules g.lexerRules).map Rule.name).filter
          ((g.startSpellers text).map Rule.name).contains := by
        rw [h.lexicon.map_name_declared, List.filter_append, himplicit, List.nil_append]
    _ = (g.startSpellers text).map Rule.name := by rw [List.filter_map, hwritten]

theorem reads_of_build {unit : String}
    (h : build g unit g.lexerRules (parserLiterals g.parserRules) = .ok l) :
    Reads g { l with
      vocabulary := addDeclared l.vocabulary (References.tokensOfRules g.parserRules) } := by
  have hbuilt := built_of_build h
  refine ⟨lexiconOf_of_build h, nodup_of_checkDuplicates hbuilt.distinct,
    congrArg List.head? hbuilt.modes, fun r hr text hliteral => ?_⟩
  obtain ⟨written, hwritten, hrules⟩ := hbuilt.rules
  obtain ⟨hmem, htoken⟩ := List.mem_filter.mp hr
  obtain ⟨s, hs, hrule⟩ := exists_of_mem_right hrules.flip hmem
  have hname : hasName l.vocabulary r.name = true := by
    rw [hbuilt.vocabulary]
    exact hasName_of_rule hr
  obtain ⟨t, -, -, htype⟩ := exists_entry hname
  have hfragment : ¬ r.fragment = true := by simpa using htoken
  have hdeclared := declared_of_singleLiteral? hrule hliteral
    (hrule.tokenType.trans ((if_neg hfragment).trans htype))
  have hin : s ∈ l.rules := hwritten ▸ List.mem_append_right _ hs
  exact ⟨_, List.mem_filterMap.mpr ⟨s, hin, hdeclared⟩, rfl, rfl, rfl⟩

/-! ## Expected and emitted tokens -/

/-- What a literal stands for, and what the lexer makes of it, where a rule is the first in the mode
of the start that spells it. -/
structure Settles (g : Grammar) (l : LexerSpec) (text : String) (r : Rule) (type : Nat) : Prop where
  /-- The token of the literal is the first one to which it is lent. -/
  token : (References.tokenFor? l.vocabulary text).map TokenSpec.name =
    g.writtenTokens.find? (g.lends text)
  rule : typeOf? l.vocabulary r.name = some type
  /-- It is expected to have the type of the rule exactly if no other token has the literal before.
  -/
  expected : typeOf? l.vocabulary (References.nameFor l.vocabulary text) = some type ↔
    g.Leads text r
  /-- Of the rules that spell the literal the lexer prefers the first one, with its type. -/
  emitted : ∀ p, l.Becomes p → p.Prefers l.caseInsensitive
    ((g.startSpellers text).map Rule.name) text r.name (.ofInt type)

variable {r : Rule}

theorem LexiconOf.eq_of_type (h : l.LexiconOf g) {s t : TokenSpec} (hs : s ∈ l.vocabulary)
    (ht : t ∈ l.vocabulary) (htype : s.type = t.type) : s = t := by
  have htypes : (l.vocabulary.map TokenSpec.type).Nodup := by
    rw [h.types]
    exact List.nodup_range'
  exact List.inj_on_of_nodup_map htypes hs ht htype

theorem Reads.settles (h : l.Reads g) (hr : (g.startSpellers text).head? = some r)
    (hfound : (References.tokenFor? l.vocabulary text).isSome) :
    ∃ type, Settles g l text r type := by
  obtain ⟨hspeller, -⟩ := Grammar.mem_startSpellers.mp (List.mem_of_mem_head? hr)
  obtain ⟨hmem, htoken⟩ := List.mem_filter.mp (Grammar.mem_spellers.mp hspeller).1
  obtain ⟨written, -, htyped⟩ := h.lexicon.rules
  obtain ⟨s, -, hs⟩ := exists_of_mem_right htyped.flip hmem
  obtain ⟨entry, hentry, hname, -⟩ := hs.token (by simpa using htoken)
  have hrule : typeOf? l.vocabulary r.name = some entry.type :=
    hname ▸ typeOf?_of_mem h.lexicon.distinct hentry
  have hlaw := h.lexicon.tokenFor? h.distinct (List.ne_nil_of_mem hspeller)
  refine ⟨entry.type, hlaw, hrule, ?_, fun p hp => ?_⟩
  · obtain ⟨t, ht⟩ := Option.isSome_iff_exists.mp hfound
    have hmemt : t ∈ l.vocabulary := List.mem_of_find?_eq_some ht
    have hfor : References.nameFor l.vocabulary text = t.name := by
      rw [References.nameFor, ht]
      rfl
    rw [ht] at hlaw
    rw [hfor, typeOf?_of_mem h.lexicon.distinct hmemt, Grammar.leads_iff, ← hlaw, Option.map_some,
      Option.some_inj, Option.some_inj, ← hname]
    constructor
    · intro htype
      rw [h.lexicon.eq_of_type hmemt hentry htype]
    · intro hsame
      rw [List.inj_on_of_nodup_map h.lexicon.distinct hmemt hentry hsame]
  · have hnames := congrArg List.head? (h.map_name_startSpellers hp text)
    rw [List.head?_map, List.head?_map, hr, Option.map_some] at hnames
    obtain ⟨d, hd, hdname⟩ := Option.map_eq_some_iff.mp hnames
    have hprefers := prefers_of_becomes hp h.mode (h.spell hp text) hd
    obtain ⟨type, htype, hdtype⟩ := h.lexicon.type_of_declared
      (List.mem_of_mem_filter (List.mem_of_mem_head? hd))
    rw [hdname, hrule] at htype
    rwa [hdname, hdtype, ← Option.some.inj htype] at hprefers

end LexerSpec

/-! ## Analysed grammars -/

namespace Analysis

open LexerSpec

/-- The parser of a combined grammar has the rules of the grammar with tokens in place of literals.
Where token rules spell a literal of a parser rule in the mode of the start, the lexer prefers the
first of them, and the parser expects the type of that rule exactly if no other token takes the
literal before: one that is declared, one with a rule of another mode, or an implicit token of the
rule's own name. -/
theorem literal_law {grammars : List Grammar} {package : Option String} {a : Analysis}
    (h : ofGrammars grammars package = .ok a) :
    ∃ roots, Imports.roots grammars = .ok roots ∧
      ∀ g ∈ roots, g.kind = .combined → g.parserRules ≠ [] →
        ∃ l ∈ a.lexers, ∃ q ∈ a.parsers, l.grammar = g.name ∧ q.grammar = g.name ∧
          q.vocabularyUnit = l.unit ∧
          List.Forall₂ (SpelledRule (References.nameFor l.vocabulary)) g.parserRules q.rules ∧
          ∀ text ∈ parserLiterals g.parserRules, ∀ r, (g.startSpellers text).head? = some r →
            ∃ type, Settles g l text r type := by
  obtain ⟨roots, order, p, hroots, -, horder, hp, hlexers, hparsers⟩ := roots_of_ofGrammars h
  refine ⟨roots, hroots, fun g hg hkind hrules => ?_⟩
  obtain ⟨before, after, hadds, hl, hq⟩ := exists_adds_of_foldlM hp (horder.mem_iff.mpr hg)
  rw [hlexers, hparsers]
  cases hadds with
  | lexer hkind' _ _ => cases hkind.symm.trans hkind'
  | combinedLexer _ hnone _ => exact absurd hnone hrules
  | parser hkind' _ _ _ _ => cases hkind.symm.trans hkind'
  | @combined l l' q _ _ _ hbuild hparser =>
      have hspelled := spelled_of_buildParser hparser
      have hreads : l'.Reads g := hspelled.completes ▸ reads_of_build hbuild
      have hvocabulary : l'.vocabulary = addDeclared l.vocabulary
        (References.tokensOfRules g.parserRules) := congrArg LexerSpec.vocabulary hspelled.completes
      refine ⟨l', hl (List.mem_append_right _ (List.mem_singleton_self l')), q,
        hq (List.mem_append_right _ (List.mem_singleton_self q)), hreads.lexicon.grammar,
        hspelled.grammar, ?_, ?_, fun text htext r hr => hreads.settles hr ?_⟩
      · rw [hspelled.vocabularyUnit, hspelled.completes]
      · rw [hvocabulary, References.nameFor_addDeclared]
        exact hspelled.rules
      · obtain ⟨k, hk, htext⟩ := List.mem_flatMap.mp (List.mem_eraseDups.mp htext)
        rw [hvocabulary, References.tokenFor?_addDeclared]
        exact hspelled.literals k hk text htext

/-- Two rules spell the bracket, and a token is declared that has none. -/
def reusedFiles : List GrammarFile :=
  [⟨"R.g4", "grammar R;\ntokens \x7b X \x7d\ns : '(' X ;\nOPEN : '(' ;\nROUND : '(' ;\n"⟩]

/-- Whether files hold one combined grammar that can be analysed, in which these rules spell a
literal, and the first of them has its token, of a type. The lexer can be compiled. -/
def reuses (files : List GrammarFile) (text : String) (names : List String) (type : Nat) : Bool :=
  match GeneratedUnits.readFiles files with
  | .ok (grammars, _) =>
    match Imports.roots grammars, ofGrammars grammars none with
    | .ok [g], .ok a =>
      g.kind == .combined && !g.parserRules.isEmpty &&
        (parserLiterals g.parserRules).contains text &&
        (g.startSpellers text).map Rule.name == names &&
        g.writtenTokens.find? (g.lends text) == names.head? &&
        a.lexers.all fun l => !l.caseInsensitive && (l.declared.compile []).isOk &&
          names.head?.bind (typeOf? l.vocabulary) == some type
    | _, _ => false
  | .error _ => false

theorem reusedFiles_law :
    ∃ grammars warnings a l p, GeneratedUnits.readFiles reusedFiles = .ok (grammars, warnings) ∧
      ofGrammars grammars none = .ok a ∧ l ∈ a.lexers ∧ l.Becomes p ∧
      typeOf? l.vocabulary (References.nameFor l.vocabulary "(") = some 2 ∧
      ((p.among ["OPEN", "ROUND"]).tokenize ⟨"bracket", #['('], .none⟩).tokens.map Token.type =
        [2, TokenType.eof] := by
  have hcheck : reuses reusedFiles "(" ["OPEN", "ROUND"] 2 = true := by
    decide +kernel
  unfold reuses at hcheck
  split at hcheck
  · next grammars warnings hread =>
    split at hcheck
    · next g a hroots ha =>
      simp only [Bool.and_eq_true, beq_iff_eq, Bool.not_eq_true', List.all_eq_true] at hcheck
      obtain ⟨⟨⟨⟨⟨hkind, hrules⟩, htext⟩, hnames⟩, hfirst⟩, hlexers⟩ := hcheck
      obtain ⟨roots, hroots', hlaw⟩ := literal_law ha
      obtain rfl := Except.ok.inj (hroots.symm.trans hroots')
      obtain ⟨l, hl, q, -, -, -, -, -, hsettles⟩ := hlaw g (List.mem_singleton_self g) hkind
        (by simpa using hrules)
      obtain ⟨⟨hcase, hcompile⟩, htype⟩ := hlexers l hl
      obtain ⟨r, rest, hspellers, hr, -⟩ := List.map_eq_cons_iff.mp hnames
      obtain ⟨type, hsettled⟩ := hsettles "(" (List.contains_iff_mem.mp htext) r
        (by rw [hspellers, List.head?_cons])
      have htypes : type = 2 := by
        have hrule := hsettled.rule
        rw [hr] at hrule
        exact Option.some.inj (hrule.symm.trans htype)
      subst htypes
      obtain ⟨images, himages⟩ : ∃ images, l.declared.compile [] = .ok images := by
        cases himages : l.declared.compile [] with
        | ok images => exact ⟨images, rfl⟩
        | error _ =>
            rw [himages] at hcompile
            cases hcompile
      obtain ⟨p, hp⟩ := exists_becomes himages
      have hleads : g.Leads "(" r := Grammar.leads_iff.mpr (hfirst.trans (congrArg some hr.symm))
      have hlegible : Automaton.Legible l.caseInsensitive id "(" := by
        rw [hcase]
        exact Automaton.legible_of_unfolded (by decide) fun c _ => rfl
      have htokens := (hsettled.emitted p hp).tokens ⟨"bracket", #['('], .none⟩ rfl hlegible
      rw [hnames] at htokens
      exact ⟨grammars, warnings, a, l, p, hread, ha, hl, hp, hsettled.expected.mpr hleads,
        htokens.1⟩
    · cases hcheck
  · cases hcheck

end Analysis

end GrammarEngine

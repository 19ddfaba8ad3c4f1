import GrammarEngine.Proofs.Analysis.Parser

/-!
# Analysed grammars

Every lexer and parser of an analysis is built from a root grammar whose names are words and whose
rules are such as files contain. An analysis only appends: a parser uses a lexer that was there
before it, or the one of its own grammar.
-/
namespace GrammarEngine.Analysis

/-- What adding a root grammar comes to. -/
inductive Adds (package : Option String) (p : Progress) (g : Grammar) : Progress → Prop
  | lexer {l : LexerSpec} : g.kind = .lexer → (∀ r ∈ g.rules, r.isLexerRule = true) →
      LexerSpec.build g (qualify package g.name) g.rules [] = .ok l →
      Adds package p g { p with lexers := p.lexers ++ [l] }
  | combinedLexer {l : LexerSpec} {warnings : List Warning} : g.kind = .combined →
      g.rules.filter (fun r => !r.isLexerRule) = [] →
      LexerSpec.build g (qualify package s!"{g.name}Lexer") (g.rules.filter Rule.isLexerRule)
        (LexerSpec.parserLiterals (g.rules.filter fun r => !r.isLexerRule)) = .ok l →
      Adds package p g { p with lexers := p.lexers ++ [l], warnings }
  | combined {l l' : LexerSpec} {parser : ParserSpec} {found warnings : List Warning} :
      g.kind = .combined →
      LexerSpec.build g (qualify package s!"{g.name}Lexer") (g.rules.filter Rule.isLexerRule)
        (LexerSpec.parserLiterals (g.rules.filter fun r => !r.isLexerRule)) = .ok l →
      buildParser g (qualify package s!"{g.name}Parser") (g.rules.filter fun r => !r.isLexerRule)
        l true = .ok (parser, l', found) →
      Adds package p g {
        lexers := p.lexers ++ [l'], parsers := p.parsers ++ [parser], warnings }
  | parser {l l' : LexerSpec} {parser : ParserSpec} {vocab : String}
      {found warnings : List Warning} : g.kind = .parser →
      (∀ r ∈ g.rules, r.isLexerRule = false) → g.option? "tokenVocab" = some vocab →
      p.lexers.find? (fun l => l.grammar == vocab) = some l →
      buildParser g (qualify package g.name) g.rules l false = .ok (parser, l', found) →
      Adds package p g { p with parsers := p.parsers ++ [parser], warnings }

theorem adds_of_addGrammar {package : Option String} {p p' : Progress} {g : Grammar}
    (h : addGrammar package p g = .ok p') : Adds package p g p' := by
  unfold addGrammar at h
  cases hkind : g.kind with
  | lexer =>
      rw [hkind] at h
      dsimp only [addLexerGrammar] at h
      cases hfind : g.rules.find? (fun r => !r.isLexerRule) with
      | some r =>
          rw [hfind] at h
          cases h
      | none =>
          rw [hfind] at h
          obtain ⟨l, hl, h⟩ := bind_eq_ok.mp h
          obtain rfl := Except.ok.inj h
          exact .lexer hkind (by simpa using hfind) hl
  | combined =>
      rw [hkind] at h
      dsimp only [addCombinedGrammar] at h
      split at h
      · cases h
      obtain ⟨l, hl, h⟩ := bind_eq_ok.mp h
      split at h
      · next hnone =>
        obtain rfl := Except.ok.inj h
        exact .combinedLexer hkind (List.isEmpty_iff.mp hnone) hl
      · obtain ⟨⟨parser, l', found⟩, hparser, h⟩ := bind_eq_ok.mp h
        obtain rfl := Except.ok.inj h
        exact .combined hkind hl hparser
  | parser =>
      rw [hkind] at h
      dsimp only [addParserGrammar] at h
      cases hfind : g.rules.find? Rule.isLexerRule with
      | some r =>
          rw [hfind] at h
          cases h
      | none =>
          rw [hfind] at h
          dsimp only at h
          split at h
          · cases h
          · next vocab hvocab =>
            split at h
            · cases h
            · next l hl =>
              obtain ⟨⟨parser, l', found⟩, hparser, h⟩ := bind_eq_ok.mp h
              obtain rfl := Except.ok.inj h
              exact .parser hkind (by simpa using hfind) hvocab hl hparser

/-- What is there stays. -/
theorem Adds.subset {package : Option String} {p p' : Progress} {g : Grammar}
    (h : Adds package p g p') : p.lexers ⊆ p'.lexers ∧ p.parsers ⊆ p'.parsers := by
  cases h with
  | lexer _ _ _ | combinedLexer _ _ _ => exact ⟨List.subset_append_left _ _, List.Subset.refl _⟩
  | combined _ _ _ => exact ⟨List.subset_append_left _ _, List.subset_append_left _ _⟩
  | parser _ _ _ _ _ => exact ⟨List.Subset.refl _, List.subset_append_left _ _⟩

/-- What a grammar adds is there in the end. -/
theorem exists_adds_of_foldlM {package : Option String} {order : List Grammar} {p p' : Progress}
    (h : order.foldlM (addGrammar package) p = .ok p') {g : Grammar} (hg : g ∈ order) :
    ∃ before after, Adds package before g after ∧
      after.lexers ⊆ p'.lexers ∧ after.parsers ⊆ p'.parsers := by
  induction order generalizing p with
  | nil => cases hg
  | cons k rest ih =>
      rw [List.foldlM_cons, bind_eq_ok] at h
      obtain ⟨middle, hmiddle, h⟩ := h
      rcases List.mem_cons.mp hg with rfl | hg
      · refine ⟨p, middle, adds_of_addGrammar hmiddle, ?_⟩
        refine foldlM_invariant
          (fun q : Progress => middle.lexers ⊆ q.lexers ∧ middle.parsers ⊆ q.parsers)
          ⟨List.Subset.refl _, List.Subset.refl _⟩ (fun k _ q q' hq hadd => ?_) h
        obtain ⟨hlexers, hparsers⟩ := (adds_of_addGrammar hadd).subset
        exact ⟨List.Subset.trans hq.1 hlexers, List.Subset.trans hq.2 hparsers⟩
      · exact ih h hg

/-- What adding a root grammar appends. -/
inductive Step (package : Option String) (p : Progress) (g : Grammar) : Progress → Prop
  | lexer {l : LexerSpec} : g.kind = .lexer →
      LexerSpec.Built g (qualify package g.name) g.rules [] l →
      Step package p g { p with lexers := p.lexers ++ [l] }
  | combinedLexer {l : LexerSpec} {warnings : List Warning} : g.kind = .combined →
      LexerSpec.Built g (qualify package s!"{g.name}Lexer") (g.rules.filter Rule.isLexerRule)
        (LexerSpec.parserLiterals (g.rules.filter fun r => !r.isLexerRule)) l →
      Step package p g { p with lexers := p.lexers ++ [l], warnings }
  | combined {l l' : LexerSpec} {parser : ParserSpec} {warnings : List Warning} :
      g.kind = .combined →
      LexerSpec.Built g (qualify package s!"{g.name}Lexer") (g.rules.filter Rule.isLexerRule)
        (LexerSpec.parserLiterals (g.rules.filter fun r => !r.isLexerRule)) l →
      BuiltParser g (qualify package s!"{g.name}Parser") (g.rules.filter fun r => !r.isLexerRule)
        l true parser l' →
      Step package p g {
        lexers := p.lexers ++ [l'], parsers := p.parsers ++ [parser], warnings }
  | parser {l l' : LexerSpec} {parser : ParserSpec} {warnings : List Warning} :
      g.kind = .parser → l ∈ p.lexers →
      BuiltParser g (qualify package g.name) g.rules l false parser l' →
      Step package p g { p with parsers := p.parsers ++ [parser], warnings }

theorem step_of_addGrammar {package : Option String} {p p' : Progress} {g : Grammar}
    (hg : ∀ r ∈ g.rules, r.FromFile) (h : addGrammar package p g = .ok p') :
    Step package p g p' := by
  cases adds_of_addGrammar h with
  | lexer hkind _ hl => exact .lexer hkind (LexerSpec.built_of_build hl)
  | combinedLexer hkind _ hl => exact .combinedLexer hkind (LexerSpec.built_of_build hl)
  | combined hkind hl hparser =>
      exact .combined hkind (LexerSpec.built_of_build hl)
        (built_of_buildParser (fun r hr => hg r (List.mem_of_mem_filter hr)) hparser)
  | parser hkind _ _ hl hparser =>
      exact .parser hkind (List.mem_of_find?_eq_some hl) (built_of_buildParser hg hparser)

/-- All roots have been added, each once. -/
theorem roots_of_ofGrammars {grammars : List Grammar} {package : Option String} {a : Analysis}
    (h : ofGrammars grammars package = .ok a) :
    ∃ (roots order : List Grammar) (p : Progress), Imports.roots grammars = .ok roots ∧
      order ≠ [] ∧ order.Perm roots ∧ order.foldlM (addGrammar package) {} = .ok p ∧
      a.lexers = p.lexers ∧ a.parsers = p.parsers := by
  unfold ofGrammars at h
  split at h
  · cases h
  · obtain ⟨roots, hroots, h⟩ := bind_eq_ok.mp h
    dsimp only at h
    split at h
    · cases h
    · next first rest hfirst =>
      obtain ⟨p, hp, h⟩ := bind_eq_ok.mp h
      obtain rfl := Except.ok.inj h
      refine ⟨roots, _, p, hroots, fun hnil => ?_, ?_, hp, rfl, rfl⟩
      · obtain ⟨hlexers, hothers⟩ := List.append_eq_nil_iff.mp hnil
        rw [hlexers, hothers] at hfirst
        cases hfirst
      · exact List.filter_append_perm (fun g : Grammar => g.kind == .lexer) roots

/-- An analysis adds root grammars one after another. -/
theorem foldlM_of_ofGrammars {grammars : List Grammar} {package : Option String} {a : Analysis}
    (h : ofGrammars grammars package = .ok a) :
    ∃ (roots : List Grammar) (p : Progress), roots ≠ [] ∧
      (∀ g ∈ roots, ∃ g₀ ∈ grammars, Imports.MergeOf grammars g₀ g) ∧
      roots.foldlM (addGrammar package) {} = .ok p ∧ a.lexers = p.lexers ∧
      a.parsers = p.parsers := by
  obtain ⟨roots, order, p, hroots, hne, horder, hp, hlexers, hparsers⟩ := roots_of_ofGrammars h
  exact ⟨order, p, hne, fun g hg => Imports.roots_mergeOf hroots g (horder.subset hg), hp, hlexers,
    hparsers⟩

/-- What every step keeps holds of the result, where all grammars come from files. -/
theorem progress_invariant {grammars : List Grammar} {package : Option String} {a : Analysis}
    (P : Progress → Prop) (h : ofGrammars grammars package = .ok a)
    (hgrammars : ∀ g ∈ grammars, g.FromFile) (hempty : P {})
    (hstep : ∀ g₀ ∈ grammars, ∀ g p p', Imports.MergeOf grammars g₀ g → g.FromFile →
      P p → Step package p g p' → P p') :
    ∃ p, P p ∧ a.lexers = p.lexers ∧ a.parsers = p.parsers := by
  obtain ⟨roots, p, -, hroots, hp, hlexers, hparsers⟩ := foldlM_of_ofGrammars h
  refine ⟨p, foldlM_invariant P hempty (fun g hg p p' hold hadd => ?_) hp, hlexers, hparsers⟩
  obtain ⟨g₀, hg₀, hmerge⟩ := hroots g hg
  have hfile := hmerge.fromFile hg₀ hgrammars
  exact hstep g₀ hg₀ g p p' hmerge hfile hold (step_of_addGrammar hfile.rules hadd)

/-- Every parser is built from a root grammar. -/
theorem exists_builtParser {grammars : List Grammar} {package : Option String} {a : Analysis}
    (h : ofGrammars grammars package = .ok a) (hgrammars : ∀ g ∈ grammars, g.FromFile) :
    ∀ q ∈ a.parsers, ∃ g₀ ∈ grammars, ∃ g unit rules l allowImplicit l', g.name = g₀.name ∧
      BuiltParser g unit rules l allowImplicit q l' := by
  let P (p : Progress) : Prop := ∀ q ∈ p.parsers, ∃ g₀ ∈ grammars,
    ∃ g unit rules l allowImplicit l', g.name = g₀.name ∧
      BuiltParser g unit rules l allowImplicit q l'
  have hP : ∃ p, P p ∧ a.lexers = p.lexers ∧ a.parsers = p.parsers := by
    refine progress_invariant P h hgrammars (by simp [P])
      fun g₀ hg₀ g p p' hmerge _ hold hstep => ?_
    cases hstep with
    | lexer | combinedLexer => exact hold
    | combined _ _ hparser | parser _ _ hparser =>
        refine List.forall_mem_append.mpr ⟨hold, fun q hq => ?_⟩
        obtain rfl := List.mem_singleton.mp hq
        exact ⟨g₀, hg₀, g, _, _, _, _, _, hmerge.name, hparser⟩
  obtain ⟨p, hparsers, -, hp⟩ := hP
  exact hp ▸ hparsers

/-- Every root grammar yields a lexer or a parser. -/
theorem nonempty_of_ofGrammars {grammars : List Grammar} {package : Option String} {a : Analysis}
    (h : ofGrammars grammars package = .ok a) (hgrammars : ∀ g ∈ grammars, g.FromFile) :
    a.lexers ≠ [] ∨ a.parsers ≠ [] := by
  obtain ⟨roots, p, hne, hroots, hp, hlexers, hparsers⟩ := foldlM_of_ofGrammars h
  have hstep : ∀ g ∈ roots, ∀ p p', addGrammar package p g = .ok p' →
      p'.lexers ≠ [] ∨ p'.parsers ≠ [] := by
    intro g hg p p' hadd
    obtain ⟨g₀, hg₀, hmerge⟩ := hroots g hg
    cases step_of_addGrammar (hmerge.fromFile hg₀ hgrammars).rules hadd with
    | lexer | combinedLexer | combined => exact .inl (List.concat_ne_nil _ _)
    | parser => exact .inr (List.concat_ne_nil _ _)
  rw [hlexers, hparsers]
  cases roots with
  | nil => exact absurd rfl hne
  | cons g rest =>
      rw [List.foldlM_cons, bind_eq_ok] at hp
      obtain ⟨p₁, hp₁, hp⟩ := hp
      exact foldlM_invariant (fun p => p.lexers ≠ [] ∨ p.parsers ≠ [])
        (hstep g List.mem_cons_self {} p₁ hp₁)
        (fun g' hg' p p' _ => hstep g' (List.mem_cons_of_mem g hg') p p') hp

/-- The types of tokens and the precedences of an analysis fit the words of a unit. -/
def FitsWords (a : Analysis) : Prop :=
  (∀ l ∈ a.lexers, l.vocabulary.length < 2 ^ 31) ∧
    ∀ p ∈ a.parsers, ∀ r ∈ p.rules, r.size + 1 < 2 ^ 32

/-- A lexer that can be written as soon as its tokens have types. -/
structure LexerReady (l : LexerSpec) : Prop where
  modes : l.modes ≠ []
  numbered : LexerSpec.Numbered l.vocabulary
  rules : l.vocabulary.length < 2 ^ 31 → ∀ r ∈ l.rules, r.Writable

theorem LexerReady.writable {l : LexerSpec} (h : LexerReady l)
    (hsize : l.vocabulary.length < 2 ^ 31) :
    l.Writable where
  modes := h.modes
  vocabulary := fun t ht => Nat.lt_of_le_of_lt (h.numbered t ht) hsize
  rules := h.rules hsize

theorem LexerReady.of_built {g : Grammar} {unit : String} {rules : List Rule}
    {literals : List String} {l : LexerSpec} (h : LexerSpec.Built g unit rules literals l)
    (hrules : ∀ r ∈ rules, r.FromFile)
    (hfragments : ∀ r ∈ rules, r.fragment = true → ∀ a ∈ r.alternatives, a.commands = []) :
    LexerReady l where
  modes := by
    rw [h.modes]
    exact List.cons_ne_nil _ _
  numbered := by
    rw [h.vocabulary]
    exact LexerSpec.numbered_vocabularyOf _ _ _
  rules := LexerSpec.rules_writable h hrules hfragments

theorem LexerReady.completed {l l' : LexerSpec} (h : LexerReady l)
    (hl' : l' = { l with vocabulary := l'.vocabulary })
    {allowImplicit : Bool}
    (hgrow : References.Grows allowImplicit l.vocabulary l'.vocabulary) : LexerReady l' := by
  rw [hl']
  exact {
    modes := h.modes
    numbered := hgrow.numbered h.numbered
    rules := fun hsize => h.rules (Nat.lt_of_le_of_lt hgrow.isPrefix.length_le hsize) }

/-- All recognizers of an analysis can be written. -/
theorem writable_of_ofGrammars {grammars : List Grammar} {package : Option String} {a : Analysis}
    (h : ofGrammars grammars package = .ok a) (hgrammars : ∀ g ∈ grammars, g.FromFile)
    (hfragments : ∀ g ∈ grammars, ∀ r ∈ g.rules, r.fragment = true →
      ∀ b ∈ r.alternatives, b.commands = []) (hwords : a.FitsWords) :
    (∀ l ∈ a.lexers, l.Writable) ∧ ∀ p ∈ a.parsers, ∀ r ∈ p.rules, r.Writable := by
  let P (p : Progress) : Prop := ∀ l ∈ p.lexers, LexerReady l
  have hP : ∃ p, P p ∧ a.lexers = p.lexers ∧ a.parsers = p.parsers := by
    refine progress_invariant P h hgrammars (by simp [P])
      fun _ _ g p p' hmerge hfile hold hstep => ?_
    have hfragment : ∀ r ∈ g.rules, r.fragment = true → ∀ b ∈ r.alternatives, b.commands = [] :=
      fun r hr => by
        obtain ⟨g₀, hg₀, hr, -⟩ := hmerge.rules r hr
        exact hfragments g₀ hg₀ r hr
    have hready : ∀ {unit rules literals l}, (∀ r ∈ rules, r ∈ g.rules) →
        LexerSpec.Built g unit rules literals l → LexerReady l := fun hsub hbuilt =>
      .of_built hbuilt (fun r hr => hfile.rules r (hsub r hr)) fun r hr => hfragment r (hsub r hr)
    have hfilter : ∀ r ∈ g.rules.filter Rule.isLexerRule, r ∈ g.rules := fun r hr =>
      List.mem_of_mem_filter hr
    cases hstep with
    | lexer _ hbuilt =>
        refine List.forall_mem_append.mpr ⟨hold, ?_⟩
        simpa using hready (fun r hr => hr) hbuilt
    | combinedLexer _ hbuilt =>
        refine List.forall_mem_append.mpr ⟨hold, ?_⟩
        simpa using hready hfilter hbuilt
    | combined _ hbuilt hparser =>
        refine List.forall_mem_append.mpr ⟨hold, ?_⟩
        simpa using (hready hfilter hbuilt).completed hparser.completes hparser.grows
    | parser => exact hold
  obtain ⟨p, hlexers, hl, -⟩ := hP
  refine ⟨fun l hl' => (hlexers l (hl ▸ hl')).writable (hwords.1 l hl'), fun q hq r hr => ?_⟩
  obtain ⟨_, -, _, _, _, _, _, _, -, hbuilt⟩ := exists_builtParser h hgrammars q hq
  obtain ⟨_, -, -, hsound⟩ := exists_of_mem_right hbuilt.rules hr
  exact hsound.writable (hwords.2 q hq r hr)

end GrammarEngine.Analysis

import GrammarEngine.Generation
import GrammarEngine.Proofs.Analysis.Grammars
import GrammarEngine.Proofs.Unit.Lexers
import GrammarEngine.Proofs.Unit.Parsers

/-!
# Generated units read back

Every unit that is laid out for a recognizer is within the nesting that the reader of forms allows,
so its text is read as one form, and this form as the declaration of the recognizer. Around an
element of a rule stand at most four lists: its alternative, the part of a left-recursive rule, the
rule and the unit.
-/
namespace GrammarEngine.UnitText

/-! ## Units as texts -/

/-- The nesting of an alternative of a rule. -/
def alternativeDepth : Nat := 3 * Reading.maxBlockDepth + 4

theorem commandForm_readable (c : LexerCommand) : (commandForm c).Readable 1 := by
  cases c with
  | skip => exact node_readable (by decide) (by simp)
  | more => exact node_readable (by decide) (by simp)
  | popMode => exact node_readable (by decide) (by simp)
  | channel name => exact node_readable (by decide) (texts_readable 0 [name])
  | type name => exact node_readable (by decide) (texts_readable 0 [name])
  | mode name => exact node_readable (by decide) (texts_readable 0 [name])
  | pushMode name => exact node_readable (by decide) (texts_readable 0 [name])

theorem alternativeForm_readable (kind : RuleKind) {a : Alternative}
    (h : ∀ e ∈ a.elements, e.Writable) : (alternativeForm kind a).Readable alternativeDepth := by
  refine node_readable (by decide) fun f hf => ?_
  rcases List.mem_append.mp hf with hf | hf
  · exact elementForms_readable kind a.elements h f hf
  · obtain ⟨c, -, rfl⟩ := List.mem_map.mp hf
    exact (commandForm_readable c).mono (by decide)

theorem textClause_readable {head : String} (s : String) (h : Form.isName head = true) :
    (textClause head s).form.Readable 1 :=
  node_readable h (texts_readable 0 [s])

theorem namesClause_readable {head : String} (names : List String) (h : Form.isName head = true) :
    (namesClause head names).form.Readable 1 := by
  have hnode : (namesClause head names).form = .node head (names.map .text) := by
    rw [namesClause, Clause.form, List.append_nil]
    rfl
  exact hnode ▸ node_readable h (texts_readable 0 names)

theorem tokenClause_readable {t : TokenSpec} (h : t.type < 2 ^ 31) :
    (tokenClause t).form.Readable 1 := by
  show (Form.node "token" (.nat t.type :: .text t.name ::
    ((t.literal.map Form.text).toList ++ []))).Readable 1
  refine node_readable (by decide) fun f hf => ?_
  simp only [List.append_nil, List.mem_cons, Option.mem_toList, Option.map_eq_some_iff] at hf
  rcases hf with rfl | rfl | ⟨s, -, rfl⟩
  · exact .nat (Nat.lt_trans h (by decide))
  · exact .text 0 t.name
  · exact .text 0 s

theorem lexerRuleClause_readable {r : LexerRuleSpec} (h : r.Writable) :
    (lexerRuleClause r).form.Readable (alternativeDepth + 1) := by
  obtain ⟨hlt, -, helements⟩ := h
  have halternatives : ∀ f ∈ r.alternatives.map (alternativeForm .lexer),
      f.Readable alternativeDepth := by
    intro f hf
    obtain ⟨a, ha, rfl⟩ := List.mem_map.mp hf
    exact alternativeForm_readable .lexer (helements a ha)
  unfold lexerRuleClause
  cases htype : r.tokenType with
  | some type =>
      show (Form.node "rule" (.text r.name :: .nat type :: .text r.mode ::
        r.alternatives.map (alternativeForm .lexer))).Readable _
      refine node_readable (by decide) fun f hf => ?_
      simp only [List.mem_cons] at hf
      rcases hf with rfl | rfl | rfl | hf
      · exact .text _ r.name
      · exact .nat (Nat.lt_trans (hlt type htype) (by decide))
      · exact .text _ r.mode
      · exact halternatives f hf
  | none =>
      show (Form.node "fragment" (.text r.name ::
        r.alternatives.map (alternativeForm .lexer))).Readable _
      refine node_readable (by decide) fun f hf => ?_
      simp only [List.mem_cons] at hf
      rcases hf with rfl | hf
      · exact .text _ r.name
      · exact halternatives f hf

theorem parserRuleClause_readable {r : ParserRuleSpec} (h : r.Writable) :
    (parserRuleClause r).form.Readable (alternativeDepth + 2) := by
  cases r with
  | plain name alternatives =>
      show (Form.node "rule" (.text name ::
        alternatives.map (alternativeForm .parser))).Readable _
      refine node_readable (by decide) fun f hf => ?_
      rcases List.mem_cons.mp hf with rfl | hf
      · exact .text _ name
      · obtain ⟨a, ha, rfl⟩ := List.mem_map.mp hf
        exact (alternativeForm_readable .parser (h a ha).2).mono (Nat.le_succ _)
  | leftRecursive name primaries suffixes =>
      obtain ⟨-, hprimaries, hsuffixes⟩ := h
      show (Form.node "lrule" (.text name ::
        (primaries.map (fun a => .node "primary" [alternativeForm .parser a]) ++
          suffixes.map suffixForm))).Readable _
      refine node_readable (by decide) fun f hf => ?_
      simp only [List.mem_cons, List.mem_append] at hf
      rcases hf with rfl | hf | hf
      · exact .text _ name
      · obtain ⟨a, ha, rfl⟩ := List.mem_map.mp hf
        refine node_readable (by decide) fun f hf => ?_
        obtain rfl := List.mem_singleton.mp hf
        exact alternativeForm_readable .parser (hprimaries a ha).2
      · obtain ⟨s, hs, rfl⟩ := List.mem_map.mp hf
        obtain ⟨hlt, helements⟩ := hsuffixes s hs
        refine node_readable (by decide) fun f hf => ?_
        simp only [List.mem_cons, List.not_mem_nil, or_false] at hf
        rcases hf with rfl | rfl
        · exact .nat (Nat.lt_trans hlt (by decide))
        · have halternative := alternativeForm_readable .parser (a := { elements := s.elements })
            helements
          simpa [alternativeForm] using halternative

/-- The clauses of a unit stand in the list of the unit. -/
theorem form_readable {u : UnitText} (head name : String) (hhead : Form.isName head = true)
    (hfirst : u.first = [.symbol head, .text name])
    (hclauses : ∀ c ∈ u.clauses, c.form.Readable (alternativeDepth + 2)) :
    u.form.Readable Sexpr.maxNesting := by
  have hform : u.form = .node head (.text name :: u.clauses.map Clause.form) := by
    rw [form, hfirst]
    rfl
  rw [hform]
  have hdepth : alternativeDepth + 3 ≤ Sexpr.maxNesting := by decide
  refine (node_readable hhead fun f hf => ?_).mono hdepth
  rcases List.mem_cons.mp hf with rfl | hf
  · exact .text _ name
  · obtain ⟨c, hc, rfl⟩ := List.mem_map.mp hf
    exact hclauses c hc

theorem ofLexer_readable {spec : LexerSpec} (h : spec.Writable) (file : String) :
    (ofLexer spec file).form.Readable Sexpr.maxNesting := by
  refine form_readable "lexer" spec.unit (by decide) rfl fun c hc => ?_
  simp only [ofLexer, List.mem_append] at hc
  rcases hc with (((((hc | hc) | hc) | hc) | hc) | hc) | hc
  · obtain rfl := List.mem_singleton.mp hc
    exact (textClause_readable _ (by decide)).mono (by decide)
  · split at hc
    · obtain rfl := List.mem_singleton.mp hc
      have hflag : (Form.node "case-insensitive" []).Readable 1 :=
        node_readable (by decide) (by simp)
      exact hflag.mono (by decide)
    · cases hc
  · obtain ⟨base, -, rfl⟩ := Option.map_eq_some_iff.mp (Option.mem_toList.mp hc)
    exact (textClause_readable _ (by decide)).mono (by decide)
  · split at hc
    · cases hc
    · obtain rfl := List.mem_singleton.mp hc
      exact (namesClause_readable _ (by decide)).mono (by decide)
  · obtain rfl := List.mem_singleton.mp hc
    exact (namesClause_readable _ (by decide)).mono (by decide)
  · obtain ⟨t, ht, rfl⟩ := List.mem_map.mp hc
    exact (tokenClause_readable (h.vocabulary t ht)).mono (by decide)
  · obtain ⟨r, hr, rfl⟩ := List.mem_map.mp hc
    exact (lexerRuleClause_readable (h.rules r hr)).mono (Nat.le_succ _)

theorem ofParser_readable {spec : ParserSpec} (h : ∀ r ∈ spec.rules, r.Writable) (file : String) :
    (ofParser spec file).form.Readable Sexpr.maxNesting := by
  refine form_readable "parser" spec.unit (by decide) rfl fun c hc => ?_
  simp only [ofParser, List.mem_append, List.mem_cons, List.not_mem_nil, or_false] at hc
  rcases hc with (((rfl | rfl) | hc) | rfl) | hc
  · exact (textClause_readable _ (by decide)).mono (by decide)
  · exact (textClause_readable _ (by decide)).mono (by decide)
  · obtain ⟨base, -, rfl⟩ := Option.map_eq_some_iff.mp (Option.mem_toList.mp hc)
    exact (textClause_readable _ (by decide)).mono (by decide)
  · exact (textClause_readable _ (by decide)).mono (by decide)
  · obtain ⟨r, hr, rfl⟩ := List.mem_map.mp hc
    exact parserRuleClause_readable (h r hr)

/-! ### Reading back -/

theorem not_mem_generatedFrom {file : String} (h : '\n' ∉ file.toList) :
    '\n' ∉ (generatedFrom file).toList := by
  have htext : generatedFrom file =
      "Generated by ingram 0.1.0 from " ++ file ++ ". Do not edit." := rfl
  rw [htext, String.toList_append, String.toList_append, List.mem_append, List.mem_append, not_or,
    not_or]
  exact ⟨⟨by decide, h⟩, by decide⟩

theorem readAll_ofLexer {spec : LexerSpec} (h : spec.Writable) {file : String}
    (hfile : '\n' ∉ file.toList) :
    ∃ w d, Sexpr.readAll (ofLexer spec file).toString = .ok [w] ∧
      UnitDecl.ofForms [w] = .ok (.lexer d) ∧ d.unplaced = spec.declared := by
  obtain ⟨w, hread, hform⟩ :=
    readAll_toString _ (not_mem_generatedFrom hfile) (ofLexer_readable h file)
  obtain ⟨d, hd, hdeclared⟩ := UnitDecl.lexerOf_declared h file hform
  exact ⟨w, d, hread, hd, hdeclared⟩

theorem readAll_ofParser {spec : ParserSpec} (h : ∀ r ∈ spec.rules, r.Writable) {file : String}
    (hfile : '\n' ∉ file.toList) :
    ∃ w d, Sexpr.readAll (ofParser spec file).toString = .ok [w] ∧
      UnitDecl.ofForms [w] = .ok (.parser d) ∧ d.unplaced = spec.declared := by
  obtain ⟨w, hread, hform⟩ :=
    readAll_toString _ (not_mem_generatedFrom hfile) (ofParser_readable h file)
  obtain ⟨d, hd, hdeclared⟩ := UnitDecl.parserOf_declared h file hform
  exact ⟨w, d, hread, hd, hdeclared⟩

end GrammarEngine.UnitText

/-! ## Units of grammars -/
namespace GrammarEngine

theorem GeneratedUnits.forall₂_of_readFiles {files : List GrammarFile} {grammars : List Grammar}
    {warnings : List Warning} (h : readFiles files = .ok (grammars, warnings)) :
    List.Forall₂ (fun f g => g.FromFile ∧ g.file = f.name) files grammars := by
  induction files generalizing grammars warnings with
  | nil =>
      cases h
      exact .nil
  | cons f files ih =>
      rw [readFiles] at h
      obtain ⟨⟨g, found⟩, hg, h⟩ := bind_eq_ok.mp h
      obtain ⟨⟨gs, more⟩, hgs, h⟩ := bind_eq_ok.mp h
      cases h
      exact .cons (Grammar.fromFile_of_read hg) (ih hgs)

theorem GeneratedUnits.fromFile_of_readFiles {files : List GrammarFile} {grammars : List Grammar}
    {warnings : List Warning} (h : readFiles files = .ok (grammars, warnings)) :
    ∀ g ∈ grammars, g.FromFile := by
  intro g hg
  obtain ⟨f, _, hfile, _⟩ := exists_of_mem_right (forall₂_of_readFiles h) hg
  exact hfile

/-- Writing a recognizer as a unit and reading the unit are inverse, places aside. -/
theorem Analysis.units_read_back {files : List GrammarFile} {grammars : List Grammar}
    {warnings : List Warning} {package : Option String} {a : Analysis}
    (hread : GeneratedUnits.readFiles files = .ok (grammars, warnings))
    (ha : Analysis.ofGrammars grammars package = .ok a)
    (hfragments : ∀ g ∈ grammars, ∀ r ∈ g.rules, r.fragment = true →
      ∀ b ∈ r.alternatives, b.commands = [])
    (hwords : a.FitsWords) {file : String} (hfile : '\n' ∉ file.toList) :
    (∀ l ∈ a.lexers, ∃ w d, Sexpr.readAll (UnitText.ofLexer l file).toString = .ok [w] ∧
      UnitDecl.ofForms [w] = .ok (.lexer d) ∧ d.unplaced = l.declared) ∧
    ∀ p ∈ a.parsers, ∃ w d, Sexpr.readAll (UnitText.ofParser p file).toString = .ok [w] ∧
      UnitDecl.ofForms [w] = .ok (.parser d) ∧ d.unplaced = p.declared := by
  obtain ⟨hlexers, hparsers⟩ := Analysis.writable_of_ofGrammars ha
    (GeneratedUnits.fromFile_of_readFiles hread) hfragments hwords
  exact ⟨fun l hl => UnitText.readAll_ofLexer (hlexers l hl) hfile,
    fun p hp => UnitText.readAll_ofParser (hparsers p hp) hfile⟩

/-- Products of numbers, with a command, a fragment and nested blocks. -/
def productFiles : List GrammarFile :=
  [⟨"P.g4", "grammar P;\ne : e ('*' | '/' e?) e | N ;\nN : D+ ;\n" ++
    "fragment D : [0-9] ;\nW : ' ' -> skip ;\n"⟩]

theorem products_read_back :
    ∃ grammars warnings a, GeneratedUnits.readFiles productFiles = .ok (grammars, warnings) ∧
      Analysis.ofGrammars grammars none = .ok a ∧
      (∀ g ∈ grammars, ∀ r ∈ g.rules, r.fragment = true → ∀ b ∈ r.alternatives, b.commands = []) ∧
      a.FitsWords ∧ '\n' ∉ "P.g4".toList ∧
      (∀ l ∈ a.lexers, ∃ w d, Sexpr.readAll (UnitText.ofLexer l "P.g4").toString = .ok [w] ∧
        UnitDecl.ofForms [w] = .ok (.lexer d) ∧ d.unplaced = l.declared) ∧
      ∀ p ∈ a.parsers, ∃ w d, Sexpr.readAll (UnitText.ofParser p "P.g4").toString = .ok [w] ∧
        UnitDecl.ofForms [w] = .ok (.parser d) ∧ d.unplaced = p.declared := by
  have hcheck : (match GeneratedUnits.readFiles productFiles with
      | .error _ => false
      | .ok (grammars, _) => (match Analysis.ofGrammars grammars none with
        | .error _ => false
        | .ok a =>
          grammars.all (fun g => g.rules.all fun r =>
            !r.fragment || r.alternatives.all fun b => b.commands.isEmpty) &&
          a.lexers.all (fun l => decide (l.vocabulary.length < 2 ^ 31)) &&
          a.parsers.all fun p => p.rules.all fun r => decide (r.size + 1 < 2 ^ 32))) = true := by
    decide +kernel
  cases hread : GeneratedUnits.readFiles productFiles with
  | error e => simp [hread] at hcheck
  | ok found =>
      obtain ⟨grammars, warnings⟩ := found
      cases ha : Analysis.ofGrammars grammars none with
      | error e => simp [hread, ha] at hcheck
      | ok a =>
          simp only [hread, ha, Bool.and_eq_true, List.all_eq_true, Bool.or_eq_true,
            Bool.not_eq_true', decide_eq_true_eq, List.isEmpty_iff] at hcheck
          obtain ⟨⟨hfragment, hlexers⟩, hparsers⟩ := hcheck
          have hfragments : ∀ g ∈ grammars, ∀ r ∈ g.rules, r.fragment = true →
              ∀ b ∈ r.alternatives, b.commands = [] := by
            intro g hg r hr hyes
            rcases hfragment g hg r hr with hno | hnone
            · rw [hyes] at hno
              cases hno
            · exact hnone
          have hfile : '\n' ∉ "P.g4".toList := by decide
          exact ⟨grammars, warnings, a, rfl, ha, hfragments, ⟨hlexers, hparsers⟩, hfile,
            Analysis.units_read_back hread ha hfragments ⟨hlexers, hparsers⟩ hfile⟩

end GrammarEngine

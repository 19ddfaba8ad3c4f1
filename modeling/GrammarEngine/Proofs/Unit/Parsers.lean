import GrammarEngine.Proofs.Unit.Clauses

/-!
# Parsers read back

A parser that is laid out as a unit is read back as its own declaration.
-/
namespace GrammarEngine.UnitDecl
open UnitText

/-! ## Rules -/

/-- Parts without places. -/
def Parts.unplaced (parts : Parts) : Parts :=
  (parts.1.map (List.map UnitExpr.unplaced),
    parts.2.map fun s => (s.1, s.2.map UnitExpr.unplaced))

theorem addPart_primaries {primaries : List Alternative}
    (h : ∀ a ∈ primaries, Alternative.Writable a) :
    Puts addPart Parts.unplaced
      (primaries.map fun a => .node "primary" [alternativeForm .parser a])
      fun parts => (parts.1 ++ primaries.map (declaredItems .parser), parts.2) := by
  induction primaries with
  | nil => exact puts_nil.congr fun parts => by simp
  | cons a primaries ih =>
      have hfirst : Puts addPart Parts.unplaced
          [.node "primary" [alternativeForm .parser a]]
          fun parts => (parts.1 ++ [declaredItems .parser a], parts.2) := by
        refine puts_one fun w parts hw => ?_
        obtain ⟨p, q, args, rfl, hargs⟩ := form_eq_node hw
        have hwritable : ∀ b ∈ [a], Alternative.Writable b := by
          simpa using h a List.mem_cons_self
        obtain ⟨found, hfound, hdeclared⟩ := alternatives_declared .parser hwritable hargs
        refine ⟨(parts.1 ++ found, parts.2), ?_, ?_⟩
        · rw [addPart_primary, hfound]
          rfl
        · rw [Parts.unplaced, List.map_append, hdeclared]
          rfl
      have hrest := ih fun b hb => h b (List.mem_cons_of_mem a hb)
      exact (hfirst.append hrest).congr fun parts => by simp

theorem addPart_suffixes {suffixes : List SuffixSpec}
    (h : ∀ s ∈ suffixes, s.precedence < 2 ^ 32 ∧ ∀ e ∈ s.elements, e.Writable) :
    Puts addPart Parts.unplaced (suffixes.map suffixForm)
      fun parts => (parts.1, parts.2 ++ suffixes.map fun s =>
        (.ofNat s.precedence, Element.declaredAll .parser s.elements)) := by
  induction suffixes with
  | nil => exact puts_nil.congr fun parts => by simp
  | cons s suffixes ih =>
      obtain ⟨hprecedence, helements⟩ := h s List.mem_cons_self
      have hfirst : Puts addPart Parts.unplaced [suffixForm s]
          fun parts => (parts.1, parts.2 ++
            [(.ofNat s.precedence, Element.declaredAll .parser s.elements)]) := by
        refine puts_one fun w parts hw => ?_
        obtain ⟨p, q, args, rfl, hargs⟩ := form_eq_node hw
        obtain ⟨first, rest, rfl, hfirst, hrest⟩ := List.map_eq_cons_iff.mp hargs
        obtain ⟨p₁, rfl⟩ := form_eq_nat hfirst
        have hwritable : ∀ b ∈ [({ elements := s.elements } : Alternative)],
            Alternative.Writable b := by
          simpa [Alternative.Writable] using helements
        obtain ⟨found, hfound, hdeclared⟩ := alternatives_declared .parser hwritable
          (by simpa [alternativeForm] using hrest)
        obtain ⟨items, rfl⟩ : ∃ items, found = [items] :=
          List.length_eq_one_iff.mp (by simpa using congrArg List.length hdeclared)
        refine ⟨(parts.1, parts.2 ++ [(.ofNat s.precedence, items)]), ?_, ?_⟩
        · have hint : intAt (.list p (.symbol q "suffix" :: .int p₁ s.precedence :: rest)) 0
              "precedence" = .ok (s.precedence : Int) := rfl
          rw [addPart_suffix, hint, bind_eq_ok]
          refine ⟨_, rfl, ?_⟩
          rw [toWord?_of_lt hprecedence]
          show alternatives rest >>= _ = _
          rw [hfound]
          rfl
        · rw [Parts.unplaced, List.map_append]
          rw [List.map_singleton] at hdeclared
          simp [Parts.unplaced, (List.cons.inj hdeclared).1, declaredItems]
      have hrest := ih fun t ht => h t (List.mem_cons_of_mem s ht)
      exact (hfirst.append hrest).congr fun parts => by simp

theorem parserRuleBody_lrule (p q p₁ : Position) (name : String) {ws : List Sexpr} {parts : Parts}
    (hws : ws.foldlM addPart ([], []) = .ok parts) (hne : parts.1 ≠ []) :
    parserRuleBody (.list p (.symbol q "lrule" :: .text p₁ name :: ws)) =
      .ok (.leftRecursive parts.1 parts.2) := by
  have hempty : parts.1.isEmpty = false := List.isEmpty_eq_false_iff.mpr hne
  simp [parserRuleBody, Sexpr.head?, Sexpr.args, hws, hempty, bind, Except.bind, pure, Except.pure]

/-- A rule is read back under the head that tells the two kinds apart. -/
theorem parserRule_declared {r : ParserRuleSpec} {w : Sexpr} (hr : r.Writable)
    (hw : w.form = (parserRuleClause r).form) :
    ∃ d, (w.head? = some "rule" ∨ w.head? = some "lrule") ∧ parserRule w = .ok d ∧
      d.unplaced = r.declared := by
  cases r with
  | plain name alternatives =>
      have hnode : w.form = .node "rule"
          (.text name :: alternatives.map (alternativeForm .parser)) := hw
      obtain ⟨p, q, args, rfl, hargs⟩ := form_eq_node hnode
      obtain ⟨first, ws, rfl, hfirst, hws⟩ := List.map_eq_cons_iff.mp hargs
      obtain ⟨p₁, rfl⟩ := form_eq_text hfirst
      obtain ⟨found, hfound, hdeclared⟩ := alternatives_declared .parser hr hws
      refine ⟨⟨name, p, .plain found⟩, .inl rfl, ?_, ?_⟩
      · simp [parserRule, stringAt, Sexpr.args, Sexpr.text?, parserRuleBody, Sexpr.head?, hfound,
          Sexpr.position, bind, Except.bind, pure, Except.pure]
      · rw [ParserRuleDecl.unplaced, ParserRuleBody.unplaced, hdeclared]
        rfl
  | leftRecursive name primaries suffixes =>
      obtain ⟨hne, hprimaries, hsuffixes⟩ := hr
      have hnode : w.form = .node "lrule" (.text name :: (primaries.map (fun a =>
          .node "primary" [alternativeForm .parser a]) ++ suffixes.map suffixForm)) := hw
      obtain ⟨p, q, args, rfl, hargs⟩ := form_eq_node hnode
      obtain ⟨first, ws, rfl, hfirst, hws⟩ := List.map_eq_cons_iff.mp hargs
      obtain ⟨p₁, rfl⟩ := form_eq_text hfirst
      obtain ⟨parts, hparts, hdeclared⟩ :=
        (addPart_primaries hprimaries).append (addPart_suffixes hsuffixes) ws ([], []) hws
      obtain ⟨hfirst, hsecond⟩ := Prod.mk.inj hdeclared
      refine ⟨⟨name, p, .leftRecursive parts.1 parts.2⟩, .inr rfl, ?_, ?_⟩
      · have hsome : parts.1 ≠ [] := by
          rintro hempty
          rw [hempty] at hfirst
          exact hne (by simpa [Parts.unplaced] using hfirst.symm)
        have hname : stringAt (.list p (.symbol q "lrule" :: .text p₁ name :: ws)) 0 "rule name" =
            .ok name := rfl
        simp [parserRule, hname, parserRuleBody_lrule p q p₁ name hparts hsome, Sexpr.position,
          bind, Except.bind, pure, Except.pure]
      · rw [ParserRuleDecl.unplaced, ParserRuleBody.unplaced, hfirst, hsecond]
        rfl

/-! ## Properties -/

/-- A parser whose clauses are being read, without places. -/
def PartialParser.unplaced (d : PartialParser) : PartialParser :=
  { d with
    vocabulary := d.vocabulary.map NameAt.unplaced
    base := d.base.map NameAt.unplaced
    start := d.start.map NameAt.unplaced
    rules := d.rules.map ParserRuleDecl.unplaced }

theorem addParserClause_grammar (s : String) :
    Puts addParserClause PartialParser.unplaced [(textClause "grammar" s).form] fun d =>
      { d with grammar := s } := by
  refine puts_one fun w d hw => ⟨{ d with grammar := s }, ?_, rfl⟩
  obtain ⟨p, q, p₁, rfl⟩ := form_eq_textClause hw
  rfl

theorem addParserClause_vocabulary (s : String) :
    Puts addParserClause PartialParser.unplaced [(textClause "vocab" s).form] fun d =>
      { d with vocabulary := some ⟨s, {}⟩ } := by
  refine puts_one fun w d hw => ?_
  obtain ⟨p, q, p₁, rfl⟩ := form_eq_textClause hw
  exact ⟨{ d with vocabulary := some ⟨s, p⟩ }, rfl, rfl⟩

theorem addParserClause_extends (s : String) :
    Puts addParserClause PartialParser.unplaced [(textClause "extends" s).form] fun d =>
      { d with base := some ⟨s, {}⟩ } := by
  refine puts_one fun w d hw => ?_
  obtain ⟨p, q, p₁, rfl⟩ := form_eq_textClause hw
  exact ⟨{ d with base := some ⟨s, p⟩ }, rfl, rfl⟩

theorem addParserClause_start (s : String) :
    Puts addParserClause PartialParser.unplaced [(textClause "start" s).form] fun d =>
      { d with start := some ⟨s, {}⟩ } := by
  refine puts_one fun w d hw => ?_
  obtain ⟨p, q, p₁, rfl⟩ := form_eq_textClause hw
  exact ⟨{ d with start := some ⟨s, p⟩ }, rfl, rfl⟩

theorem addParserClause_rules {rules : List ParserRuleSpec} (h : ∀ r ∈ rules, r.Writable) :
    Puts addParserClause PartialParser.unplaced (rules.map fun r => (parserRuleClause r).form)
      fun d => { d with rules := d.rules ++ rules.map ParserRuleSpec.declared } := by
  induction rules with
  | nil => exact puts_nil.congr fun d => by simp
  | cons r rules ih =>
      have hfirst : Puts addParserClause PartialParser.unplaced [(parserRuleClause r).form]
          fun d => { d with rules := d.rules ++ [r.declared] } := by
        refine puts_one fun w d hw => ?_
        obtain ⟨found, hhead, hfound, hdeclared⟩ :=
          parserRule_declared (h r List.mem_cons_self) hw
        refine ⟨{ d with rules := d.rules ++ [found] }, ?_, ?_⟩
        · rcases hhead with hhead | hhead <;>
            simp [addParserClause, hhead, hfound, bind, Except.bind, pure, Except.pure]
        · simp [PartialParser.unplaced, hdeclared]
      have hrest := ih fun q hq => h q (List.mem_cons_of_mem r hq)
      exact (hfirst.append hrest).congr fun d => by simp

theorem addParserClause_clauses {spec : ParserSpec} (h : ∀ r ∈ spec.rules, r.Writable)
    (file : String) :
    Puts addParserClause PartialParser.unplaced ((ofParser spec file).clauses.map Clause.form)
      fun d => { d with
        grammar := spec.grammar
        vocabulary := some ⟨spec.vocabularyUnit, {}⟩
        base := (spec.extends.map fun base => ⟨base, {}⟩).or d.base
        start := some ⟨spec.startRule, {}⟩
        rules := d.rules ++ spec.rules.map ParserRuleSpec.declared } := by
  have hextends : Puts addParserClause PartialParser.unplaced
      ((spec.extends.map (textClause "extends")).toList.map Clause.form)
      fun d => { d with base := (spec.extends.map fun base => ⟨base, {}⟩).or d.base } := by
    cases spec.extends with
    | none => exact puts_nil.congr fun d => by simp
    | some base => exact (addParserClause_extends base).congr fun d => by simp
  have hput := ((((addParserClause_grammar spec.grammar).append
    (addParserClause_vocabulary spec.vocabularyUnit)).append hextends).append
      (addParserClause_start spec.startRule)).append (addParserClause_rules h)
  have hforms : (ofParser spec file).clauses.map Clause.form =
      [(textClause "grammar" spec.grammar).form] ++
        [(textClause "vocab" spec.vocabularyUnit).form] ++
        (spec.extends.map (textClause "extends")).toList.map Clause.form ++
        [(textClause "start" spec.startRule).form] ++
        spec.rules.map fun r => (parserRuleClause r).form := by
    simp [ofParser, List.map_append, Function.comp_def]
  rw [hforms]
  exact hput.congr fun d => rfl

theorem parserOf_declared {spec : ParserSpec} (h : ∀ r ∈ spec.rules, r.Writable) (file : String)
    {w : Sexpr} (hw : w.form = (ofParser spec file).form) :
    ∃ d, ofForms [w] = .ok (.parser d) ∧ d.unplaced = spec.declared := by
  have hnode : w.form = .node "parser"
      (.text spec.unit :: (ofParser spec file).clauses.map Clause.form) := hw
  obtain ⟨p, q, args, rfl, hargs⟩ := form_eq_node hnode
  obtain ⟨first, ws, rfl, hfirst, hws⟩ := List.map_eq_cons_iff.mp hargs
  obtain ⟨p₁, rfl⟩ := form_eq_text hfirst
  obtain ⟨d, hfold, hdeclared⟩ := addParserClause_clauses h file ws {} hws
  have hvocabulary := congrArg PartialParser.vocabulary hdeclared
  obtain ⟨vocabulary, hsome, hname⟩ := Option.map_eq_some_iff.mp hvocabulary
  refine ⟨{ name := spec.unit, position := p, grammar := d.grammar, vocabulary, base := d.base,
            start := d.start, rules := d.rules }, ?_, ?_⟩
  · have hread : parserOf (.list p (.symbol q "parser" :: .text p₁ spec.unit :: ws)) =
        .ok { name := spec.unit, position := p, grammar := d.grammar, vocabulary, base := d.base,
              start := d.start, rules := d.rules } := by
      simp [parserOf, stringAt_text, Sexpr.args, Sexpr.position, hfold, hsome, bind, Except.bind,
        pure, Except.pure]
    have hforms : ofForms [.list p (.symbol q "parser" :: .text p₁ spec.unit :: ws)] =
        (parserOf (.list p (.symbol q "parser" :: .text p₁ spec.unit :: ws))).map .parser := rfl
    rw [hforms, hread]
    rfl
  · have hgrammar := congrArg PartialParser.grammar hdeclared
    have hbase := congrArg PartialParser.base hdeclared
    have hstart := congrArg PartialParser.start hdeclared
    have hrules := congrArg PartialParser.rules hdeclared
    simp only [PartialParser.unplaced] at hgrammar hbase hstart hrules
    rw [ParserDecl.unplaced, ParserSpec.declared, hname]
    simp [hgrammar, hbase, hstart, hrules]

end GrammarEngine.UnitDecl

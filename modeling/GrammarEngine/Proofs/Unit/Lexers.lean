import GrammarEngine.Proofs.Unit.Clauses

/-!
# Lexers read back

A lexer that is laid out as a unit is read back as its own declaration.
-/
namespace GrammarEngine.UnitDecl
open UnitText

/-! ## Tokens and rules -/

theorem toType?_of_lt {n : Nat} (h : n < 2 ^ 31) : toType? n = some (.ofInt n) := by
  rw [toType?, if_pos (by omega)]

theorem token_list (p q p₁ p₂ : Position) {n : Int} {type : TokenType} {name : String}
    (rest : List Sexpr) (h : toType? n = some type) :
    token (.list p (.symbol q "token" :: .int p₁ n :: .text p₂ name :: rest)) =
      .ok ⟨type, name, rest.head?.bind Sexpr.text?⟩ := by
  simp [token, intAt, stringAt, typeOf, Sexpr.args, Sexpr.int?, Sexpr.text?, h, bind, Except.bind,
    pure, Except.pure, List.head?_eq_getElem?]

theorem token_form {t : TokenSpec} {w : Sexpr} (ht : t.type < 2 ^ 31)
    (hw : w.form = (tokenClause t).form) : token w = .ok t.declared := by
  obtain ⟨type, name, literal⟩ := t
  cases literal with
  | none =>
      have hnode : w.form = .node "token" [.nat type, .text name] := hw
      obtain ⟨p, q, args, rfl, hargs⟩ := form_eq_node hnode
      obtain ⟨first, rest, rfl, hfirst, hrest⟩ := List.map_eq_cons_iff.mp hargs
      obtain ⟨second, rest, rfl, hsecond, hrest⟩ := List.map_eq_cons_iff.mp hrest
      obtain rfl := List.map_eq_nil_iff.mp hrest
      obtain ⟨_, rfl⟩ := form_eq_nat hfirst
      obtain ⟨_, rfl⟩ := form_eq_text hsecond
      exact token_list p q _ _ [] (toType?_of_lt ht)
  | some literal =>
      have hnode : w.form = .node "token" [.nat type, .text name, .text literal] := hw
      obtain ⟨p, q, args, rfl, hargs⟩ := form_eq_node hnode
      obtain ⟨first, rest, rfl, hfirst, hrest⟩ := List.map_eq_cons_iff.mp hargs
      obtain ⟨second, rest, rfl, hsecond, hrest⟩ := List.map_eq_cons_iff.mp hrest
      obtain ⟨third, rest, rfl, hthird, hrest⟩ := List.map_eq_cons_iff.mp hrest
      obtain rfl := List.map_eq_nil_iff.mp hrest
      obtain ⟨_, rfl⟩ := form_eq_nat hfirst
      obtain ⟨_, rfl⟩ := form_eq_text hsecond
      obtain ⟨_, rfl⟩ := form_eq_text hthird
      exact token_list p q _ _ [_] (toType?_of_lt ht)

theorem lexerRule_list (p q p₁ p₂ p₃ : Position) {n : Int} {type : TokenType}
    {name mode : String} {ws : List Sexpr} {found : List LexerAlternative}
    (h : toType? n = some type) (hws : ws.mapM lexerAlternative = .ok found) :
    lexerRule (.list p (.symbol q "rule" :: .text p₁ name :: .int p₂ n :: .text p₃ mode :: ws)) =
      .ok ⟨name, p, type, mode, found⟩ := by
  simp [lexerRule, intAt, stringAt, typeOf, Sexpr.args, Sexpr.int?, Sexpr.text?, h, hws,
    Sexpr.position, bind, Except.bind, pure, Except.pure]

theorem lexerRule_declared {r : LexerRuleSpec} {type : Nat} {w : Sexpr} (hr : r.Writable)
    (htype : r.tokenType = some type) (hw : w.form = (lexerRuleClause r).form) :
    ∃ d, w.head? = some "rule" ∧ lexerRule w = .ok d ∧
      r.declaredToken? = some d.unplaced := by
  obtain ⟨hlt, -, helements⟩ := hr
  rw [lexerRuleClause, htype] at hw
  have hnode : w.form = .node "rule" (.text r.name :: .nat type :: .text r.mode ::
      r.alternatives.map (alternativeForm .lexer)) := hw
  obtain ⟨p, q, args, rfl, hargs⟩ := form_eq_node hnode
  obtain ⟨first, rest, rfl, hfirst, hrest⟩ := List.map_eq_cons_iff.mp hargs
  obtain ⟨second, rest, rfl, hsecond, hrest⟩ := List.map_eq_cons_iff.mp hrest
  obtain ⟨third, ws, rfl, hthird, hws⟩ := List.map_eq_cons_iff.mp hrest
  obtain ⟨p₁, rfl⟩ := form_eq_text hfirst
  obtain ⟨p₂, rfl⟩ := form_eq_nat hsecond
  obtain ⟨p₃, rfl⟩ := form_eq_text hthird
  obtain ⟨found, hfound, hdeclared⟩ := mapM_forms lexerAlternative _ _ hws fun a ha _ hw =>
    lexerAlternative_declared (helements a ha) hw
  refine ⟨⟨r.name, p, .ofInt type, r.mode, found⟩, rfl, ?_, ?_⟩
  · exact lexerRule_list p q p₁ p₂ p₃ (toType?_of_lt (hlt type htype)) hfound
  · simp [LexerRuleSpec.declaredToken?, htype, LexerRuleDecl.unplaced, hdeclared]

theorem fragment_declared {r : LexerRuleSpec} {w : Sexpr} (hr : r.Writable)
    (htype : r.tokenType = none) (hw : w.form = (lexerRuleClause r).form) :
    ∃ d, w.head? = some "fragment" ∧ fragment w = .ok d ∧
      r.declaredFragment? = some d.unplaced := by
  obtain ⟨-, hcommands, helements⟩ := hr
  rw [lexerRuleClause, htype] at hw
  have hnode : w.form = .node "fragment" (.text r.name ::
      r.alternatives.map (alternativeForm .lexer)) := hw
  obtain ⟨p, q, args, rfl, hargs⟩ := form_eq_node hnode
  obtain ⟨first, rest, rfl, hfirst, hrest⟩ := List.map_eq_cons_iff.mp hargs
  obtain ⟨p₁, rfl⟩ := form_eq_text hfirst
  obtain ⟨found, hfound, hdeclared⟩ := alternatives_declared .lexer
    (fun a ha => ⟨hcommands htype a ha, helements a ha⟩) hrest
  refine ⟨⟨r.name, p, found⟩, rfl, ?_, ?_⟩
  · simp [fragment, stringAt, Sexpr.args, Sexpr.text?, hfound, Sexpr.position, bind, Except.bind,
      pure, Except.pure]
  · simp [LexerRuleSpec.declaredFragment?, htype, FragmentDecl.unplaced, hdeclared]

theorem addLexerClause_rule {r : LexerRuleSpec} (hr : r.Writable) :
    Puts addLexerClause LexerDecl.unplaced [(lexerRuleClause r).form] fun d =>
      { d with
        rules := d.rules ++ r.declaredToken?.toList
        fragments := d.fragments ++ r.declaredFragment?.toList } := by
  refine puts_one fun w d hw => ?_
  cases htype : r.tokenType with
  | some type =>
      obtain ⟨found, hhead, hfound, hdeclared⟩ := lexerRule_declared hr htype hw
      refine ⟨{ d with rules := d.rules ++ [found] }, ?_, ?_⟩
      · simp [addLexerClause, hhead, hfound, bind, Except.bind, pure, Except.pure]
      · simp [LexerDecl.unplaced, hdeclared, LexerRuleSpec.declaredFragment?, htype]
  | none =>
      obtain ⟨found, hhead, hfound, hdeclared⟩ := fragment_declared hr htype hw
      refine ⟨{ d with fragments := d.fragments ++ [found] }, ?_, ?_⟩
      · simp [addLexerClause, hhead, hfound, bind, Except.bind, pure, Except.pure]
      · simp [LexerDecl.unplaced, hdeclared, LexerRuleSpec.declaredToken?, htype]

theorem addLexerClause_rules {rules : List LexerRuleSpec} (h : ∀ r ∈ rules, r.Writable) :
    Puts addLexerClause LexerDecl.unplaced (rules.map fun r => (lexerRuleClause r).form) fun d =>
      { d with
        rules := d.rules ++ rules.filterMap LexerRuleSpec.declaredToken?
        fragments := d.fragments ++ rules.filterMap LexerRuleSpec.declaredFragment? } := by
  induction rules with
  | nil => exact puts_nil.congr fun d => by simp
  | cons r rules ih =>
      have hrest := ih fun q hq => h q (List.mem_cons_of_mem r hq)
      refine ((addLexerClause_rule (h r List.mem_cons_self)).append hrest).congr fun d => ?_
      rw [List.filterMap_cons, List.filterMap_cons]
      cases r.declaredToken? <;> cases r.declaredFragment? <;> simp

theorem addLexerClause_tokens {vocabulary : List TokenSpec}
    (h : ∀ t ∈ vocabulary, t.type < 2 ^ 31) :
    Puts addLexerClause LexerDecl.unplaced (vocabulary.map fun t => (tokenClause t).form) fun d =>
      { d with tokens := d.tokens ++ vocabulary.map TokenSpec.declared } := by
  induction vocabulary with
  | nil => exact puts_nil.congr fun d => by simp
  | cons t vocabulary ih =>
      have hfirst : Puts addLexerClause LexerDecl.unplaced [(tokenClause t).form] fun d =>
          { d with tokens := d.tokens ++ [t.declared] } := by
        refine puts_one fun w d hw => ⟨{ d with tokens := d.tokens ++ [t.declared] }, ?_, rfl⟩
        have hhead : w.head? = some "token" := by
          have hnode : w.form = .node "token" (.nat t.type :: .text t.name ::
              ((t.literal.map Form.text).toList ++ [])) := hw
          obtain ⟨p, q, args, rfl, -⟩ := form_eq_node hnode
          rfl
        simp [addLexerClause, hhead, token_form (h t List.mem_cons_self) hw, bind, Except.bind,
          pure, Except.pure]
      have hrest := ih fun s hs => h s (List.mem_cons_of_mem t hs)
      exact (hfirst.append hrest).congr fun d => by simp

/-! ## Properties -/

theorem addLexerClause_grammar (s : String) :
    Puts addLexerClause LexerDecl.unplaced [(textClause "grammar" s).form] fun d =>
      { d with grammar := s } := by
  refine puts_one fun w d hw => ⟨{ d with grammar := s }, ?_, rfl⟩
  obtain ⟨p, q, p₁, rfl⟩ := form_eq_textClause hw
  rfl

theorem addLexerClause_caseInsensitive :
    Puts addLexerClause LexerDecl.unplaced [.node "case-insensitive" []] fun d =>
      { d with caseInsensitive := true } := by
  refine puts_one fun w d hw => ⟨{ d with caseInsensitive := true }, ?_, rfl⟩
  obtain ⟨p, q, args, rfl, -⟩ := form_eq_node hw
  rfl

theorem addLexerClause_extends (s : String) :
    Puts addLexerClause LexerDecl.unplaced [(textClause "extends" s).form] fun d =>
      { d with base := some ⟨s, {}⟩ } := by
  refine puts_one fun w d hw => ?_
  obtain ⟨p, q, p₁, rfl⟩ := form_eq_textClause hw
  exact ⟨{ d with base := some ⟨s, p⟩ }, rfl, rfl⟩

theorem addLexerClause_channels (names : List String) :
    Puts addLexerClause LexerDecl.unplaced [(namesClause "channels" names).form] fun d =>
      { d with channels := names } := by
  refine puts_one fun w d hw => ⟨{ d with channels := names }, ?_, rfl⟩
  obtain ⟨p, q, args, rfl, hread⟩ := strings_form hw
  simp [addLexerClause, Sexpr.head?, hread, bind, Except.bind, pure, Except.pure]

theorem addLexerClause_modes (names : List String) :
    Puts addLexerClause LexerDecl.unplaced [(namesClause "modes" names).form] fun d =>
      { d with modes := names } := by
  refine puts_one fun w d hw => ⟨{ d with modes := names }, ?_, rfl⟩
  obtain ⟨p, q, args, rfl, hread⟩ := strings_form hw
  simp [addLexerClause, Sexpr.head?, hread, bind, Except.bind, pure, Except.pure]

/-- The clauses of a lexer put its properties, tokens and rules into a declaration. -/
theorem addLexerClause_clauses {spec : LexerSpec} (h : spec.Writable) (file : String) :
    Puts addLexerClause LexerDecl.unplaced ((ofLexer spec file).clauses.map Clause.form) fun d =>
      { d with
        grammar := spec.grammar
        caseInsensitive := d.caseInsensitive || spec.caseInsensitive
        base := (spec.extends.map fun base => ⟨base, {}⟩).or d.base
        channels := if spec.channels.isEmpty then d.channels else spec.channels
        modes := spec.modes
        tokens := d.tokens ++ spec.vocabulary.map TokenSpec.declared
        rules := d.rules ++ spec.rules.filterMap LexerRuleSpec.declaredToken?
        fragments := d.fragments ++ spec.rules.filterMap LexerRuleSpec.declaredFragment? } := by
  have hcase : Puts addLexerClause LexerDecl.unplaced
      ((if spec.caseInsensitive then [⟨[.symbol "case-insensitive"], []⟩] else []).map Clause.form)
      fun d => { d with caseInsensitive := d.caseInsensitive || spec.caseInsensitive } := by
    cases spec.caseInsensitive with
    | false => exact puts_nil.congr fun d => by simp
    | true => exact addLexerClause_caseInsensitive.congr fun d => by simp
  have hextends : Puts addLexerClause LexerDecl.unplaced
      ((spec.extends.map (textClause "extends")).toList.map Clause.form)
      fun d => { d with base := (spec.extends.map fun base => ⟨base, {}⟩).or d.base } := by
    cases spec.extends with
    | none => exact puts_nil.congr fun d => by simp
    | some base => exact (addLexerClause_extends base).congr fun d => by simp
  have hchannels : Puts addLexerClause LexerDecl.unplaced
      ((if spec.channels.isEmpty then []
        else [namesClause "channels" spec.channels]).map Clause.form)
      fun d => { d with
        channels := if spec.channels.isEmpty then d.channels else spec.channels } := by
    cases hempty : spec.channels.isEmpty with
    | true => exact puts_nil.congr fun d => by simp
    | false => exact (addLexerClause_channels spec.channels).congr fun d => by simp
  have hput := (((((addLexerClause_grammar spec.grammar).append hcase).append hextends).append
    hchannels).append (addLexerClause_modes spec.modes)).append
      ((addLexerClause_tokens h.vocabulary).append (addLexerClause_rules h.rules))
  have hforms : (ofLexer spec file).clauses.map Clause.form =
      [(textClause "grammar" spec.grammar).form] ++
        (if spec.caseInsensitive then [⟨[.symbol "case-insensitive"], []⟩]
          else []).map Clause.form ++
        (spec.extends.map (textClause "extends")).toList.map Clause.form ++
        (if spec.channels.isEmpty then [] else [namesClause "channels" spec.channels]).map
          Clause.form ++
        [(namesClause "modes" spec.modes).form] ++
        (spec.vocabulary.map (fun t => (tokenClause t).form) ++
          spec.rules.map fun r => (lexerRuleClause r).form) := by
    simp [ofLexer, List.map_append, Function.comp_def]
  rw [hforms]
  exact hput.congr fun d => rfl

theorem lexerOf_declared {spec : LexerSpec} (h : spec.Writable) (file : String) {w : Sexpr}
    (hw : w.form = (ofLexer spec file).form) :
    ∃ d, ofForms [w] = .ok (.lexer d) ∧ d.unplaced = spec.declared := by
  have hnode : w.form = .node "lexer"
      (.text spec.unit :: (ofLexer spec file).clauses.map Clause.form) := hw
  obtain ⟨p, q, args, rfl, hargs⟩ := form_eq_node hnode
  obtain ⟨first, ws, rfl, hfirst, hws⟩ := List.map_eq_cons_iff.mp hargs
  obtain ⟨p₁, rfl⟩ := form_eq_text hfirst
  obtain ⟨d, hfold, hdeclared⟩ :=
    addLexerClause_clauses h file ws { name := spec.unit, position := p } hws
  have hmodes : d.modes = spec.modes := congrArg LexerDecl.modes hdeclared
  refine ⟨d, ?_, ?_⟩
  · have hread : lexerOf (.list p (.symbol q "lexer" :: .text p₁ spec.unit :: ws)) = .ok d := by
      have hne : d.modes.isEmpty = false := by
        rw [hmodes]
        exact List.isEmpty_eq_false_iff.mpr h.modes
      simp [lexerOf, stringAt_text, Sexpr.args, Sexpr.position, hfold, hne, bind, Except.bind, pure,
        Except.pure]
    have hforms : ofForms [.list p (.symbol q "lexer" :: .text p₁ spec.unit :: ws)] =
        (lexerOf (.list p (.symbol q "lexer" :: .text p₁ spec.unit :: ws))).map .lexer := rfl
    rw [hforms, hread]
    rfl
  · rw [hdeclared, LexerSpec.declared, LexerDecl.unplaced]
    simp

end GrammarEngine.UnitDecl

import GrammarEngine.Proofs.Compile.Linking

/-!
# The rules that a parser takes from its library

A parser that compiles has its own rules first and then the rules of the library that are reached
from them through names of which it has no rule itself. They come in the order in which the bodies
of the table name them first. Linking ends for every library, whether the parser compiles or not,
for the table has no room for more rules than the parser and the library have.
-/
namespace GrammarEngine.ParserDecl

variable {scope : Scope} {own rules linked : List ParserRuleDecl} {names : List String}
  {name : String}

/-- A name that is reached from a parser's own rules through rules of the library, if an own rule of
that name does not stand before it. -/
inductive Needed (scope : Scope) (own : List ParserRuleDecl) : String → Prop
  | own {r : ParserRuleDecl} {name : String} : r ∈ own → name ∈ r.body.invoked →
      name ∉ own.map ParserRuleDecl.name → Needed scope own name
  | library {r : ParserRuleDecl} {name other : String} : Needed scope own other →
      libraryRule? scope other = some r → name ∈ r.body.invoked →
      name ∉ own.map ParserRuleDecl.name → Needed scope own name

/-- The rules behind a parser's own ones are exactly those of the library that are needed, each once
and in the order in which the rules of the table name them first. -/
structure IsClosure (scope : Scope) (own linked : List ParserRuleDecl) : Prop where
  nodup : ((own ++ linked).map ParserRuleDecl.name).Nodup
  library : ∀ r ∈ linked, libraryRule? scope r.name = some r
  needed : ∀ name, name ∈ linked.map ParserRuleDecl.name ↔ Needed scope own name
  order : linked.map ParserRuleDecl.name =
    (((own ++ linked).flatMap fun r => r.body.invoked).filter
      fun name => name ∉ own.map ParserRuleDecl.name).eraseDups

/-- A rule number stands for the rule of a name. Numbers are words, so it tells the place itself as
long as the places are words. -/
def Denotes (table : List ParserRuleDecl) (name : String) (index : UInt32) : Prop :=
  ∃ i r, table[i]? = some r ∧ r.name = name ∧ index = UInt32.ofNat i ∧
    (table.length ≤ 2 ^ 32 → index.toNat = i)

/-- A body is what lowering makes of a rule in the finished table, and its rule numbers stand for
the rules that the rule invokes, in order. -/
structure IsBody (scope : Scope) (table : List ParserRuleDecl) (r : ParserRuleDecl) (b : RuleBody) :
    Prop where
  lowered : (lowerBody scope r.body).run.run table = (.ok b, table)
  denotes : List.Forall₂ (Denotes table) r.body.invoked b.ruleRefs

theorem Numbered.denotes {table : List ParserRuleDecl} {index : UInt32}
    (h : Numbered table name index) : Denotes table name index := by
  obtain ⟨i, hi, hindex⟩ := h
  obtain ⟨r, hr, hname⟩ := name_of_indexOf? hi
  have hlt := indexOf?_lt hi
  refine ⟨i, r, hr, hname, hindex, fun hwords => ?_⟩
  rw [hindex, Automaton.toNat_address (by omega)]

theorem Denotes.mem {table : List ParserRuleDecl} {index : UInt32} (h : Denotes table name index) :
    name ∈ table.map ParserRuleDecl.name := by
  obtain ⟨i, r, hr, rfl, -⟩ := h
  exact List.mem_map_of_mem (List.mem_of_getElem? hr)

theorem LoweredIn.isBody {table : List ParserRuleDecl} {r : ParserRuleDecl} {b : RuleBody}
    (h : LoweredIn scope table r b) : IsBody scope table r b where
  lowered := h.lowered
  denotes := h.numbered.imp fun _ _ hnumbered => hnumbered.denotes

theorem IsBody.mem_of_invoked {table : List ParserRuleDecl} {r : ParserRuleDecl} {b : RuleBody}
    (h : IsBody scope table r b) (hname : name ∈ r.body.invoked) :
    name ∈ table.map ParserRuleDecl.name := by
  obtain ⟨index, -, hdenotes⟩ := exists_of_mem_right h.denotes.flip hname
  exact Denotes.mem hdenotes

/-! ## Rules that are needed -/

/-- A parser's own rules, followed by rules of its library that are needed. -/
structure Supplied (scope : Scope) (own rules : List ParserRuleDecl) : Prop where
  own_first : own <+: rules
  supplied : ∀ r ∈ rules, r ∈ own ∨ Needed scope own r.name ∧ libraryRule? scope r.name = some r

theorem supplied_own (scope : Scope) (own : List ParserRuleDecl) : Supplied scope own own where
  own_first := List.prefix_rfl
  supplied := fun _ hr => .inl hr

theorem Supplied.needed (h : Supplied scope own rules) {r : ParserRuleDecl} (hr : r ∈ rules)
    (hname : name ∈ r.body.invoked) (hforeign : name ∉ own.map ParserRuleDecl.name) :
    Needed scope own name := by
  rcases h.supplied r hr with hown | ⟨hneeded, hlibrary⟩
  · exact .own hown hname hforeign
  · exact .library hneeded hlibrary hname hforeign

theorem Supplied.concat {r : ParserRuleDecl} (h : Supplied scope own rules)
    (hneeded : Needed scope own name) (hr : libraryRule? scope name = some r) :
    Supplied scope own (rules ++ [r]) where
  own_first := h.own_first.trans (List.prefix_append rules [r])
  supplied := fun r' hr' => by
    rcases List.mem_append.mp hr' with hr' | hr'
    · exact h.supplied r' hr'
    · rw [List.mem_singleton.mp hr', name_of_libraryRule? hr]
      exact .inr ⟨hneeded, hr⟩

/-- Lowering a rule of the table appends only what its names need. -/
theorem Supplied.lowered (h : Supplied scope own rules) {r : ParserRuleDecl} (hr : r ∈ rules) :
    Supplied scope own ((lowerBody scope r.body).run.run rules).2 := by
  have hdemands : Demands scope r.body.invoked (lowerBody scope r.body) _ :=
    lowerBody_demands r.body
  obtain ⟨used, hused, hrules⟩ := hdemands.grows rules
  rw [hrules]
  apply demandAll_induction _ h
  intro rules' n r' hn hsupplied hnew hr'
  refine hsupplied.concat (h.needed hr (hused hn) fun hown => ?_) hr'
  have hmem := (hsupplied.own_first.map ParserRuleDecl.name).subset hown
  exact indexOf?_eq_none.mp hnew hmem

/-! ## The order of linked rules -/

/-- Every name is one of a rule that the table has or that the library can give. -/
def Suppliable (scope : Scope) (rules : List ParserRuleDecl) (names : List String) : Prop :=
  ∀ name ∈ names, name ∈ rules.map ParserRuleDecl.name ∨ ∃ r, libraryRule? scope name = some r

/-- The names of a table to which the rules behind names have been appended. A name that is appended
is known from then on, so later ones of its kind are dropped. -/
theorem map_name_demandAll (h : Suppliable scope rules names) :
    (demandAll scope rules names).map ParserRuleDecl.name = rules.map ParserRuleDecl.name ++
      (names.filter fun name => name ∉ rules.map ParserRuleDecl.name).eraseDups := by
  induction names generalizing rules with
  | nil => exact (List.append_nil _).symm
  | cons first rest ih =>
      have hrest : Suppliable scope rules rest :=
        fun name hname => h name (List.mem_cons_of_mem first hname)
      rw [demandAll_cons]
      by_cases hknown : first ∈ rules.map ParserRuleDecl.name
      · obtain ⟨i, hi⟩ := exists_indexOf? hknown
        rw [demand_eq_self hi, ih hrest, List.filter_cons_of_neg (by simpa using hknown)]
      · obtain ⟨r, hr⟩ := (h first List.mem_cons_self).resolve_left hknown
        have hname := name_of_libraryRule? hr
        have hgrown : Suppliable scope (rules ++ [r]) rest := by
          intro name hname
          rw [List.map_append]
          exact (hrest name hname).imp_left (List.mem_append_left _)
        have hfilter : (rest.filter fun name => name ∉ (rules ++ [r]).map ParserRuleDecl.name) =
            (rest.filter fun name => name ∉ rules.map ParserRuleDecl.name).filter
              fun name => !name == first := by
          rw [List.filter_filter]
          apply List.filter_congr
          intro name _
          rw [← hname, Bool.eq_iff_iff]
          simp only [List.map_append, List.map_cons, List.map_nil, List.mem_append,
            List.mem_singleton, Bool.and_eq_true, decide_eq_true_eq, Bool.not_eq_true',
            beq_eq_false_iff_ne]
          tauto
        rw [demand_eq_concat (indexOf?_eq_none.mpr hknown) hr, ih hgrown, hfilter,
          List.filter_cons_of_pos (by simpa using hknown), List.eraseDups_cons, List.map_append,
          List.append_assoc]
        congr 1
        rw [List.map_singleton, hname, List.singleton_append]

/-! ## Parsers that compile -/

theorem nodup_names_of_compile {d : ParserDecl} {index : UnitIndex} {images : NamedImages}
    (h : d.compile index = .ok images) : (d.rules.map ParserRuleDecl.name).Nodup := by
  have hrepeated : duplicates "rule" [] (d.rules.map fun r => ⟨r.name, r.position⟩) = [] := by
    simp only [compile] at h
    split at h
    · cases h
    · split at h
      · cases h
      · split at h
        next results rules hrun =>
        split at h
        · next start hstart hfaults => exact (List.append_eq_nil_iff.mp hfaults).1
        · cases h
        · cases h
  have hnodup := (nodup_of_duplicates hrepeated).1
  rwa [List.map_map] at hnodup

theorem ruleImages_eq_mapIdx (unit : String) (index : Nat) (rules : List ParserRuleDecl)
    (bodies : List RuleBody) :
    ruleImages unit index rules bodies = (rules.zip bodies).mapIdx fun i p =>
      (innerName unit p.1.name, .parserRule ⟨p.1.name, UInt32.ofNat (index + i), p.2⟩) := by
  induction rules generalizing index bodies with
  | nil => rfl
  | cons r rules ih =>
      cases bodies with
      | nil => rfl
      | cons b bodies =>
          rw [ruleImages, ih, List.zip_cons_cons, List.mapIdx_cons]
          simp only [Nat.add_zero, Nat.add_assoc, Nat.add_comm 1]

/-- Where all rules have been lowered, what was appended is the closure. -/
theorem exists_closure {bodies : List RuleBody} {bound : Nat}
    (hnodup : (own.map ParserRuleDecl.name).Nodup)
    (hrun : (lowerRules scope bound 0).run own = (bodies.map .ok, rules))
    (hbound : rules.length ≤ bound) :
    ∃ linked, rules = own ++ linked ∧ IsClosure scope own linked ∧
      List.Forall₂ (IsBody scope rules) rules bodies := by
  obtain ⟨hrules, hbodies⟩ := lowerRules_demands hrun (by omega)
  rw [List.drop_zero] at hrules hbodies
  have hall : List.Forall₂ (IsBody scope rules) rules bodies :=
    (hbodies []).imp fun _ _ h => h.isBody
  have hlinked : Linked scope own rules := by
    have hgrown := (linked_own scope own).concatAll (rules.flatMap fun r => r.body.invoked)
    rwa [← hrules] at hgrown
  have hsupplied : Supplied scope own rules := by
    have hfinal := lowerRules_induction (I := Supplied scope own)
      (fun _ _ hr h => h.lowered hr) bound 0 (supplied_own scope own)
    rwa [hrun] at hfinal
  have hinvoked : ∀ r ∈ rules, ∀ name ∈ r.body.invoked, name ∈ rules.map ParserRuleDecl.name := by
    intro r hr name hname
    obtain ⟨b, -, hb⟩ := exists_of_mem_right hall.flip hr
    exact hb.mem_of_invoked hname
  obtain ⟨linked, rfl⟩ := hlinked.own_first
  have hdistinct := hlinked.nodup
  rw [List.drop_left] at hdistinct
  have hsuppliable : Suppliable scope own ((own ++ linked).flatMap fun r => r.body.invoked) := by
    intro name hname
    obtain ⟨r, hr, hname⟩ := List.mem_flatMap.mp hname
    obtain ⟨r', hr', rfl⟩ := List.mem_map.mp (hinvoked r hr name hname)
    rcases hsupplied.supplied r' hr' with hown | ⟨-, hlibrary⟩
    · exact .inl (List.mem_map_of_mem hown)
    · exact .inr ⟨r', hlibrary⟩
  have horder : linked.map ParserRuleDecl.name =
      (((own ++ linked).flatMap fun r => r.body.invoked).filter
        fun name => name ∉ own.map ParserRuleDecl.name).eraseDups := by
    have hnames := congrArg (List.map ParserRuleDecl.name) hrules
    rw [map_name_demandAll hsuppliable, List.map_append] at hnames
    exact List.append_cancel_left hnames
  have hmem (name : String) : name ∈ linked.map ParserRuleDecl.name ↔
      (∃ r ∈ own ++ linked, name ∈ r.body.invoked) ∧ name ∉ own.map ParserRuleDecl.name := by
    rw [horder, List.mem_eraseDups, List.mem_filter, List.mem_flatMap, decide_eq_true_iff]
  have hlibrary : ∀ r ∈ linked, Needed scope own r.name ∧ libraryRule? scope r.name = some r := by
    intro r hr
    have hforeign := ((hmem r.name).mp (List.mem_map_of_mem hr)).2
    apply (hsupplied.supplied r (List.mem_append_right own hr)).resolve_left
    exact fun hown => hforeign (List.mem_map_of_mem hown)
  refine ⟨linked, rfl, ⟨?_, fun r hr => (hlibrary r hr).2, fun name => ⟨?_, ?_⟩, horder⟩, hall⟩
  · rw [List.map_append]
    apply List.Nodup.append hnodup hdistinct
    intro name hown hin
    exact ((hmem name).mp hin).2 hown
  · intro hin
    obtain ⟨r, hr, rfl⟩ := List.mem_map.mp hin
    exact (hlibrary r hr).1
  · intro hneeded
    induction hneeded with
    | own hr hname hforeign =>
        exact (hmem _).mpr ⟨⟨_, List.mem_append_left linked hr, hname⟩, hforeign⟩
    | library _ hfound hname hforeign ih =>
        obtain ⟨r, hr, rfl⟩ := List.mem_map.mp ih
        rw [(hlibrary r hr).2] at hfound
        cases hfound
        exact (hmem _).mpr ⟨⟨_, List.mem_append_right own hr, hname⟩, hforeign⟩

/-- The images of a parser are those of a closed table, in order. -/
theorem exists_linked_of_compile {d : ParserDecl} {index : UnitIndex} {images : NamedImages}
    (h : d.compile index = .ok images) : ∃ lexer library linked bodies start,
      d.vocabularyLexer index = .ok lexer ∧ baseLibrary d.base index = .ok library ∧
      IsClosure ⟨lexer.tokens, library⟩ d.rules linked ∧
      List.Forall₂ (IsBody ⟨lexer.tokens, library⟩ (d.rules ++ linked)) (d.rules ++ linked) bodies ∧
      d.startRule (d.rules ++ linked) = .ok start ∧
      images = (d.name, .parserHeader (d.header (d.rules ++ linked) start)) ::
        ((d.rules ++ linked).zip bodies).mapIdx fun i p =>
          (innerName d.name p.1.name, .parserRule ⟨p.1.name, UInt32.ofNat i, p.2⟩) := by
  obtain ⟨lexer, library, bodies, rules, start, hlexer, hlibrary, -, hrun, hstart, hlength,
    rfl⟩ := compile_bodies h
  have hnodup := nodup_names_of_compile h
  have hlinked : Linked ⟨lexer.tokens, library⟩ d.rules rules :=
    (lowerRules_links (linked_own _ _) (Nat.zero_le _) hrun).2.1
  have hbound : rules.length ≤ d.ruleBound library := hlinked.length_le
  obtain ⟨linked, rfl, hclosure, hbodies⟩ := exists_closure hnodup hrun hbound
  refine ⟨lexer, library, linked, bodies, start, hlexer, hlibrary, hclosure, hbodies, hstart, ?_⟩
  rw [ruleImages_eq_mapIdx]
  simp only [Nat.zero_add]

/-- Linking ends for every library, and lowers each rule of the table that it leaves. If a parser
compiles, its table is closed: its own rules and the library rules that these need, every rule
number of a body stands for the rule that is invoked there, and the images line up with the table.
-/
theorem linked_exact (d : ParserDecl) (index : UnitIndex) :
    (∀ tokens library bound, d.ruleBound library ≤ bound →
      (lowerRules ⟨tokens, library⟩ bound 0).run d.rules =
          (lowerRules ⟨tokens, library⟩ (d.ruleBound library) 0).run d.rules ∧
        ((lowerRules ⟨tokens, library⟩ bound 0).run d.rules).1.length =
          ((lowerRules ⟨tokens, library⟩ bound 0).run d.rules).2.length) ∧
    ∀ images, d.compile index = .ok images → ∃ lexer library linked bodies start,
      d.vocabularyLexer index = .ok lexer ∧ baseLibrary d.base index = .ok library ∧
      IsClosure ⟨lexer.tokens, library⟩ d.rules linked ∧
      List.Forall₂ (IsBody ⟨lexer.tokens, library⟩ (d.rules ++ linked)) (d.rules ++ linked) bodies ∧
      d.startRule (d.rules ++ linked) = .ok start ∧
      images = (d.name, .parserHeader (d.header (d.rules ++ linked) start)) ::
        ((d.rules ++ linked).zip bodies).mapIdx fun i p =>
          (innerName d.name p.1.name, .parserRule ⟨p.1.name, UInt32.ofNat i, p.2⟩) := by
  refine ⟨fun tokens library bound hbound => ?_, fun images himages => ?_⟩
  · have hlinked := linked_own ⟨tokens, library⟩ d.rules
    have hroom : d.rules.length + (library.elim 0 fun l => l.rules.length) ≤ 0 + bound := by
      rwa [Nat.zero_add]
    have hroom' : d.rules.length + (library.elim 0 fun l => l.rules.length) ≤
        0 + d.ruleBound library := by
      rw [Nat.zero_add]
      rfl
    obtain ⟨hsame, hcount⟩ := hlinked.lowerRules_eq (Nat.zero_le _) hroom hroom'
    rw [Nat.zero_add] at hcount
    exact ⟨hsame, hcount⟩
  · exact exists_linked_of_compile himages

def wordsLexer : LexerDecl where
  name := "Words"
  position := .unknown
  tokens := [⟨1, "WORD", none⟩, ⟨2, "COMMA", some ","⟩]

/-- Lists hold pairs and pairs hold lists; nothing leads to the last rule. -/
def listLibrary : LibraryDecl where
  name := "Lists"
  position := .unknown
  rules := [⟨"pair", .unknown, .plain [[.token "WORD" .unknown], [.invoke "list" 0 .unknown]]⟩,
    ⟨"separator", .unknown, .plain [[]]⟩,
    ⟨"list", .unknown, .plain [[.invoke "pair" 0 .unknown, .invoke "separator" 0 .unknown,
      .invoke "list" 0 .unknown]]⟩,
    ⟨"table", .unknown, .plain [[.invoke "list" 0 .unknown]]⟩]

/-- A parser with a separator of its own. -/
def valuesParser : ParserDecl where
  name := "Values"
  position := .unknown
  grammar := "Values"
  vocabulary := ⟨"Words", .unknown⟩
  base := some ⟨"Lists", .unknown⟩
  start := none
  rules := [⟨"value", .unknown, .plain [[.invoke "list" 0 .unknown]]⟩,
    ⟨"separator", .unknown, .plain [[.token "COMMA" .unknown]]⟩]

def valuesIndex : UnitIndex := [.lexer wordsLexer, .library listLibrary, .parser valuesParser]

def valuesImages : NamedImages :=
  [("Values", .parserHeader ⟨"Values", "Values", "Words", ["value", "separator", "list", "pair"],
      ["Values$value", "Values$separator", "Values$list", "Values$pair"], 0⟩),
    ("Values$value", .parserRule ⟨"value", 0, .plain (.rule 2 0)⟩),
    ("Values$separator", .parserRule ⟨"separator", 1, .plain (.token 2)⟩),
    ("Values$list", .parserRule ⟨"list", 2, .plain (.seq [.rule 3 0, .rule 1 0, .rule 2 0])⟩),
    ("Values$pair", .parserRule ⟨"pair", 3, .plain (.choice [.token 1, .rule 2 0])⟩)]

/-- The separator of lists is the one of the parser, and the two rules that name each other are
taken once. -/
theorem valuesParser_linked :
    valuesParser.ruleBound (some listLibrary) ≤ 9 ∧
      ((lowerRules ⟨wordsLexer.tokens, some listLibrary⟩ 9 0).run valuesParser.rules).1.length =
        ((lowerRules ⟨wordsLexer.tokens, some listLibrary⟩ 9 0).run valuesParser.rules).2.length ∧
      valuesParser.compile valuesIndex = .ok valuesImages ∧
      ∃ linked, IsClosure ⟨wordsLexer.tokens, some listLibrary⟩ valuesParser.rules linked ∧
        linked.map ParserRuleDecl.name = ["list", "pair"] := by
  have hexact := linked_exact valuesParser valuesIndex
  have hbound : valuesParser.ruleBound (some listLibrary) ≤ 9 := by decide
  have hcompile : valuesParser.compile valuesIndex = .ok valuesImages := rfl
  obtain ⟨lexer, library, linked, bodies, start, hlexer, hlibrary, hclosure, -, -, himages⟩ :=
    hexact.2 valuesImages hcompile
  have hlexer' : wordsLexer = lexer := Except.ok.inj hlexer
  have hlibrary' : some listLibrary = library := Except.ok.inj hlibrary
  subst hlexer' hlibrary'
  have hheader := (Prod.mk.inj (List.cons.inj himages).1).2
  have hnames : ["value", "separator", "list", "pair"] =
      (valuesParser.rules ++ linked).map ParserRuleDecl.name :=
    congrArg ParserHeader.ruleNames (UnitImage.parserHeader.inj hheader)
  have htail : ["list", "pair"] = linked.map ParserRuleDecl.name :=
    congrArg (List.drop 2) hnames
  exact ⟨hbound, (hexact.1 _ _ 9 hbound).2, hcompile, linked, hclosure, htail.symm⟩

end GrammarEngine.ParserDecl

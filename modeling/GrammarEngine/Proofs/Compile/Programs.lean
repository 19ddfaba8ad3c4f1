import GrammarEngine.Proofs.Compile.Edges

/-!
# Programs of compiled parsers

A program holds the bodies of rule images by their numbers. The images of a parser that extends no
library are those of its own rules in order, so its program is bounded by the rules that the parser
was declared from.
-/
namespace GrammarEngine

namespace ParserDecl

open GrammarEngine.Parser LeftRecursion

variable {scope : Scope} {rules rules' : List ParserRuleDecl} {specs : List ParserRuleSpec}
  (bodies : Array RuleBody) (names : List String)

/-- A rule is lowered like the one that it was declared from, whose places are unknown. -/
theorem lowerBody_declared (h : Closed scope rules) {r : ParserRuleDecl} {spec : ParserRuleSpec}
    (hspec : r.unplaced = spec.declared) :
    Stays rules (lowerBody scope r.body) (BoundedBody bodies rules names spec) := by
  have hbody : r.body.unplaced = spec.declaredBody := congrArg ParserRuleDecl.body hspec
  exact (lowerBody_bounds h spec).of_same (hbody ▸ lowerBody_unplaced r.body)

/-- Without a library, the rules from a number on are lowered and none is appended. -/
theorem lowerRules_declared (h : Closed scope rules)
    (hspecs : rules.map ParserRuleDecl.unplaced = specs.map ParserRuleSpec.declared)
    {bound index : Nat} {found : List RuleBody}
    (hrun : (lowerRules scope bound index).run rules = (found.map .ok, rules')) :
    rules' = rules ∧ ∀ (i : Nat) body, found[i]? = some body →
      ∃ spec, specs[index + i]? = some spec ∧ BoundedBody bodies rules names spec body := by
  induction bound generalizing index found with
  | zero =>
      obtain ⟨hfound, rfl⟩ : [] = found.map Except.ok ∧ rules = rules' := Prod.mk.inj hrun
      obtain rfl := List.map_eq_nil_iff.mp hfound.symm
      exact ⟨rfl, fun i body hbody => by simp at hbody⟩
  | succ bound ih =>
      rw [run_lowerRules] at hrun
      cases hr : rules[index]? with
      | none =>
          rw [hr] at hrun
          obtain ⟨hfound, rfl⟩ : [] = found.map Except.ok ∧ rules = rules' := Prod.mk.inj hrun
          obtain rfl := List.map_eq_nil_iff.mp hfound.symm
          exact ⟨rfl, fun i body hbody => by simp at hbody⟩
      | some r =>
          rw [hr] at hrun
          obtain ⟨hfound, hothers⟩ := Prod.mk.inj hrun
          obtain ⟨first, rest, rfl, hfirst, hrest⟩ := List.map_eq_cons_iff.mp hfound.symm
          obtain ⟨spec, hspec, hdeclared⟩ :
              ∃ spec, specs[index]? = some spec ∧ r.unplaced = spec.declared := by
            have hget := congrArg (·[index]?) hspecs
            simp only [List.getElem?_map, hr, Option.map_some] at hget
            obtain ⟨spec, hspec, hdeclared⟩ := Option.map_eq_some_iff.mp hget.symm
            exact ⟨spec, hspec, hdeclared.symm⟩
          have hlowered : Stays rules (lowerBody scope r.body)
              (BoundedBody bodies rules names spec) := lowerBody_declared bodies names h hdeclared
          obtain ⟨hsame, hbounded⟩ : ((lowerBody scope r.body).run.run rules).2 = rules ∧ _ :=
            hlowered first _ (Prod.ext hfirst.symm rfl)
          rw [hsame] at hothers hrest
          obtain ⟨hrules, hbodies⟩ := ih (Prod.ext hrest.symm hothers)
          refine ⟨hrules, fun i body hbody => ?_⟩
          cases i with
          | zero =>
              obtain rfl := Option.some.inj hbody
              exact ⟨spec, hspec, hbounded⟩
          | succ i =>
              obtain ⟨next, hnext, hbody⟩ := hbodies i body hbody
              exact ⟨next, by rwa [Nat.add_right_comm] at hnext, hbody⟩

/-- The images that a parser compiles to hold what its rules, and those that linking appends, are
lowered to, numbered from zero on. -/
theorem compile_images {d : ParserDecl} {index : UnitIndex} {header : ParserHeader}
    {images : List ParserRuleImage} (h : d.compile index = .ok ((d.name, .parserHeader header) ::
      images.map fun r => (innerName d.name r.name, .parserRule r))) :
    ∃ (lexer : LexerDecl) (library : Option LibraryDecl) (rules : List ParserRuleDecl),
      baseLibrary d.base index = .ok library ∧
      (lowerRules ⟨lexer.tokens, library⟩ (d.ruleBound library) 0).run d.rules =
        ((images.map ParserRuleImage.body).map .ok, rules) ∧
      header.name = d.name ∧ header.ruleNames.length = rules.length ∧
      images.length = rules.length ∧
      images.map ParserRuleImage.index = (List.range' 0 images.length).map UInt32.ofNat := by
  obtain ⟨lexer, library, bodies, rules, start, -, hlibrary, -, hrun, -, hlength, himages⟩ :=
    compile_bodies h
  obtain ⟨hheader, hrules⟩ := List.cons.inj himages
  cases hheader
  obtain ⟨made, hmade, -, hbodies, hindices⟩ := ruleImages_eq_map d.name 0 hlength
  have hsame : images = made := by
    refine List.map_injective_iff.mpr (fun r r' he => ?_) (hrules.trans hmade)
    exact UnitImage.parserRule.inj (Prod.mk.inj he).2
  subst hsame
  have hcount : images.length = rules.length := by
    rw [← hlength, ← hbodies, List.length_map]
  refine ⟨lexer, library, rules, hlibrary, hbodies ▸ hrun, rfl, List.length_map _, hcount, ?_⟩
  rw [hindices, hcount]

/-- A parser that was declared from one without a base extends no library. -/
theorem library_eq_none {d : ParserDecl} {q : ParserSpec} {index : UnitIndex}
    {library : Option LibraryDecl} (hd : d.unplaced = q.declared) (hbase : q.extends = none)
    (h : baseLibrary d.base index = .ok library) : library = none := by
  have hnone : d.base = none := by
    have hmap : d.base.map NameAt.unplaced = q.extends.map fun base => ⟨base, {}⟩ :=
      congrArg ParserDecl.base hd
    rw [hbase] at hmap
    exact Option.map_eq_none_iff.mp hmap
  rw [hnone] at h
  exact (Except.ok.inj h).symm

end ParserDecl

namespace ParserProgram

variable {header : ParserHeader} {images : List ParserRuleImage} {bodies : List RuleBody}

theorem body?_of_loadBodies (h : loadBodies header images = .ok bodies) {i : Nat} {body : RuleBody}
    (hbody : bodies[i]? = some body) : body? images i = some body := by
  unfold loadBodies at h
  split at h
  · cases h
  · obtain ⟨_, -, h⟩ := bind_eq_ok.mp h
    have hrequired := mapM_eq_ok.mp h
    obtain ⟨hi, rfl⟩ := List.getElem?_eq_some_iff.mp hbody
    have hstep := hrequired.get (hrequired.length_eq ▸ hi) hi
    simp only [List.get_eq_getElem, List.getElem_zipIdx, requireBody, Nat.zero_add] at hstep
    split at hstep
    · next found hfound => rw [hfound, Except.ok.inj hstep]
    · cases hstep

theorem length_of_loadBodies (h : loadBodies header images = .ok bodies) :
    bodies.length = header.ruleNames.length := by
  unfold loadBodies at h
  split at h
  · cases h
  · obtain ⟨_, -, h⟩ := bind_eq_ok.mp h
    rw [← (mapM_eq_ok.mp h).length_eq, List.length_zipIdx]

/-- Images that bear the numbers of their places give their bodies in order. -/
theorem getElem?_of_loadBodies (h : loadBodies header images = .ok bodies)
    (hwords : images.length ≤ 2 ^ 32)
    (hindices : images.map ParserRuleImage.index =
      (List.range' 0 images.length).map UInt32.ofNat) {i : Nat} {body : RuleBody}
    (hbody : bodies[i]? = some body) : (images.map ParserRuleImage.body)[i]? = some body := by
  obtain ⟨r, hr, rfl⟩ := Option.map_eq_some_iff.mp (body?_of_loadBodies h hbody)
  obtain ⟨j, hj, rfl⟩ := List.mem_iff_getElem.mp
    (List.mem_reverse.mp (List.mem_of_find?_eq_some hr))
  have hnumber : images[j].index.toNat = i := by simpa using List.find?_some hr
  rw [ParserDecl.toNat_index hwords hindices hj] at hnumber
  rw [← hnumber, List.getElem?_map, List.getElem?_eq_getElem hj]
  rfl

/-- A program that is taken over from the images of a declared parser. -/
def LoadedFrom (index : UnitIndex) (d : ParserDecl) (p : ParserProgram) : Prop :=
  ∃ header images vocabulary, d.compile index = .ok ((d.name, .parserHeader header) ::
      images.map fun r => (innerName d.name r.name, .parserRule r)) ∧
    header.ruleNames.length ≤ 2 ^ 32 ∧ ofImages header vocabulary images = .ok p

theorem ofImages_cases {vocabulary : Vocabulary} {p : ParserProgram}
    (h : ofImages header vocabulary images = .ok p) :
    ∃ bodies, loadBodies header images = .ok bodies ∧ p.bodies = bodies.toArray ∧
      p.name = header.name := by
  unfold ofImages at h
  split at h
  · cases h
  · next bodies hbodies =>
    obtain rfl := Except.ok.inj h
    exact ⟨bodies, hbodies, rfl, rfl⟩

variable {index : UnitIndex} {d : ParserDecl} {p : ParserProgram}

theorem LoadedFrom.name (h : LoadedFrom index d p) : p.name = d.name := by
  obtain ⟨header, images, vocabulary, hcompile, -, hp⟩ := h
  obtain ⟨_, _, _, -, -, hheader, -⟩ := ParserDecl.compile_images hcompile
  obtain ⟨_, -, -, hname⟩ := ofImages_cases hp
  exact hname.trans hheader

/-- The program of a parser that extends no library is bounded by the rules it was declared from. -/
theorem LoadedFrom.bounded {q : ParserSpec} (h : LoadedFrom index d p)
    (hd : d.unplaced = q.declared) (hbase : q.extends = none) :
    ParserDecl.BoundedBodies p.bodies d.rules q.rules := by
  obtain ⟨header, images, vocabulary, hcompile, hwords, hp⟩ := h
  obtain ⟨lexer, library, rules, hlibrary, hrun, -, hnumbers, hcount, hindices⟩ :=
    ParserDecl.compile_images hcompile
  obtain ⟨loaded, hloaded, hprogram, -⟩ := ofImages_cases hp
  obtain rfl := ParserDecl.library_eq_none hd hbase hlibrary
  rw [hnumbers] at hwords
  have hown := ParserDecl.linked_own ⟨lexer.tokens, none⟩ d.rules
  have hgrown := (ParserDecl.lowerRules_links hown (Nat.zero_le _) hrun).1
  have hclosed : ParserDecl.Closed ⟨lexer.tokens, none⟩ d.rules :=
    ⟨rfl, Nat.le_trans hgrown.length_le hwords⟩
  have hspecs : d.rules.map ParserRuleDecl.unplaced = q.rules.map ParserRuleSpec.declared :=
    congrArg ParserDecl.rules hd
  refine ⟨?_, fun i body hbody => ?_⟩
  · have hnames := congrArg (List.map ParserRuleDecl.name) hspecs
    rw [List.map_map, List.map_map] at hnames
    exact hnames
  · rw [hprogram, List.getElem?_toArray] at hbody
    have hlowered := getElem?_of_loadBodies hloaded (hcount ▸ hwords) hindices hbody
    have hbounded := (ParserDecl.lowerRules_declared p.bodies
      (LeftRecursion.nullableRules q.rules) hclosed hspecs hrun).2 i body hlowered
    rwa [Nat.zero_add] at hbounded

end ParserProgram

end GrammarEngine
